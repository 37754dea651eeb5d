import SdnQuagga.BestChoice
import SdnQuagga.OspfPacket

/-!
# The election of the designated router

`ospf_dr_election` of `ospfd/ospf_ism.c` and the functions below it. Every router elects for
itself, from what all routers of the network declare. Its own declaration is that of `nbr_self`,
one of the neighbors in its table: there an election leaves its result, and there the second
election, which is held if the first one changes the router's own role, finds it.

A state of the network is stable if no router's election changes what it declares. A router that
goes through a second election then comes out with the result of the first.
-/

namespace SdnQuagga

open List Function

/-! ## The election -/

/-- `struct ospf_neighbor`, what it declares. Addresses are numbers, so that `memcmp` compares
them by `<`. -/
structure DrNbr where
  routerId : UInt32
  address : UInt32
  priority : UInt8
  dRouter : UInt32
  bdRouter : UInt32
deriving DecidableEq, Repr

def nbrIsDr (nbr : DrNbr) : Bool := nbr.address = nbr.dRouter

def nbrIsBdr (nbr : DrNbr) : Bool := nbr.address = nbr.bdRouter

/-- `nbr` takes the place of `max` in `ospf_dr_election_sub`. -/
def drBetter (nbr max : DrNbr) : Bool :=
  if max.priority < nbr.priority then true
  else if max.priority = nbr.priority then max.routerId < nbr.routerId
  else false

def ospfDrElectionSub : List DrNbr → Option DrNbr
  | [] => none
  | nbr :: routers => some (scanBest drBetter nbr routers)

/-- `state >= NSM_TwoWay`. -/
def NsmState.atLeastTwoWay : NsmState → Bool
  | dependUpon | deleted | down | attempt | init => false
  | _ => true

/-- `state < ISM_DROther`. -/
def IsmState.belowDrOther : IsmState → Bool
  | drOther | backup | dr => false
  | _ => true

/-- `struct ospf_interface`. The neighbor table is what stands `before` and `after` `nbr_self`,
whose own state is always `NSM_TwoWay`. -/
structure DrIf where
  routerId : UInt32
  address : UInt32
  state : IsmState
  before : List (DrNbr × NsmState)
  nbrSelf : DrNbr
  after : List (DrNbr × NsmState)

variable (oi : DrIf)

def DrIf.nbrs : List (DrNbr × NsmState) :=
  oi.before ++ (oi.nbrSelf, .twoWay) :: oi.after

/-- The conditions of `ospf_dr_eligible_routers`. -/
def drEligible (entry : DrNbr × NsmState) : Bool :=
  entry.1.routerId ≠ 0 && entry.1.priority > 0 && entry.2.atLeastTwoWay

def ospfDrEligibleRouters (nbrs : List (DrNbr × NsmState)) : List DrNbr :=
  (nbrs.filter drEligible).map Prod.fst

variable (elList : List DrNbr)

/-- The choice of `ospf_elect_bdr`. -/
def bdrOf : Option DrNbr :=
  let noDrList := elList.filter (!nbrIsDr ·)
  let bdrList := elList.filter fun nbr => !nbrIsDr nbr && nbrIsBdr nbr
  if bdrList.length > 0 then ospfDrElectionSub bdrList else ospfDrElectionSub noDrList

/-- The choice of `ospf_elect_dr`; `bdr` is `BDR (oi)`. -/
def drOf (bdr : UInt32) : Option DrNbr :=
  let drList := elList.filter nbrIsDr
  if drList.length > 0 then ospfDrElectionSub drList
  else (elList.filter (·.address = bdr)).getLast?

/-- The address of the router that was elected, 0.0.0.0 if there is none. -/
def electedAddress (nbr : Option DrNbr) : UInt32 := nbr.elim 0 DrNbr.address

@[simp] theorem electedAddress_some (nbr : DrNbr) : electedAddress (some nbr) = nbr.address := rfl

/-- `ospf_elect_bdr`. The list of the eligible routers holds pointers, so what it says about
`nbr_self` is what the last election has left there. -/
def ospfElectBdr : DrIf :=
  { oi with nbrSelf := { oi.nbrSelf with
    bdRouter := electedAddress (bdrOf (ospfDrEligibleRouters oi.nbrs)) } }

def ospfElectDr : DrIf :=
  { oi with nbrSelf := { oi.nbrSelf with
    dRouter := electedAddress (drOf (ospfDrEligibleRouters oi.nbrs) oi.nbrSelf.bdRouter) } }

def ospfIsmState : IsmState :=
  if oi.nbrSelf.dRouter = oi.address then .dr
  else if oi.nbrSelf.bdRouter = oi.address then .backup
  else .drOther

/-- `ospf_dr_change`: the neighbors for which `NSM_AdjOK` is scheduled. -/
def ospfDrChange : List DrNbr :=
  (oi.nbrs.filter fun (nbr, state) =>
    nbr.routerId ≠ 0 && state.atLeastTwoWay && nbr.routerId ≠ oi.routerId).map Prod.fst

/-- `ospf_dr_election`: the interface, the new state and the neighbors to be told. -/
def ospfDrElection : DrIf × IsmState × List DrNbr :=
  let first := ospfElectDr (ospfElectBdr oi)
  let newState := ospfIsmState first
  let last := if newState ≠ oi.state ∧ ¬ (newState = .drOther ∧ oi.state.belowDrOther) then
    ospfElectDr (ospfElectBdr first) else first
  (last, ospfIsmState last,
    if oi.nbrSelf.dRouter ≠ last.nbrSelf.dRouter ∨ oi.nbrSelf.bdRouter ≠ last.nbrSelf.bdRouter then
      ospfDrChange last
    else [])

/-! ## The network -/

/-- A router of the network: what it declares, and the state of its interface. -/
structure DrRouter extends DrNbr where
  state : IsmState
deriving DecidableEq, Repr

/-- Routers in the order of their addresses, that of every neighbor table. `nsm r n` is the state
of the neighbor `n` at `r`. -/
structure DrNetwork where
  routers : List DrRouter
  nsm : UInt32 → UInt32 → NsmState
  ids : (routers.map (·.routerId)).Nodup
  addresses : (routers.map (·.address)).Nodup
  nonzero : ∀ r ∈ routers, r.routerId ≠ 0 ∧ r.address ≠ 0
  twoWay : ∀ r ∈ routers, ∀ n ∈ routers, (nsm r.address n.address).atLeastTwoWay

namespace DrNetwork

variable (net : DrNetwork)

/-- The interface of the router at place `i`. -/
def interface (i : Fin net.routers.length) : DrIf :=
  let r := net.routers[i]
  let seen (n : DrRouter) := (n.toDrNbr, net.nsm r.address n.address)
  { routerId := r.routerId
    address := r.address
    state := r.state
    before := (net.routers.take i).map seen
    nbrSelf := r.toDrNbr
    after := (net.routers.drop (i + 1)).map seen }

/-- What every router declares, and the state of its interface, is what it elects. -/
def Stable : Prop :=
  ∀ i : Fin net.routers.length, let elected := ospfDrElection (net.interface i)
    elected.1.nbrSelf = net.routers[i].toDrNbr ∧ elected.2.1 = net.routers[i].state

instance : Decidable net.Stable := inferInstanceAs (Decidable (∀ _, _))

/-- The routers that can be elected. -/
def eligible : List DrNbr :=
  (net.routers.map DrRouter.toDrNbr).filter (0 < ·.priority)

end DrNetwork

/-! ## Winning an election -/

section

variable {el : List DrNbr} {P Q : DrNbr → Bool} {m : DrNbr}

/-- The place in the order of `ospf_dr_election_sub`, least first. -/
def drKey (nbr : DrNbr) : Int := -(nbr.priority.toNat * 2 ^ 32 + nbr.routerId.toNat)

theorem drBetter_orders (hids : (el.map DrNbr.routerId).Nodup) :
    OrdersBy drBetter drKey {n | n ∈ el} := by
  constructor
  · intro a ha b hb hky
    have hlta := a.routerId.toNat_lt
    have hltb := b.routerId.toNat_lt
    rw [drKey, drKey] at hky
    exact inj_on_of_nodup_map hids ha hb (UInt32.toNat_inj.mp (by omega))
  · intro a ha b hb hne
    have hid : a.routerId.toNat ≠ b.routerId.toNat := fun heq =>
      hne (inj_on_of_nodup_map hids ha hb (UInt32.toNat_inj.mp heq))
    have hlta := a.routerId.toNat_lt
    have hltb := b.routerId.toNat_lt
    rw [drBetter, drKey, drKey]
    simp only [UInt8.lt_iff_toNat_lt, UInt32.lt_iff_toNat_lt, ← UInt8.toNat_inj]
    split
    · simp only [true_iff]
      omega
    · split
      · simp only [decide_eq_true_eq]
        omega
      · simp only [Bool.false_eq_true, false_iff]
        omega

/-- The election among those of `el` with the property. -/
def winner (el : List DrNbr) (P : DrNbr → Bool) : Option DrNbr :=
  ospfDrElectionSub (el.filter P)

theorem winner_eq_none : winner el P = none ↔ ∀ n ∈ el, P n = false := by
  rw [winner]
  cases hel : el.filter P with
  | nil => simpa [ospfDrElectionSub] using hel
  | cons n ns =>
    have hn : n ∈ el.filter P := hel ▸ mem_cons_self
    obtain ⟨hmb, hp⟩ := mem_filter.mp hn
    simp only [ospfDrElectionSub, reduceCtorEq, false_iff]
    intro hal
    rw [hal n hmb] at hp
    cases hp

variable (hids : (el.map DrNbr.routerId).Nodup)

include hids

section

variable (hw : winner el P = some m)
include hw

theorem winner_isBest : IsBest drBetter {n | n ∈ el.filter P} m := by
  have hords := (drBetter_orders hids).subset
    (fun n hn => mem_of_mem_filter hn : {n | n ∈ el.filter P} ⊆ {n | n ∈ el})
  have hnd : (el.filter P).Nodup := (Nodup.of_map _ hids).filter P
  rw [winner] at hw
  cases hel : el.filter P with
  | nil =>
    rw [hel] at hw
    cases hw
  | cons n ns =>
    rw [hel] at hw hords hnd
    cases hw
    obtain ⟨hn, hnd⟩ := nodup_cons.mp hnd
    have hset : {x | x ∈ n :: ns} = {n} ∪ {x | x ∈ ns} := by
      ext x
      simp
    rw [hset] at hords ⊢
    refine hords.scanBest_isBest ⟨rfl, ?_⟩ ?_ hnd
    · rintro a rfl hne
      exact absurd rfl hne
    · rintro a ha rfl
      exact hn ha

theorem winner_mem : m ∈ el ∧ P m = true := mem_filter.mp (winner_isBest hids hw).1

/-- Who wins wins also against some of the others only. -/
theorem winner_eq_of (hm : Q m = true)
    (hsb : ∀ n ∈ el, Q n = true → P n = true ∨ n = m) : winner el Q = some m := by
  obtain ⟨hmb, hbe⟩ := winner_isBest hids hw
  have hmb := mem_of_mem_filter hmb
  have hords := (drBetter_orders hids).subset
    (fun n hn => mem_of_mem_filter hn : {n | n ∈ el.filter Q} ⊆ {n | n ∈ el})
  cases hq : winner el Q with
  | none => exact absurd (winner_eq_none.mp hq m hmb) (by simp [hm])
  | some m' =>
    refine congrArg some (hords.isBest_unique (winner_isBest hids hq) ⟨?_, ?_⟩)
    · exact mem_filter.mpr ⟨hmb, hm⟩
    · intro n hn hne
      obtain ⟨hn, hqn⟩ := mem_filter.mp hn
      rcases hsb n hn hqn with hp | rfl
      · exact hbe n (mem_filter.mpr ⟨hn, hp⟩) hne
      · exact absurd rfl hne

end

end

/-! ## One round -/

/-- The list of the eligible routers once the one at `a` declares `d` and `b`. -/
def redeclare (a d b : UInt32) (n : DrNbr) : DrNbr :=
  if n.address = a then { n with dRouter := d, bdRouter := b } else n

/-- `n` declares itself, the router at `a` declaring `d`. -/
def claimsDr (a d : UInt32) (n : DrNbr) : Bool :=
  n.address = if n.address = a then d else n.dRouter

def claimsBdr (a b : UInt32) (n : DrNbr) : Bool :=
  n.address = if n.address = a then b else n.bdRouter

section

variable (el : List DrNbr) (a d b : UInt32)

theorem redeclare_parts (n : DrNbr) : (redeclare a d b n).priority = n.priority
    ∧ (redeclare a d b n).routerId = n.routerId ∧ (redeclare a d b n).address = n.address
    ∧ nbrIsDr (redeclare a d b n) = claimsDr a d n
    ∧ nbrIsBdr (redeclare a d b n) = claimsBdr a b n := by
  by_cases h : n.address = a <;> simp [redeclare, nbrIsDr, nbrIsBdr, claimsDr, claimsBdr, h]

theorem electedAddress_redeclare (nbr : Option DrNbr) :
    electedAddress (nbr.map (redeclare a d b)) = electedAddress nbr := by
  cases nbr with
  | none => rfl
  | some n => exact (redeclare_parts a d b n).2.2.1

/-- An election among redeclared routers. -/
theorem winner_redeclare (P : DrNbr → Bool) : winner (el.map (redeclare a d b)) P
    = (winner el (P ∘ redeclare a d b)).map (redeclare a d b) := by
  have hbetter m n : drBetter (redeclare a d b m) (redeclare a d b n) = drBetter m n := by
    simp only [drBetter, redeclare_parts]
  rw [winner, winner, filter_map]
  cases el.filter (P ∘ redeclare a d b) with
  | nil => rfl
  | cons n ns => exact congrArg some (scanBest_map hbetter n ns)

theorem bdrOf_eq_or : bdrOf el = (winner el fun n => !nbrIsDr n && nbrIsBdr n).or
    (winner el (!nbrIsDr ·)) := by
  rw [bdrOf, winner, winner]
  cases el.filter fun n => !nbrIsDr n && nbrIsBdr n with
  | nil => rfl
  | cons n ns => rfl

theorem drOf_eq_or (x : UInt32) :
    drOf el x = (winner el nbrIsDr).or (el.filter (·.address = x)).getLast? := by
  rw [drOf, winner]
  cases el.filter nbrIsDr with
  | nil => rfl
  | cons n ns => rfl

theorem bdrOf_redeclare : electedAddress (bdrOf (el.map (redeclare a d b)))
    = electedAddress ((winner el fun n => !claimsDr a d n && claimsBdr a b n).or
      (winner el (!claimsDr a d ·))) := by
  rw [bdrOf_eq_or, winner_redeclare, winner_redeclare, ← Option.map_or, electedAddress_redeclare]
  simp only [comp_def, redeclare_parts]

theorem drOf_redeclare (x : UInt32) : electedAddress (drOf (el.map (redeclare a d b)) x)
    = electedAddress ((winner el (claimsDr a d)).or (el.filter (·.address = x)).getLast?) := by
  have hla : ((el.map (redeclare a d b)).filter (·.address = x)).getLast?
      = (el.filter (·.address = x)).getLast?.map (redeclare a d b) := by
    rw [filter_map, getLast?_map]
    simp only [comp_def, redeclare_parts]
  rw [drOf_eq_or, winner_redeclare, hla, ← Option.map_or, electedAddress_redeclare]
  simp only [comp_def, redeclare_parts]

end

/-! ## Every router's election -/

namespace DrNetwork

variable (net : DrNetwork)

/-- What one round leaves at the router at `a`, which goes into it with `d` and `b`. -/
def roundBdr (a d b : UInt32) : UInt32 :=
  electedAddress (bdrOf (net.eligible.map (redeclare a d b)))

def roundDr (a d b : UInt32) : UInt32 :=
  electedAddress (drOf (net.eligible.map (redeclare a d (net.roundBdr a d b))) (net.roundBdr a d b))

variable (i : Fin net.routers.length) (d b : UInt32)

/-- The interface of the router at place `i` with `d` and `b` at `nbr_self`. -/
def holding : DrIf :=
  { net.interface i with
    nbrSelf := { net.routers[i].toDrNbr with dRouter := d, bdRouter := b } }

variable {net}

theorem eq_of_address {m n : DrRouter} (hm : m ∈ net.routers) (hn : n ∈ net.routers)
    (h : m.address = n.address) : m = n :=
  inj_on_of_nodup_map net.addresses hm hn h

theorem mem_eligible {n : DrNbr} :
    n ∈ net.eligible ↔ 0 < n.priority ∧ ∃ r ∈ net.routers, r.toDrNbr = n := by
  simp [eligible, and_comm]

theorem eligible_ids : (net.eligible.map DrNbr.routerId).Nodup := by
  refine .sublist (filter_sublist.map _) ?_
  rw [map_map]
  exact net.ids

theorem eligible_eq_of_address {m n : DrNbr} (hm : m ∈ net.eligible) (hn : n ∈ net.eligible)
    (h : m.address = n.address) : m = n := by
  obtain ⟨-, r, hr, rfl⟩ := mem_eligible.mp hm
  obtain ⟨-, s, hs, rfl⟩ := mem_eligible.mp hn
  rw [eq_of_address hr hs h]

/-- The part of a neighbor table without `nbr_self`. -/
theorem eligible_others {r : DrRouter} (hr : r ∈ net.routers) (d b : UInt32) {l : List DrRouter}
    (hl : ∀ n ∈ l, n ∈ net.routers ∧ n.address ≠ r.address) :
    ospfDrEligibleRouters (l.map fun n => (n.toDrNbr, net.nsm r.address n.address))
      = ((l.map DrRouter.toDrNbr).filter (0 < ·.priority)).map (redeclare r.address d b) := by
  induction l with
  | nil => rfl
  | cons n l ih =>
    obtain ⟨⟨hn, hne⟩, hl⟩ := forall_mem_cons.mp hl
    have ih := ih hl
    rw [ospfDrEligibleRouters] at ih ⊢
    have hid := (net.nonzero n hn).1
    have hway := net.twoWay r hr n hn
    by_cases hprio : 0 < n.priority <;> simp [drEligible, hid, hway, hprio, ih, redeclare, hne]

theorem eligible_self {r : DrRouter} (hr : r ∈ net.routers) (d b : UInt32) :
    ospfDrEligibleRouters [({ r.toDrNbr with dRouter := d, bdRouter := b }, .twoWay)]
      = ([r.toDrNbr].filter (0 < ·.priority)).map (redeclare r.address d b) := by
  have hid := (net.nonzero r hr).1
  by_cases hprio : 0 < r.priority <;>
    simp [ospfDrEligibleRouters, drEligible, NsmState.atLeastTwoWay, hid, hprio, redeclare]

theorem eligible_holding :
    ospfDrEligibleRouters (net.holding i d b).nbrs
      = net.eligible.map (redeclare net.routers[i].address d b) := by
  have hr : net.routers[i] ∈ net.routers := getElem_mem _
  have hsp : net.routers = net.routers.take i ++ net.routers[i] :: net.routers.drop (i + 1) := by
    simp
  have hnd := net.addresses
  rw [hsp, map_append, map_cons, nodup_middle, nodup_cons,
    mem_append, not_or, mem_map, mem_map] at hnd
  obtain ⟨⟨hbefore, hafter⟩, -⟩ := hnd
  have htk := eligible_others hr d b (l := net.routers.take i) fun n hn =>
    ⟨mem_of_mem_take hn, fun heq => hbefore ⟨n, hn, heq⟩⟩
  have hdro := eligible_others hr d b (l := net.routers.drop (i + 1)) fun n hn =>
    ⟨mem_of_mem_drop hn, fun heq => hafter ⟨n, hn, heq⟩⟩
  have hsf := eligible_self hr d b
  have hap (l l' : List (DrNbr × NsmState)) : ospfDrEligibleRouters (l ++ l')
      = ospfDrEligibleRouters l ++ ospfDrEligibleRouters l' := by simp [ospfDrEligibleRouters]
  have helig := congrArg (fun l => (l.map DrRouter.toDrNbr).filter (0 < ·.priority)) hsp
  rw [← singleton_append] at helig
  simp only [map_append, filter_append] at helig
  show ospfDrEligibleRouters (_ ++ ([(_, _)] ++ _)) = _
  rw [hap, hap, holding, interface, htk, hsf, hdro, eligible, helig, map_append, map_append]
  rfl

theorem elect_holding :
    ospfElectDr (ospfElectBdr (net.holding i d b)) = net.holding i
      (net.roundDr net.routers[i].address d b) (net.roundBdr net.routers[i].address d b) := by
  have hbdr : ospfElectBdr (net.holding i d b)
      = net.holding i d (net.roundBdr net.routers[i].address d b) := by
    rw [ospfElectBdr, eligible_holding]
    rfl
  rw [hbdr, ospfElectDr, eligible_holding]
  rfl

/-! ## Stable states -/

variable (net) in
/-- The result of everyone's first round. -/
def bdr : UInt32 := electedAddress (bdrOf net.eligible)

variable (net) in
def dr : UInt32 := electedAddress (drOf net.eligible net.bdr)

variable {r : DrRouter} {k : DrNbr}

theorem winner_congr {el : List DrNbr} {P Q : DrNbr → Bool} (h : ∀ n ∈ el, P n = Q n) :
    winner el P = winner el Q := by
  rw [winner, winner, filter_congr h]

theorem first_round (hr : r ∈ net.routers) :
    net.roundBdr r.address r.dRouter r.bdRouter = net.bdr
      ∧ net.roundDr r.address r.dRouter r.bdRouter = net.dr := by
  have hsf : ∀ n ∈ net.eligible, n.address = r.address → n = r.toDrNbr := by
    intro n hn had
    obtain ⟨-, s, hs, rfl⟩ := mem_eligible.mp hn
    rw [eq_of_address hs hr had]
  have hdr : ∀ n ∈ net.eligible, claimsDr r.address r.dRouter n = nbrIsDr n := by
    intro n hn
    rw [claimsDr, nbrIsDr]
    split
    next had => rw [hsf n hn had]
    · rfl
  have hbdr : ∀ n ∈ net.eligible, claimsBdr r.address r.bdRouter n = nbrIsBdr n := by
    intro n hn
    rw [claimsBdr, nbrIsBdr]
    split
    next had => rw [hsf n hn had]
    · rfl
  have hf : net.roundBdr r.address r.dRouter r.bdRouter = net.bdr := by
    rw [roundBdr, bdr, bdrOf_redeclare, bdrOf_eq_or,
      winner_congr fun n hn => by rw [hdr n hn, hbdr n hn],
      winner_congr (P := (!claimsDr r.address r.dRouter ·)) fun n hn => by rw [hdr n hn]]
  refine ⟨hf, ?_⟩
  rw [roundDr, hf, dr, drOf_redeclare, drOf_eq_or, winner_congr hdr]

/-- A router declares the result of the first round, or that of the second. -/
theorem stable_cases (h : net.Stable) (hr : r ∈ net.routers) :
    (r.dRouter = net.dr ∧ r.bdRouter = net.bdr) ∨ (r.dRouter = net.roundDr r.address net.dr net.bdr
        ∧ r.bdRouter = net.roundBdr r.address net.dr net.bdr) := by
  obtain ⟨hbdr, hdr⟩ := first_round hr
  obtain ⟨i, hi, rfl⟩ := getElem_of_mem hr
  have hsf := (h ⟨i, hi⟩).1
  have hholding : net.interface ⟨i, hi⟩ = net.holding ⟨i, hi⟩ net.routers[i].dRouter
      net.routers[i].bdRouter := rfl
  rw [ospfDrElection, hholding, elect_holding] at hsf
  simp only [Fin.getElem_fin, hbdr, hdr] at hsf
  rw [elect_holding] at hsf
  split at hsf
  · rw [← hsf]
    exact .inr ⟨rfl, rfl⟩
  · rw [← hsf]
    exact .inl ⟨rfl, rfl⟩

/-- Somebody declares itself, or nobody can. -/
theorem exists_dr (h : net.Stable) (hne : net.eligible ≠ []) :
    ∃ k, winner net.eligible nbrIsDr = some k := by
  rw [← Option.isSome_iff_exists, ← Option.ne_none_iff_isSome]
  intro hno
  have hnobody := winner_eq_none.mp hno
  -- nobody does, so the backup is elected for both
  obtain ⟨n, hn⟩ := exists_mem_of_ne_nil _ hne
  obtain ⟨j, hj⟩ : ∃ j, bdrOf net.eligible = some j := by
    rw [bdrOf_eq_or, ← Option.isSome_iff_exists, Option.isSome_or, Bool.or_eq_true]
    refine .inr (Option.ne_none_iff_isSome.mp fun hal => ?_)
    have hal := winner_eq_none.mp hal n hn
    simp [hnobody n hn] at hal
  have hmb : j ∈ net.eligible := by
    rw [bdrOf_eq_or, Option.or_eq_some_iff] at hj
    rcases hj with hw | ⟨-, hw⟩
    · exact (winner_mem eligible_ids hw).1
    · exact (winner_mem eligible_ids hw).1
  have hbdr : net.bdr = j.address := by rw [bdr, hj, electedAddress_some]
  have hdr : net.dr = j.address := by
    rw [dr, drOf_eq_or, hno, Option.none_or, hbdr]
    have hj : j ∈ net.eligible.filter (·.address = j.address) := by simp [hmb]
    cases hla : (net.eligible.filter (·.address = j.address)).getLast? with
    | none =>
      rw [getLast?_eq_none_iff.mp hla] at hj
      cases hj
    | some x => simpa using (mem_filter.mp (mem_of_getLast? hla)).2
  obtain ⟨-, r, hr, rfl⟩ := mem_eligible.mp hmb
  have hdcl : r.dRouter ≠ r.address := by
    have hnt := hnobody _ hmb
    rw [nbrIsDr, decide_eq_false_iff_not] at hnt
    exact .symm hnt
  rcases stable_cases h hr with ⟨hd, -⟩ | ⟨hd, -⟩
  · exact hdcl (hd.trans hdr)
  · -- in a second round it would find itself the only one that declares itself
    refine hdcl (hd.trans ?_)
    rw [roundDr, drOf_redeclare, hdr]
    cases hw : winner net.eligible (claimsDr r.address r.address) with
    | none => simpa [claimsDr] using winner_eq_none.mp hw _ hmb
    | some x =>
      obtain ⟨hx, hcl⟩ := winner_mem eligible_ids hw
      rw [Option.some_or, electedAddress_some]
      by_contra had
      have ho : nbrIsDr x = true := by
        rwa [claimsDr, if_neg had] at hcl
      rw [hnobody x hx] at ho
      cases ho

/-- The second round leaves the backup alone. -/
theorem second_bdr (a : UInt32) :
    electedAddress ((winner net.eligible fun n => !nbrIsDr n && claimsBdr a net.bdr n).or
      (winner net.eligible (!nbrIsDr ·))) = net.bdr := by
  have hbdr : net.bdr = _ := congrArg electedAddress (bdrOf_eq_or net.eligible)
  cases hw : winner net.eligible fun n => !nbrIsDr n && nbrIsBdr n with
  | some j =>
    obtain ⟨hmb, hj⟩ := winner_mem eligible_ids hw
    rw [hw, Option.some_or, electedAddress_some] at hbdr
    rw [Bool.and_eq_true, nbrIsBdr] at hj
    rw [hbdr, winner_eq_of eligible_ids hw (Q := fun n => !nbrIsDr n && claimsBdr a j.address n),
      Option.some_or, electedAddress_some]
    · rw [Bool.and_eq_true, claimsBdr]
      refine ⟨hj.1, ?_⟩
      split
      · exact decide_eq_true rfl
      · exact hj.2
    · intro n hn hq
      rw [Bool.and_eq_true, claimsBdr] at hq
      obtain ⟨hdr, hcl⟩ := hq
      split at hcl
      · exact .inr (eligible_eq_of_address hn hmb (of_decide_eq_true hcl))
      · exact .inl (Bool.and_eq_true_iff.mpr ⟨hdr, hcl⟩)
  | none =>
    cases hm : winner net.eligible fun n => !nbrIsDr n && claimsBdr a net.bdr n with
    | none => rw [Option.none_or, hbdr, hw, Option.none_or]
    | some m =>
      obtain ⟨hmb, hq⟩ := winner_mem eligible_ids hm
      rw [Bool.and_eq_true, claimsBdr] at hq
      obtain ⟨hdr, hcl⟩ := hq
      split at hcl
      · exact of_decide_eq_true hcl
      · -- `m` has declared itself backup before, and nobody has
        have hnt := winner_eq_none.mp hw m hmb
        rw [hdr, Bool.true_and] at hnt
        rw [nbrIsBdr, hcl] at hnt
        cases hnt

section

variable (h : net.Stable) (hk : winner net.eligible nbrIsDr = some k)

include h hk

/-- The winner among those that declare themselves is everyone's. -/
theorem dRouter_eq (hr : r ∈ net.routers) : r.dRouter = k.address := by
  obtain ⟨hmb, hdcl⟩ := winner_mem eligible_ids hk
  have hdr : net.dr = k.address := by
    rw [dr, drOf_eq_or, hk]
    rfl
  rcases stable_cases h hr with ⟨hd, -⟩ | ⟨hd, -⟩
  · exact hd.trans hdr
  · have hsnd : winner net.eligible (claimsDr r.address k.address) = some k := by
      refine winner_eq_of eligible_ids hk ?_ fun n hn hcl => ?_
      · rw [nbrIsDr] at hdcl
        rw [claimsDr]
        split
        · exact decide_eq_true rfl
        · exact hdcl
      · rw [claimsDr] at hcl
        split at hcl
        · exact .inr (eligible_eq_of_address hn hmb (of_decide_eq_true hcl))
        · exact .inl hcl
    rw [hd, roundDr, drOf_redeclare, hdr, hsnd]
    rfl

theorem nbrIsDr_eq {n : DrNbr} (hn : n ∈ net.eligible) :
    nbrIsDr n = decide (n.address = k.address) := by
  obtain ⟨-, r, hr, rfl⟩ := mem_eligible.mp hn
  rw [nbrIsDr, dRouter_eq h hk hr]

theorem bdRouter_eq (hr : r ∈ net.routers) : r.bdRouter = net.bdr := by
  rcases stable_cases h hr with ⟨-, hb⟩ | ⟨-, hb⟩
  · exact hb
  have hdr : net.dr = k.address := by
    rw [dr, drOf_eq_or, hk]
    rfl
  have hcl : ∀ n ∈ net.eligible, claimsDr r.address k.address n = nbrIsDr n := by
    intro n hn
    rw [nbrIsDr_eq h hk hn, claimsDr]
    split
    · rfl
    · obtain ⟨-, s, hs, rfl⟩ := mem_eligible.mp hn
      rw [dRouter_eq h hk hs]
  rw [hb, roundBdr, bdrOf_redeclare, hdr,
    winner_congr (P := (!claimsDr r.address k.address ·)) fun n hn => by rw [hcl n hn],
    winner_congr (P := fun n => !claimsDr r.address k.address n && _)
      fun n hn => by rw [hcl n hn], second_bdr]

theorem bdr_of_two (htwo : 2 ≤ net.eligible.length) :
    ∃ b ∈ net.routers, b.address ≠ k.address ∧ ∀ r ∈ net.routers, r.bdRouter = b.address := by
  have hnd : net.eligible.Nodup := .of_map _ eligible_ids
  obtain ⟨n, hn, hne⟩ : ∃ n ∈ net.eligible, n ≠ k := by
    by_contra hal
    push Not at hal
    rw [eq_replicate_of_mem hal, nodup_replicate] at hnd
    omega
  have hnt : nbrIsDr n = false := by
    rw [nbrIsDr_eq h hk hn, decide_eq_false_iff_not]
    exact fun heq => hne (eligible_eq_of_address hn (winner_mem eligible_ids hk).1 heq)
  obtain ⟨j, hj, hmb, hdr⟩ : ∃ j, bdrOf net.eligible = some j ∧ j ∈ net.eligible
      ∧ nbrIsDr j = false := by
    rw [bdrOf_eq_or]
    cases hw : winner net.eligible fun n => !nbrIsDr n && nbrIsBdr n with
    | some j =>
      obtain ⟨hmb, hj⟩ := winner_mem eligible_ids hw
      rw [Bool.and_eq_true, Bool.not_eq_true'] at hj
      exact ⟨j, rfl, hmb, hj.1⟩
    | none =>
      cases hw' : winner net.eligible (!nbrIsDr ·) with
      | some j =>
        obtain ⟨hmb, hj⟩ := winner_mem eligible_ids hw'
        exact ⟨j, rfl, hmb, by simpa using hj⟩
      | none =>
        have hal := winner_eq_none.mp hw' n hn
        rw [hnt] at hal
        cases hal
  rw [nbrIsDr_eq h hk hmb, decide_eq_false_iff_not] at hdr
  obtain ⟨-, b, hb, rfl⟩ := mem_eligible.mp hmb
  refine ⟨b, hb, hdr, fun r hr => ?_⟩
  rw [bdRouter_eq h hk hr, bdr, hj, electedAddress_some]

end

theorem dRouter_eq_zero (h : net.Stable) (hni : net.eligible = []) (hr : r ∈ net.routers) :
    r.dRouter = 0 := by
  rcases stable_cases h hr with ⟨hd, -⟩ | ⟨hd, -⟩
  · rw [hd, dr, hni]
    rfl
  · rw [hd, roundDr, hni]
    rfl

/-- In every stable state all routers name the same designated router, which alone declares
itself to be it; and the same backup, another one, if there are two candidates. -/
theorem dr_election_agrees (net : DrNetwork) (h : net.Stable) :
    ∃ dr, (∀ r ∈ net.routers, r.dRouter = dr ∧ (nbrIsDr r.toDrNbr ↔ r.address = dr))
      ∧ ((∃ r ∈ net.routers, 0 < r.priority) → ∃ r ∈ net.routers, r.address = dr)
      ∧ (2 ≤ (net.routers.filter (0 < ·.priority)).length →
        ∃ b ∈ net.routers, b.address ≠ dr ∧ ∀ r ∈ net.routers, r.bdRouter = b.address) := by
  have hlength : net.eligible.length = (net.routers.filter (0 < ·.priority)).length := by
    rw [eligible, filter_map, length_map]
    rfl
  have hnames {dr : UInt32} {r : DrRouter} (hd : r.dRouter = dr) :
      r.dRouter = dr ∧ (nbrIsDr r.toDrNbr ↔ r.address = dr) := by
    rw [nbrIsDr, decide_eq_true_eq, hd]
    exact ⟨rfl, Iff.rfl⟩
  by_cases hnil : net.eligible = []
  · refine ⟨0, fun r hr => hnames (dRouter_eq_zero h hnil hr), ?_, fun htwo => ?_⟩
    · rintro ⟨r, hr, hprio⟩
      have hmem := mem_eligible.mpr ⟨hprio, r, hr, rfl⟩
      rw [hnil] at hmem
      cases hmem
    · rw [← hlength, hnil, length_nil] at htwo
      omega
  · obtain ⟨k, hk⟩ := exists_dr h hnil
    refine ⟨k.address, fun r hr => hnames (dRouter_eq h hk hr), fun _ => ?_, fun htwo => ?_⟩
    · obtain ⟨-, r, hr, rfl⟩ := mem_eligible.mp (winner_mem eligible_ids hk).1
      exact ⟨r, hr, rfl⟩
    · exact bdr_of_two h hk (hlength ▸ htwo)

/-- Three routers: the one with the lowest priority came first and remains designated. -/
def threeRouters : DrNetwork where
  routers := [⟨⟨1, 101, 1, 101, 103⟩, .dr⟩, ⟨⟨2, 102, 9, 101, 103⟩, .drOther⟩,
    ⟨⟨3, 103, 9, 101, 103⟩, .backup⟩]
  nsm := fun _ _ => .full
  ids := by decide
  addresses := by decide
  nonzero := by decide
  twoWay := by decide

theorem dr_election_agrees_three : threeRouters.Stable ∧ ∃ dr,
    (∀ r ∈ threeRouters.routers, r.dRouter = dr ∧ (nbrIsDr r.toDrNbr ↔ r.address = dr))
      ∧ ((∃ r ∈ threeRouters.routers, 0 < r.priority) → ∃ r ∈ threeRouters.routers, r.address = dr)
      ∧ (2 ≤ (threeRouters.routers.filter (0 < ·.priority)).length →
        ∃ b ∈ threeRouters.routers, b.address ≠ dr
          ∧ ∀ r ∈ threeRouters.routers, r.bdRouter = b.address) :=
  have hstable : threeRouters.Stable := by decide
  ⟨hstable, dr_election_agrees threeRouters hstable⟩

end DrNetwork

end SdnQuagga
