import SdnQuagga.BgpDampMembership

/-!
# Runs of the dampening code

Sequences of calls into `bgpd/bgp_damp.c` and of expirations of its timer, at any
times and in any order, with any function for the decay of penalties.
-/

namespace SdnQuagga

open FaultM (Ensures)
open LinkedLists (Lists)

variable {slots : Nat} [NeZero slots] {cfg : RibConfig} {st st' : BgpRib slots}

/-- The calls into `bgp_damp.c`, and the expiration of the reuse timer. -/
inductive DampEvent where
  | withdraw (binfo : Nat) (attrChange : Bool)
  | update (binfo : Nat)
  | scan (binfo : Nat)
  | free (bdi : Nat) (removal : Bool)
  | timer
deriving DecidableEq

/-- The callers pass the node the route is on. -/
def DampEvent.run (cfg : RibConfig) (now : Int) : DampEvent → RibM slots Unit
  | withdraw binfo attrChange => do
    let ri ← routeAt binfo
    let _ ← bgpDampWithdraw cfg binfo ri.rn attrChange now
  | update binfo => do
    let ri ← routeAt binfo
    let _ ← bgpDampUpdate cfg binfo ri.rn now
  | scan binfo => do
    let _ ← bgpDampScan cfg binfo now
  | free bdi removal => bgpDampInfoFree cfg bdi removal
  | timer => bgpReuseTimer cfg now

/-- The states a sequence of events leads to. The timer expires only in states
with `C`. -/
inductive DampRuns (cfg : RibConfig) (C : Int → BgpRib slots → Prop) :
    BgpRib slots → BgpRib slots → Prop where
  | refl (st : BgpRib slots) : DampRuns cfg C st st
  | step {st st1 st2 : BgpRib slots} (event : DampEvent) (now : Int) :
      DampRuns cfg C st st1 → (event = .timer → C now st1) →
      event.run cfg now st1 = .ok ((), st2) → DampRuns cfg C st st2

/-- Before the first event: no records, and no route marked as suppressed. -/
structure Undamped (st : BgpRib slots) : Prop where
  infos : ∀ d, st.infos d = none
  head : ∀ k, st.head k = none
  routes : ∀ {a : Nat} {ri : StoredRoute}, st.routes a = some ri →
    ri.dampInfo = none ∧ ri.flags .damped = false

/-- The lists that start at the heads are finite and linked both ways, hold
records in memory only, and hold each of these once: on the chain of its slot if
its route is suppressed, and on `no_reuse_list` otherwise. -/
def DampExact (st : BgpRib slots) : Prop :=
  ∃ f : Option (Fin slots) → List Nat, Lists st.view.links f ∧
    (∀ k, ∀ d ∈ f k, (st.infos d).isSome) ∧ ∀ d bdi, st.infos d = some bdi →
      ∃ ri k, st.routes bdi.binfo = some ri ∧
        (if ri.flags .damped then k.isSome ∧ k = bdi.index else k = none) ∧
        (f k).count d = 1 ∧ ∀ k', k' ≠ k → d ∉ f k'

omit [NeZero slots] in
theorem DampListed.exact (h : DampListed st) : DampExact st := by
  obtain ⟨f, h⟩ := h
  refine ⟨f, h.holds, fun k d hd => ?_, fun d bdi hbdi => ?_⟩
  · obtain ⟨place, hpl⟩ := h.live hd
    obtain ⟨bdi, hbdi, -⟩ := Option.map_eq_some_iff.mp hpl
    rw [hbdi]
    rfl
  · have hpl := view_infos hbdi
    obtain ⟨owner, how, -, -⟩ := h.owner hpl
    obtain ⟨k, hhm, hk⟩ := h.home hpl how List.not_mem_nil
    obtain ⟨ri, hri, rfl⟩ := Option.map_eq_some_iff.mp how
    refine ⟨ri, k, hri, hhm, List.count_eq_one_of_mem (h.holds.nodup k) hk, ?_⟩
    exact fun k' hne hk' => hne (h.holds.only hk' hk)

omit [NeZero slots] in
theorem Undamped.listed (h : Undamped st) : DampListed st := by
  have hif : ∀ {d place}, st.view.infos d ≠ some place := by
    intro d place hpl
    rw [BgpRib.view_infos, h.infos d] at hpl
    cases hpl
  refine ⟨fun _ => [], ?_⟩
  constructor
  · exact Lists.nil h.head
  · exact fun hd => absurd hd List.not_mem_nil
  · exact fun hpl => absurd hpl hif
  · exact fun hpl => absurd hpl hif
  · intro a d owner how hd
    obtain ⟨ri, hri, rfl⟩ := Option.map_eq_some_iff.mp how
    have hno : ri.owner.dampInfo = none := (h.routes hri).1
    rw [hno] at hd
    cases hd
  · intro a owner how hdm
    obtain ⟨ri, hri, rfl⟩ := Option.map_eq_some_iff.mp how
    have hfal : ri.owner.damped = false := (h.routes hri).2
    rw [hfal] at hdm
    cases hdm
  · exact fun hpl => absurd hpl hif

/-! ## Steps -/

omit [NeZero slots] in
/-- A computation that ensures `Q` and ends has ended in `Q`. -/
theorem ensures_of_run {α : Type} {P : BgpRib slots → Prop} {m : RibM slots α} {x : α}
    {Q : BgpRib slots → Prop} (h : Ensures P m fun _ => Q) (hst : P st)
    (hr : m st = .ok (x, st')) : Q st' := by
  obtain ⟨x', st'', hr', hq⟩ := h st hst
  rw [hr] at hr'
  cases hr'
  exact hq

omit [NeZero slots] in
theorem view_routes {a : Nat} {ri : StoredRoute} (h : st.routes a = some ri) :
    st.view.routes a = some ri.owner := by
  rw [BgpRib.view_routes, h, Option.map_some]

/-- An event that ends leaves the records where they belong. -/
theorem DampListed.event (h : DampListed st) {event : DampEvent} {now : Int}
    (htimer : event = .timer → SlotAboveHalf cfg now st)
    (hr : event.run cfg now st = .ok ((), st')) : DampListed st' := by
  obtain ⟨f, hf⟩ := id h
  cases event with
  | withdraw a attrChange =>
    obtain ⟨ri, st1, hri, hrs⟩ := FaultM.bind_eq_ok hr
    obtain ⟨rfl, hri⟩ := routeAt_eq_ok hri
    obtain ⟨status, st2, hca, he⟩ := FaultM.bind_eq_ok hrs
    cases he
    exact ensures_of_run (bgpDampWithdraw_ensures hf (view_routes hri) rfl attrChange now) rfl hca
  | update a =>
    obtain ⟨ri, st1, hri, hrs⟩ := FaultM.bind_eq_ok hr
    obtain ⟨rfl, hri⟩ := routeAt_eq_ok hri
    obtain ⟨status, st2, hca, he⟩ := FaultM.bind_eq_ok hrs
    cases he
    exact ensures_of_run (bgpDampUpdate_ensures hf (view_routes hri) ri.rn now) rfl hca
  | scan a =>
    obtain ⟨ret, st1, hca, he⟩ := FaultM.bind_eq_ok hr
    cases he
    obtain ⟨ri, st2, hri, hrs⟩ := FaultM.bind_eq_ok hca
    obtain ⟨rfl, hri⟩ := routeAt_eq_ok hri
    cases hd : ri.dampInfo with
    | none =>
      rw [hd] at hrs
      cases hrs
    | some d => exact ensures_of_run (bgpDampScan_ensures hf (view_routes hri) hd now) rfl hca
  | free d removal =>
    obtain ⟨bdi, st1, hbdi, -⟩ := FaultM.bind_eq_ok hr
    obtain ⟨rfl, hbdi⟩ := infoAt_eq_ok hbdi
    exact ensures_of_run (bgpDampInfoFree_ensures hf ⟨_, view_infos hbdi⟩ removal) rfl hr
  | timer => exact ensures_of_run (bgpReuseTimer_ensures h (htimer rfl)) rfl hr

theorem DampRuns.listed (hr : DampRuns cfg (SlotAboveHalf cfg) st st')
    (h : DampListed st) : DampListed st' := by
  induction hr with
  | refl => exact h
  | step event now _ htimer hev ih => exact ih.event htimer hev

/-- After any sequence of events the lists are exact, provided that whenever the
timer expires the penalties of its slot are above half the reuse limit. -/
theorem dampening_lists_exact (hinit : Undamped st)
    (hrun : DampRuns cfg (SlotAboveHalf cfg) st st') : DampExact st' :=
  (hrun.listed hinit.listed).exact

/-! ## A flapping route and a quiet one -/

omit [NeZero slots] in
/-- The state that a computation leaves, if it does not fault. -/
def stateAfter (m : RibM slots Unit) (st : BgpRib slots) : BgpRib slots :=
  match m st with
  | .ok (_, st') => st'
  | .error _ => st

theorem DampRuns.next {C : Int → BgpRib slots → Prop} (hr : DampRuns cfg C st st')
    {event : DampEvent} {now : Int} (htimer : event = .timer → C now st')
    (hok : (event.run cfg now st').isOk = true) :
    DampRuns cfg C st (stateAfter (event.run cfg now) st') := by
  refine .step event now hr htimer ?_
  rw [stateAfter]
  split
  next heq => exact heq
  next heq =>
    rw [heq] at hok
    cases hok

/-- The timer at slots without records. -/
theorem DampRuns.idle (hr : DampRuns cfg (fun _ _ => True) st st')
    (hzero : st'.reuseOffset = Fin.ofNat slots 0) (n : Nat)
    (hnone : ∀ i < n, st'.reuseList (Fin.ofNat slots i) = none) :
    DampRuns cfg (fun _ _ => True) st { st' with reuseOffset := Fin.ofNat slots n } := by
  induction n with
  | zero => rwa [← hzero]
  | succ n ih =>
    refine .step .timer (10 * (n + 1)) (ih fun i hi => hnone i (Nat.lt_succ_of_lt hi))
      (fun _ => trivial) ?_
    have hn := hnone n (Nat.lt_succ_self n)
    have hlist : Function.update st'.reuseList (Fin.ofNat slots n) none = st'.reuseList := by
      rw [← hn, Function.update_eq_self]
    have hnext : Fin.ofNat slots (Fin.ofNat slots n + 1) = Fin.ofNat slots (n + 1) :=
      Fin.ext (Nat.mod_add_mod n slots 1)
    show reuseLoop cfg _ st'.next (st'.reuseList (Fin.ofNat slots n)) (BgpRib.rotate _) = _
    rw [hn, reuseLoop, BgpRib.rotate, BgpRib.setHead, hlist, hnext]
    rfl

def bareAttr : FullAttr where
  aspath := none
  community := none
  extra := none
  flag := ⟨false, false, false, false, false, false, false, false, false, false, false,
    false, false⟩
  nexthop := 0
  med := 0
  localPref := 0
  origin := 0

/-- `bgp dampening 1 reuse suppress 4`: the decay array has 48 entries and the reuse list 25 slots.
Logarithms and powers are of whole numbers here. -/
def dampConfig (reuse suppress : Nat) : RibConfig where
  suppressValue := suppress
  reuseLimit := reuse
  ceiling := 16 * reuse
  maxSuppressTime := 240
  decay t penalty :=
    let i := t.tdiv 5
    if i = 0 then penalty
    else if 0 < i ∧ i < 48 then penalty * 9438743126816935 ^ i.toNat / 10 ^ (16 * i.toNat)
    else 0
  reuseSteps penalty :=
    let i := min ((penalty - reuse) * 1024 / (15 * reuse)) 1023
    Nat.log2 ((reuse * (1024 + 15 * i)) ^ 6 / 1024 ^ 6) - Nat.log2 (reuse ^ 6)
  table _ := ⟨true, 1, 1⟩
  peerSelf := 0

theorem dampConfig_decay_le (reuse suppress : Nat) (t : Int) (penalty : Nat) :
    (dampConfig reuse suppress).decay t penalty ≤ penalty := by
  simp only [dampConfig]
  split_ifs
  · exact le_rfl
  · refine Nat.div_le_of_le_mul ?_
    rw [pow_mul, Nat.mul_comm]
    exact Nat.mul_le_mul_right _ (Nat.pow_le_pow_left (by decide) _)
  · exact Nat.zero_le _

instance neZero_slots : NeZero 25 := ⟨Nat.succ_ne_zero 24⟩

/-- Two routes of one peer, on two nodes. -/
def twoRoutes : BgpRib 25 where
  routes a :=
    if a < 2 then
      some
        { rn := a, peer := 1, type := 9, subType := 0, attr := bareAttr, lock := 1,
          flags := fun g => g ∈ [RouteFlag.valid, RouteFlag.counted], dampInfo := none }
    else none
  rib := [0, 1]
  pcount _ _ _ := 2
  infos _ := none
  reuseList _ := none
  reuseOffset := 0
  noReuseList := none
  next := 2

theorem twoRoutes_undamped : Undamped twoRoutes where
  infos _ := rfl
  head k := by cases k <;> rfl
  routes := by
    intro a ri hri
    simp only [twoRoutes] at hri
    split at hri
    · cases hri
      exact ⟨rfl, rfl⟩
    · cases hri

/-- The first route is withdrawn after five seconds, and suppressed at once. -/
def withdrawn (cfg : RibConfig) : BgpRib 25 :=
  stateAfter ((DampEvent.withdraw 0 false).run cfg 5) twoRoutes

/-- With a reuse limit just below the penalty the record is in the slot that is next. -/
theorem dampening_lists_exact_flap :
    let cfg := dampConfig 950 960
    Undamped twoRoutes ∧ DampExact (stateAfter (DampEvent.timer.run cfg 10) (withdrawn cfg)) := by
  intro cfg
  have hruns (C) : DampRuns cfg C twoRoutes (withdrawn cfg) :=
    (DampRuns.refl _).next (fun h => by cases h) (by decide +kernel)
  refine ⟨twoRoutes_undamped, dampening_lists_exact twoRoutes_undamped
    ((hruns _).next (fun _ d bdi ri hbdi _ _ _ => ?_) (by decide +kernel))⟩
  obtain ⟨f, h⟩ := (hruns _).listed twoRoutes_undamped.listed
  have hlt : d < 3 := h.fresh (view_infos hbdi)
  have hcas : d = 0 ∨ d = 1 ∨ d = 2 := by omega
  rcases hcas with rfl | rfl | rfl
  · cases hbdi
  · cases hbdi
  · exact ⟨_, rfl, by decide⟩

/-- With a low reuse limit the record waits in the last slot, until the decay array is exceeded
and its penalty is 0. The attributes of the second route have changed in the meantime; when the
timer frees the record of the first, that of the second is lost. -/
theorem reuse_timer_loses_record :
    ∃ (cfg : RibConfig) (st st' : BgpRib 25), (∀ t penalty, cfg.decay t penalty ≤ penalty)
      ∧ Undamped st ∧ DampRuns cfg (fun _ _ => True) st st' ∧ ¬ DampExact st' := by
  let cfg := dampConfig 62 900
  let waited : BgpRib 25 := { withdrawn cfg with reuseOffset := Fin.ofNat 25 24 }
  let changed := stateAfter ((DampEvent.withdraw 1 true).run cfg 245) waited
  let updated := stateAfter ((DampEvent.update 1).run cfg 245) changed
  refine ⟨cfg, twoRoutes, stateAfter (DampEvent.timer.run cfg 250) updated,
    dampConfig_decay_le 62 900, twoRoutes_undamped, ?_, ?_⟩
  · have hwithdrawn : DampRuns cfg (fun _ _ => True) twoRoutes (withdrawn cfg) :=
      (DampRuns.refl _).next (fun _ => trivial) (by decide +kernel)
    have hwaited : DampRuns cfg _ twoRoutes waited := hwithdrawn.idle rfl 24 (by decide +kernel)
    have hchanged : DampRuns cfg _ twoRoutes changed :=
      hwaited.next (fun _ => trivial) (by decide +kernel)
    have hupdated : DampRuns cfg _ twoRoutes updated :=
      hchanged.next (fun _ => trivial) (by decide +kernel)
    exact hupdated.next (fun _ => trivial) (by decide +kernel)
  · generalize hlost : stateAfter (DampEvent.timer.run cfg 250) updated = st'
    have hhead : st'.head none = none := by
      rw [← hlost]
      decide +kernel
    have hri : ((st'.infos 3).bind fun bdi => st'.routes bdi.binfo).map (·.flags .damped)
        = some false := by
      rw [← hlost]
      decide +kernel
    rintro ⟨f, hholds, -, hexact⟩
    obtain ⟨ri, hri, hdamped⟩ := Option.map_eq_some_iff.mp hri
    obtain ⟨bdi, hbdi, hri⟩ := Option.bind_eq_some_iff.mp hri
    obtain ⟨ri', k, hri', hk, hcount, -⟩ := hexact 3 bdi hbdi
    obtain rfl := Option.some_inj.mp (hri.symm.trans hri')
    rw [if_neg (Bool.eq_false_iff.mp hdamped)] at hk
    have hnil : f none = [] := List.head?_eq_none_iff.mp ((hholds.head_eq none).symm.trans hhead)
    rw [hk, hnil] at hcount
    cases hcount

end SdnQuagga
