import Mathlib.Data.Finset.Basic
import SdnQuagga.BgpAttrHash

/-!
# Routes of the BGP table and their dampening

The flags of a route with the prefix count that follows them
(`bgpd/bgp_route.c`) and the dampening of flapping routes (`bgpd/bgp_damp.c`).

Routes and dampening records are kept by address. A record has its place on one
of several lists whose cells it carries the links of: the chain of a slot of
`reuse_list` while its route is suppressed, `no_reuse_list` otherwise. Neither
the record nor its route says which list that is; the functions infer it from
the flag `BGP_INFO_DAMPED` of the route.

The tables of the decay and of the slots, which the C code computes in floating
point, are parameters.
-/

namespace SdnQuagga

open Function

/-! ## Data -/

/-- The flags of `struct bgp_info`, without those of the selection by MED and of
multipath, which `bgp_best_selection` sets and clears. -/
inductive RouteFlag where
  | damped
  | history
  | selected
  | valid
  | attrChanged
  | stale
  | removed
  | counted
deriving DecidableEq, Repr

/-- `rn->table`: its type (`BGP_TABLE_MAIN` or `BGP_TABLE_RSCLIENT`) and the
address family it is for. -/
structure NodeTable where
  main : Bool
  afi : Nat
  safi : Nat
deriving DecidableEq

/-- `struct bgp_info`, with the node it is for and `extra->damp_info`. -/
structure StoredRoute where
  rn : Nat
  peer : Nat
  type : Nat
  subType : Nat
  attr : FullAttr
  lock : Nat
  flags : RouteFlag → Bool
  dampInfo : Option Nat

/-- `lastrecord`; `none` before the first event. -/
inductive DampRecord where
  | none
  | update
  | withdraw
deriving DecidableEq, Repr

/-- `struct bgp_damp_info`. The index is -1 in a record that was never on a
reuse list. -/
structure DampInfo (slots : Nat) where
  next : Option Nat
  prev : Option Nat
  penalty : Nat
  tUpdated : Int
  suppressTime : Int
  binfo : Nat
  rn : Nat
  index : Option (Fin slots)
  lastrecord : DampRecord

/-- What `bgp_damp_withdraw` and `bgp_damp_update` return. -/
inductive DampStatus where
  | used
  | suppressed
deriving DecidableEq, Repr

/-- The parameters of `struct bgp_damp_config`: `decay t penalty` is
`bgp_damp_decay`, and a route with penalty `p` is to wait `reuseSteps p` turns of
the reuse timer. -/
structure DampConfig where
  suppressValue : Nat
  reuseLimit : Nat
  ceiling : Nat
  maxSuppressTime : Int
  decay : Int → Nat → Nat
  reuseSteps : Nat → Nat

/-- With the table of each node and `bgp->peer_self`. -/
structure RibConfig extends DampConfig where
  table : Nat → NodeTable
  peerSelf : Nat

/-- The routes in memory, the prefix count of each peer and the dampening
records with their lists. `rib` are the routes that are linked on a node, those
of one node in the order of its list. -/
structure BgpRib (slots : Nat) where
  routes : Nat → Option StoredRoute
  rib : List Nat
  /-- `peer->pcount[afi][safi]` -/
  pcount : Nat → Nat → Nat → Nat
  infos : Nat → Option (DampInfo slots)
  reuseList : Fin slots → Option Nat
  reuseOffset : Fin slots
  noReuseList : Option Nat
  /-- the address of the next object that is allocated -/
  next : Nat

variable {slots : Nat}

abbrev RibM (slots : Nat) := FaultM (BgpRib slots)

/-! ## Memory -/

def routeAt (a : Nat) : RibM slots StoredRoute := do
  match (← get).routes a with
  | some ri => return ri
  | none => throw .outOfBounds

variable (st : BgpRib slots)

@[simps]
def BgpRib.setRoute (a : Nat) (f : StoredRoute → StoredRoute) :
    BgpRib slots :=
  { st with routes := update st.routes a ((st.routes a).map f) }

def updateRoute (a : Nat) (f : StoredRoute → StoredRoute) : RibM slots Unit := do
  let _ ← routeAt a
  modify (·.setRoute a f)

variable (d : Nat)

/-- What a pointer to a dampening record points to. -/
def infoAt : RibM slots (DampInfo slots) := do
  match (← get).infos d with
  | some bdi => return bdi
  | none => throw .outOfBounds

variable (f : DampInfo slots → DampInfo slots)

@[simps]
def BgpRib.setInfo : BgpRib slots :=
  { st with infos := update st.infos d ((st.infos d).map f) }

def updateInfo : RibM slots Unit := do
  let _ ← infoAt d
  modify (·.setInfo d f)

theorem routeAt_eq_ok {st st' : BgpRib slots} {a : Nat} {ri : StoredRoute}
    (h : routeAt a st = .ok (ri, st')) : st' = st ∧ st.routes a = some ri := by
  rw [routeAt, FaultM.get_bind] at h
  cases hr : st.routes a with
  | none =>
    rw [hr] at h
    cases h
  | some ri' =>
    rw [hr] at h
    cases h
    exact ⟨rfl, rfl⟩

theorem infoAt_eq_ok {st st' : BgpRib slots} {d : Nat} {bdi : DampInfo slots}
    (h : infoAt d st = .ok (bdi, st')) : st' = st ∧ st.infos d = some bdi := by
  rw [infoAt, FaultM.get_bind] at h
  cases hd : st.infos d with
  | none =>
    rw [hd] at h
    cases h
  | some bdi' =>
    rw [hd] at h
    cases h
    exact ⟨rfl, rfl⟩

/-- `XCALLOC` of a record. -/
@[simps]
def BgpRib.allocInfo (bdi : DampInfo slots) : BgpRib slots :=
  { st with infos := update st.infos st.next (some bdi), next := st.next + 1 }

/-- `XFREE` of a record. -/
@[simps]
def BgpRib.freeInfo : BgpRib slots :=
  { st with infos := update st.infos d none }

/-! ## Flags and the prefix count -/

/-- `BGP_INFO_UNUSEABLE`. -/
def unuseable : List RouteFlag := [.history, .damped, .removed]

variable (ri : StoredRoute)

/-- `BGP_INFO_HOLDDOWN`. -/
def StoredRoute.holddown : Bool :=
  !ri.flags .valid || unuseable.any ri.flags

/-- `SET_FLAG` and `UNSET_FLAG`. -/
def StoredRoute.withFlags (mask : List RouteFlag) (b : Bool) :
    StoredRoute :=
  { ri with flags := fun g => if g ∈ mask then b else ri.flags g }

/-- One more or one less for a peer in an address family. A count that is 0 is
not decremented. -/
@[simps]
def BgpRib.count (peer : Nat) (table : NodeTable) (up : Bool) :
    BgpRib slots :=
  { st with
    pcount := update st.pcount peer
      (update (st.pcount peer) table.afi
        (update (st.pcount peer table.afi) table.safi
          (if up then st.pcount peer table.afi table.safi + 1
            else st.pcount peer table.afi table.safi - 1))) }

variable (cfg : RibConfig) (rn a : Nat)

def bgpPcountAdjust : RibM slots Unit := do
  let ri ← routeAt a
  if !(cfg.table rn).main || ri.peer = cfg.peerSelf then
    return ()
  else if ri.holddown && ri.flags .counted then
    updateRoute a (·.withFlags [.counted] false)
    modify (·.count ri.peer (cfg.table rn) false)
  else if !ri.holddown && !ri.flags .counted then
    updateRoute a (·.withFlags [.counted] true)
    modify (·.count ri.peer (cfg.table rn) true)
  else return ()

variable (mask : List RouteFlag)

/-- Write flags, and adjust the count if one of them decides whether the route
can be used. -/
def changeFlags (b : Bool) :
    RibM slots Unit := do
  updateRoute a (·.withFlags mask b)
  if mask.any (· ∈ RouteFlag.valid :: unuseable) then bgpPcountAdjust cfg rn a
  else return ()

def bgpInfoSetFlag :
    RibM slots Unit :=
  changeFlags cfg rn a mask true

def bgpInfoUnsetFlag :
    RibM slots Unit :=
  changeFlags cfg rn a mask false

def bgpInfoDelete : RibM slots Unit := do
  bgpInfoSetFlag cfg rn a [.removed]
  updateRoute a (·.withFlags [.valid] false)

def bgpInfoRestore : RibM slots Unit := do
  bgpInfoUnsetFlag cfg rn a [.removed]
  updateRoute a (·.withFlags [.valid] true)

/-! ## The lists -/

/-- The head of `no_reuse_list` or of a slot of `reuse_list`. -/
def BgpRib.head (st : BgpRib slots) : Option (Fin slots) → Option Nat
  | none => st.noReuseList
  | some i => st.reuseList i

def BgpRib.setHead (st : BgpRib slots) (k : Option (Fin slots)) (o : Option Nat) :
    BgpRib slots :=
  match k with
  | none => { st with noReuseList := o }
  | some i => { st with reuseList := update st.reuseList i o }

/-- `if (o) o->prev = p`. -/
def writePrev (o p : Option Nat) : RibM slots Unit :=
  match o with
  | some x => updateInfo x fun bdi => { bdi with prev := p }
  | none => return ()

variable (k : Option (Fin slots))

/-- `BGP_INFO_ADD`, which `bgp_reuse_list_add` repeats. -/
def infoAdd (d : Nat) : RibM slots Unit := do
  updateInfo d fun bdi => { bdi with prev := none }
  let st ← get
  updateInfo d fun bdi => { bdi with next := st.head k }
  writePrev (st.head k) (some d)
  modify (·.setHead k (some d))

/-- `BGP_INFO_DEL`, which `bgp_reuse_list_delete` repeats. -/
def infoDel (d : Nat) : RibM slots Unit := do
  let bdi ← infoAt d
  writePrev bdi.next bdi.prev
  match bdi.prev with
  | some x => updateInfo x fun other => { other with next := bdi.next }
  | none => modify (·.setHead k bdi.next)

def bgpDampListAdd (d : Nat) : RibM slots Unit := infoAdd none d

def bgpDampListDel (d : Nat) : RibM slots Unit := infoDel none d

def bgpReuseIndex [NeZero slots] (st : BgpRib slots) (penalty : Nat) :
    Fin slots :=
  Fin.ofNat slots (st.reuseOffset + cfg.reuseSteps penalty)

def bgpReuseListAdd [NeZero slots] (d : Nat) : RibM slots Unit := do
  let bdi ← infoAt d
  let index := bgpReuseIndex cfg (← get) bdi.penalty
  updateInfo d fun bdi => { bdi with index := some index }
  infoAdd (some index) d

def bgpReuseListDelete (d : Nat) : RibM slots Unit := do
  let bdi ← infoAt d
  match bdi.index with
  | some index => infoDel (some index) d
  | none => throw .outOfBounds

/-! ## What the lists do not touch -/

open FaultM (Preserves)

/-- A write to the links or the index of a record. -/
def Relinks (g : DampInfo slots → DampInfo slots) : Prop :=
  ∀ bdi, ∃ next prev index, g bdi = { bdi with next := next, prev := prev, index := index }

/-- `φ` does not depend on where the records are. -/
structure ListFree {γ : Type} (φ : BgpRib slots → γ) : Prop where
  info : ∀ (st : BgpRib slots) (d : Nat) (g : DampInfo slots → DampInfo slots),
    Relinks g → φ (st.setInfo d g) = φ st
  head : ∀ (st : BgpRib slots) (k : Option (Fin slots)) (o : Option Nat), φ (st.setHead k o) = φ st

theorem preserves_routeAt {γ : Type} {φ : BgpRib slots → γ} {a : Nat} :
    Preserves φ (routeAt a) := by
  intro st ri st' h
  rw [(routeAt_eq_ok h).1]

theorem preserves_infoAt {γ : Type} {φ : BgpRib slots → γ} {d : Nat} : Preserves φ (infoAt d) := by
  intro st bdi st' h
  rw [(infoAt_eq_ok h).1]

section

variable {γ : Type} {φ : BgpRib slots → γ} (h : ListFree φ)
include h

theorem ListFree.updateInfo {d : Nat} {g : DampInfo slots → DampInfo slots}
    (hg : Relinks g) : Preserves φ (updateInfo d g) :=
  preserves_infoAt.bind fun _ => .modify fun st => h.info st d g hg

theorem ListFree.writePrev (o p : Option Nat) : Preserves φ (writePrev o p) := by
  cases o with
  | none => exact .pure _
  | some x => exact h.updateInfo fun bdi => ⟨bdi.next, p, bdi.index, rfl⟩

theorem ListFree.infoAdd (k : Option (Fin slots)) (d : Nat) : Preserves φ (infoAdd k d) := by
  refine .bind (h.updateInfo fun bdi => ⟨bdi.next, none, bdi.index, rfl⟩) fun _ =>
    Preserves.get.bind fun st => ?_
  refine .bind (h.updateInfo fun bdi => ⟨st.head k, bdi.prev, bdi.index, rfl⟩) fun _ => ?_
  exact (h.writePrev _ _).bind fun _ => .modify fun st => h.head st k _

theorem ListFree.infoDel (k : Option (Fin slots)) (d : Nat) : Preserves φ (infoDel k d) := by
  refine preserves_infoAt.bind fun bdi => (h.writePrev _ _).bind fun _ => ?_
  cases bdi.prev with
  | none => exact .modify fun st => h.head st k _
  | some x => exact h.updateInfo fun other => ⟨bdi.next, other.prev, other.index, rfl⟩

theorem ListFree.bgpReuseListAdd [NeZero slots] (cfg : RibConfig) (d : Nat) :
    Preserves φ (bgpReuseListAdd cfg d) := by
  refine preserves_infoAt.bind fun _ => Preserves.get.bind fun _ => ?_
  exact .bind (h.updateInfo fun bdi => ⟨bdi.next, bdi.prev, _, rfl⟩) fun _ =>
    h.infoAdd _ d

theorem ListFree.bgpReuseListDelete (d : Nat) : Preserves φ (bgpReuseListDelete d) := by
  refine preserves_infoAt.bind fun bdi => ?_
  cases bdi.index with
  | none => exact .throw _
  | some index => exact h.infoDel _ d

end

/-! ## Dampening -/

/-- Off the list that the flag of the route calls for. -/
def dampUnlink (d : Nat) (damped : Bool) : RibM slots Unit :=
  if damped then bgpReuseListDelete d else bgpDampListDel d

theorem ListFree.dampUnlink {γ : Type} {φ : BgpRib slots → γ} (h : ListFree φ) (d : Nat)
    (damped : Bool) : Preserves φ (dampUnlink d damped) :=
  .ite (h.bgpReuseListDelete d) (h.infoDel none d)

variable (cfg : RibConfig)

def bgpDampInfoFree (d : Nat) (withdraw : Bool) :
    RibM slots Unit := do
  let bdi ← infoAt d
  updateRoute bdi.binfo fun ri => { ri with dampInfo := none }
  let binfo ← routeAt bdi.binfo
  dampUnlink d (binfo.flags .damped)
  bgpInfoUnsetFlag cfg bdi.rn bdi.binfo [.history, .damped]
  FaultM.when (bdi.lastrecord = .withdraw ∧ withdraw) (bgpInfoDelete cfg bdi.rn bdi.binfo)
  modify (·.freeInfo d)

/-- The penalty for a withdrawal or for a change of attributes. -/
def flapPenalty (attrChange : Bool) : Nat := if attrChange then 1000 / 2 else 1000

/-- The first part of `bgp_damp_withdraw`: the record of the route, made if there
is none, with its new penalty, and the penalty before. -/
def dampRecord (binfo rn : Nat) (attrChange : Bool) (now : Int) :
    RibM slots (Nat × Nat) := do
  let ri ← routeAt binfo
  match ri.dampInfo with
  | none =>
    let d := (← get).next
    modify (·.allocInfo
      { next := none, prev := none, penalty := flapPenalty attrChange, tUpdated := 0,
        suppressTime := 0, binfo := binfo, rn := rn, index := none,
        lastrecord := .none })
    updateRoute binfo fun ri => { ri with dampInfo := some d }
    bgpDampListAdd d
    return (d, 0)
  | some d =>
    let bdi ← infoAt d
    let penalty := cfg.decay (now - bdi.tUpdated) bdi.penalty + flapPenalty attrChange
    updateInfo d fun bdi => { bdi with penalty := min penalty cfg.ceiling }
    return (d, bdi.penalty)

def bgpDampWithdraw [NeZero slots] (binfo rn : Nat)
    (attrChange : Bool) (now : Int) : RibM slots DampStatus := do
  let (d, lastPenalty) ← dampRecord cfg binfo rn attrChange now
  let bdi ← infoAt d
  FaultM.check (rn = bdi.rn ∧ binfo = bdi.binfo)
  updateInfo d fun bdi => { bdi with lastrecord := .withdraw, tUpdated := now }
  bgpInfoSetFlag cfg rn binfo [.history]
  let ri ← routeAt bdi.binfo
  if ri.flags .damped then
    FaultM.when (bdi.penalty ≠ lastPenalty) do
      bgpReuseListDelete d
      bgpReuseListAdd cfg d
    return .suppressed
  else if cfg.suppressValue ≤ bdi.penalty then
    bgpInfoSetFlag cfg rn binfo [.damped]
    updateInfo d fun bdi => { bdi with suppressTime := now }
    bgpDampListDel d
    bgpReuseListAdd cfg d
    return .used
  else return .used

/-- The middle part of `bgp_damp_update`: whether the route is used again. -/
def dampReuse (binfo rn d : Nat) : RibM slots DampStatus := do
  let bdi ← infoAt d
  let ri ← routeAt bdi.binfo
  if !ri.flags .damped && bdi.penalty < cfg.suppressValue then
    return .used
  else if ri.flags .damped && bdi.penalty < cfg.reuseLimit then
    bgpInfoUnsetFlag cfg rn binfo [.damped]
    bgpReuseListDelete d
    bgpDampListAdd d
    updateInfo d fun bdi => { bdi with suppressTime := 0 }
    return .used
  else return .suppressed

/-- The last part: the record is kept while the penalty is above half the limit,
a comparison of doubles. -/
def dampKeep (d penalty : Nat) (now : Int) : RibM slots Unit :=
  if cfg.reuseLimit < 2 * penalty then
    updateInfo d fun bdi => { bdi with tUpdated := now }
  else bgpDampInfoFree cfg d false

def bgpDampUpdate (binfo rn : Nat) (now : Int) :
    RibM slots DampStatus := do
  let ri ← routeAt binfo
  match ri.dampInfo with
  | none => return .used
  | some d =>
    bgpInfoUnsetFlag cfg rn binfo [.history]
    let bdi ← infoAt d
    let penalty := cfg.decay (now - bdi.tUpdated) bdi.penalty
    updateInfo d fun bdi => { bdi with lastrecord := .update, penalty := penalty }
    let status ← dampReuse cfg binfo rn d
    dampKeep cfg d penalty now
    return status

def bgpDampScan (binfo : Nat) (now : Int) : RibM slots Bool := do
  let ri ← routeAt binfo
  match ri.dampInfo with
  | none => throw .assertion
  | some d =>
    let bdi ← infoAt d
    if ri.flags .damped then
      if cfg.maxSuppressTime ≤ now - bdi.suppressTime then
        bgpInfoUnsetFlag cfg bdi.rn binfo [.damped]
        bgpReuseListDelete d
        bgpDampListAdd d
        updateInfo d fun bdi =>
          { bdi with penalty := cfg.reuseLimit, suppressTime := 0, tUpdated := now }
        return bdi.lastrecord = .update
      else return false
    else
      let penalty := cfg.decay (now - bdi.tUpdated) bdi.penalty
      updateInfo d fun bdi => { bdi with penalty := penalty }
      if 2 * penalty ≤ cfg.reuseLimit then
        bgpDampInfoFree cfg d true
        return false
      else
        updateInfo d fun bdi => { bdi with tUpdated := now }
        return false

/-! ## The reuse timer -/

/-- What the timer does with a record it has taken off its chain. -/
def reuseTurn [NeZero slots] (now : Int) (d : Nat) :
    RibM slots Unit := do
  let bdi ← infoAt d
  let _ ← routeAt bdi.binfo
  let penalty := cfg.decay (now - bdi.tUpdated) bdi.penalty
  updateInfo d fun bdi => { bdi with penalty := penalty, tUpdated := now }
  if penalty < cfg.reuseLimit then
    bgpInfoUnsetFlag cfg bdi.rn bdi.binfo [.damped]
    updateInfo d fun bdi => { bdi with suppressTime := 0 }
    FaultM.when (bdi.lastrecord = .update) (bgpInfoUnsetFlag cfg bdi.rn bdi.binfo [.history])
    if 2 * penalty ≤ cfg.reuseLimit then bgpDampInfoFree cfg d true
    else bgpDampListAdd d
  else bgpReuseListAdd cfg d

/-- The loop of `bgp_reuse_timer` along the chain, of which the next record is
read before this one is put elsewhere. -/
def reuseLoop [NeZero slots] (cfg : RibConfig) (now : Int) :
    Nat → Option Nat → RibM slots Unit
  | _, none => return ()
  | 0, some _ => throw .loopBound
  | bound + 1, some d => do
    let bdi ← infoAt d
    reuseTurn cfg now d
    reuseLoop cfg now bound bdi.next

/-- Zero the list head of the current slot and rotate the slots. -/
def BgpRib.rotate [NeZero slots] (st : BgpRib slots) : BgpRib slots :=
  { st.setHead (some st.reuseOffset) none with
    reuseOffset := Fin.ofNat slots (st.reuseOffset + 1) }

/-- `bgp_reuse_timer`. A chain without repetitions has fewer records than
objects were allocated. -/
def bgpReuseTimer [NeZero slots] (now : Int) : RibM slots Unit := do
  let st ← get
  modify (·.rotate)
  reuseLoop cfg now st.next (st.reuseList st.reuseOffset)

end SdnQuagga
