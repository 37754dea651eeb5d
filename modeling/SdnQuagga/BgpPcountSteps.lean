import SdnQuagga.BgpPcount

/-!
# The prefix count through updates and withdrawals

What the functions that work on one route do to `Tallied`.
-/

namespace SdnQuagga

open List Function
open FaultM (Yields Preserves)

variable {slots : Nat} {cfg : RibConfig} {extra R : List Nat} {node : Nat → Nat}
  {a d : Nat} {recs : List Nat} {off : Bool} {st : BgpRib slots}

/-- A function works on the route `a`, of which the records are `recs`. While it is
`off` the route may disagree with the count. -/
structure Working (cfg : RibConfig) (extra R : List Nat) (node : Nat → Nat) (a : Nat)
    (recs : List Nat) (off : Bool) (st : BgpRib slots) : Prop where
  tallied : Tallied cfg extra node (if off then some a else none) st.tally
  rib : st.rib = R
  mem : a ∈ extra ++ st.rib
  recs : ∀ d ∈ recs, ∀ o, st.tally.owner d = some o → o = (a, node a)

theorem Working.loosen (h : Working cfg extra R node a recs off st) :
    Working cfg extra R node a recs true st := by
  cases off with
  | false => exact { h with tallied := h.tallied.loosen }
  | true => exact h

theorem Working.relax (h : Working cfg extra R node a recs false st) :
    Working cfg extra R node a recs off st := by
  cases off with
  | false => exact h
  | true => exact h.loosen

theorem Working.forget (h : Working cfg extra R node a recs off st) :
    Working cfg extra R node a [] off st :=
  { h with recs := fun _ hd => absurd hd not_mem_nil }

theorem Working.tighten (h : Working cfg extra R node a recs true st)
    (hag : ∀ ri, st.routes a = some ri → ri.Agrees cfg) :
    Working cfg extra R node a recs false st :=
  { h with tallied := h.tallied.tighten hag }

section

variable (h : Working cfg extra R node a recs off st)
include h

theorem Working.route : ∃ ri, st.routes a = some ri ∧ ri.rn = node a ∧ ri.peer ≠ cfg.peerSelf :=
  h.tallied.stored a h.mem

theorem Working.congr {st' : BgpRib slots}
    (he : st'.tally = st.tally) : Working cfg extra R node a recs off st' := by
  have hrib : st'.rib = st.rib := congrArg TallyView.rib he
  exact ⟨he ▸ h.tallied, hrib.trans h.rib, hrib ▸ h.mem, he ▸ h.recs⟩

end

/-- What a step makes of the records and of the disagreement. -/
abbrev Works (slots : Nat) (cfg : RibConfig) (extra R : List Nat) (node : Nat → Nat) (a : Nat)
    (recs : List Nat) (off : Bool) {α : Type} (m : RibM slots α) (recs' : List Nat) (off' : Bool) :
    Prop :=
  Yields (Working cfg extra R node a recs off) m fun _ => Working cfg extra R node a recs' off'

/-! ## Memory -/

variable {P : BgpRib slots → Prop} {mask : List RouteFlag} {b : Bool} {x : Nat} {upd : RibUpdate}

theorem routeAt_yields : Yields P (routeAt a) fun ri st => st.routes a = some ri ∧ P st := by
  intro st ri st' hst hr
  obtain ⟨rfl, hri⟩ := routeAt_eq_ok hr
  exact ⟨hri, hst⟩

theorem routeAt_keeps : Yields P (routeAt a) fun _ => P :=
  routeAt_yields.weaken (fun _ => id) fun _ _ h => h.2

theorem infoAt_yields : Yields P (infoAt d) fun bdi st => st.infos d = some bdi ∧ P st := by
  intro st bdi st' hst hr
  obtain ⟨rfl, hbdi⟩ := infoAt_eq_ok hr
  exact ⟨hbdi, hst⟩

variable {g : StoredRoute → StoredRoute}

theorem updateRoute_yields {Q : BgpRib slots → Prop}
    (h : ∀ st ri, P st → st.routes a = some ri → Q (st.setRoute a g)) :
    Yields P (updateRoute a g) fun _ => Q :=
  routeAt_yields.bind fun ri => .modify fun st hst => h st ri hst.2 hst.1

section

variable (h : Working cfg extra R node a recs off st) (hrn : ∀ ri, (g ri).rn = ri.rn)
  (hdp : ∀ ri, (g ri).dampInfo = ri.dampInfo) (hpe : ∀ ri, (g ri).peer = ri.peer)
  (hcn : ∀ ri, (g ri).flags .counted = ri.flags .counted)
include h hrn hdp hpe hcn

/-- A write to the route that leaves who it is from and whether it is counted. -/
theorem Working.setRoute : Working cfg extra R node a recs true (st.setRoute a g) :=
  { h with tallied := h.loosen.tallied.setRoute hrn hdp hpe hcn }

/-- One that also leaves whether it can be used. -/
theorem Working.setRoute_same (hhd : ∀ ri, st.routes a = some ri → (g ri).holddown = ri.holddown) :
    Working cfg extra R node a recs off (st.setRoute a g) := by
  have hls := h.setRoute hrn hdp hpe hcn
  cases off with
  | true => exact hls
  | false =>
    refine hls.tighten fun ri hri => ?_
    obtain ⟨ri', hri', -⟩ := h.route
    rw [BgpRib.setRoute_routes, update_self, hri'] at hri
    cases hri
    have hag := h.tallied.agree h.mem (by simp) hri'
    rw [StoredRoute.Agrees] at hag ⊢
    rwa [hrn, hcn, hhd ri' hri']

end

/-! ## Flags -/

theorem holddown_withFlags (ri : StoredRoute)
    (hmk : ∀ g ∈ RouteFlag.valid :: unuseable, g ∉ mask) (b : Bool) :
    (ri.withFlags mask b).holddown = ri.holddown := by
  simp only [unuseable, forall_mem_cons] at hmk
  obtain ⟨hvld, hhistory, hdm, hrem, -⟩ := hmk
  simp only [StoredRoute.holddown, StoredRoute.withFlags, unuseable, any_cons,
    any_nil, hvld, hhistory, hdm, hrem, if_false]

variable {ri : StoredRoute} {g : RouteFlag}

/-- The route is counted, or no longer counted. -/
theorem Working.recount (h : Working cfg extra R node a recs true st) (hri : st.routes a = some ri)
    (hma : (cfg.table (node a)).main = true) (hhd : ri.holddown = !b)
    (hcn : ri.flags .counted = !b) :
    Working cfg extra R node a recs false
      ((st.setRoute a (·.withFlags [.counted] b)).count ri.peer (cfg.table (node a)) b) := by
  obtain ⟨ri', hri', hrn, -⟩ := h.route
  rw [hri] at hri'
  cases hri'
  rw [← hrn] at hma ⊢
  refine .tighten ⟨h.tallied.recount h.mem hri hma b hcn, h.rib, h.mem, h.recs⟩ fun ri' hri' _ => ?_
  rw [BgpRib.count_routes, BgpRib.setRoute_routes, update_self, hri] at hri'
  cases hri'
  rw [holddown_withFlags ri (by decide), hhd, Bool.not_not]
  rfl

theorem bgpPcountAdjust_yields :
    Works slots cfg extra R node a recs true (bgpPcountAdjust cfg (node a) a) recs false := by
  refine .bind routeAt_yields fun ri => ?_
  have hchg : ∀ b : Bool, ri.holddown = !b → ri.flags .counted = !b →
      (cfg.table (node a)).main = true → Yields (fun st : BgpRib slots => st.routes a = some ri ∧
          Working cfg extra R node a recs true st) (do
          updateRoute a (·.withFlags [.counted] b)
          modify (·.count ri.peer (cfg.table (node a)) b))
        fun _ => Working cfg extra R node a recs false := by
    intro b hhd hcn hma
    refine .bind (updateRoute_yields fun st _ hst _ => ?_) fun _ => .modify fun st hst => hst
    exact hst.2.recount hst.1 hma hhd hcn
  refine .ite (fun hsk => .pure _ ?_) fun hsk => ?_
  · rintro st ⟨hri, h⟩
    refine h.tighten fun ri' hri' hma => ?_
    obtain ⟨ri'', hri'', hrn, hpe⟩ := h.route
    rw [hri'] at hri hri''
    cases hri
    cases hri''
    rw [← hrn, hma] at hsk
    simp [hpe] at hsk
  have hma : (cfg.table (node a)).main = true := by
    simp only [Bool.or_eq_true, Bool.not_eq_true', not_or, Bool.not_eq_false] at hsk
    exact hsk.1
  have hsm : ri.flags .counted = !ri.holddown →
      Yields (fun st : BgpRib slots => st.routes a = some ri ∧
        Working cfg extra R node a recs true st) (pure ())
        fun _ => Working cfg extra R node a recs false := by
    refine fun hag => .pure _ fun st hst => hst.2.tighten fun ri' hri' _ => ?_
    rw [hst.1] at hri'
    cases hri'
    exact hag
  cases hhd : ri.holddown <;> cases hcn : ri.flags .counted <;>
    simp only [Bool.and_true, Bool.and_false, Bool.not_true, Bool.not_false,
      Bool.false_eq_true, if_true, if_false]
  · exact hchg true hhd hcn hma
  · exact hsm (by rw [hcn, hhd]; rfl)
  · exact hsm (by rw [hcn, hhd]; rfl)
  · exact hchg false hhd hcn hma

theorem counted_withFlags (ri : StoredRoute) (hmk : .counted ∉ mask) (b : Bool) :
    (ri.withFlags mask b).flags .counted = ri.flags .counted :=
  if_neg hmk

/-- Flags that decide whether the route can be used. -/
theorem changeFlags_useable (b : Bool) (hcn : .counted ∉ mask)
    (huse : mask.any (· ∈ RouteFlag.valid :: unuseable) = true) :
    Works slots cfg extra R node a recs off (changeFlags cfg (node a) a mask b) recs false := by
  rw [changeFlags, if_pos huse]
  refine .bind (updateRoute_yields fun st _ hst _ => ?_) fun _ => bgpPcountAdjust_yields
  exact hst.setRoute (fun _ => rfl) (fun _ => rfl) (fun _ => rfl)
    fun ri => counted_withFlags ri hcn b

/-- Flags that do not. -/
theorem changeFlags_plain (b : Bool) (hcn : .counted ∉ mask)
    (huse : ∀ g ∈ RouteFlag.valid :: unuseable, g ∉ mask) :
    Works slots cfg extra R node a recs off (changeFlags cfg (node a) a mask b) recs off := by
  have hsk : mask.any (· ∈ .valid :: unuseable) = false := by
    rw [any_eq_false]
    intro g hg hm
    exact huse g (of_decide_eq_true hm) hg
  rw [changeFlags, hsk]
  refine .bind (updateRoute_yields fun st _ hst _ => ?_) fun _ => .pure _ fun _ => id
  exact hst.setRoute_same (fun _ => rfl) (fun _ => rfl) (fun _ => rfl)
    (fun ri => counted_withFlags ri hcn b) fun ri _ => holddown_withFlags ri huse b

/-- The route, if it is in memory, has the flag. -/
def HasFlag (a : Nat) (g : RouteFlag) (st : BgpRib slots) : Prop :=
  ∀ ri, st.routes a = some ri → ri.flags g = true

/-- A write that does not clear the flag. -/
theorem HasFlag.setRoute {w : StoredRoute → StoredRoute} (h : HasFlag x g st)
    (hw : ∀ ri, ri.flags g = true → (w ri).flags g = true) : HasFlag x g (st.setRoute a w) := by
  intro ri hri
  rw [BgpRib.setRoute_routes] at hri
  rcases eq_or_ne x a with rfl | hne
  · rw [update_self] at hri
    obtain ⟨ri', hri', rfl⟩ := Option.map_eq_some_iff.mp hri
    exact hw ri' (h ri' hri')
  · rw [update_of_ne hne] at hri
    exact h ri hri

theorem HasFlag.withFlags (h : HasFlag x g st) (hmk : g ∉ mask ∨ b = true) :
    HasFlag x g (st.setRoute a (·.withFlags mask b)) := by
  refine h.setRoute fun ri hri => ?_
  show (if g ∈ mask then b else ri.flags g) = true
  split
  · rcases hmk with hmk | hmk
    · contradiction
    · exact hmk
  · exact hri

theorem bgpPcountAdjust_keeps (hg : g ≠ .counted) (rn : Nat) :
    Yields (HasFlag x g : BgpRib slots → Prop) (bgpPcountAdjust cfg rn a) fun _ => HasFlag x g := by
  have hwrt b : Yields (HasFlag x g : BgpRib slots → Prop)
      (updateRoute a (·.withFlags [.counted] b)) fun _ => HasFlag x g :=
    updateRoute_yields fun st _ hst _ => hst.withFlags (.inl (by simpa using hg))
  refine .bind routeAt_keeps fun ri => .ite (fun _ => .pure _ fun _ => id) fun _ =>
    .ite (fun _ => ?_) fun _ => .ite (fun _ => ?_) fun _ => .pure _ fun _ => id
  · exact .bind (hwrt false) fun _ => .modify fun _ => id
  · exact .bind (hwrt true) fun _ => .modify fun _ => id

theorem changeFlags_keeps
    (hmk : g ∉ mask ∨ b = true) (hg : g ≠ .counted) (rn : Nat) :
    Yields (HasFlag x g : BgpRib slots → Prop) (changeFlags cfg rn a mask b) fun _ => HasFlag x g :=
  .bind (updateRoute_yields fun _ _ hst _ => hst.withFlags hmk) fun _ =>
    .ite (fun _ => bgpPcountAdjust_keeps hg rn) fun _ => .pure _ fun _ => id

theorem changeFlags_sets (hm : g ∈ mask) (hg : g ≠ .counted) (rn : Nat) :
    Yields (fun _ : BgpRib slots => True) (changeFlags cfg rn a mask true)
      fun _ => HasFlag a g := by
  refine .bind (updateRoute_yields fun st _ _ _ => ?_) fun _ =>
    .ite (fun _ => bgpPcountAdjust_keeps hg rn) fun _ => .pure _ fun _ => id
  intro ri hri
  rw [BgpRib.setRoute_routes, update_self] at hri
  obtain ⟨ri', -, rfl⟩ := Option.map_eq_some_iff.mp hri
  exact if_pos hm

/-- `bgp_info_delete` clears `BGP_INFO_VALID` without an adjustment; by then the
route cannot be used anyway. -/
theorem bgpInfoDelete_yields :
    Works slots cfg extra R node a recs off (bgpInfoDelete cfg (node a) a) recs false := by
  have hs : Yields (Working cfg extra R node a recs off : BgpRib slots → Prop)
      (bgpInfoSetFlag cfg (node a) a [.removed])
      fun _ st => Working cfg extra R node a recs false st ∧ HasFlag a .removed st :=
    .weaken ((changeFlags_useable true (by simp) (by decide)).and
      (changeFlags_sets (mem_singleton_self _) (by simp) (node a)))
      (fun _ h => ⟨h, trivial⟩) fun _ _ => id
  refine hs.bind fun _ => updateRoute_yields fun st _ hst _ => ?_
  refine hst.1.setRoute_same (fun _ => rfl) (fun _ => rfl) (fun _ => rfl)
    (fun ri => counted_withFlags ri (by simp) false) fun ri hri => ?_
  have hrem := hst.2 ri hri
  simp [StoredRoute.holddown, StoredRoute.withFlags, unuseable, hrem]

/-- `bgp_info_restore` sets it without one, so the route may be off. -/
theorem bgpInfoRestore_yields :
    Works slots cfg extra R node a recs off (bgpInfoRestore cfg (node a) a) recs true := by
  refine .bind (changeFlags_useable false (by simp) (by decide)) fun _ =>
    updateRoute_yields fun st _ hst _ => ?_
  exact hst.setRoute (fun _ => rfl) (fun _ => rfl) (fun _ => rfl)
    fun ri => counted_withFlags ri (by simp) true

/-! ## Dampening records -/

theorem tally_setInfo {g : DampInfo slots → DampInfo slots} (st : BgpRib slots) (d : Nat)
    (hg : ∀ bdi, (g bdi).binfo = bdi.binfo ∧ (g bdi).rn = bdi.rn) :
    (st.setInfo d g).tally = st.tally := by
  ext1
  · rfl
  · rfl
  · rfl
  · rfl
  · funext x
    rw [BgpRib.tally_owner, BgpRib.tally_owner, BgpRib.setInfo_infos]
    rcases eq_or_ne x d with rfl | hne
    · rw [update_self, Option.map_map]
      refine Option.map_congr fun bdi _ => ?_
      exact Prod.ext (hg bdi).1 (hg bdi).2
    · rw [update_of_ne hne]

theorem tally_listFree : ListFree (BgpRib.tally : BgpRib slots → TallyView) where
  info st d g hg := tally_setInfo st d fun bdi => by
    obtain ⟨next, prev, index, he⟩ := hg bdi
    rw [he]
    exact ⟨rfl, rfl⟩
  head st k o := by cases k <;> rfl

/-- What leaves the view leaves the invariant. -/
theorem working_of_preserves {α : Type} {m : RibM slots α} (h : Preserves BgpRib.tally m) :
    Works slots cfg extra R node a recs off m recs off :=
  fun st x st' hst hr => hst.congr (h st x st' hr)

theorem updateInfo_yields {g : DampInfo slots → DampInfo slots}
    (hg : ∀ bdi, (g bdi).binfo = bdi.binfo ∧ (g bdi).rn = bdi.rn) :
    Works slots cfg extra R node a recs off (updateInfo d g) recs off :=
  working_of_preserves (preserves_infoAt.bind fun _ => .modify fun st => tally_setInfo st d hg)

/-- The record that the route has is one of its own. -/
theorem Working.addRecord (h : Working cfg extra R node a recs off st)
    (hri : st.routes a = some ri) (hd : ri.dampInfo = some d) :
    Working cfg extra R node a (d :: recs) off st := by
  refine { h with recs := fun x hx o ho => ?_ }
  rcases mem_cons.mp hx with rfl | hx
  · exact h.tallied.record h.mem hri hd ho
  · exact h.recs x hx o ho

variable (st)

theorem tally_allocInfo (bdi : DampInfo slots) :
    (st.allocInfo bdi).tally = st.tally.allocInfo (bdi.binfo, bdi.rn) := by
  ext1
  · rfl
  · rfl
  · rfl
  · rfl
  · exact comp_update (Option.map fun bdi : DampInfo slots => (bdi.binfo, bdi.rn)) ..

theorem tally_freeInfo (d : Nat) : (st.freeInfo d).tally = st.tally.freeInfo d := by
  ext1
  · rfl
  · rfl
  · rfl
  · rfl
  · exact comp_update (Option.map fun bdi : DampInfo slots => (bdi.binfo, bdi.rn)) ..

variable {st}

theorem Working.newRecord {bdi : DampInfo slots}
    (h : Working cfg extra R node a recs off st) (hbi : bdi.binfo = a) (hrn : bdi.rn = node a) :
    Working cfg extra R node a (st.next :: recs) off
      ((st.allocInfo bdi).setRoute a fun ri => { ri with dampInfo := some st.next }) := by
  have hsf : (st.allocInfo bdi).tally.owner st.next = some (a, node a) := by simp [hbi, hrn]
  have halloc : Tallied cfg extra node (if off then some a else none) (st.allocInfo bdi).tally := by
    rw [tally_allocInfo]
    exact h.tallied.allocInfo _
  refine ⟨halloc.setDampInfo ?_ ?_, h.rib, h.mem, fun x hx o ho => ?_⟩
  · rintro d ⟨⟩
    exact Nat.lt_succ_self _
  · rintro d w ⟨⟩ hw
    rw [hsf] at hw
    cases hw
    rfl
  · have hoth : x ≠ st.next → (st.allocInfo bdi).tally.owner x = st.tally.owner x := by
      intro hne
      rw [tally_allocInfo]
      exact update_of_ne hne _ _
    rcases eq_or_ne x st.next with rfl | hne
    · have ho' : (st.allocInfo bdi).tally.owner st.next = some o := ho
      rw [hsf] at ho'
      cases ho'
      rfl
    · rcases mem_cons.mp hx with rfl | hx
      · exact absurd rfl hne
      · exact h.recs x hx o ((hoth hne).symm.trans ho)

theorem dampRecord_yields (attrChange : Bool) (now : Int) :
    Yields (Working cfg extra R node a recs off : BgpRib slots → Prop)
      (dampRecord cfg a (node a) attrChange now)
      fun r => Working cfg extra R node a (r.1 :: recs) off := by
  refine .bind routeAt_yields fun ri => ?_
  cases hd : ri.dampInfo with
  | none =>
    refine .get_bind fun st0 _ => ?_
    dsimp only
    have hn : Yields (fun st : BgpRib slots => st = st0 ∧ st.routes a = some ri ∧
          Working cfg extra R node a recs off st)
        (modify (·.allocInfo
          { next := none, prev := none, penalty := flapPenalty attrChange, tUpdated := 0,
            suppressTime := 0, binfo := a, rn := node a, index := none,
            lastrecord := .none }))
        fun _ st => Working cfg extra R node a (st0.next :: recs) off
          (st.setRoute a fun ri => { ri with dampInfo := some st0.next }) := by
      refine .modify ?_
      rintro st ⟨rfl, -, h⟩
      exact h.newRecord rfl rfl
    refine hn.bind fun _ => .bind (updateRoute_yields fun st _ hst _ => hst) fun _ => ?_
    exact .bind (working_of_preserves (tally_listFree.infoAdd none _)) fun _ =>
      .pure _ fun _ => id
  | some d =>
    have hrd : Yields (fun st : BgpRib slots => st.routes a = some ri ∧
          Working cfg extra R node a recs off st) (infoAt d)
        fun _ => Working cfg extra R node a (d :: recs) off :=
      infoAt_yields.weaken (fun _ => id) fun _ _ h => h.2.2.addRecord h.2.1 hd
    refine hrd.bind fun bdi => ?_
    dsimp only
    exact .bind (updateInfo_yields fun _ => ⟨rfl, rfl⟩) fun _ => .pure _ fun _ => id

/-- What a record of the route says of it. -/
theorem infoAt_record (hd : d ∈ recs) :
    Yields (Working cfg extra R node a recs off : BgpRib slots → Prop) (infoAt d)
      fun bdi st => (bdi.binfo = a ∧ bdi.rn = node a) ∧ Working cfg extra R node a recs off st := by
  refine infoAt_yields.weaken (fun _ => id) fun bdi st h => ⟨?_, h.2⟩
  exact Prod.mk.inj (h.2.recs d hd (bdi.binfo, bdi.rn) (by simp [h.1]))

section

variable (h : Working cfg extra R node a recs off st)
include h

theorem Working.clearRecord :
    Working cfg extra R node a recs off (st.setRoute a fun ri => { ri with dampInfo := none }) := by
  refine { h with tallied := h.tallied.setDampInfo ?_ ?_ }
  · intro d hd
    cases hd
  · intro d w hd
    cases hd

theorem Working.freeInfo (d : Nat) : Working cfg extra R node a recs off (st.freeInfo d) := by
  refine ⟨?_, h.rib, h.mem, fun x hx o ho => ?_⟩
  · rw [tally_freeInfo]
    exact h.tallied.freeInfo d
  · rw [tally_freeInfo, TallyView.freeInfo_owner] at ho
    rcases eq_or_ne x d with rfl | hne
    · rw [update_self] at ho
      cases ho
    · rw [update_of_ne hne] at ho
      exact h.recs x hx o ho

end

/-- The flags of the route are cleared with an adjustment. -/
theorem bgpDampInfoFree_yields (hd : d ∈ recs) (withdraw : Bool) :
    Works slots cfg extra R node a recs off (bgpDampInfoFree cfg d withdraw) recs false := by
  refine .bind (infoAt_record hd) fun bdi => .assume fun hbdi => ?_
  rw [hbdi.1, hbdi.2]
  refine .bind (updateRoute_yields fun st _ hst _ => hst.clearRecord) fun _ => ?_
  refine .bind routeAt_keeps fun _ => ?_
  refine .bind (working_of_preserves (tally_listFree.dampUnlink d _)) fun _ => ?_
  refine .bind (changeFlags_useable false (by simp) (by decide)) fun _ => ?_
  refine .bind (.when (fun _ => bgpInfoDelete_yields) fun _ _ => id) fun _ => ?_
  exact .modify fun st hst => hst.freeInfo d

/-- The route becomes historical with an adjustment. -/
theorem bgpDampWithdraw_yields [NeZero slots] (attrChange : Bool) (now : Int) :
    Works slots cfg extra R node a recs off
      (bgpDampWithdraw cfg a (node a) attrChange now) [] false := by
  refine .bind (dampRecord_yields attrChange now) fun r => ?_
  obtain ⟨d, lastPenalty⟩ := r
  refine .bind (infoAt_record (mem_cons_self ..)) fun bdi => .assume fun hbdi => ?_
  refine .bind .check fun _ => .assume fun _ => ?_
  refine .bind (updateInfo_yields fun _ => ⟨rfl, rfl⟩) fun _ => ?_
  refine .bind (changeFlags_useable true (by simp) (by decide)) fun _ => ?_
  refine .bind routeAt_keeps fun ri => .ite (fun _ => ?_) fun _ => .ite (fun _ => ?_)
    fun _ => .pure _ fun _ hst => hst.forget
  · refine .bind (.when (fun _ => working_of_preserves ?_) fun _ _ => id) fun _ =>
      .pure _ fun _ hst => hst.forget
    exact (tally_listFree.bgpReuseListDelete d).bind fun _ =>
      tally_listFree.bgpReuseListAdd cfg d
  · refine .bind (changeFlags_useable true (by simp) (by decide)) fun _ => ?_
    refine .bind (updateInfo_yields fun _ => ⟨rfl, rfl⟩) fun _ => ?_
    refine .bind (working_of_preserves (tally_listFree.infoDel none d)) fun _ => ?_
    exact .bind (working_of_preserves (tally_listFree.bgpReuseListAdd cfg d)) fun _ =>
      .pure _ fun _ hst => hst.forget

theorem dampReuse_yields (d : Nat) :
    Works slots cfg extra R node a recs false (dampReuse cfg a (node a) d) recs false := by
  refine .bind (working_of_preserves preserves_infoAt) fun bdi =>
    .bind routeAt_keeps fun ri => .ite (fun _ => .pure _ fun _ => id) fun _ =>
    .ite (fun _ => ?_) fun _ => .pure _ fun _ => id
  refine .bind (changeFlags_useable false (by simp) (by decide)) fun _ => ?_
  refine .bind (working_of_preserves (tally_listFree.bgpReuseListDelete d)) fun _ => ?_
  refine .bind (working_of_preserves (tally_listFree.infoAdd none d)) fun _ => ?_
  exact .bind (updateInfo_yields fun _ => ⟨rfl, rfl⟩) fun _ => .pure _ fun _ => id

/-- If the route stays suppressed it has been adjusted. -/
theorem bgpDampUpdate_yields (now : Int) :
    Yields (Working cfg extra R node a recs off : BgpRib slots → Prop)
      (bgpDampUpdate cfg a (node a) now) fun status st =>
        Working cfg extra R node a [] off st ∧
          (status = .suppressed → Working cfg extra R node a [] false st) := by
  refine .bind routeAt_yields fun ri => ?_
  cases hd : ri.dampInfo with
  | none =>
    refine .pure _ fun st hst => ⟨hst.2.forget, fun hstatus => ?_⟩
    cases hstatus
  | some d =>
    have hrecord : Yields (fun st : BgpRib slots => st.routes a = some ri ∧
          Working cfg extra R node a recs off st) (bgpInfoUnsetFlag cfg (node a) a [.history])
        fun _ => Working cfg extra R node a (d :: recs) false :=
      .weaken (changeFlags_useable false (by simp) (by decide))
        (fun _ hst => hst.2.addRecord hst.1 hd) fun _ _ => id
    refine hrecord.bind fun _ => .bind (working_of_preserves preserves_infoAt) fun bdi => ?_
    dsimp only
    refine .bind (updateInfo_yields fun _ => ⟨rfl, rfl⟩) fun _ => ?_
    refine .bind (dampReuse_yields d) fun status => ?_
    refine .bind (.ite (fun _ => updateInfo_yields fun _ => ⟨rfl, rfl⟩) fun _ =>
      bgpDampInfoFree_yields (mem_cons_self ..) false) fun _ => ?_
    exact .pure _ fun st hst => ⟨hst.forget.relax, fun _ => hst.forget⟩

theorem bgpDampScan_yields (now : Int) :
    Works slots cfg extra R node a recs false (bgpDampScan cfg a now) [] false := by
  refine .bind routeAt_yields fun ri => ?_
  cases hd : ri.dampInfo with
  | none => exact .throw _
  | some d =>
    have hrd : Yields (fun st : BgpRib slots => st.routes a = some ri ∧
          Working cfg extra R node a recs false st) (infoAt d)
        fun bdi st => (bdi.binfo = a ∧ bdi.rn = node a) ∧
          Working cfg extra R node a (d :: recs) false st :=
      .weaken (infoAt_record (mem_cons_self ..))
        (fun _ hst => hst.2.addRecord hst.1 hd) fun _ _ => id
    refine hrd.bind fun bdi => .assume fun hbdi => ?_
    rw [hbdi.2]
    refine .ite (fun _ => .ite (fun _ => ?_) fun _ => .pure _ fun _ hst => hst.forget) fun _ => ?_
    · refine .bind (changeFlags_useable false (by simp) (by decide)) fun _ => ?_
      refine .bind (working_of_preserves (tally_listFree.bgpReuseListDelete d)) fun _ => ?_
      refine .bind (working_of_preserves (tally_listFree.infoAdd none d)) fun _ => ?_
      exact .bind (updateInfo_yields fun _ => ⟨rfl, rfl⟩) fun _ =>
        .pure _ fun _ hst => hst.forget
    · dsimp only
      refine .bind (updateInfo_yields fun _ => ⟨rfl, rfl⟩) fun _ => .ite (fun _ => ?_) fun _ => ?_
      · exact .bind (bgpDampInfoFree_yields (mem_cons_self ..) true) fun _ =>
          .pure _ fun _ hst => hst.forget
      · exact .bind (updateInfo_yields fun _ => ⟨rfl, rfl⟩) fun _ =>
          .pure _ fun _ hst => hst.forget

/-! ## Withdrawals and updates -/

theorem bgpRibRemove_yields :
    Works slots cfg extra R node a recs false (bgpRibRemove cfg (node a) a) recs false :=
  .bind routeAt_keeps fun _ => .when (fun _ => bgpInfoDelete_yields) fun _ _ => id

theorem bgpRibWithdraw_yields [NeZero slots] (dampening : Bool) (now : Int) :
    Works slots cfg extra R node a recs false
      (bgpRibWithdraw cfg (node a) a dampening now) [] false := by
  refine .ite (fun _ => ?_) fun _ => .weaken bgpRibRemove_yields (fun _ hst => hst.forget)
    fun _ _ => id
  exact .bind (bgpDampWithdraw_yields false now) fun status =>
    .when (fun _ => bgpRibRemove_yields) fun _ _ => id

variable (hrn : upd.key.rn = node a)
include hrn

theorem nexthopValid_yields :
    Works slots cfg extra R node a recs off (nexthopValid cfg upd a) recs false := by
  rw [nexthopValid, hrn]
  exact .ite (fun _ => .ite (fun _ => changeFlags_useable true (by simp) (by decide))
    fun _ => changeFlags_useable false (by simp) (by decide)) fun _ =>
    changeFlags_useable true (by simp) (by decide)

variable (now : Int)

theorem updateSame_yields :
    Works slots cfg extra R node a [] false (updateSame cfg upd a now) [] false := by
  rw [updateSame, hrn]
  refine .bind (changeFlags_plain false (by simp) (by decide)) fun _ =>
    .bind routeAt_keeps fun ri => .ite (fun _ => ?_) fun _ =>
    .when (fun _ => changeFlags_plain false (by simp) (by decide)) fun _ _ => id
  exact .bind (bgpDampUpdate_yields now) fun _ => .pure _ fun _ hst => hst.1

theorem implicitWithdraw_yields [NeZero slots] :
    Works slots cfg extra R node a [] true (implicitWithdraw cfg upd a now) [] true := by
  rw [implicitWithdraw, hrn]
  refine .bind routeAt_keeps fun ri => .when (fun _ => ?_) fun _ _ => id
  exact .bind (bgpDampWithdraw_yields true now) fun _ => .pure _ fun _ hst => hst.loosen

/-- A route that is restored is off until it is dampened or its next hop is
checked, and one of the two comes. -/
theorem updateChanged_yields [NeZero slots] :
    Works slots cfg extra R node a [] false (updateChanged cfg upd a now) [] false := by
  rw [updateChanged, hrn]
  refine .bind routeAt_keeps fun ri => ?_
  refine .bind (.when (fun _ => bgpInfoRestore_yields) fun _ _ hst => hst.loosen) fun _ => ?_
  refine .bind (.when (fun _ => changeFlags_plain false (by simp) (by decide)) fun _ _ => id)
    fun _ => ?_
  refine .bind (changeFlags_plain true (by simp) (by decide)) fun _ => ?_
  refine .bind (implicitWithdraw_yields hrn now) fun _ => ?_
  refine .bind (updateRoute_yields fun st _ hst _ => hst.setRoute (fun _ => rfl)
    (fun _ => rfl) (fun _ => rfl) fun _ => rfl) fun _ => ?_
  refine .ite (fun _ => ?_) fun _ => nexthopValid_yields hrn
  refine .bind (bgpDampUpdate_yields now) fun status => .when (fun _ => ?_) ?_
  · exact .weaken (nexthopValid_yields hrn) (fun _ hst => hst.1) fun _ _ => id
  · exact fun hstatus st hst => hst.2 (not_not.mp hstatus)

theorem updateKnown_yields [NeZero slots] :
    Works slots cfg extra R node a [] false (updateKnown cfg upd a now) [] false := by
  refine .bind routeAt_keeps fun ri => .ite (fun _ => ?_) fun _ => .ite
    (fun _ => updateSame_yields hrn now) fun _ => updateChanged_yields hrn now
  rw [hrn]
  exact bgpRibRemove_yields

end SdnQuagga
