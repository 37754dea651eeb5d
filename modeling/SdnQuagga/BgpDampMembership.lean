import SdnQuagga.BgpDampLists

/-!
# Every dampening record on its list

`bgp_damp_withdraw`, `bgp_damp_update`, `bgp_damp_scan` and `bgp_damp_info_free`
leave every record on the list its route calls for (`DampListed`).
`bgp_reuse_timer` does so as long as no penalty on the chain it takes off has
fallen to half the reuse limit. Such a record is freed, and by then its route is no
longer marked as suppressed: `bgp_damp_info_free` takes it off `no_reuse_list`,
where it is not, and the head of that list is overwritten.
-/

namespace SdnQuagga

open List Function
open FaultM (Ensures Preserves)
open LinkedLists (Lists Follows)

variable {slots : Nat} {v : DampView slots} {f : Option (Fin slots) → List Nat}
  {cfg : RibConfig} {a d rn : Nat} {place : DampPlace slots} {owner : DampOwner}

/-! ## Dampening -/

variable (st : BgpRib slots)

/-- Every record is where its route says. -/
def DampListed : Prop := ∃ f, st.view.Valid f []

theorem AtView.listed {st : BgpRib slots} (hst : AtView v st) (h : v.Valid f []) :
    DampListed st := by
  rw [AtView] at hst
  exact ⟨f, hst ▸ h⟩

theorem view_freeInfo (d : Nat) : (st.freeInfo d).view = st.view.free d := by
  ext1
  · ext1
    · rfl
    · exact comp_update (Option.bind · DampInfo.next) ..
    · exact comp_update (Option.bind · DampInfo.prev) ..
  · exact comp_update (Option.map DampInfo.place) ..
  · rfl
  · rfl

theorem bgpDampInfoFree_ensures (h : v.Valid f []) (hlv : v.Live d) (withdraw : Bool) :
    Ensures (AtView v) (bgpDampInfoFree cfg d withdraw) fun _ => DampListed := by
  obtain ⟨place, hpl⟩ := hlv
  obtain ⟨owner, how, -, -⟩ := h.owner hpl
  obtain ⟨k, hhm, hm⟩ := h.home hpl how not_mem_nil
  refine (infoAt_view hpl).bind fun bdi => .assume fun hbdi => ?_
  have hbi : bdi.binfo = place.binfo := congrArg DampPlace.binfo hbdi.1
  rw [hbi]
  refine (updateRoute_dampInfo ⟨owner, how⟩ none).bind fun _ => ?_
  have hgiven : (v.setDampInfo place.binfo none).routes place.binfo =
      some { owner with dampInfo := none } := by simp [how]
  refine (routeAt_view hgiven).bind fun ri => .assume fun hri => ?_
  have hdm : ri.flags .damped = owner.damped := congrArg DampOwner.damped hri
  rw [hdm]
  refine .bind (dampUnlink_listed ?_ ?_ ?_ hhm hm) fun _ => ?_
  · exact h.holds
  · exact fun x => h.live
  · exact hpl
  refine .bind (changeFlags_damped ?_ (by simp) false) fun _ => ?_
  · exact ⟨_, hgiven⟩
  refine .bind (.when (fun _ => bgpInfoDelete_view ?_) fun _ _ => id) fun _ =>
    .modify fun st hst => ?_
  · exact ⟨{ owner with dampInfo := none, damped := false }, by simp [how]⟩
  · have hvw : AtView (.free _ d) (st.freeInfo d) :=
      (view_freeInfo st d).trans (congrArg (DampView.free · d) hst)
    exact hvw.listed (h.discard hpl hm)

variable {bdi : DampInfo slots} {now : Int} {g : DampInfo slots → DampInfo slots}

theorem view_allocInfo (hnx : bdi.next = none) (hpv : bdi.prev = none) :
    (st.allocInfo bdi).view = st.view.alloc bdi.place := by
  ext1
  · ext1
    · rfl
    · rw [DampView.alloc, ← hnx]
      exact comp_update (Option.bind · DampInfo.next) ..
    · rw [DampView.alloc, ← hpv]
      exact comp_update (Option.bind · DampInfo.prev) ..
  · exact comp_update (Option.map DampInfo.place) ..
  · rfl
  · rfl

theorem allocInfo_view (hnx : bdi.next = none) (hpv : bdi.prev = none) :
    Ensures (AtView v) (modify (·.allocInfo bdi) : RibM slots Unit) fun _ =>
      AtView (v.alloc bdi.place) := by
  refine .modify ?_
  rintro st rfl
  exact view_allocInfo st hnx hpv

/-- The route is stored at its node and has the record. -/
def HasRecord (v : DampView slots) (a rn d : Nat) : Prop :=
  ∃ owner, v.routes a = some owner ∧ owner.dampInfo = some d ∧ owner.rn = rn

section

variable (h : v.Valid f [])
include h

theorem dampRecord_ensures (how : v.routes a = some owner)
    (hrn : owner.rn = rn) (attrChange : Bool) (now : Int) :
    Ensures (AtView v) (dampRecord cfg a rn attrChange now) fun r st =>
      DampListed st ∧ HasRecord st.view a rn r.1 := by
  refine (routeAt_view how).bind fun ri => .assume fun hri => ?_
  have hif : ri.dampInfo = owner.dampInfo := congrArg DampOwner.dampInfo hri
  cases hd : owner.dampInfo with
  | some d =>
    rw [hif, hd]
    obtain ⟨place, hpl, -⟩ := h.back how hd
    refine (infoAt_view hpl).bind fun bdi => .assume fun _ => ?_
    dsimp only
    refine .bind (updateInfo_same ⟨place, hpl⟩ fun _ => ⟨rfl, rfl, rfl⟩) fun _ => ?_
    refine .pure _ ?_
    rintro st rfl
    exact ⟨⟨f, h⟩, owner, how, hd, hrn⟩
  | none =>
    rw [hif, hd]
    have hdm : owner.damped = false := by
      by_contra hdm
      obtain ⟨d, hd'⟩ := h.damped how (Bool.eq_true_of_not_eq_false hdm)
      rw [hd] at hd'
      cases hd'
    refine ensures_get fun st hst => ?_
    have hnx : st.next = v.next := congrArg DampView.next hst
    dsimp only
    rw [hnx]
    have hvld := h.alloc ⟨a, rn, none⟩ how hd hrn
    have hsf : ((v.alloc ⟨a, rn, none⟩).setDampInfo a (some v.next)).routes a =
        some { owner with dampInfo := some v.next } := by simp [how]
    have hpl : ((v.alloc ⟨a, rn, none⟩).setDampInfo a (some v.next)).infos v.next =
        some ⟨a, rn, none⟩ := update_self ..
    have hnt : ∀ k, v.next ∉ f k := by
      intro k hk
      obtain ⟨place, hpl⟩ := h.live hk
      exact lt_irrefl _ (h.fresh hpl)
    refine .bind (allocInfo_view rfl rfl) fun _ => ?_
    refine .bind (updateRoute_dampInfo ?_ (some v.next)) fun _ => ?_
    · exact ⟨owner, how⟩
    refine .bind (infoAdd_valid hvld ⟨_, hpl⟩ none) fun _ => .pure _ fun st hst => ?_
    refine ⟨hst.listed (hvld.push_none hpl hsf hdm hnt), ?_⟩
    rw [AtView] at hst
    rw [hst]
    exact ⟨_, hsf, rfl, hrn⟩

theorem rechain_ensures [NeZero slots] (hpl : v.infos d = some place)
    (how : v.routes place.binfo = some owner) (hdm : owner.damped = true) :
    Ensures (AtView v) (do
        bgpReuseListDelete d
        bgpReuseListAdd cfg d)
      fun _ => DampListed := by
  obtain ⟨i, hix, hm⟩ := h.home_damped hpl how hdm not_mem_nil
  have hls : d ∈ [d] := mem_singleton_self d
  have hrem := (h.loosen fun x hx => absurd hx not_mem_nil).remove hm hls
  refine .bind (bgpReuseListDelete_listed h.holds (fun x => h.live) hpl hix hm) fun _ => ?_
  refine .weaken (bgpReuseListAdd_view hrem hpl hls) (fun _ => id) ?_
  rintro _ st ⟨j, hst⟩
  exact hst.listed (hrem.push_some hpl how hdm (h.not_mem_remove hm) j)

/-- A route that becomes suppressed: its record goes to a chain. -/
theorem suppress_ensures [NeZero slots] (hpl : v.infos d = some place)
    (how : v.routes place.binfo = some owner) (hdm : owner.damped = false) (now : Int) :
    Ensures (AtView v) (do
        bgpInfoSetFlag cfg rn place.binfo [.damped]
        updateInfo d fun bdi => { bdi with suppressTime := now }
        bgpDampListDel d
        bgpReuseListAdd cfg d
        return DampStatus.used)
      fun _ => DampListed := by
  have hd := h.dampInfo_eq hpl how
  obtain ⟨k, hhm, hm⟩ := h.home hpl how not_mem_nil
  rw [Home, hdm] at hhm
  cases hhm
  have hls : d ∈ [d] := mem_singleton_self d
  have hfg := (h.loosen fun x hx => absurd hx not_mem_nil).setDamped how hd hls true
  have hrem := hfg.remove hm hls
  have hsf := DampView.setDamped_self how true
  refine .bind (changeFlags_damped ⟨owner, how⟩ (by simp) true) fun _ => ?_
  refine .bind (updateInfo_same ?_ fun _ => ⟨rfl, rfl, rfl⟩) fun _ => ?_
  · exact ⟨place, hpl⟩
  refine .bind (infoDel_listed ?_ ?_ hm) fun _ => ?_
  · exact hfg.holds
  · exact fun x => hfg.live
  refine .bind (bgpReuseListAdd_view hrem hpl hls) fun _ => .pure _ ?_
  rintro st ⟨j, hst⟩
  exact hst.listed (hrem.push_some hpl hsf rfl (h.not_mem_remove hm) j)

theorem bgpDampWithdraw_ensures [NeZero slots]
    (how : v.routes a = some owner) (hrn : owner.rn = rn) (attrChange : Bool) (now : Int) :
    Ensures (AtView v) (bgpDampWithdraw cfg a rn attrChange now) fun _ =>
      DampListed := by
  refine .bind (dampRecord_ensures h how hrn attrChange now) fun r => ?_
  rintro st ⟨⟨f', h'⟩, owner', how', hd, hrn'⟩
  obtain ⟨place, hpl, rfl⟩ := h'.back how' hd
  obtain ⟨owner'', howner'', -, hplacern⟩ := h'.owner hpl
  rw [how'] at howner''
  cases howner''
  refine (?_ : Ensures (AtView st.view) _ _) st rfl
  refine .bind (infoAt_view hpl) fun bdi => .assume fun hbdi => ?_
  have hbi : bdi.binfo = place.binfo := congrArg DampPlace.binfo hbdi.1
  have hbrn : bdi.rn = place.rn := congrArg DampPlace.rn hbdi.1
  rw [hbi, hbrn]
  refine .bind (.check ⟨hrn'.symm.trans hplacern, rfl⟩) fun _ => ?_
  refine .bind (updateInfo_same ⟨place, hpl⟩ fun _ => ⟨rfl, rfl, rfl⟩) fun _ => ?_
  refine .bind (changeFlags_other ⟨owner', how'⟩ (by simp) true) fun _ => ?_
  refine .bind (routeAt_view how') fun ri => .assume fun hri => ?_
  have hdm : ri.flags .damped = owner'.damped := congrArg DampOwner.damped hri
  rw [hdm]
  refine .ite (fun hsup => ?_) fun hsup => .ite (fun _ => ?_) fun _ => ?_
  · refine .bind (.when (fun _ => rechain_ensures h' hpl how' hsup) ?_) fun _ =>
      .pure _ fun _ => id
    exact fun _ st hst => hst.listed h'
  · exact suppress_ensures h' hpl how' (Bool.eq_false_of_not_eq_true hsup) now
  · exact .pure _ fun st hst => hst.listed h'

/-- A route that is used again: its record goes to `no_reuse_list`. -/
theorem reuse_ensures {β : Type}
    (hpl : v.infos d = some place)
    (how : v.routes place.binfo = some owner) (hdm : owner.damped = true)
    (hg : ∀ bdi, (g bdi).next = bdi.next ∧ (g bdi).prev = bdi.prev
      ∧ (g bdi).place = bdi.place) (b : β) :
    Ensures (AtView v) (do
        bgpInfoUnsetFlag cfg rn place.binfo [.damped]
        bgpReuseListDelete d
        bgpDampListAdd d
        updateInfo d g
        return b)
      fun _ st => DampListed st ∧ st.view.Live d := by
  have hd := h.dampInfo_eq hpl how
  obtain ⟨i, hix, hm⟩ := h.home_damped hpl how hdm not_mem_nil
  have hls : d ∈ [d] := mem_singleton_self d
  have hfg := (h.loosen fun x hx => absurd hx not_mem_nil).setDamped how hd hls false
  have hrem := hfg.remove hm hls
  have hsf := DampView.setDamped_self how false
  refine .bind (changeFlags_damped ⟨owner, how⟩ (by simp) false) fun _ => ?_
  refine .bind (bgpReuseListDelete_listed hfg.holds (fun x => hfg.live) ?_ hix hm) fun _ => ?_
  · exact hpl
  refine .bind (infoAdd_valid hrem ⟨place, hpl⟩ none) fun _ => ?_
  refine .bind (updateInfo_same ?_ hg) fun _ => .pure _ fun st hst => ?_
  · exact ⟨place, hpl⟩
  refine ⟨hst.listed (hrem.push_none hpl hsf rfl (h.not_mem_remove hm)), ?_⟩
  rw [AtView] at hst
  rw [hst]
  exact ⟨place, hpl⟩

theorem dampReuse_ensures (hpl : v.infos d = some place) (rn : Nat) :
    Ensures (AtView v) (dampReuse cfg place.binfo rn d) fun _ st =>
      DampListed st ∧ st.view.Live d := by
  obtain ⟨owner, how, -, -⟩ := h.owner hpl
  have hsm : ∀ st : BgpRib slots, AtView v st → DampListed st ∧ st.view.Live d := by
    rintro st rfl
    exact ⟨⟨f, h⟩, place, hpl⟩
  refine .bind (infoAt_view hpl) fun bdi => .assume fun hbdi => ?_
  have hbi : bdi.binfo = place.binfo := congrArg DampPlace.binfo hbdi.1
  rw [hbi]
  refine .bind (routeAt_view how) fun ri => .assume fun hri => ?_
  have hdm : ri.flags .damped = owner.damped := congrArg DampOwner.damped hri
  rw [hdm]
  refine .ite (fun _ => .pure _ hsm) fun _ => .ite (fun hsup => ?_) fun _ =>
    .pure _ hsm
  rw [Bool.and_eq_true] at hsup
  refine reuse_ensures h hpl how hsup.1 ?_ _
  exact fun _ => ⟨rfl, rfl, rfl⟩

end

theorem dampKeep_ensures (penalty : Nat) (now : Int) :
    Ensures (fun st : BgpRib slots => DampListed st ∧ st.view.Live d)
      (dampKeep cfg d penalty now) fun _ => DampListed := by
  rintro st ⟨⟨f, h⟩, hlv⟩
  refine (?_ : Ensures (AtView st.view) _ _) st rfl
  refine .ite (fun _ => ?_) fun _ => bgpDampInfoFree_ensures h hlv false
  refine .weaken (updateInfo_same hlv ?_) (fun _ => id) fun _ st hst => hst.listed h
  exact fun _ => ⟨rfl, rfl, rfl⟩

theorem bgpDampUpdate_ensures (h : v.Valid f []) (how : v.routes a = some owner)
    (rn : Nat) (now : Int) :
    Ensures (AtView v) (bgpDampUpdate cfg a rn now) fun _ => DampListed := by
  refine .bind (routeAt_view how) fun ri => .assume fun hri => ?_
  have hif : ri.dampInfo = owner.dampInfo := congrArg DampOwner.dampInfo hri
  cases hd : owner.dampInfo with
  | none =>
    rw [hif, hd]
    exact .pure _ fun st hst => hst.listed h
  | some d =>
    rw [hif, hd]
    obtain ⟨place, hpl, rfl⟩ := h.back how hd
    refine .bind (changeFlags_other ⟨owner, how⟩ (by simp) false) fun _ => ?_
    refine .bind (infoAt_view hpl) fun bdi => .assume fun _ => ?_
    dsimp only
    refine .bind (updateInfo_same ⟨place, hpl⟩ fun _ => ⟨rfl, rfl, rfl⟩) fun _ => ?_
    refine .bind (dampReuse_ensures h hpl rn) fun _ => ?_
    exact .bind (dampKeep_ensures _ now) fun _ => .pure _ fun _ => id

theorem bgpDampScan_ensures (h : v.Valid f []) (how : v.routes a = some owner)
    (hd : owner.dampInfo = some d) (now : Int) :
    Ensures (AtView v) (bgpDampScan cfg a now) fun _ => DampListed := by
  obtain ⟨place, hpl, rfl⟩ := h.back how hd
  have hsm : ∀ st : BgpRib slots, AtView v st → DampListed st := fun st hst => hst.listed h
  refine .bind (routeAt_view how) fun ri => .assume fun hri => ?_
  have hif : ri.dampInfo = owner.dampInfo := congrArg DampOwner.dampInfo hri
  have hdm : ri.flags .damped = owner.damped := congrArg DampOwner.damped hri
  rw [hif, hd, hdm]
  refine .bind (infoAt_view hpl) fun bdi => .assume fun _ => ?_
  refine .ite (fun hsup => ?_) fun _ => ?_
  · refine .ite (fun _ => ?_) fun _ => .pure _ hsm
    refine .weaken (reuse_ensures h hpl how hsup ?_ _) (fun _ => id) fun _ _ hst => hst.1
    exact fun _ => ⟨rfl, rfl, rfl⟩
  · dsimp only
    refine .bind (updateInfo_same ⟨place, hpl⟩ fun _ => ⟨rfl, rfl, rfl⟩) fun _ => ?_
    refine .ite (fun _ => ?_) fun _ => ?_
    · exact .bind (bgpDampInfoFree_ensures h ⟨place, hpl⟩ true) fun _ =>
        .pure _ fun _ => id
    · exact .bind (updateInfo_same ⟨place, hpl⟩ fun _ => ⟨rfl, rfl, rfl⟩) fun _ =>
        .pure _ hsm

/-! ## The reuse timer -/

/-- The loop of the timer is at `o`, with the records of `rest` still to go. They
are linked by `next` but on no list. -/
structure Chained (v : DampView slots) (f : Option (Fin slots) → List Nat)
    (o : Option Nat) (rest : List Nat) : Prop where
  valid : v.Valid f rest
  follows : Follows v.links.next o rest
  nodup : rest.Nodup
  off : ∀ x ∈ rest, ∀ k, x ∉ f k
  live : ∀ x ∈ rest, v.Live x
  damped : ∀ {x : Nat} {place : DampPlace slots} {owner : DampOwner}, x ∈ rest →
    v.infos x = some place → v.routes place.binfo = some owner → owner.damped = true

section

variable {o : Option Nat} {rest : List Nat}

theorem not_mem_push {k k' : Option (Fin slots)} {x : Nat} (hx : x ≠ d)
    (h : x ∉ f k') : x ∉ update f k (d :: f k) k' := by
  rcases eq_or_ne k' k with rfl | hk
  · rw [update_self]
    exact not_mem_cons_of_ne_of_not_mem hx h
  · rwa [update_of_ne hk]

section

variable (h : Chained v f o (d :: rest))
include h

theorem Chained.follows_push (k : Option (Fin slots)) :
    Follows (LinkedLists.push v.links k d).next (v.links.next d) rest := by
  refine h.follows.2.congr fun x hx => ?_
  rw [LinkedLists.push_next]
  exact update_of_ne (ne_of_mem_of_not_mem hx (nodup_cons.mp h.nodup).1) _ _

theorem Chained.reused (hpl : v.infos d = some place) (how : v.routes place.binfo = some owner) :
    Chained ((v.setDamped place.binfo false).push none d)
      (update f none (d :: f none)) (v.links.next d) rest := by
  obtain ⟨hdrest, hnd⟩ := nodup_cons.mp h.nodup
  have hd := h.valid.dampInfo_eq hpl how
  have hsf := DampView.setDamped_self how false
  have hfg := h.valid.setDamped how hd (mem_cons_self ..) false
  constructor
  · exact hfg.push_none hpl hsf rfl (h.off d (mem_cons_self ..))
  · exact h.follows_push none
  · exact hnd
  · intro x hx k
    exact not_mem_push (ne_of_mem_of_not_mem hx hdrest) (h.off x (mem_cons_of_mem _ hx) k)
  · exact fun x hx => h.live x (mem_cons_of_mem _ hx)
  · intro x place' owner' hx hpl' how'
    rcases eq_or_ne place'.binfo place.binfo with he | hne
    · -- then `x` would be the record of the same route
      cases hd.symm.trans (h.valid.dampInfo_eq hpl' (he ▸ how))
      exact absurd hx hdrest
    · refine h.damped (mem_cons_of_mem _ hx) hpl' ?_
      rwa [DampView.push_routes, DampView.setDamped_routes, update_of_ne hne] at how'

theorem Chained.rechained
    (hpl : v.infos d = some place) (how : v.routes place.binfo = some owner) (i : Fin slots) :
    Chained ((v.setIndex d i).push (some i) d)
      (update f (some i) (d :: f (some i))) (v.links.next d) rest := by
  obtain ⟨hdrest, hnd⟩ := nodup_cons.mp h.nodup
  have hm : d ∈ d :: rest := mem_cons_self ..
  have hinf : ∀ x ∈ rest, (v.setIndex d i).infos x = v.infos x := fun x hx =>
    update_of_ne (ne_of_mem_of_not_mem hx hdrest) _ _
  constructor
  · exact h.valid.push_some hpl how (h.damped hm hpl how) (h.off d hm) i
  · exact h.follows_push (some i)
  · exact hnd
  · intro x hx k
    exact not_mem_push (ne_of_mem_of_not_mem hx hdrest) (h.off x (mem_cons_of_mem _ hx) k)
  · intro x hx
    obtain ⟨place', hpl'⟩ := h.live x (mem_cons_of_mem _ hx)
    exact ⟨place', (hinf x hx).trans hpl'⟩
  · intro x place' owner' hx hpl' how'
    exact h.damped (mem_cons_of_mem _ hx) ((hinf x hx).symm.trans hpl') how'

end

end

/-- The penalty of the record is still above half the reuse limit. -/
def AboveHalf (cfg : RibConfig) (now : Int) (d : Nat) (st : BgpRib slots) : Prop :=
  ∃ bdi, st.infos d = some bdi ∧ cfg.reuseLimit < 2 * cfg.decay (now - bdi.tUpdated) bdi.penalty

theorem infoAt_ok {st : BgpRib slots} {bdi : DampInfo slots} (h : st.infos d = some bdi) :
    infoAt d st = .ok (bdi, st) := by
  rw [infoAt, FaultM.get_bind, h]
  rfl

theorem reuseTurn_ensures [NeZero slots] {o : Option Nat} {rest : List Nat}
    (h : Chained v f o (d :: rest)) :
    Ensures (fun st => AtView v st ∧ AboveHalf cfg now d st) (reuseTurn cfg now d)
      fun _ st => ∃ f', Chained st.view f' (v.links.next d) rest := by
  rintro st ⟨rfl, bdi, hbdi, habove⟩
  have hm : d ∈ d :: rest := mem_cons_self ..
  have hpl := view_infos hbdi
  obtain ⟨owner, how, hd, -⟩ := h.valid.owner hpl
  rw [reuseTurn, FaultM.bind_ok (infoAt_ok hbdi)]
  refine (?_ : Ensures (AtView st.view) _ _) st rfl
  refine .bind (routeAt_view how) fun _ => .assume fun _ => ?_
  dsimp only
  refine .bind (updateInfo_same ⟨_, hpl⟩ fun _ => ⟨rfl, rfl, rfl⟩) fun _ => ?_
  refine .ite (fun _ => ?_) fun _ => ?_
  · refine .bind (changeFlags_damped ⟨owner, how⟩ (by simp) false) fun _ => ?_
    refine .bind (updateInfo_same ?_ fun _ => ⟨rfl, rfl, rfl⟩) fun _ => ?_
    · exact ⟨_, hpl⟩
    refine .bind (.when (fun _ => changeFlags_other ?_ (by simp) false) fun _ _ => id)
      fun _ => ?_
    · exact ⟨_, DampView.setDamped_self how false⟩
    refine .ite (fun hhalf => absurd hhalf (Nat.not_le.mpr habove)) fun _ => ?_
    have hfg := h.valid.setDamped how hd hm false
    refine .weaken (infoAdd_valid hfg ?_ none) (fun _ => id) fun _ st' hst' => ?_
    · exact ⟨_, hpl⟩
    rw [AtView] at hst'
    rw [hst']
    exact ⟨_, h.reused hpl how⟩
  · refine .weaken (bgpReuseListAdd_view h.valid hpl hm) (fun _ => id) ?_
    rintro _ st' ⟨i, hst'⟩
    rw [AtView] at hst'
    rw [hst']
    exact ⟨_, h.rechained hpl how i⟩

/-- What decides whether a record is freed by the timer. -/
def merit (x : Nat) (st : BgpRib slots) : Option (Nat × Int) :=
  (st.infos x).map fun bdi => (bdi.penalty, bdi.tUpdated)

theorem AboveHalf.congr {st st' : BgpRib slots} {x : Nat}
    (h : AboveHalf cfg now x st) (hmerit : merit x st' = merit x st) : AboveHalf cfg now x st' := by
  obtain ⟨bdi, hbdi, habove⟩ := h
  rw [merit, merit, hbdi, Option.map_some] at hmerit
  obtain ⟨bdi', hbdi', he⟩ := Option.map_eq_some_iff.mp hmerit
  obtain ⟨hpenalty, htime⟩ := Prod.mk.inj he
  exact ⟨bdi', hbdi', by rwa [hpenalty, htime]⟩

section

variable {x : Nat}

theorem preserves_updateRoute (g : StoredRoute → StoredRoute) :
    Preserves (merit x) (updateRoute a g : RibM slots _) :=
  preserves_routeAt.bind fun _ => .modify fun _ => rfl

theorem preserves_updateInfo (hne : x ≠ d) :
    Preserves (merit x) (updateInfo d g) :=
  preserves_infoAt.bind fun _ => .modify fun st => by
    rw [merit, merit, BgpRib.setInfo_infos, update_of_ne hne]

theorem merit_listFree : ListFree (merit x : BgpRib slots → _) where
  info st d g hg := by
    rw [merit, merit, BgpRib.setInfo_infos]
    rcases eq_or_ne x d with rfl | hne
    · rw [update_self, Option.map_map]
      refine Option.map_congr fun bdi _ => ?_
      obtain ⟨next, prev, index, he⟩ := hg bdi
      rw [comp_apply, he]
    · rw [update_of_ne hne]
  head st k o := by cases k <;> rfl

theorem preserves_changeFlags (rn a : Nat) (mask : List RouteFlag) (b : Bool) :
    Preserves (merit x) (changeFlags cfg rn a mask b : RibM slots _) :=
  (preserves_updateRoute _).bind fun _ => .ite (preserves_routeAt.bind fun _ => .ite (.pure _) (.ite
      ((preserves_updateRoute _).bind fun _ => .modify fun _ => rfl)
      (.ite ((preserves_updateRoute _).bind fun _ => .modify fun _ => rfl) (.pure _)))) (.pure _)

theorem preserves_bgpDampInfoFree (hne : x ≠ d) (withdraw : Bool) :
    Preserves (merit x) (bgpDampInfoFree cfg d withdraw : RibM slots _) := by
  refine preserves_infoAt.bind fun _ => (preserves_updateRoute _).bind fun _ =>
    preserves_routeAt.bind fun _ => ?_
  refine (merit_listFree.dampUnlink d _).bind fun _ =>
    (preserves_changeFlags _ _ _ _).bind fun _ => ?_
  refine .bind (.when ((preserves_changeFlags _ _ _ _).bind fun _ =>
    preserves_updateRoute _)) fun _ => .modify fun st => ?_
  rw [merit, merit, BgpRib.freeInfo_infos, update_of_ne hne]

/-- A turn of the timer leaves the penalties of the other records. -/
theorem preserves_reuseTurn [NeZero slots] (hne : x ≠ d) (now : Int) :
    Preserves (merit x) (reuseTurn cfg now d : RibM slots _) := by
  refine preserves_infoAt.bind fun _ => preserves_routeAt.bind fun _ =>
    (preserves_updateInfo hne).bind fun _ =>
    .ite ?_ (merit_listFree.bgpReuseListAdd cfg d)
  exact (preserves_changeFlags _ _ _ _).bind fun _ =>
    (preserves_updateInfo hne).bind fun _ =>
    (Preserves.when (preserves_changeFlags _ _ _ _)).bind fun _ =>
    .ite (preserves_bgpDampInfoFree hne true) (merit_listFree.infoAdd none d)

end

theorem reuseLoop_ensures [NeZero slots] {o : Option Nat} {rest : List Nat}
    {bound : Nat} (h : Chained v f o rest) (hbd : rest.length ≤ bound) :
    Ensures (fun st => AtView v st ∧ ∀ x ∈ rest, AboveHalf cfg now x st)
      (reuseLoop cfg now bound o) fun _ => DampListed := by
  induction rest generalizing v f o bound with
  | nil =>
    obtain rfl : o = none := h.follows
    rw [reuseLoop]
    exact .pure _ fun st hst => hst.1.listed h.valid
  | cons d rest ih =>
    obtain ⟨rfl, -⟩ := h.follows
    obtain ⟨bound, rfl⟩ : ∃ n, bound = n + 1 :=
      Nat.exists_eq_succ_of_ne_zero (by rintro rfl; simp at hbd)
    rintro st ⟨hst, habove⟩
    have hd := habove d (mem_cons_self ..)
    obtain ⟨bdi, hbdi, -⟩ := id hd
    have hnx : bdi.next = v.links.next d := by
      rw [AtView] at hst
      rw [← hst, view_next hbdi]
    obtain ⟨⟨⟩, st', htn, f', h'⟩ := reuseTurn_ensures h st ⟨hst, hd⟩
    rw [reuseLoop, FaultM.bind_ok (infoAt_ok hbdi), FaultM.bind_ok htn, hnx]
    refine ih h' (Nat.le_of_succ_le_succ hbd) st' ⟨rfl, fun x hx => ?_⟩
    refine (habove x (mem_cons_of_mem _ hx)).congr ?_
    have hne : x ≠ d := ne_of_mem_of_not_mem hx (nodup_cons.mp h.nodup).1
    exact preserves_reuseTurn hne now st _ st' htn

/-- Every suppressed route of the slot whose turn it is has a penalty above half
the reuse limit. -/
def SlotAboveHalf (cfg : RibConfig) (now : Int) (st : BgpRib slots) : Prop :=
  ∀ d bdi ri, st.infos d = some bdi → st.routes bdi.binfo = some ri →
    ri.flags .damped = true → bdi.index = some st.reuseOffset → AboveHalf cfg now d st

theorem DampView.Valid.length_le (h : v.Valid f []) (k : Option (Fin slots)) :
    (f k).length ≤ v.next := by
  have hsb : f k ⊆ range v.next := by
    intro x hx
    obtain ⟨place, hpl⟩ := h.live hx
    exact mem_range.mpr (h.fresh hpl)
  have hle := (subperm_of_subset (h.holds.nodup k) hsb).length_le
  rwa [length_range] at hle

theorem DampView.Valid.chained (h : v.Valid f []) (i : Fin slots) :
    Chained (v.detach (some i)) (update f (some i) []) (v.links.head (some i)) (f (some i)) := by
  constructor
  · exact h.detach (some i)
  · exact (h.holds.chain (some i)).follows
  · exact h.holds.nodup (some i)
  · intro x hx k hk
    rcases eq_or_ne k (some i) with rfl | hne
    · rw [update_self] at hk
      cases hk
    · rw [update_of_ne hne] at hk
      exact hne (h.holds.only hk hx)
  · exact fun x hx => h.live hx
  · intro x place owner hx hpl how
    obtain ⟨k, hhm, hk⟩ := h.home hpl how not_mem_nil
    obtain rfl : k = some i := h.holds.only hk hx
    by_contra hdm
    rw [Home, if_neg hdm] at hhm
    cases hhm

theorem bgpReuseTimer_ensures [NeZero slots] {st : BgpRib slots}
    (h : DampListed st) (hsl : SlotAboveHalf cfg now st) :
    Ensures (· = st) (bgpReuseTimer cfg now) fun _ => DampListed := by
  obtain ⟨f, h⟩ := h
  rintro _ rfl
  rename_i st
  rw [bgpReuseTimer, FaultM.get_bind, FaultM.modify_bind]
  refine reuseLoop_ensures (h.chained st.reuseOffset) (h.length_le _) st.rotate
    ⟨view_setHead st (some st.reuseOffset) none, fun x hx => ?_⟩
  obtain ⟨place, hpl⟩ := h.live hx
  obtain ⟨bdi, hbdi, rfl⟩ := Option.map_eq_some_iff.mp hpl
  obtain ⟨owner, how, -, -⟩ := h.owner hpl
  obtain ⟨ri, hri, rfl⟩ := Option.map_eq_some_iff.mp how
  have hdm := (h.chained st.reuseOffset).damped hx hpl how
  obtain ⟨i, hix, hi⟩ := h.home_damped hpl how hdm not_mem_nil
  obtain rfl : i = st.reuseOffset := Option.some.inj (h.holds.only hi hx)
  exact hsl x bdi ri hbdi hri hdm hix

end SdnQuagga
