import SdnQuagga.BgpDampView

/-!
# The dampening lists in memory

What the accesses to memory, the flag functions and the list macros of
`bgpd/bgp_damp.c` do to the view of a state: each ends without a fault, in a
state whose view is the one `DampView` gives.
-/

namespace SdnQuagga

open Function Option
open FaultM (Ensures)
open LinkedLists (Lists)

variable {slots : Nat} {v : DampView slots} {f : Option (Fin slots) → List Nat}
  {cfg : RibConfig} {a d rn : Nat} {place : DampPlace slots} {owner : DampOwner}

/-! ## The view of a state after a write -/

variable {st : BgpRib slots} {bdi : DampInfo slots} {k : Option (Fin slots)}

section

variable (h : st.infos d = some bdi)
include h

theorem view_next : st.view.links.next d = bdi.next := by
  rw [BgpRib.view_links_next, h, bind_some]

theorem view_prev : st.view.links.prev d = bdi.prev := by
  rw [BgpRib.view_links_prev, h, bind_some]

theorem view_infos : st.view.infos d = some bdi.place := by
  rw [BgpRib.view_infos, h, map_some]

end

variable {g : DampInfo slots → DampInfo slots}

theorem view_setInfo (h : st.infos d = some bdi) :
    (st.setInfo d g).view = { st.view with
        links :=
          { head := st.view.links.head
            next := update st.view.links.next d (g bdi).next
            prev := update st.view.links.prev d (g bdi).prev }
        infos := update st.view.infos d (some (g bdi).place) } := by
  rw [BgpRib.setInfo, h]
  ext1
  · ext1
    · rfl
    · exact comp_update (bind · DampInfo.next) ..
    · exact comp_update (bind · DampInfo.prev) ..
  · exact comp_update (Option.map DampInfo.place) ..
  · rfl
  · rfl

theorem view_setRoute {ri : StoredRoute}
    {g : StoredRoute → StoredRoute} (h : st.routes a = some ri) :
    (st.setRoute a g).view =
      { st.view with routes := update st.view.routes a (some (g ri).owner) } := by
  rw [BgpRib.setRoute, h]
  ext1
  · rfl
  · rfl
  · exact comp_update (Option.map StoredRoute.owner) ..
  · rfl

theorem view_setHead (st : BgpRib slots) (k : Option (Fin slots)) (o : Option Nat) :
    (st.setHead k o).view = { st.view with
        links :=
          { head := update st.view.links.head k o
            next := st.view.links.next
            prev := st.view.links.prev } } := by
  ext1
  · ext1
    · funext k'
      cases k with
      | none => cases k' <;> rfl
      | some i =>
        cases k' with
        | none => rfl
        | some j =>
          rcases eq_or_ne j i with rfl | hne
          · simp [BgpRib.setHead, BgpRib.head]
          · have hso : some j ≠ some i := fun he => hne (some.inj he)
            simp [BgpRib.setHead, BgpRib.head, update_of_ne hne, update_of_ne hso]
    · cases k <;> rfl
    · cases k <;> rfl
  · cases k <;> rfl
  · cases k <;> rfl
  · cases k <;> rfl

/-! ## Reading and writing memory -/

/-- The states with a view. -/
def AtView (v : DampView slots) (st : BgpRib slots) : Prop := st.view = v

theorem ensures_get {β : Type} {F : BgpRib slots → RibM slots β} {R : β → BgpRib slots → Prop}
    (h : ∀ st : BgpRib slots, st.view = v → Ensures (AtView v) (F st) R) :
    Ensures (AtView v) (get >>= F) R :=
  .get_bind fun st hst => (h st hst).weaken (fun _ he => he ▸ hst) fun _ _ => id

theorem infoAt_view (h : v.infos d = some place) :
    Ensures (AtView v) (infoAt d) fun bdi st =>
      (bdi.place = place ∧ bdi.next = v.links.next d ∧ bdi.prev = v.links.prev d)
        ∧ AtView v st := by
  rintro st rfl
  obtain ⟨bdi, hbdi, hpl⟩ := map_eq_some_iff.mp h
  refine ⟨bdi, st, ?_, ⟨hpl, (view_next hbdi).symm, (view_prev hbdi).symm⟩, rfl⟩
  rw [infoAt, FaultM.get_bind, hbdi]
  rfl

theorem routeAt_view (h : v.routes a = some owner) :
    Ensures (AtView v) (routeAt a) fun ri st => ri.owner = owner ∧ AtView v st := by
  rintro st rfl
  obtain ⟨ri, hri, how⟩ := map_eq_some_iff.mp h
  refine ⟨ri, st, ?_, how, rfl⟩
  rw [routeAt, FaultM.get_bind, hri]
  rfl

section

variable (h : v.Live d)
include h

theorem updateInfo_view {v' : DampView slots}
    (hvw : ∀ bdi : DampInfo slots, v.infos d = some bdi.place →
      bdi.next = v.links.next d → bdi.prev = v.links.prev d → { v with
        links :=
          { head := v.links.head
            next := update v.links.next d (g bdi).next
            prev := update v.links.prev d (g bdi).prev }
        infos := update v.infos d (some (g bdi).place) } = v') :
    Ensures (AtView v) (updateInfo d g) fun _ => AtView v' := by
  obtain ⟨place, hpl⟩ := h
  refine (infoAt_view hpl).bind fun _ => .modify ?_
  rintro st ⟨-, rfl⟩
  obtain ⟨bdi, hbdi, -⟩ := map_eq_some_iff.mp hpl
  exact (view_setInfo hbdi).trans
    (hvw bdi (view_infos hbdi) (view_next hbdi).symm (view_prev hbdi).symm)

/-- A write of a penalty, a time or the last event. -/
theorem updateInfo_same
    (hg : ∀ bdi, (g bdi).next = bdi.next ∧ (g bdi).prev = bdi.prev ∧ (g bdi).place = bdi.place) :
    Ensures (AtView v) (updateInfo d g) fun _ => AtView v := by
  refine updateInfo_view h fun bdi hpl hnx hpv => ?_
  obtain ⟨hgnext, hgprev, hgplace⟩ := hg bdi
  rw [hgnext, hgprev, hgplace, hnx, hpv, ← hpl]
  simp only [update_eq_self]

theorem updateInfo_prev (o : Option Nat) :
    Ensures (AtView v) (updateInfo d fun bdi => { bdi with prev := o }) fun _ =>
      AtView { v with
        links := { v.links with prev := update v.links.prev d o } } := by
  refine updateInfo_view h fun bdi hpl hnx _ => ?_
  show DampView.mk ⟨_, update _ d bdi.next, _⟩ (update _ d (some bdi.place)) _ _ = _
  rw [hnx, ← hpl]
  simp only [update_eq_self]

theorem updateInfo_next (o : Option Nat) :
    Ensures (AtView v) (updateInfo d fun bdi => { bdi with next := o }) fun _ =>
      AtView { v with
        links := { v.links with next := update v.links.next d o } } := by
  refine updateInfo_view h fun bdi hpl _ hpv => ?_
  show DampView.mk ⟨_, _, update _ d bdi.prev⟩ (update _ d (some bdi.place)) _ _ = _
  rw [hpv, ← hpl]
  simp only [update_eq_self]

theorem updateInfo_index (i : Fin slots) :
    Ensures (AtView v) (updateInfo d fun bdi => { bdi with index := some i }) fun _ =>
      AtView (v.setIndex d i) := by
  refine updateInfo_view h fun bdi hpl hnx hpv => ?_
  show DampView.mk ⟨_, update _ d bdi.next, update _ d bdi.prev⟩
    (update _ d (some { bdi.place with index := some i })) _ _ = _
  rw [hnx, hpv, DampView.setIndex, hpl]
  simp only [update_eq_self, map_some]

end

theorem updateRoute_view {g : StoredRoute → StoredRoute} {γ : DampOwner → DampOwner}
    (h : v.Stored a) (hg : ∀ ri, (g ri).owner = γ ri.owner) :
    Ensures (AtView v) (updateRoute a g) fun _ =>
      AtView { v with routes := update v.routes a ((v.routes a).map γ) } := by
  obtain ⟨owner, how⟩ := h
  refine (routeAt_view how).bind fun _ => .modify ?_
  rintro st ⟨-, rfl⟩
  obtain ⟨ri, hri, hri'⟩ := map_eq_some_iff.mp how
  rw [AtView, view_setRoute hri, hg ri, how, hri', map_some]

section

variable (h : v.Stored a)
include h

theorem updateRoute_same {g : StoredRoute → StoredRoute} (hg : ∀ ri, (g ri).owner = ri.owner) :
    Ensures (AtView v) (updateRoute a g) fun _ => AtView v := by
  have hid := @updateRoute_view _ v a g id h hg
  rwa [map_id_fun, id_eq, update_eq_self] at hid

theorem updateRoute_dampInfo (o : Option Nat) :
    Ensures (AtView v) (updateRoute a fun ri => { ri with dampInfo := o }) fun _ =>
      AtView (v.setDampInfo a o) :=
  @updateRoute_view _ v a _ (fun owner => { owner with dampInfo := o }) h
    fun _ => rfl

/-! ## Flags -/

theorem bgpPcountAdjust_view : Ensures (AtView v) (bgpPcountAdjust cfg rn a) fun _ => AtView v := by
  have hcn b : Ensures (AtView v)
      (updateRoute a (·.withFlags [.counted] b)) fun _ => AtView v :=
    updateRoute_same h fun _ => rfl
  have hct peer table up : Ensures (AtView v)
      (modify (·.count peer table up) : RibM slots Unit) fun _ => AtView v :=
    .modify fun st hst => hst
  obtain ⟨owner, how⟩ := h
  refine (routeAt_view how).bind fun ri => .assume fun _ => ?_
  refine .ite (fun _ => .pure _ fun _ => id) fun _ => .ite (fun _ => ?_) fun _ =>
    .ite (fun _ => ?_) fun _ => .pure _ fun _ => id
  · exact (hcn false).bind fun _ => hct ri.peer (cfg.table rn) false
  · exact (hcn true).bind fun _ => hct ri.peer (cfg.table rn) true

variable {mask : List RouteFlag}

/-- Of the flags the lists depend on one. -/
theorem changeFlags_damped (hmk : .damped ∈ mask) (b : Bool) :
    Ensures (AtView v) (changeFlags cfg rn a mask b) fun _ => AtView (v.setDamped a b) := by
  have hsto : (v.setDamped a b).Stored a := by
    obtain ⟨owner, how⟩ := h
    exact ⟨_, DampView.setDamped_self how b⟩
  refine (updateRoute_view h fun ri => ?_).bind fun _ => .ite
    (fun _ => bgpPcountAdjust_view hsto) fun _ => .pure _ fun _ => id
  simp [StoredRoute.owner, StoredRoute.withFlags, hmk]

theorem changeFlags_other (hmk : .damped ∉ mask) (b : Bool) :
    Ensures (AtView v) (changeFlags cfg rn a mask b) fun _ => AtView v := by
  refine (updateRoute_same h fun ri => ?_).bind fun _ => .ite
    (fun _ => bgpPcountAdjust_view h) fun _ => .pure _ fun _ => id
  simp [StoredRoute.owner, StoredRoute.withFlags, hmk]

theorem bgpInfoDelete_view : Ensures (AtView v) (bgpInfoDelete cfg rn a) fun _ => AtView v :=
  (changeFlags_other h (by simp) true).bind fun _ => updateRoute_same h fun _ => rfl

end

/-! ## Lists -/

theorem writePrev_view {o : Option Nat} (h : ∀ x, o = some x → v.Live x) (p : Option Nat) :
    Ensures (AtView v) (writePrev o p) fun _ =>
      AtView { v with
        links := { v.links with prev := LinkedLists.write v.links.prev o p } } := by
  cases o with
  | none => exact .pure () fun _ => id
  | some x => exact updateInfo_prev (h x rfl) p

theorem infoAdd_view (h : v.Live d) (hhe : ∀ x, v.links.head k = some x → v.Live x) :
    Ensures (AtView v) (infoAdd k d) fun _ => AtView (v.push k d) := by
  refine (updateInfo_prev h none).bind fun _ => ensures_get fun st hst => ?_
  have hst : st.head k = v.links.head k := congrArg (fun w => w.links.head k) hst
  rw [hst]
  refine .bind (updateInfo_next ?_ (v.links.head k)) fun _ => ?_
  · exact h
  refine .bind (writePrev_view ?_ (some d)) fun _ => .modify fun st hst => ?_
  · exact hhe
  rw [AtView, view_setHead, hst]
  rfl

theorem infoDel_view (h : v.Live d) (hnx : ∀ x, v.links.next d = some x → v.Live x)
    (hpv : ∀ x, v.links.prev d = some x → v.Live x) :
    Ensures (AtView v) (infoDel k d) fun _ => AtView (v.remove k d) := by
  obtain ⟨place, hpl⟩ := h
  refine (infoAt_view hpl).bind fun bdi => .assume fun hbdi => ?_
  obtain ⟨-, hbnext, hbprev⟩ := hbdi
  rw [hbnext, hbprev]
  refine (writePrev_view hnx (v.links.prev d)).bind fun _ => ?_
  cases hp : v.links.prev d with
  | none =>
    refine .modify fun st hst => ?_
    rw [AtView, view_setHead, hst]
    simp only [DampView.remove, LinkedLists.remove, hp, LinkedLists.write_none, if_true]
  | some x =>
    refine .weaken (updateInfo_next ?_ _) (fun _ => id) fun _ st hst => ?_
    · exact hpv x hp
    rw [AtView, hst]
    simp only [DampView.remove, LinkedLists.remove, hp, LinkedLists.write, reduceCtorEq, if_false]

/-- A record that is on a list can be taken off it. -/
theorem infoDel_listed (hhd : Lists v.links f) (hlv : ∀ x ∈ f k, v.Live x) (hm : d ∈ f k) :
    Ensures (AtView v) (infoDel k d) fun _ => AtView (v.remove k d) :=
  infoDel_view (hlv d hm) (fun x hx => hlv x (hhd.neighbours_mem hm (.inl hx)))
    (fun x hx => hlv x (hhd.neighbours_mem hm (.inr hx)))

variable {loose : List Nat}

theorem infoAdd_valid (h : v.Valid f loose) (hlv : v.Live d) (k : Option (Fin slots)) :
    Ensures (AtView v) (infoAdd k d) fun _ => AtView (v.push k d) :=
  infoAdd_view hlv fun _ hx => h.live (h.holds.mem_of_head hx)

theorem bgpReuseListAdd_view [NeZero slots] (h : v.Valid f loose)
    (hpl : v.infos d = some place) (hls : d ∈ loose) :
    Ensures (AtView v) (bgpReuseListAdd cfg d) fun _ st =>
      ∃ i, AtView ((v.setIndex d i).push (some i) d) st := by
  refine (infoAt_view hpl).bind fun bdi => .assume fun _ => ensures_get fun st _ => ?_
  refine (updateInfo_index ⟨place, hpl⟩ _).bind fun _ => ?_
  have hlv : (v.setIndex d (bgpReuseIndex cfg st bdi.penalty)).Live d := by
    refine ⟨{ place with index := some (bgpReuseIndex cfg st bdi.penalty) }, ?_⟩
    rw [DampView.setIndex_infos, update_self, hpl, map_some]
  exact (infoAdd_valid (h.setIndex hls _) hlv _).weaken (fun _ => id) fun _ _ hst => ⟨_, hst⟩

theorem bgpReuseListDelete_listed {i : Fin slots} (hhd : Lists v.links f)
    (hlv : ∀ x ∈ f (some i), v.Live x) (hpl : v.infos d = some place)
    (hix : place.index = some i) (hm : d ∈ f (some i)) :
    Ensures (AtView v) (bgpReuseListDelete d) fun _ => AtView (v.remove (some i) d) := by
  refine (infoAt_view hpl).bind fun bdi => .assume fun hbdi => ?_
  have hi : bdi.index = some i := (congrArg DampPlace.index hbdi.1).trans hix
  rw [hi]
  exact infoDel_listed hhd hlv hm

/-- The flag of the route names the list the record is on. -/
theorem dampUnlink_listed (hhd : Lists v.links f)
    (hlv : ∀ x ∈ f k, v.Live x) (hpl : v.infos d = some place)
    (hhm : Home owner place k) (hm : d ∈ f k) :
    Ensures (AtView v) (dampUnlink d owner.damped) fun _ => AtView (v.remove k d) := by
  rw [Home] at hhm
  refine .ite (fun hd => ?_) fun hd => ?_
  · rw [if_pos hd] at hhm
    obtain ⟨hso, hix⟩ := hhm
    obtain ⟨i, rfl⟩ := isSome_iff_exists.mp hso
    exact bgpReuseListDelete_listed hhd hlv hpl hix.symm hm
  · rw [if_neg hd] at hhm
    cases hhm
    exact infoDel_listed hhd hlv hm

end SdnQuagga
