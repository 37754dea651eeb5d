import SdnQuagga.BgpDampRuns
import SdnQuagga.BgpPcountSteps

/-!
# The prefix count over whole runs

Routes come and go: a new one is counted before it is linked, and one that is
reaped has been removed and is not counted. Over any sequence of updates,
withdrawals, dampening events and processing of nodes the prefix count of every
neighbor is the number of its routes in the main table that can be used.
-/

namespace SdnQuagga

open List Function TallyView
open FaultM (Yields Preserves)

variable {slots : Nat} {cfg : RibConfig} {R : List Nat} {node : Nat → Nat} {a d rn : Nat}
  {st st' : BgpRib slots}

/-- Between the steps: no route is being worked on. -/
def Idle (cfg : RibConfig) (node : Nat → Nat) (R : List Nat) (st : BgpRib slots) : Prop :=
  Tallied cfg [] node none st.tally ∧ st.rib = R

theorem Idle.working (h : Idle cfg node R st) (ha : a ∈ R) : Working cfg [] R node a [] false st :=
  ⟨h.1, h.2, h.2 ▸ ha, fun _ hd => absurd hd not_mem_nil⟩

variable {recs : List Nat} {t : TallyView} {o : Option Nat}

theorem Working.idle (h : Working cfg [] R node a recs false st) : Idle cfg node R st :=
  ⟨h.tallied, h.rib⟩

/-- A function that works on one route, from one step to the next. -/
theorem Yields.idle {α : Type} {m : RibM slots α} (ha : a ∈ R)
    (h : Yields (Working cfg [] R node a [] false) m fun _ => Working cfg [] R node a recs false) :
    Yields (Idle cfg node R) m fun _ => Idle cfg node R :=
  h.weaken (fun _ hst => hst.working ha) fun _ _ hst => hst.idle

theorem Working.setLock {extra : List Nat} {off : Bool}
    (h : Working cfg extra R node a recs off st) (f : Nat → Nat) :
    Working cfg extra R node a recs off (st.setRoute a fun ri => { ri with lock := f ri.lock }) :=
  h.setRoute_same (g := fun ri => { ri with lock := f ri.lock }) (fun _ => rfl)
    (fun _ => rfl) (fun _ => rfl) (fun _ => rfl) fun _ _ => rfl

/-! ## New routes -/

@[simps]
def TallyView.allocRoute (t : TallyView) (ri : StoredRoute) : TallyView :=
  { t with routes := update t.routes t.next (some ri), next := t.next + 1 }

theorem Tallied.allocRoute (h : Tallied cfg [] node none t)
    (ri : StoredRoute) (hpe : ri.peer ≠ cfg.peerSelf)
    (hfl : ri.flags = fun _ => false) (hdp : ri.dampInfo = none) :
    Tallied cfg [t.next] (update node t.next ri.rn) none (t.allocRoute ri) := by
  have hold : ∀ x ∈ t.rib, x ≠ t.next := by
    rintro x hx rfl
    obtain ⟨ri', hri', -⟩ := h.stored _ hx
    exact lt_irrefl _ (h.fresh hri').1
  have hcas : ∀ {x ri'}, (t.allocRoute ri).routes x = some ri' →
      x = t.next ∧ ri' = ri ∨ x ≠ t.next ∧ t.routes x = some ri' := by
    intro x ri' hri'
    rw [allocRoute_routes] at hri'
    rcases eq_or_ne x t.next with rfl | hne
    · rw [update_self] at hri'
      exact .inl ⟨rfl, (Option.some.inj hri').symm⟩
    · rw [update_of_ne hne] at hri'
      exact .inr ⟨hne, hri'⟩
  refine ⟨⟨?_, fun x hx => ?_, ?_, ?_, ?_⟩, fun peer afi safi => ?_⟩
  · exact nodup_cons.mpr ⟨fun hx => hold _ hx rfl, h.nodup⟩
  · rcases mem_cons.mp hx with rfl | hx
    · exact ⟨ri, by simp, by simp, hpe⟩
    · obtain ⟨ri', hri', hnod⟩ := h.stored x hx
      exact ⟨ri', by simp [update_of_ne (hold x hx), hri'],
        by rw [update_of_ne (hold x hx), hnod.1], hnod.2⟩
  · intro x ri' hri'
    rcases hcas hri' with ⟨rfl, rfl⟩ | ⟨-, hri'⟩
    · exact ⟨Nat.lt_succ_self _, fun d hd => by rw [hdp] at hd; cases hd⟩
    · obtain ⟨hx, hd⟩ := h.fresh hri'
      exact ⟨Nat.lt_succ_of_lt hx, fun d hd' => Nat.lt_succ_of_lt (hd d hd')⟩
  · intro x d ri' o hx hri' hd ho
    rcases hcas hri' with ⟨rfl, rfl⟩ | ⟨hne, hri'⟩
    · rw [hdp] at hd
      cases hd
    · rcases mem_cons.mp hx with rfl | hx
      · exact absurd rfl hne
      · rw [update_of_ne hne]
        exact h.record hx hri' hd ho
  · intro x ri' hx hoff hri'
    rcases hcas hri' with ⟨rfl, rfl⟩ | ⟨hne, hri'⟩
    · intro _
      simp [StoredRoute.holddown, hfl]
    · rcases mem_cons.mp hx with rfl | hx
      · exact absurd rfl hne
      · exact h.agree hx hoff hri'
  · show t.pcount peer afi safi = (t.next :: t.rib).countP _
    rw [countP_cons_of_neg, h.count peer afi safi]
    · refine countP_congr fun x hx => ?_
      rw [counted, counted, allocRoute_routes,
        update_of_ne (hold x hx)]
    · rw [counted, allocRoute_routes, update_self]
      simp [StoredRoute.countsFor, hfl]

theorem Idle.new (h : Idle cfg node R st) (ri : StoredRoute)
    (hpe : ri.peer ≠ cfg.peerSelf) (hfl : ri.flags = fun _ => false) (hdp : ri.dampInfo = none) :
    Working cfg [st.next] R (update node st.next ri.rn) st.next [] false (st.allocRoute ri) :=
  ⟨h.1.allocRoute ri hpe hfl hdp, h.2, mem_cons_self .., fun _ hd => absurd hd not_mem_nil⟩

/-- The route moves from those that are about to be linked to those that are. -/
theorem linkRoute_yields :
    Yields (Working cfg [a] R node a recs false : BgpRib slots → Prop)
      (modify (·.linkRoute a)) fun _ => Working cfg [] (a :: R) node a recs false :=
  .modify fun _ h => ⟨⟨⟨h.tallied.nodup, h.tallied.stored, h.tallied.fresh,
    h.tallied.record, h.tallied.agree⟩, h.tallied.count⟩, by simp [h.rib], h.mem, h.recs⟩

variable {upd : RibUpdate}

theorem updateNew_yields (hpe : upd.key.peer ≠ cfg.peerSelf) :
    Yields (Idle cfg node R : BgpRib slots → Prop) (updateNew cfg upd)
      fun _ st => ∃ node' R', Idle cfg node' R' st := by
  refine .get_bind fun st0 _ => ?_
  dsimp only
  have hn : Yields (fun st : BgpRib slots => st = st0 ∧ Idle cfg node R st)
      (modify (·.allocRoute
        { rn := upd.key.rn, peer := upd.key.peer, type := upd.key.type,
          subType := upd.key.subType, attr := upd.attr, lock := 0,
          flags := fun _ => false, dampInfo := none }))
      fun _ => Working cfg [st0.next] R (update node st0.next upd.key.rn) st0.next [] false := by
    refine .modify ?_
    rintro st ⟨rfl, h⟩
    exact h.new ⟨upd.key.rn, upd.key.peer, upd.key.type, upd.key.subType, upd.attr, 0,
      fun _ => false, none⟩ hpe rfl rfl
  refine hn.bind fun _ => ?_
  refine .bind (nexthopValid_yields (by rw [update_self])) fun _ => ?_
  have hadd : Yields (Working cfg [st0.next] R
        (update node st0.next upd.key.rn) st0.next [] false : BgpRib slots → Prop)
      (bgpInfoAdd st0.next) fun _ st => ∃ node' R', Idle cfg node' R' st := by
    refine linkRoute_yields.bind fun _ => updateRoute_yields fun st _ hst _ => ?_
    exact ⟨_, _, (hst.setLock (· + 1)).idle⟩
  refine hadd.bind fun _ => .get_bind fun st _ => ?_
  exact .ite (fun _ => .pure _ fun _ hst => hst.2) fun _ => .pure _ fun _ hst => hst.2

theorem BgpRib.lookup_some {key : RouteKey} (h : st.lookup key = some a) :
    a ∈ st.rib ∧ ∃ ri, st.routes a = some ri ∧ ri.key = key := by
  refine ⟨mem_of_find?_eq_some h, ?_⟩
  have hk := find?_some h
  cases hri : st.routes a with
  | none =>
    rw [hri] at hk
    cases hk
  | some ri =>
    rw [hri] at hk
    exact ⟨ri, rfl, of_decide_eq_true hk⟩

/-- The route that is found is on the node of the key. -/
theorem Idle.lookup {key : RouteKey} (h : Idle cfg node R st)
    (hfnd : st.lookup key = some a) : a ∈ R ∧ key.rn = node a := by
  obtain ⟨ha, ri, hri, hk⟩ := BgpRib.lookup_some hfnd
  obtain ⟨ri', hri', hrn, -⟩ := h.1.stored a ha
  rw [BgpRib.tally_routes, hri] at hri'
  cases hri'
  exact ⟨h.2 ▸ ha, by rw [← hk, ← hrn]; rfl⟩

theorem bgpUpdateMain_yields [NeZero slots] (hpe : upd.key.peer ≠ cfg.peerSelf) (now : Int) :
    Yields (Idle cfg node R : BgpRib slots → Prop) (bgpUpdateMain cfg upd now)
      fun _ st => ∃ node' R', Idle cfg node' R' st := by
  refine .get_bind fun st0 hst0 => ?_
  cases hfnd : st0.lookup upd.key with
  | none =>
    refine .weaken (.ite (fun _ => .pure _ fun st hst => ?_) fun _ => updateNew_yields hpe)
      (fun _ hst => hst.2) fun _ _ => id
    exact ⟨node, R, hst⟩
  | some a =>
    obtain ⟨ha, hrn⟩ := hst0.lookup hfnd
    refine .weaken (.bind (Yields.idle ha (updateKnown_yields hrn now)) fun _ => .pure _
      fun st hst => ?_) (fun _ hst => hst.2) fun _ _ => id
    exact ⟨node, R, hst⟩

theorem withdrawAt_yields [NeZero slots] (key : RouteKey) (dampening : Bool) (now : Int) :
    Yields (Idle cfg node R : BgpRib slots → Prop) (withdrawAt cfg key dampening now)
      fun _ => Idle cfg node R := by
  refine .get_bind fun st0 hst0 => ?_
  cases hfnd : st0.lookup key with
  | none => exact .pure _ fun _ hst => hst.2
  | some a =>
    obtain ⟨ha, hrn⟩ := hst0.lookup hfnd
    refine .weaken (.bind routeAt_keeps fun ri => .when (fun _ => ?_) fun _ _ => id)
      (fun _ hst => hst.2) fun _ _ => id
    rw [hrn]
    exact Yields.idle ha (bgpRibWithdraw_yields dampening now)

theorem bgpWithdraw_yields [NeZero slots] (key : RouteKey) (dampening : Bool)
    (clients : List Nat) (now : Int) :
    Yields (Idle cfg node R : BgpRib slots → Prop)
      (bgpWithdraw cfg key dampening clients now) fun _ => Idle cfg node R := by
  have hclients : Yields (Idle cfg node R : BgpRib slots → Prop)
      (withdrawClients cfg key dampening now clients) fun _ => Idle cfg node R := by
    induction clients with
    | nil => exact .pure _ fun _ => id
    | cons client clients ih => exact .bind (withdrawAt_yields _ dampening now) fun _ => ih
  exact hclients.bind fun _ => withdrawAt_yields key dampening now

/-! ## Reaping -/

@[simps]
def TallyView.unlink (t : TallyView) (a : Nat) : TallyView :=
  { t with rib := t.rib.erase a }

@[simps]
def TallyView.freeRoute (t : TallyView) (a : Nat) : TallyView :=
  { t with routes := update t.routes a none }

theorem Tallied.unlink (h : Tallied cfg [] node none t) (ha : a ∈ t.rib) :
    Tallied cfg [a] node none (t.unlink a) := by
  have hpm : Perm ([a] ++ (t.unlink a).rib) ([] ++ t.rib) := (perm_cons_erase ha).symm
  refine ⟨⟨hpm.nodup_iff.mpr h.nodup, fun x hx => h.stored x (hpm.mem_iff.mp hx),
    h.fresh, fun hx => h.record (hpm.mem_iff.mp hx),
    fun hx => h.agree (hpm.mem_iff.mp hx)⟩, fun peer afi safi => ?_⟩
  exact (h.count peer afi safi).trans (hpm.countP_eq _).symm

theorem Tallied.not_counted (h : Tallied cfg [a] node none t)
    (hrem : ∀ ri, t.routes a = some ri → ri.flags .removed = true) (peer afi safi : Nat) :
    t.counted cfg peer afi safi a = false := by
  obtain ⟨ri, hri, -⟩ := h.stored a (mem_cons_self ..)
  rw [counted, hri, Option.any_some, StoredRoute.countsFor]
  cases hma : (cfg.table ri.rn).main with
  | false => simp
  | true =>
    have hhd : ri.holddown = true := by simp [StoredRoute.holddown, unuseable, hrem ri hri]
    rw [h.agree (mem_cons_self ..) (by simp) hri hma, hhd]
    simp

/-- It can be forgotten, and freed. -/
theorem Tallied.drop (h : Tallied cfg [a] node none t)
    (hrem : ∀ ri, t.routes a = some ri → ri.flags .removed = true) :
    Tallied cfg [] node none t := by
  have hmb : ∀ {x}, x ∈ [] ++ t.rib → x ∈ [a] ++ t.rib := fun hx => mem_cons_of_mem _ hx
  refine ⟨⟨(nodup_cons.mp h.nodup).2, fun x hx => h.stored x (hmb hx), h.fresh,
    fun hx => h.record (hmb hx), fun hx => h.agree (hmb hx)⟩, fun peer afi safi => ?_⟩
  rw [h.count peer afi safi]
  exact countP_cons_of_neg (by rw [h.not_counted hrem]; simp)

theorem Tallied.freeRoute (h : Tallied cfg [] node none t)
    (ha : a ∉ t.rib) : Tallied cfg [] node none (t.freeRoute a) := by
  have hke : ∀ x ∈ t.rib, (t.freeRoute a).routes x = t.routes x := fun x hx =>
    update_of_ne (ne_of_mem_of_not_mem hx ha) _ _
  have hrts : ∀ {x ri}, (t.freeRoute a).routes x = some ri →
      t.routes x = some ri := by
    intro x ri hri
    rw [freeRoute_routes] at hri
    rcases eq_or_ne x a with rfl | hne
    · rw [update_self] at hri
      cases hri
    · rwa [update_of_ne hne] at hri
  refine ⟨⟨h.nodup, fun x hx => ?_, fun hri => h.fresh (hrts hri),
    fun hx hri => h.record hx (hrts hri), fun hx hoff hri => h.agree hx hoff (hrts hri)⟩,
    fun peer afi safi => ?_⟩
  · obtain ⟨ri, hri, hrn⟩ := h.stored x hx
    exact ⟨ri, (hke x hx).trans hri, hrn⟩
  · refine (h.count peer afi safi).trans (countP_congr fun x hx => ?_)
    rw [counted, counted, hke x hx]

theorem routes_listFree : ListFree (BgpRib.routes : BgpRib slots → _) where
  info _ _ _ _ := rfl
  head st k o := by cases k <;> rfl

theorem hasFlag_of_preserves {α : Type} {g : RouteFlag} {m : RibM slots α}
    (h : Preserves BgpRib.routes m) : Yields (HasFlag a g) m fun _ => HasFlag a g := by
  intro st x st' hst hr ri hri
  rw [h st x st' hr] at hri
  exact hst ri hri

/-- Freeing the record of a route does not restore the route. -/
theorem bgpDampInfoFree_keeps (x d : Nat) :
    Yields (HasFlag x .removed : BgpRib slots → Prop) (bgpDampInfoFree cfg d false)
      fun _ => HasFlag x .removed := by
  refine .bind (hasFlag_of_preserves preserves_infoAt) fun bdi => ?_
  refine .bind (updateRoute_yields fun st _ hst _ => hst.setRoute fun _ => id) fun _ => ?_
  refine .bind routeAt_keeps fun _ => ?_
  refine .bind (hasFlag_of_preserves (routes_listFree.dampUnlink d _)) fun _ => ?_
  refine .bind (changeFlags_keeps (.inl (by simp)) (by simp) _) fun _ => ?_
  have hsk : Yields (HasFlag x .removed : BgpRib slots → Prop)
      (FaultM.when (bdi.lastrecord = .withdraw ∧ false = true)
        (bgpInfoDelete cfg bdi.rn bdi.binfo)) fun _ => HasFlag x .removed :=
    .when (fun h => absurd h.2 (by simp)) fun _ _ => id
  exact hsk.bind fun _ => .modify fun _ => id

/-- A route that is removed and no longer linked. -/
def Unlinked (cfg : RibConfig) (R : List Nat) (node : Nat → Nat) (a : Nat)
    (recs : List Nat) (st : BgpRib slots) : Prop :=
  Working cfg [a] R node a recs false st ∧ HasFlag a .removed st

theorem Unlinked.idle (h : Unlinked cfg R node a recs st) : Idle cfg node R st :=
  ⟨h.1.tallied.drop h.2, h.1.rib⟩

theorem Unlinked.freeRoute (h : Unlinked cfg R node a recs st) : Idle cfg node R (st.freeRoute a) :=
  ⟨h.idle.1.freeRoute (nodup_cons.mp h.1.tallied.nodup).1, h.1.rib⟩

theorem bgpInfoExtraFree_yields (o : Option Nat) :
    Yields (Unlinked cfg R node a o.toList : BgpRib slots → Prop)
      (bgpInfoExtraFree cfg o) fun _ => Unlinked cfg R node a o.toList := by
  cases o with
  | none => exact .pure _ fun _ => id
  | some d =>
    exact (bgpDampInfoFree_yields (mem_singleton_self d) false).and (bgpDampInfoFree_keeps a d)

theorem bgpInfoUnlock_yields :
    Yields (Unlinked cfg R node a [] : BgpRib slots → Prop)
      (bgpInfoUnlock cfg a) fun _ => Idle cfg node R := by
  have hrd : Yields (Unlinked cfg R node a [] : BgpRib slots → Prop) (routeAt a)
      fun ri => Unlinked cfg R node a ri.dampInfo.toList := by
    refine routeAt_yields.weaken (fun _ => id) fun ri st hst => ⟨?_, hst.2.2⟩
    cases hd : ri.dampInfo with
    | none => exact hst.2.1
    | some d => exact hst.2.1.addRecord hst.1 hd
  have hlo : ∀ recs, Yields (Unlinked cfg R node a recs : BgpRib slots → Prop)
      (updateRoute a fun ri => { ri with lock := ri.lock - 1 })
      fun _ => Unlinked cfg R node a recs := fun recs =>
    updateRoute_yields fun st _ hst _ =>
      ⟨hst.1.setLock (· - 1), hst.2.setRoute fun _ => id⟩
  refine hrd.bind fun ri => .bind .check fun _ => .assume fun _ => ?_
  refine (hlo _).bind fun _ => .when (fun _ => ?_) fun _ _ hst => hst.idle
  exact (bgpInfoExtraFree_yields ri.dampInfo).bind fun _ => .modify fun _ hst =>
    hst.freeRoute

theorem bgpInfoReap_yields (ha : a ∈ R) :
    Yields (fun st : BgpRib slots => Idle cfg node R st ∧ HasFlag a .removed st)
      (bgpInfoReap cfg a) fun _ => Idle cfg node (R.erase a) := by
  have hunlink : Yields (fun st : BgpRib slots => Idle cfg node R st ∧ HasFlag a .removed st)
      (modify (·.unlinkRoute a)) fun _ => Unlinked cfg (R.erase a) node a [] := by
    refine .modify fun st hst => ?_
    have hmb : a ∈ st.tally.rib := by rwa [BgpRib.tally_rib, hst.1.2]
    refine ⟨⟨hst.1.1.unlink hmb, ?_, ?_, ?_⟩, hst.2⟩
    · exact congrArg (List.erase · a) hst.1.2
    · exact mem_cons_self ..
    · exact fun _ hd => absurd hd not_mem_nil
  exact hunlink.bind fun _ => bgpInfoUnlock_yields

/-! ## Processing a node -/

/-- The route, if any, is linked at the node. -/
def LinkedAt (node : Nat → Nat) (rn : Nat) (R : List Nat) (o : Option Nat) : Prop :=
  ∀ x ∈ o, x ∈ R ∧ node x = rn

theorem LinkedAt.erase (h : LinkedAt node rn R o) (ha : a ∉ o) :
    LinkedAt node rn (R.erase a) o := by
  intro x hx
  have hne : x ≠ a := by
    rintro rfl
    exact ha hx
  exact ⟨(mem_erase_of_ne hne).mpr (h x hx).1, (h x hx).2⟩

theorem linkedAt_some (ha : a ∈ R) (hrn : node a = rn) : LinkedAt node rn R (some a) := by
  rintro x ⟨⟩
  exact ⟨ha, hrn⟩

variable (better : StoredRoute → Option Nat → Bool)

/-- The loop reaps routes that have been removed, and no route that it has found. -/
theorem selectRoutes_yields (as : List Nat) :
    ∀ {R old new}, as.Nodup →
      (∀ x ∈ as, x ∈ R ∧ node x = rn) → LinkedAt node rn R old → LinkedAt node rn R new →
      (∀ x ∈ as, x ∉ old ∧ x ∉ new) →
      Yields (Idle cfg node R : BgpRib slots → Prop) (selectRoutes cfg better as (old, new))
        fun found st => ∃ R', (LinkedAt node rn R' found.1 ∧ LinkedAt node rn R' found.2) ∧
          Idle cfg node R' st := by
  induction as with
  | nil =>
    intro R old new _ _ hold hn _
    exact .pure _ fun st hst => ⟨R, ⟨hold, hn⟩, hst⟩
  | cons a as ih =>
    intro R old new hnd has hold hn hapt
    obtain ⟨ha, hnd⟩ := nodup_cons.mp hnd
    obtain ⟨⟨haR, hrn⟩, has⟩ := forall_mem_cons.mp has
    obtain ⟨⟨haold, hanew⟩, hapt⟩ := forall_mem_cons.mp hapt
    have hoth : ∀ x ∈ as, x ∉ some a := by
      rintro x hx ⟨⟩
      exact ha hx
    refine .bind routeAt_yields fun ri => ?_
    have hsel : LinkedAt node rn R (if ri.flags .selected then some a else old) := by
      split
      · exact linkedAt_some haR hrn
      · exact hold
    have haway : ∀ x ∈ as, x ∉ if ri.flags .selected then some a else old := by
      intro x hx
      split
      · exact hoth x hx
      · exact (hapt x hx).1
    dsimp only
    refine .ite (fun _ => ?_) fun _ => .weaken (.ite (fun _ => ?_) fun _ => ?_)
      (fun _ hst => hst.2) fun _ _ => id
    · by_cases hreap : ri.flags .removed = true ∧
          (if ri.flags .selected then some a else old) ≠ some a
      · rw [FaultM.when, if_pos hreap]
        have hrem : Yields (fun st : BgpRib slots => st.routes a = some ri ∧
            Idle cfg node R st) (bgpInfoReap cfg a) fun _ => Idle cfg node (R.erase a) := by
          refine (bgpInfoReap_yields haR).weaken (fun st hst => ⟨hst.2, ?_⟩) fun _ _ => id
          intro ri' hri'
          rw [hst.1] at hri'
          cases hri'
          exact hreap.1
        refine hrem.bind fun _ => ih hnd (fun x hx => ?_) ?_ ?_ ?_
        · have hne : x ≠ a := ne_of_mem_of_not_mem hx ha
          exact ⟨(mem_erase_of_ne hne).mpr (has x hx).1, (has x hx).2⟩
        · exact hsel.erase fun h => hreap.2 (Option.mem_def.mp h)
        · exact hn.erase hanew
        · exact fun x hx => ⟨haway x hx, (hapt x hx).2⟩
      · rw [FaultM.when, if_neg hreap]
        refine .weaken (ih hnd has hsel hn fun x hx => ?_) (fun _ hst => hst.2) fun _ _ => id
        exact ⟨haway x hx, (hapt x hx).2⟩
    · refine ih hnd has hsel (linkedAt_some haR hrn) fun x hx => ?_
      exact ⟨haway x hx, hoth x hx⟩
    · exact ih hnd has hsel hn fun x hx => ⟨haway x hx, (hapt x hx).2⟩

theorem whenSome_yields {m : Nat → RibM slots Unit}
    {P Q : BgpRib slots → Prop} (hso : ∀ a ∈ o, Yields P (m a) fun _ => Q)
    (hno : ∀ st, P st → Q st) : Yields P (whenSome o m) fun _ => Q := by
  cases o with
  | none => exact .pure _ hno
  | some a => exact hso a rfl

theorem unchanged_keeps {P : BgpRib slots → Prop} (old new : Option Nat) :
    Yields P (unchanged old new) fun _ => P := by
  cases old with
  | none => exact .pure _ fun _ => id
  | some a => exact .bind routeAt_keeps fun _ => .pure _ fun _ => id

/-- `BGP_INFO_SELECTED` and `BGP_INFO_ATTR_CHANGED` have no part in the count. -/
theorem markRoute_yields {mask : List RouteFlag} (b : Bool)
    (hfnd : LinkedAt node rn R o) (hcn : .counted ∉ mask)
    (huse : ∀ g ∈ RouteFlag.valid :: unuseable, g ∉ mask) (ha : a ∈ o) :
    Yields (Idle cfg node R : BgpRib slots → Prop) (changeFlags cfg rn a mask b)
      fun _ => Idle cfg node R := by
  obtain ⟨haR, rfl⟩ := hfnd a ha
  exact Yields.idle haR (changeFlags_plain b hcn huse)

theorem BgpRib.mem_node {x : Nat} (h : Idle cfg node R st) (hx : x ∈ st.node rn) :
    x ∈ R ∧ node x = rn := by
  obtain ⟨hrib, hnod⟩ := mem_filter.mp hx
  obtain ⟨ri, hri, hrn, -⟩ := h.1.stored x hrib
  rw [BgpRib.tally_routes] at hri
  rw [hri, Option.any_some] at hnod
  exact ⟨h.2 ▸ hrib, hrn ▸ of_decide_eq_true hnod⟩

theorem bgpProcessMain_yields (rn : Nat) :
    Yields (Idle cfg node R : BgpRib slots → Prop) (bgpProcessMain cfg better rn)
      fun _ st => ∃ R', Idle cfg node R' st := by
  refine .get_bind fun st0 hst0 => ?_
  have hnd : (st0.node rn).Nodup := hst0.1.nodup.filter _
  have hno : LinkedAt node rn R none := fun x hx => absurd hx (by simp)
  refine .weaken (.bind (selectRoutes_yields better (st0.node rn) hnd
    (fun x hx => BgpRib.mem_node hst0 hx) hno hno fun x _ => by simp) fun found => ?_)
    (fun _ hst => hst.2) fun _ _ => id
  refine .of_exists fun R' => .assume fun hfnd => .bind (unchanged_keeps _ _) fun _ => ?_
  refine .ite (fun _ => .pure _ fun st hst => ⟨R', hst⟩) fun _ => ?_
  refine .bind (whenSome_yields (fun a ha => ?_) fun _ => id) fun _ => ?_
  · exact markRoute_yields false hfnd.1 (by simp) (by decide) ha
  refine .bind (whenSome_yields (fun a ha => ?_) fun _ => id) fun _ => ?_
  · have hs : Yields (Idle cfg node R' : BgpRib slots → Prop)
        (bgpInfoSetFlag cfg rn a [.selected]) fun _ => Idle cfg node R' :=
      markRoute_yields true hfnd.2 (by simp) (by decide) ha
    exact hs.bind fun _ => markRoute_yields false hfnd.2 (by simp) (by decide) ha
  refine whenSome_yields (fun a ha => .bind routeAt_yields fun ri => ?_) fun st hst => ⟨R', hst⟩
  refine .when (fun hrem => ?_) fun _ st hst => ⟨R', hst.2⟩
  refine (bgpInfoReap_yields (hfnd.1 a ha).1).weaken (fun st hst => ⟨hst.2, ?_⟩)
    fun _ st hst => ⟨R'.erase a, hst⟩
  intro ri' hri'
  rw [hst.1] at hri'
  cases hri'
  exact hrem

/-! ## Runs -/

/-- The calls that change routes. -/
inductive RibEvent where
  | update (upd : RibUpdate)
  | withdraw (key : RouteKey) (dampening : Bool) (clients : List Nat)
  | dampWithdraw (binfo : Nat) (attrChange : Bool)
  | dampUpdate (binfo : Nat)
  | dampScan (binfo : Nat)
  | process (better : StoredRoute → Option Nat → Bool) (rn : Nat)

/-- Updates come from neighbors, and the dampening code is called for routes that
are linked. -/
def RibEvent.Proper (cfg : RibConfig) (st : BgpRib slots) : RibEvent → Prop
  | update upd => upd.key.peer ≠ cfg.peerSelf
  | dampWithdraw binfo _ | dampUpdate binfo | dampScan binfo => binfo ∈ st.rib
  | withdraw .. | process .. => True

def RibEvent.run [NeZero slots] (cfg : RibConfig) (now : Int) : RibEvent → RibM slots Unit
  | update upd => do
    let _ ← bgpUpdateMain cfg upd now
  | withdraw key dampening clients => bgpWithdraw cfg key dampening clients now
  | dampWithdraw binfo attrChange => do
    let ri ← routeAt binfo
    let _ ← bgpDampWithdraw cfg binfo ri.rn attrChange now
  | dampUpdate binfo => do
    let ri ← routeAt binfo
    let _ ← bgpDampUpdate cfg binfo ri.rn now
  | dampScan binfo => do
    let _ ← bgpDampScan cfg binfo now
  | process better rn => bgpProcessMain cfg better rn

inductive RibRuns [NeZero slots] (cfg : RibConfig) :
    BgpRib slots → BgpRib slots → Prop where
  | refl (st : BgpRib slots) : RibRuns cfg st st
  | step {st st1 st2 : BgpRib slots} (event : RibEvent) (now : Int) :
      RibRuns cfg st st1 → event.Proper cfg st1 →
      event.run cfg now st1 = .ok ((), st2) → RibRuns cfg st st2

/-- Before the first update. -/
structure BgpRib.Empty (st : BgpRib slots) : Prop where
  routes : ∀ a, st.routes a = none
  rib : st.rib = []
  pcount : ∀ peer afi safi, st.pcount peer afi safi = 0

/-- A route of the peer in the main table for the address family that is not in
hold-down. -/
def BgpRib.useable (cfg : RibConfig) (st : BgpRib slots) (peer afi safi a : Nat) : Bool :=
  (st.routes a).any fun ri => ri.peer = peer && (cfg.table ri.rn).main
    && (cfg.table ri.rn).afi = afi && (cfg.table ri.rn).safi = safi && !ri.holddown

/-- The prefix counts are exact, and so is `BGP_INFO_COUNTED`. -/
structure PcountExact (cfg : RibConfig) (st : BgpRib slots) : Prop where
  nodup : st.rib.Nodup
  count : ∀ peer afi safi, st.pcount peer afi safi = st.rib.countP (st.useable cfg peer afi safi)
  counted : ∀ a ∈ st.rib, ∃ ri, st.routes a = some ri ∧
    ((cfg.table ri.rn).main = true → (ri.flags .counted = true ↔ ri.holddown = false))

theorem BgpRib.Empty.idle (h : st.Empty) (cfg : RibConfig) (node : Nat → Nat) :
    Idle cfg node [] st := by
  have hmb : ∀ {x}, x ∉ st.rib := fun {x} => by simp [h.rib]
  have hrts : ∀ {x ri}, st.routes x ≠ some ri := by
    intro x ri hri
    rw [h.routes x] at hri
    cases hri
  refine ⟨⟨⟨?_, ?_, ?_, ?_, ?_⟩, fun peer afi safi => ?_⟩, h.rib⟩
  · simp [h.rib]
  · exact fun x hx => absurd hx hmb
  · exact fun hri => absurd hri hrts
  · exact fun _ hri => absurd hri hrts
  · exact fun _ _ hri => absurd hri hrts
  · simp [h.rib, h.pcount]

theorem Idle.exact (h : Idle cfg node R st) : PcountExact cfg st := by
  have hag : ∀ a ∈ st.rib, ∃ ri, st.routes a = some ri ∧ ri.Agrees cfg := by
    intro a ha
    obtain ⟨ri, hri, -⟩ := h.1.stored a ha
    exact ⟨ri, hri, h.1.agree ha (by simp) hri⟩
  refine ⟨h.1.nodup, fun peer afi safi => ?_, fun a ha => ?_⟩
  · refine (h.1.count peer afi safi).trans (countP_congr fun a ha => ?_)
    obtain ⟨ri, hri, hri'⟩ := hag a ha
    rw [counted, BgpRib.tally_routes, BgpRib.useable, hri, Option.any_some,
      Option.any_some, StoredRoute.countsFor]
    cases hma : (cfg.table ri.rn).main with
    | false => simp
    | true =>
      rw [hri' hma]
      simp only [Bool.and_eq_true]
      tauto
  · obtain ⟨ri, hri, hri'⟩ := hag a ha
    refine ⟨ri, hri, fun hma => ?_⟩
    rw [hri' hma, Bool.not_eq_true']

theorem Idle.event [NeZero slots] (h : Idle cfg node R st) {event : RibEvent} {now : Int}
    (hprp : event.Proper cfg st) (hr : event.run cfg now st = .ok ((), st')) :
    ∃ node' R', Idle cfg node' R' st' := by
  have h1 : ∀ {m}, m st = .ok ((), st') →
      Yields (Idle cfg node R) m (fun _ => Idle cfg node R) → ∃ node' R', Idle cfg node' R' st' :=
    fun hm hyields => ⟨node, R, hyields st () st' h hm⟩
  have hon : ∀ {a}, a ∈ st.rib → a ∈ R ∧ ∀ ri, st.routes a = some ri → ri.rn = node a := by
    intro a ha
    obtain ⟨ri', hri', hrn, -⟩ := h.1.stored a ha
    refine ⟨h.2 ▸ ha, fun ri hri => ?_⟩
    rw [BgpRib.tally_routes, hri] at hri'
    cases hri'
    exact hrn
  cases event with
  | update upd =>
    obtain ⟨x, st1, hca, he⟩ := FaultM.bind_eq_ok hr
    cases he
    exact bgpUpdateMain_yields hprp now st x st' h hca
  | withdraw key dampening clients => exact h1 hr (bgpWithdraw_yields key dampening clients now)
  | dampWithdraw a attrChange =>
    obtain ⟨ha, hrn⟩ := hon hprp
    obtain ⟨ri, st1, hri, hrs⟩ := FaultM.bind_eq_ok hr
    obtain ⟨rfl, hri⟩ := routeAt_eq_ok hri
    rw [hrn ri hri] at hrs
    exact h1 hrs (Yields.idle ha ((bgpDampWithdraw_yields attrChange now).bind
      fun _ => .pure _ fun _ => id))
  | dampUpdate a =>
    obtain ⟨ha, hrn⟩ := hon hprp
    obtain ⟨ri, st1, hri, hrs⟩ := FaultM.bind_eq_ok hr
    obtain ⟨rfl, hri⟩ := routeAt_eq_ok hri
    rw [hrn ri hri] at hrs
    exact h1 hrs (Yields.idle ha ((bgpDampUpdate_yields now).bind
      fun _ => .pure _ fun _ hst => hst.1))
  | dampScan a =>
    exact h1 hr (Yields.idle (hon hprp).1 ((bgpDampScan_yields now).bind
      fun _ => .pure _ fun _ => id))
  | process better rn =>
    obtain ⟨R', hidle⟩ := bgpProcessMain_yields better rn st () st' h hr
    exact ⟨node, R', hidle⟩

theorem RibRuns.idle [NeZero slots] (h : RibRuns cfg st st') (hst : st.Empty) :
    ∃ node R, Idle cfg node R st' := by
  induction h with
  | refl => exact ⟨fun _ => 0, [], hst.idle cfg _⟩
  | step event now _ hprp hr ih =>
    obtain ⟨node, R, hidle⟩ := ih
    exact hidle.event hprp hr

def emptyRib : BgpRib 25 where
  routes _ := none
  rib := []
  pcount _ _ _ := 0
  infos _ := none
  reuseList _ := none
  reuseOffset := Fin.ofNat 25 0
  noReuseList := none
  next := 0

theorem emptyRib_empty : emptyRib.Empty := ⟨fun _ => rfl, rfl, fun _ _ _ => rfl⟩

def plainUpdate : RibUpdate where
  key := ⟨0, 1, 9, 0⟩
  attr := bareAttr
  filtered := false
  dampening := false
  nexthopCheck := false
  nexthopLookup := false
  overflow _ := false

/-- A route is announced, withdrawn, and announced again before it is processed. -/
def reannounced : List RibEvent :=
  [.process (fun _ new => new.isNone) 0, .update plainUpdate,
    .withdraw plainUpdate.key false [], .update plainUpdate]

/-- The state after some events, if none of them faults. -/
def ribAfter (events : List RibEvent) : BgpRib 25 :=
  events.foldr (fun event => stateAfter (event.run (dampConfig 750 2000) 0)) emptyRib

end SdnQuagga
