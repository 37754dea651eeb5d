import SdnQuagga.IsisLsp
import Mathlib.Data.List.Induction

/-!
# The routes of IS-IS at zebra

`isis_route_create` and `isis_route_validate` of `isisd/isis_route.c` with the messages of
`isisd/isis_zebra.c`, for one address family and a connection that is up. IPv6 next hops are
link-local. A walk over a table meets each prefix once and touches no other, so a walk is given
prefix by prefix.

An IPv6 route that zebra has is never deleted, because the test of its flag is the wrong way
round. In an area with both levels a route is withdrawn without a look at the other level.
-/

namespace SdnQuagga

open Function List

/-! ## The code -/

inductive RouteFamily where
  | inet
  | inet6
deriving DecidableEq, Repr

/-- `struct isis_route_info` -/
structure IsisRouteInfo (ν : Type) where
  cost : UInt32
  depth : UInt32
  nexthops : List ν
  synced : Bool
  resync : Bool
  active : Bool
deriving DecidableEq, Repr

/-- A route as zebra has it. -/
structure ZebraRoute (ν : Type) where
  metric : UInt32
  nexthops : List ν
deriving DecidableEq, Repr

variable {π ν : Type}

def IsisRouteInfo.route (info : IsisRouteInfo ν) : ZebraRoute ν := ⟨info.cost, info.nexthops⟩

def isisRouteInfoSame [DecidableEq ν] (new old : IsisRouteInfo ν) : Bool :=
  old.synced && !new.resync && new.cost = old.cost && new.depth = old.depth
    && new.nexthops.all (· ∈ old.nexthops) && old.nexthops.all (· ∈ new.nexthops)

/-- `isis_route_create`, at the entry of the prefix. -/
def isisRouteCreate [DecidableEq ν] (new : IsisRouteInfo ν) :
    Option (IsisRouteInfo ν) → IsisRouteInfo ν
  | none => { new with synced := false, active := true }
  | some old =>
    if isisRouteInfoSame new old then { old with active := true }
    else { new with synced := false, active := true }

section

variable (family : RouteFamily) (info : IsisRouteInfo ν) (held : Option (ZebraRoute ν))

/-- `isis_zebra_route_add_ipv4` and `isis_zebra_route_add_ipv6`, with what zebra has. -/
def isisZebraRouteAdd : IsisRouteInfo ν × Option (ZebraRoute ν) :=
  if info.synced ∨ family = .inet6 ∧ info.nexthops = [] then (info, held)
  else ({ info with synced := true, resync := false }, some info.route)

/-- `isis_zebra_route_del_ipv4`, and `isis_zebra_route_del_ipv6`, which returns if zebra has the
route. -/
def isisZebraRouteDel : IsisRouteInfo ν × Option (ZebraRoute ν) :=
  if family = .inet6 ∧ (info.synced ∨ info.nexthops = []) then (info, held)
  else ({ info with synced := false }, none)

def isisZebraRouteUpdate : IsisRouteInfo ν × Option (ZebraRoute ν) :=
  if info.active then isisZebraRouteAdd family info held else isisZebraRouteDel family info held

def isisRouteDelete : Option (ZebraRoute ν) :=
  if info.synced then (isisZebraRouteUpdate family { info with active := false } held).2 else held

/-- What `isis_route_validate_table` does at a prefix. -/
def validateEntry : Option (IsisRouteInfo ν) × Option (ZebraRoute ν) :=
  let updated := isisZebraRouteUpdate family info held
  if updated.1.active then (some updated.1, updated.2)
  else (none, isisRouteDelete family updated.1 updated.2)

end

/-- `is_type` -/
inductive IsisAreaType where
  | level1
  | level2
  | level1and2
deriving DecidableEq, Repr

/-- The entries of a prefix in the tables of the levels, and what zebra has for it. -/
structure PrefixRoutes (ν : Type) where
  entry : IsisLevel → Option (IsisRouteInfo ν)
  zebra : Option (ZebraRoute ν)

namespace PrefixRoutes

variable (routes : PrefixRoutes ν)

def set (l : IsisLevel)
    (f : Option (IsisRouteInfo ν) → Option (IsisRouteInfo ν)) : PrefixRoutes ν :=
  { routes with entry := update routes.entry l (f (routes.entry l)) }

/-- The table that is validated. The merge table has an entry of level 2 where there is none of
level 1. -/
def table : IsisAreaType → IsisLevel
  | .level1 => .l1
  | .level2 => .l2
  | .level1and2 => if (routes.entry .l1).isSome then .l1 else .l2

/-- `isis_route_validate` -/
def validate (isType : IsisAreaType) (family : RouteFamily) (routes : PrefixRoutes ν) :
    PrefixRoutes ν :=
  match routes.entry (routes.table isType) with
  | none => routes
  | some info =>
    let left := validateEntry family info routes.zebra
    ⟨update routes.entry (routes.table isType) left.1, left.2⟩

/-- What zebra should have: the active route of level 1, or else that of level 2. -/
def chosen : Option (ZebraRoute ν) :=
  ((routes.entry .l1).filter (·.active) <|> (routes.entry .l2).filter (·.active)).map
    IsisRouteInfo.route

end PrefixRoutes

/-- The routes that SPF finds in a run. -/
structure SpfRoutes (π ν : Type) where
  level : IsisLevel
  routes : List (π × IsisRouteInfo ν)

section

variable [DecidableEq π] [DecidableEq ν] (isType : IsisAreaType) (family : RouteFamily)

/-- A run: `isis_route_invalidate_table`, the routes that are found, `isis_route_validate`. -/
def isisRunSpf (st : π → PrefixRoutes ν) (run : SpfRoutes π ν) : π → PrefixRoutes ν :=
  let invalid p := (st p).set run.level (Option.map fun info => { info with active := false })
  let found := run.routes.foldl (fun st r => update st r.1
    ((st r.1).set run.level fun old => some (isisRouteCreate r.2 old))) invalid
  fun p => (found p).validate isType family

def isisRunSpfs (runs : List (SpfRoutes π ν)) : π → PrefixRoutes ν :=
  runs.foldl (isisRunSpf isType family) fun _ => ⟨fun _ => none, none⟩

end

/-! ## One prefix -/

/-- Zebra gets an active route, and loses an inactive IPv4 route. -/
theorem validateEntry_active {family : RouteFamily} {info : IsisRouteInfo ν}
    {held : Option (ZebraRoute ν)} (hactv : info.active = true)
    (hheld : info.synced = true → held = some info.route)
    (hhop : family = .inet6 → info.nexthops ≠ []) :
    ∃ i, validateEntry family info held = (some i, some info.route) ∧ i.active = true
      ∧ i.route = info.route ∧ i.nexthops = info.nexthops := by
  have hupd : isisZebraRouteUpdate family info held = isisZebraRouteAdd family info held :=
    if_pos hactv
  cases hsyn : info.synced with
  | true =>
    obtain rfl := hheld hsyn
    exact ⟨info, by simp [validateEntry, hupd, isisZebraRouteAdd, hactv, hsyn], hactv, rfl, rfl⟩
  | false =>
    have hadd : ¬ (family = .inet6 ∧ info.nexthops = []) := fun h => hhop h.1 h.2
    refine ⟨{ info with synced := true, resync := false }, ?_, hactv, rfl, rfl⟩
    simp [validateEntry, hupd, isisZebraRouteAdd, hactv, hsyn, hadd]

theorem validateEntry_inactive {info : IsisRouteInfo ν} {held : Option (ZebraRoute ν)}
    (hactv : info.active = false) : validateEntry .inet info held = (none, none) := by
  simp [validateEntry, isisZebraRouteUpdate, isisZebraRouteDel, isisRouteDelete, hactv]

def IsisAreaType.Has : IsisAreaType → IsisLevel → Prop
  | .level1, l => l = .l1
  | .level2, l => l = .l2
  | .level1and2, _ => True

/-- What holds of a prefix between two runs. `found` are the levels that have found it. -/
structure ZebraAgrees (isType : IsisAreaType) (family : RouteFamily) (found : IsisLevel → Prop)
    (routes : PrefixRoutes ν) : Prop where
  entries : ∀ l info, routes.entry l = some info → isType.Has l ∧ found l
    ∧ (family = .inet6 → info.nexthops ≠ [])
  active : ∀ info, routes.entry (routes.table isType) = some info → info.active = true
  shown : routes.zebra = (routes.entry (routes.table isType)).map (·.route)
  /-- An IPv6 route of level 1 stays. -/
  kept : family = .inet6 → isType = .level1and2 → found .l1 → (routes.entry .l1).isSome

variable {isType : IsisAreaType} {family : RouteFamily} {found : IsisLevel → Prop}
  {routes routes' : PrefixRoutes ν} {l : IsisLevel}

theorem ZebraAgrees.table (h : ZebraAgrees isType family found routes) :
    routes.entry (routes.table isType) = (routes.entry .l1 <|> routes.entry .l2) := by
  have hno (l) (hl : ¬ isType.Has l) : routes.entry l = none :=
    Option.eq_none_iff_forall_ne_some.mpr fun info hif => hl (h.entries l info hif).1
  cases isType with
  | level1 => simp [PrefixRoutes.table, hno .l2 (by simp [IsisAreaType.Has])]
  | level2 => simp [PrefixRoutes.table, hno .l1 (by simp [IsisAreaType.Has])]
  | level1and2 => cases h1 : routes.entry .l1 <;> simp [PrefixRoutes.table, h1]

theorem ZebraAgrees.chosen (h : ZebraAgrees isType family found routes) :
    routes.zebra = routes.chosen := by
  have hactv := h.active
  rw [h.shown, PrefixRoutes.chosen]
  rw [h.table] at hactv ⊢
  cases h1 : routes.entry .l1 with
  | some info => simp [Option.filter, hactv info (by simp [h1])]
  | none =>
    cases h2 : routes.entry .l2 with
    | some info => simp [Option.filter, hactv info (by simp [h1, h2])]
    | none => rfl

/-- The levels that may lose a prefix without harm: for IPv4 any but level 1 of a prefix that
level 2 has found, for IPv6 only level 2 of one that level 1 has found. -/
def MayLose (isType : IsisAreaType) (family : RouteFamily) (found : IsisLevel → Prop)
    (l : IsisLevel) : Prop :=
  match family with
  | .inet => isType = .level1and2 → l = .l1 → ¬ found .l2
  | .inet6 => isType = .level1and2 ∧ l = .l2 ∧ found .l1

/-- A table does not change with the routes in it. -/
theorem PrefixRoutes.table_congr (h : routes'.entry .l1 = none ↔ routes.entry .l1 = none) :
    routes'.table isType = routes.table isType := by
  cases isType <;> simp [PrefixRoutes.table, Option.isSome_iff_ne_none, h]

theorem ZebraAgrees.validate
    (hentries : ∀ l info, routes.entry l = some info →
      isType.Has l ∧ found l ∧ (family = .inet6 → info.nexthops ≠ []))
    (hkept : family = .inet6 → isType = .level1and2 → found .l1 → (routes.entry .l1).isSome)
    (hnone : routes.entry (routes.table isType) = none → routes.zebra = none)
    (hactive : ∀ info, routes.entry (routes.table isType) = some info → info.active = true →
      info.synced = true → routes.zebra = some info.route)
    (hlost : ∀ info, routes.entry (routes.table isType) = some info → info.active = false →
      family = .inet ∧ (isType = .level1and2 → routes.entry .l1 = none ∨ routes.entry .l2 = none)) :
    ZebraAgrees isType family found (routes.validate isType family) := by
  unfold PrefixRoutes.validate
  split
  next hno => exact ⟨hentries, by simp [hno], by rw [hnone hno, hno]; rfl, hkept⟩
  next info hif =>
    cases hactv : info.active with
    | true =>
      obtain ⟨i, heq, hi, hrt, hhop⟩ := validateEntry_active hactv (hactive info hif hactv)
        (hentries _ info hif).2.2
      simp only [heq]
      have htable : PrefixRoutes.table ⟨update routes.entry (routes.table isType) (some i),
          some info.route⟩ isType = routes.table isType := by
        refine PrefixRoutes.table_congr ?_
        grind [update_apply]
      refine ⟨fun l j hj => ?_, ?_, ?_, fun h6 h12 h1 => ?_⟩
      · grind [update_apply]
      · rw [htable]
        simp [hi]
      · rw [htable]
        simp [hrt]
      · grind [update_apply]
    | false =>
      obtain ⟨rfl, hboth⟩ := hlost info hif hactv
      simp only [validateEntry_inactive hactv]
      have hno : update routes.entry (routes.table isType) none
          (PrefixRoutes.table ⟨update routes.entry (routes.table isType) none, none⟩ isType)
          = none := by
        cases isType <;> grind [update_apply, PrefixRoutes.table]
      refine ⟨fun l j hj => ?_, by simp [hno], by simp [hno], fun h => by cases h⟩
      grind [update_apply]

/-- The state that a run leaves before it validates: only the entry of its level differs, and it
is the new route, which has its flag only if it is the old one, or the old one, inactive. -/
structure RunSets (family : RouteFamily) (l : IsisLevel) (finds : Prop)
    (routes routes' : PrefixRoutes ν) : Prop where
  zebra : routes'.zebra = routes.zebra
  other : ∀ k ≠ l, routes'.entry k = routes.entry k
  new : finds → ∃ info, routes'.entry l = some info ∧ info.active = true
    ∧ (family = .inet6 → info.nexthops ≠ [])
    ∧ (info.synced = true → ∃ old, routes.entry l = some old ∧ old.route = info.route)
  lost : ¬ finds → routes'.entry l =
    (routes.entry l).map fun info => { info with active := false }

variable {finds : Prop}

/-- The prefix is found. -/
theorem ZebraAgrees.find (h : ZebraAgrees isType family found routes) (hhas : isType.Has l)
    (hr : RunSets family l finds routes routes') (hfinds : finds) :
    ZebraAgrees isType family (fun k => found k ∨ k = l ∧ finds)
      (routes'.validate isType family) := by
  obtain ⟨hentries, hactv, hshown, hkept⟩ := h
  obtain ⟨hzebra, hother, hnew, hlost⟩ := hr
  obtain ⟨info, hif, hia, hhop, hsame⟩ := hnew hfinds
  refine .validate (fun k i hi => ?_) (fun h6 h12 h1 => ?_) (fun hno => ?_)
    (fun i hi hac hsyn => ?_) fun i hi hac => ?_
  · rcases eq_or_ne k l with rfl | hk
    · grind
    · grind
  · rcases eq_or_ne .l1 l with rfl | hk
    · grind
    · grind
  all_goals cases isType <;> cases l <;> grind [PrefixRoutes.table, IsisAreaType.Has]

/-- It is not found: what is shown may go only if the other level has none. -/
theorem ZebraAgrees.lose (h : ZebraAgrees isType family found routes)
    (hr : RunSets family l finds routes routes') (hfinds : ¬ finds)
    (hlose : found l → MayLose isType family found l) :
    ZebraAgrees isType family found (routes'.validate isType family) := by
  obtain ⟨hentries, hactv, hshown, hkept⟩ := h
  obtain ⟨hzebra, hother, hnew, hlost⟩ := hr
  have hold (k i) (hi : routes'.entry k = some i) : ∃ old, routes.entry k = some old
      ∧ i.route = old.route ∧ i.nexthops = old.nexthops ∧ (k ≠ l → i = old) := by
    rcases eq_or_ne k l with rfl | hk
    · rw [hlost hfinds] at hi
      obtain ⟨old, hold, rfl⟩ := Option.map_eq_some_iff.mp hi
      exact ⟨old, hold, rfl, rfl, fun hne => absurd rfl hne⟩
    · exact ⟨i, hother k hk ▸ hi, rfl, rfl, fun _ => rfl⟩
  have hnone (k) : routes'.entry k = none ↔ routes.entry k = none := by
    rcases eq_or_ne k l with rfl | hk
    · rw [hlost hfinds, Option.map_eq_none_iff]
    · rw [hother k hk]
  have htable : routes'.table isType = routes.table isType :=
    PrefixRoutes.table_congr (hnone .l1)
  refine .validate (fun k i hi => ?_) (fun h6 h12 h1 => ?_) (fun hno => ?_)
    (fun i hi hac hsyn => ?_) fun i hi hac => ?_
  · grind
  · rw [Option.isSome_iff_ne_none, ne_eq, hnone, ← ne_eq, ← Option.isSome_iff_ne_none]
    exact hkept h6 h12 h1
  · rw [hzebra, hshown, ← htable, (hnone _).mp hno]
    rfl
  · grind
  · obtain ⟨old, ho, -, -, hne⟩ := hold _ i hi
    rcases eq_or_ne (routes'.table isType) l with hl | hl
    · have hmay := hlose (hl ▸ (hentries _ old ho).2.1)
      cases family with
      | inet =>
        refine ⟨rfl, fun h12 => ?_⟩
        subst h12
        cases l with
        | l1 =>
          rw [hother .l2 (by decide)]
          exact .inr (Option.eq_none_iff_forall_ne_some.mpr fun j hj =>
            hmay rfl rfl (hentries _ j hj).2.1)
        | l2 =>
          refine .inl (Option.not_isSome_iff_eq_none.mp fun h1 => ?_)
          cases hl.symm.trans (if_pos h1)
      | inet6 =>
        obtain ⟨rfl, rfl, h1⟩ := hmay
        rw [htable] at hl
        cases hl.symm.trans (if_pos (hkept rfl rfl h1))
    · grind

theorem ZebraAgrees.run (h : ZebraAgrees isType family found routes) (hhas : isType.Has l)
    (hr : RunSets family l finds routes routes')
    (hlose : found l → ¬ finds → MayLose isType family found l) :
    ZebraAgrees isType family (fun k => found k ∨ k = l ∧ finds)
      (routes'.validate isType family) := by
  by_cases hfinds : finds
  · exact h.find hhas hr hfinds
  · simpa [hfinds] using h.lose hr hfinds fun hf => hlose hf hfinds

section

variable [DecidableEq π] [DecidableEq ν]

/-- A route that is created has its flag only if it is the old one. -/
theorem isisRouteCreate_spec (new : IsisRouteInfo ν) (old : Option (IsisRouteInfo ν)) :
    (isisRouteCreate new old).active = true
      ∧ (new.nexthops ≠ [] → (isisRouteCreate new old).nexthops ≠ [])
      ∧ ((isisRouteCreate new old).synced = true →
        ∃ o, old = some o ∧ o.synced = true ∧ o.route = (isisRouteCreate new old).route) := by
  cases old with
  | none => exact ⟨rfl, id, fun h => by cases h⟩
  | some old =>
    rw [isisRouteCreate]
    split
    next hsame =>
      refine ⟨rfl, fun hhop hno => ?_, fun hsyn => ⟨old, rfl, hsyn, rfl⟩⟩
      have hno : old.nexthops = [] := hno
      simp [isisRouteInfoSame, hno, eq_nil_iff_forall_not_mem] at hsame hhop
      grind
    · exact ⟨rfl, id, fun h => by cases h⟩

/-- The routes found in a run, at one prefix. -/
theorem runSets (st : π → PrefixRoutes ν) (run : SpfRoutes π ν) (p : π)
    (hhop : family = .inet6 → ∀ r ∈ run.routes, r.2.nexthops ≠ []) :
    ∃ routes', isisRunSpf isType family st run p = routes'.validate isType family
      ∧ RunSets family run.level (p ∈ run.routes.map Prod.fst) (st p) routes' := by
  refine ⟨_, rfl, ?_⟩
  obtain ⟨l, rs⟩ := run
  induction rs using reverseRecOn with
  | nil =>
    exact ⟨rfl, fun k hk => update_of_ne hk .., fun h => absurd h not_mem_nil,
      fun _ => update_self ..⟩
  | append_singleton rs r ih =>
    have ih := ih fun h6 r' hr' => hhop h6 r' (mem_append_left _ hr')
    simp only [foldl_append, foldl_cons, foldl_nil]
    generalize rs.foldl _ _ = st' at ih ⊢
    rcases eq_or_ne p r.1 with rfl | hne
    · rw [update_self]
      obtain ⟨hactv, hnh, hsyn⟩ := isisRouteCreate_spec r.2 ((st' r.1).entry l)
      refine ⟨ih.zebra, fun k hk => (update_of_ne hk ..).trans (ih.other k hk), fun _ =>
        ⟨_, update_self .., hactv, fun h6 => hnh (hhop h6 r (by simp)), fun h => ?_⟩, fun h => ?_⟩
      · obtain ⟨o, ho, hos, hrt⟩ := hsyn h
        by_cases hfinds : r.1 ∈ rs.map Prod.fst
        · obtain ⟨info, hif, -, -, hold⟩ := ih.new hfinds
          obtain rfl := Option.some_inj.mp (ho.symm.trans hif)
          rw [← hrt]
          exact hold hos
        · obtain ⟨old, hold, rfl⟩ := Option.map_eq_some_iff.mp ((ih.lost hfinds).symm.trans ho)
          exact ⟨old, hold, hrt⟩
      · simp at h
    · rw [update_of_ne hne]
      have hiff : p ∈ (rs ++ [r]).map Prod.fst ↔ p ∈ rs.map Prod.fst := by simp [hne]
      rw [hiff]
      exact ih

end

/-! ## Runs -/

/-- A run of level `l` among `runs` has found the prefix. -/
def FoundBy (p : π) (runs : List (SpfRoutes π ν)) (l : IsisLevel) : Prop :=
  ∃ run ∈ runs, l = run.level ∧ p ∈ run.routes.map Prod.fst

/-- Zebra has the route that it should have, after any number of runs, if the levels that lose
the prefix are those that may. -/
theorem zebra_agrees [DecidableEq π] [DecidableEq ν] (isType : IsisAreaType)
    (family : RouteFamily) (runs : List (SpfRoutes π ν)) (p : π)
    (hhas : ∀ run ∈ runs, isType.Has run.level)
    (hhop : family = .inet6 → ∀ run ∈ runs, ∀ r ∈ run.routes, r.2.nexthops ≠ [])
    (hlose : ∀ earlier run later, runs = earlier ++ run :: later →
      FoundBy p earlier run.level → p ∉ run.routes.map Prod.fst →
      MayLose isType family (FoundBy p earlier) run.level) :
    (isisRunSpfs isType family runs p).zebra = (isisRunSpfs isType family runs p).chosen := by
  suffices h : ZebraAgrees isType family (FoundBy p runs) (isisRunSpfs isType family runs p) from
    h.chosen
  induction runs using reverseRecOn with
  | nil =>
    refine ⟨fun l info h => ?_, fun info h => ?_, rfl, fun _ _ hno => ?_⟩
    · cases (show none = some info from h)
    · cases (show none = some info from h)
    · obtain ⟨run, hno, -⟩ := hno
      cases hno
  | append_singleton runs run ih =>
    have hrun : run ∈ runs ++ [run] := mem_append_right _ mem_cons_self
    have h := ih (fun r hr => hhas r (mem_append_left _ hr))
      (fun h6 r hr => hhop h6 r (mem_append_left _ hr)) fun earlier r later heq =>
        hlose earlier r (later ++ [run]) (by rw [heq, append_assoc]; rfl)
    obtain ⟨routes', heq, hsets⟩ : ∃ routes' : PrefixRoutes ν, isisRunSpf isType family
        (isisRunSpfs isType family runs) run p = routes'.validate isType family ∧ _ :=
      runSets _ run p fun h6 => hhop h6 run hrun
    have hfound : FoundBy p (runs ++ [run]) = fun l =>
        FoundBy p runs l ∨ l = run.level ∧ p ∈ run.routes.map Prod.fst := by
      funext l
      simp [FoundBy, or_and_right, exists_or]
    rw [isisRunSpfs, foldl_append, hfound]
    have h' := h.run (hhas run hrun) hsets (hlose runs run [] rfl)
    rwa [← heq] at h'

/-- An IPv6 prefix of both levels that level 2 loses. -/
theorem zebra_agrees_merged :
    let info : IsisRouteInfo Nat := ⟨10, 1, [7], false, false, false⟩
    let runs : List (SpfRoutes Nat Nat) := [⟨.l2, [(3, info)]⟩, ⟨.l1, [(3, info)]⟩, ⟨.l2, []⟩]
    (isisRunSpfs .level1and2 .inet6 runs 3).zebra
      = (isisRunSpfs .level1and2 .inet6 runs 3).chosen := by
  refine zebra_agrees .level1and2 .inet6 _ 3 (fun _ _ => trivial) (by decide) ?_
  intro earlier run later heq _ hno
  rcases earlier with _ | ⟨run1, _ | ⟨run2, _ | ⟨run3, _⟩⟩⟩
  · cases heq
    exact absurd mem_cons_self hno
  · cases heq
    exact absurd mem_cons_self hno
  · cases heq
    exact ⟨rfl, rfl, _, mem_cons_of_mem _ mem_cons_self, rfl, mem_cons_self⟩
  · simp at heq

/-- Zebra keeps an IPv6 route that is lost. In an area with both levels it loses an IPv4 route
when the same prefix is lost in level 1. -/
theorem zebra_disagrees :
    let info : IsisRouteInfo Nat := ⟨10, 1, [7], false, false, false⟩
    let lost := isisRunSpfs .level1 .inet6 [⟨.l1, [(3, info)]⟩, ⟨.l1, []⟩] 3
    let merged := isisRunSpfs .level1and2 .inet
      [⟨.l1, [(3, info)]⟩, ⟨.l2, [(3, info)]⟩, ⟨.l1, []⟩] 3
    (lost.zebra = some ⟨10, [7]⟩ ∧ lost.chosen = none) ∧
      merged.zebra = none ∧ merged.chosen = some ⟨10, [7]⟩ := by
  decide

end SdnQuagga
