import SdnQuagga.RouteMap

/-!
# The recursion of route maps

A call that finds the counter above the limit sets it to zero and denies the route.
Every caller on the way up still takes its own one off, so after the outermost call the
counter is below zero by as many calls as were nested, and the next call may nest
that much deeper. `CallsWithin` is what keeps the counter: no chain of call
statements is longer than the limit.
-/

namespace SdnQuagga

open List

variable {ρ ω : Type} {maps : List (RouteMap ρ)} {funcApply : ρ → ω → RouteMapResult × ω}

/-! ## The loop over the clauses -/

section

variable {call : RouteMap ρ → ApplyState ω → Option (RouteMapResult × ApplyState ω)}
  {P Q : ApplyState ω → Prop}

/-- After a call or a clause: `P` still holds, or the route is denied and `Q` holds. -/
def KeepsOrDenies (P Q : ApplyState ω → Prop) (r : RouteMapResult × ApplyState ω) : Prop :=
  P r.2 ∨ r.1 = .denymatch ∧ Q r.2

/-- The clauses of a list make calls that return, and that leave `P` or deny. -/
def CallsKeep (maps : List (RouteMap ρ))
    (call : RouteMap ρ → ApplyState ω → Option (RouteMapResult × ApplyState ω))
    (P Q : ApplyState ω → Prop) (indices : List (RouteMapIndex ρ)) : Prop :=
  ∀ index ∈ indices, index.type = .permit → ∀ nextrm ∈ index.callee maps, ∀ st, P st →
    ∃ r, call nextrm (st.count 1) = some r ∧ KeepsOrDenies P Q (r.1, r.2.count (-1))

variable {index : RouteMapIndex ρ} {st : ApplyState ω}

theorem applyCall_keeps
    (hca : CallsKeep maps call P Q [index]) (hper : index.type = .permit) (hst : P st)
    (ret : RouteMapResult) :
    ∃ r, applyCall maps call index ret st = some r ∧
      (P r.2 ∨ index.nextrm.isSome = true ∧ r.1 = .denymatch ∧ Q r.2) := by
  rw [applyCall]
  cases hcal : index.callee maps with
  | none => exact ⟨_, rfl, Or.inl hst⟩
  | some nextrm =>
    obtain ⟨r, hr, hke⟩ := hca index mem_cons_self hper nextrm hcal st hst
    refine ⟨(r.1, r.2.count (-1)), by simp only [hr, Option.map_some], ?_⟩
    refine hke.imp id fun hdeny => ⟨?_, hdeny⟩
    obtain ⟨name, hname, -⟩ := Option.bind_eq_some_iff.mp hcal
    rw [hname]
    rfl

section

variable (hobj : ∀ st object, P st → P (st.setObject object))
include hobj

/-- One clause. A call that denies ends the loop. -/
theorem applyIndex_keeps (hca : CallsKeep maps call P Q [index]) (hst : P st) :
    ∃ r, applyIndex maps funcApply call index st = some r ∧
      (P r.2 ∨ r.1 = .done .denymatch ∧ Q r.2) := by
  rw [applyIndex]
  split
  next object _ hper =>
    obtain ⟨r, hr, hke⟩ := applyCall_keeps hca hper
      (hobj st (applySets funcApply index.setList object).2 hst)
      (applySets funcApply index.setList object).1
    refine ⟨(exitVerdict index r.1, r.2), by simp only [hr, Option.map_some], ?_⟩
    refine hke.imp id fun ⟨hso, hdeny, hq⟩ => ⟨?_, hq⟩
    rw [exitVerdict, if_pos ⟨hso, hdeny⟩, hdeny]
  · exact ⟨_, rfl, Or.inl (hobj st _ hst)⟩
  · exact ⟨_, rfl, Or.inl (hobj st _ hst)⟩

variable (indices : List (RouteMapIndex ρ))

/-- The loop goes on only while `P` holds. -/
theorem applyIndices_keeps (st : ApplyState ω)
    (hca : CallsKeep maps call P Q indices) (hst : P st) :
    ∃ r, applyIndices maps funcApply call indices st = some r ∧ KeepsOrDenies P Q r := by
  -- A `goto` leaves some clauses out, so the induction is on the length.
  induction hlen : indices.length using Nat.strongRecOn generalizing indices st with
  | ind len ih =>
    cases indices with
    | nil => exact ⟨_, by rw [applyIndices], Or.inl hst⟩
    | cons index rest =>
      have hhe : CallsKeep maps call P Q [index] := fun i hi =>
        hca i (mem_of_mem_head? (by rw [mem_singleton.mp hi]; rfl))
      have hrs : ∀ {is}, is <:+ rest → CallsKeep maps call P Q is := fun hsb i hi =>
        hca i (mem_cons_of_mem _ (hsb.subset hi))
      have hshort : ∀ {is : List (RouteMapIndex ρ)}, is <:+ rest → is.length < len :=
        fun hsb => hlen ▸ Nat.lt_succ_of_le hsb.length_le
      obtain ⟨⟨verdict, st'⟩, hr, hke⟩ : ∃ r, applyIndex maps funcApply call index st = some r ∧
            (P r.2 ∨ r.1 = .done .denymatch ∧ Q r.2) :=
        applyIndex_keeps hobj hhe hst
      rw [applyIndices, hr]
      cases verdict with
      | done ret =>
        refine ⟨_, rfl, hke.imp id ?_⟩
        rintro ⟨hdeny, hq⟩
        cases hdeny
        exact ⟨rfl, hq⟩
      | follow =>
        have hp : P st' := hke.resolve_right fun h => by cases h.1
        exact ih _ (hshort suffix_rfl) rest st' (hrs suffix_rfl) hp rfl
      | jump ret =>
        have hp : P st' := hke.resolve_right fun h => by cases h.1
        have hsb := dropWhile_suffix (l := rest)
          fun i : RouteMapIndex ρ => decide (i.pref < index.nextpref)
        dsimp only
        split
        · exact ⟨_, rfl, Or.inl hp⟩
        · exact ih _ (hshort hsb) _ st' (hrs hsb) hp rfl

/-- Calls that all leave `P`. -/
theorem applyIndices_invariant (st : ApplyState ω)
    (hca : ∀ index ∈ indices, index.type = .permit → ∀ nextrm ∈ index.callee maps,
      ∀ st, P st → ∃ r, call nextrm (st.count 1) = some r ∧ P (r.2.count (-1))) (hst : P st) :
    ∃ r, applyIndices maps funcApply call indices st = some r ∧ P r.2 := by
  have hke : CallsKeep maps call P (fun _ => False) indices := by
    intro index hix hper nextrm hnrm st hst
    obtain ⟨r, hr, hp⟩ := hca index hix hper nextrm hnrm st hst
    exact ⟨r, hr, Or.inl hp⟩
  obtain ⟨r, hr, hor⟩ : ∃ r, applyIndices maps funcApply call indices st = some r ∧
      KeepsOrDenies P (fun _ => False) r := applyIndices_keeps hobj indices st hke hst
  exact ⟨r, hr, hor.resolve_right fun h => h.2⟩

end

end

/-! ## Chains of call statements -/

/-- The nesting that the counter leaves room for. -/
def roomLeft (recursion : Int) : Nat := (rmapRecursionLimit + 2 - recursion).toNat

/-- No chain of call statements in clauses that permit, from the clauses of this route
map on, is longer than `n`. -/
def CallsWithin (maps : List (RouteMap ρ)) : Nat → RouteMap ρ → Prop
  | 0, map => ∀ index ∈ map.head, index.type = .permit → index.callee maps = none
  | n + 1, map => ∀ index ∈ map.head, index.type = .permit →
      ∀ nextrm ∈ index.callee maps, CallsWithin maps n nextrm

/-- Chains that are short enough leave the counter, and nest as deep as they are long. -/
theorem routeMapApply_within {n : Nat} (fuel depth : Nat) (map : RouteMap ρ)
    (st : ApplyState ω) (hmp : CallsWithin maps n map) (hfuel : n < fuel)
    (hlimit : st.recursion + n ≤ rmapRecursionLimit) :
    ∃ r, routeMapApply maps funcApply fuel depth (some map) st = some r ∧
      r.2.recursion = st.recursion ∧ r.2.deepest ≤ max st.deepest (depth + n) := by
  induction fuel generalizing n depth map st with
  | zero => omega
  | succ fuel ih =>
    rw [routeMapApply, if_neg (by omega)]
    refine applyIndices_invariant (P := fun st' => st'.recursion = st.recursion ∧
      st'.deepest ≤ max st.deepest (depth + n)) (fun _ _ h => h) map.head _ ?_ ⟨rfl, ?_⟩
    · intro index hix hper nextrm hnrm st' hst'
      cases n with
      | zero =>
        rw [hmp index hix hper] at hnrm
        cases hnrm
      | succ n =>
        have hct : (st'.count 1).recursion = st.recursion + 1 := by
          rw [ApplyState.count_recursion, hst'.1]
        obtain ⟨r, hr, hsm, hdeep⟩ := ih (depth + 1) nextrm (st'.count 1)
          (hmp index hix hper nextrm hnrm) (by omega) (by rw [hct]; omega)
        refine ⟨r, hr, ?_, ?_⟩
        · rw [ApplyState.count_recursion, hsm, hct]
          omega
        · rw [ApplyState.count_deepest] at hdeep ⊢
          have := hst'.2
          omega
    · rw [ApplyState.enter_deepest]
      omega

/-! ## Chains that are too long -/

/-- Rules that answer by a script, one entry after the other. -/
def scripted (_ : ρ) : List Bool → RouteMapResult × List Bool
  | true :: script => (.matched, script)
  | _ :: script => (.nomatch, script)
  | [] => (.nomatch, [])

theorem routeMapApplyMatch_scripted (rules : List ρ) (script : List Bool) :
    routeMapApplyMatch scripted rules (replicate rules.length true ++ script) =
      (.matched, script) := by
  induction rules with
  | nil => rfl
  | cons rule rules ih => exact ih

theorem applySets_scripted (sets : List ρ) (script : List Bool) :
    applySets scripted sets (replicate sets.length true ++ script) = (.matched, script) := by
  rw [applySets]
  induction sets with
  | nil => rfl
  | cons set sets ih => exact ih

variable {call : RouteMap ρ → ApplyState (List Bool) → Option (RouteMapResult × _)}

theorem applyIndices_skip (skipped rest : List (RouteMapIndex ρ)) (st : ApplyState (List Bool))
    (hrul : ∀ index ∈ skipped, index.matchList ≠ []) (script : List Bool)
    (hst : st.object = replicate skipped.length false ++ script) :
    applyIndices maps scripted call (skipped ++ rest) st =
      applyIndices maps scripted call rest (st.setObject script) := by
  induction skipped generalizing st with
  | nil =>
    have hobj : st.setObject script = st := by
      rw [← show st.object = script from hst]
      rfl
    rw [hobj, nil_append]
  | cons index skipped ih =>
    obtain ⟨hix, hrul⟩ := forall_mem_cons.mp hrul
    obtain ⟨rule, rules, hli⟩ := exists_cons_of_ne_nil hix
    have hnomatch : routeMapApplyMatch scripted index.matchList st.object =
        (.nomatch, replicate skipped.length false ++ script) := by
      rw [hli, hst]
      rfl
    rw [cons_append, applyIndices, applyIndex, hnomatch]
    exact ih (st.setObject _) hrul rfl

variable {st' : ApplyState (List Bool)} {index : RouteMapIndex ρ}

/-- A clause that matches by the script and whose call denies the route. -/
theorem applyIndices_denied {nextrm : RouteMap ρ} (rest : List (RouteMapIndex ρ))
    (hper : index.type = .permit) (hcal : index.callee maps = some nextrm)
    (st : ApplyState (List Bool)) (script : List Bool)
    (hst : st.object = replicate index.matchList.length true ++
      (replicate index.setList.length true ++ script))
    (hca : call nextrm ((st.setObject script).count 1) = some (.denymatch, st')) :
    applyIndices maps scripted call (index :: rest) st = some (.denymatch, st'.count (-1)) := by
  have hso : index.nextrm.isSome = true := by
    obtain ⟨name, hname, -⟩ := Option.bind_eq_some_iff.mp hcal
    rw [hname]
    rfl
  rw [applyIndices, applyIndex, hst, routeMapApplyMatch_scripted, hper]
  simp only [applySets_scripted, applyCall, hcal, hca, Option.map_some, exitVerdict,
    hso, and_self, if_true]

variable {recursion : Int}

theorem routeMapApply_descends {map nextrm : RouteMap ρ}
    (hrul : ∀ index ∈ map.head, index.matchList ≠ []) (hix : index ∈ map.head)
    (hper : index.type = .permit) (hcal : index.callee maps = some nextrm)
    (hlimit : recursion ≤ rmapRecursionLimit) {fuel depth deepest : Nat} {script : List Bool}
    (hca : routeMapApply maps scripted fuel (depth + 1) (some nextrm)
      ⟨script, recursion + 1, max deepest depth⟩ = some (.denymatch, st')) :
    ∃ script', routeMapApply maps scripted (fuel + 1) depth (some map)
      ⟨script', recursion, deepest⟩ = some (.denymatch, st'.count (-1)) := by
  obtain ⟨skipped, rest, hsp⟩ := append_of_mem hix
  refine ⟨replicate skipped.length false ++ (replicate index.matchList.length true ++
    (replicate index.setList.length true ++ script)), ?_⟩
  rw [routeMapApply, if_neg (by dsimp only; omega), hsp, applyIndices_skip skipped _ _
    (fun i hi => hrul i (hsp ▸ mem_append_left _ hi)) _ rfl]
  exact applyIndices_denied rest hper hcal _ script rfl hca

/-- With a rule in every clause some answers follow a chain that is longer than
what is left below the limit. The counter drifts. -/
theorem routeMapApply_drifts
    (hrul : ∀ map ∈ maps, ∀ index ∈ map.head, index.matchList ≠ []) (n : Nat)
    {map : RouteMap ρ} (hmp : map ∈ maps) (hlg : ¬ CallsWithin maps n map)
    (hlimit : recursion + n = rmapRecursionLimit) (fuel depth deepest : Nat)
    (hfuel : n + 1 < fuel) :
    ∃ script st', routeMapApply maps scripted fuel depth (some map)
        ⟨script, recursion, deepest⟩ = some (.denymatch, st') ∧
      st'.recursion = recursion - (rmapRecursionLimit + 1) ∧ depth + n + 1 ≤ st'.deepest := by
  induction n generalizing fuel depth deepest map recursion with
  | zero =>
    obtain ⟨fuel, rfl⟩ : ∃ k, fuel = k + 2 := ⟨fuel - 2, by omega⟩
    simp only [CallsWithin, not_forall] at hlg
    obtain ⟨index, hix, hper, hcal⟩ := hlg
    obtain ⟨nextrm, hnrm⟩ := Option.ne_none_iff_exists'.mp hcal
    have hrf : routeMapApply maps scripted (fuel + 1) (depth + 1) (some nextrm)
        ⟨[], recursion + 1, max deepest depth⟩ =
          some (.denymatch, ⟨[], 0, max (max deepest depth) (depth + 1)⟩) := by
      rw [routeMapApply, if_pos (by dsimp only; omega)]
      rfl
    obtain ⟨script, hscript⟩ := routeMapApply_descends (hrul map hmp) hix hper hnrm (by omega) hrf
    refine ⟨script, _, hscript, ?_, ?_⟩
    · rw [ApplyState.count_recursion]
      dsimp only
      omega
    · rw [ApplyState.count_deepest]
      dsimp only
      omega
  | succ n ih =>
    obtain ⟨fuel, rfl⟩ : ∃ k, fuel = k + 1 := ⟨fuel - 1, by omega⟩
    simp only [CallsWithin, not_forall] at hlg
    obtain ⟨index, hix, hper, nextrm, hnrm, hlg⟩ := hlg
    obtain ⟨name, -, hfnd⟩ := Option.bind_eq_some_iff.mp hnrm
    have hrm : recursion + 1 + n = rmapRecursionLimit := by
      push_cast at hlimit
      omega
    obtain ⟨script, st', hca, hdrift, hdeep⟩ := ih (mem_of_find?_eq_some hfnd)
      hlg hrm fuel (depth + 1) (max deepest depth) (by omega)
    obtain ⟨script', hscript⟩ := routeMapApply_descends (hrul map hmp) hix hper hnrm (by omega) hca
    refine ⟨script', _, hscript, ?_, ?_⟩
    · rw [ApplyState.count_recursion, hdrift]
      omega
    · rw [ApplyState.count_deepest]
      omega

/-! ## Sequences of calls -/

/-- A call of `route_map_apply` that is not within another, with the counter the calls
before have left. -/
def outermostCall (maps : List (RouteMap ρ)) (funcApply : ρ → ω → RouteMapResult × ω)
    (recursion : Int) (map : Option (RouteMap ρ)) (object : ω) :
    Option (RouteMapResult × ApplyState ω) :=
  routeMapApply maps funcApply (roomLeft recursion) 0 map ⟨object, recursion, 0⟩

/-- What the counter may be after a sequence of calls. -/
inductive Counter (maps : List (RouteMap ρ)) (funcApply : ρ → ω → RouteMapResult × ω) :
    Int → Prop where
  | start : Counter maps funcApply 0
  | call {recursion : Int} {map : Option (RouteMap ρ)} {object : ω}
      {r : RouteMapResult × ApplyState ω} : Counter maps funcApply recursion →
      (∀ m ∈ map, m ∈ maps) → outermostCall maps funcApply recursion map object = some r →
      Counter maps funcApply r.2.recursion

/-- Whatever the rules answer, every call after every sequence of calls returns with the
counter at zero and nests no deeper than one beyond the limit. -/
def RecursionBounded (maps : List (RouteMap ρ)) : Prop :=
  ∀ {ω : Type} (funcApply : ρ → ω → RouteMapResult × ω) {recursion : Int},
    Counter maps funcApply recursion → ∀ map : Option (RouteMap ρ), (∀ m ∈ map, m ∈ maps) →
      ∀ object, ∃ r, outermostCall maps funcApply recursion map object = some r ∧
        r.2.recursion = 0 ∧ r.2.deepest ≤ rmapRecursionLimit + 1

section

variable (hshort : ∀ map ∈ maps, CallsWithin maps rmapRecursionLimit map)
include hshort

theorem outermostCall_within {map : Option (RouteMap ρ)} (hmp : ∀ m ∈ map, m ∈ maps) (object : ω) :
    ∃ r, outermostCall maps funcApply 0 map object = some r ∧ r.2.recursion = 0 ∧
      r.2.deepest ≤ rmapRecursionLimit + 1 := by
  cases map with
  | none => exact ⟨_, rfl, rfl, Nat.zero_le _⟩
  | some map =>
    obtain ⟨r, hr, hz, hdeep⟩ : ∃ r, outermostCall maps funcApply 0 (some map) object =
        some r ∧ r.2.recursion = 0 ∧ r.2.deepest ≤ max 0 (0 + rmapRecursionLimit) :=
      routeMapApply_within _ 0 map _ (hshort map (hmp map rfl)) (by decide)
        (Int.le_of_eq (Int.zero_add _))
    exact ⟨r, hr, hz, by omega⟩

theorem Counter.zero (h : Counter maps funcApply recursion) : recursion = 0 := by
  induction h with
  | start => rfl
  | call _ hmp hca ih =>
    subst ih
    obtain ⟨r, hr, hz, -⟩ := outermostCall_within hshort hmp _
    rw [hca] at hr
    cases hr
    exact hz

end

/-- The recursion is bounded over every sequence of calls if no chain of call statements
is longer than the limit. If every clause has a match rule, it is bounded only then. -/
theorem recursion_bounded_of_calls_within (maps : List (RouteMap ρ)) :
    ((∀ map ∈ maps, CallsWithin maps rmapRecursionLimit map) → RecursionBounded maps) ∧
      ((∀ map ∈ maps, ∀ index ∈ map.head, index.matchList ≠ []) → RecursionBounded maps →
        ∀ map ∈ maps, CallsWithin maps rmapRecursionLimit map) := by
  constructor
  · intro hshort ω funcApply recursion hcounter map hmap object
    rw [hcounter.zero hshort]
    exact outermostCall_within hshort hmap object
  · intro hrules hbounded map hmap
    by_contra hlong
    have hroom : (0 : Int) + rmapRecursionLimit = rmapRecursionLimit := Int.zero_add _
    obtain ⟨script, st', hcall, hdrift, -⟩ := routeMapApply_drifts hrules rmapRecursionLimit
      hmap hlong hroom (roomLeft 0) 0 0 (by decide)
    obtain ⟨r, hr, hzero, -⟩ := hbounded scripted .start (some map)
      (by rintro m ⟨⟩; exact hmap) script
    rw [outermostCall, hcall] at hr
    cases hr
    rw [hdrift] at hzero
    exact absurd hzero (by decide)

/-- A route map that calls a second one. -/
def twoLevels : List (RouteMap Unit) :=
  [{ name := "outer"
     head :=
      [{ pref := 10, type := .permit, exitpolicy := .exit, nextpref := 0,
         nextrm := some "inner", matchList := [()], setList := [] }] },
   { name := "inner"
     head :=
      [{ pref := 10, type := .permit, exitpolicy := .exit, nextpref := 0,
         nextrm := none, matchList := [()], setList := [] }] }]

theorem recursion_bounded_two_levels :
    (∀ map ∈ twoLevels, CallsWithin twoLevels rmapRecursionLimit map) ∧
      RecursionBounded twoLevels := by
  have hinner : ∀ n, CallsWithin twoLevels (n + 1) twoLevels[1] := by
    intro n index hindex _ nextrm hnextrm
    cases mem_singleton.mp hindex
    cases hnextrm
  have hshort : ∀ map ∈ twoLevels, CallsWithin twoLevels rmapRecursionLimit map := by
    intro map hmap
    rcases mem_pair.mp hmap with rfl | rfl
    · intro index hindex _ nextrm hnextrm
      cases mem_singleton.mp hindex
      cases hnextrm
      exact hinner 8
    · exact hinner 9
  exact ⟨hshort, (recursion_bounded_of_calls_within twoLevels).1 hshort⟩

/-- A route map with one clause, which calls it again. -/
def selfCalling : RouteMap Unit where
  name := "loop"
  head :=
    [{ pref := 10, type := .permit, exitpolicy := .exit, nextpref := 0,
       nextrm := some "loop", matchList := [()], setList := [] }]

theorem selfCalling_long (n : Nat) : ¬ CallsWithin [selfCalling] n selfCalling := by
  induction n with
  | zero =>
    intro h
    cases h _ mem_cons_self rfl
  | succ n ih =>
    intro h
    exact ih (h _ mem_cons_self rfl selfCalling rfl)

/-- The first call leaves the counter at -11, and the second one nests 22 deep. -/
theorem self_call_drifts :
    ∃ (first second : List Bool) (st st' : ApplyState (List Bool)),
      outermostCall [selfCalling] scripted 0 (some selfCalling) first =
        some (.denymatch, st) ∧ st.recursion = -11 ∧
      outermostCall [selfCalling] scripted (-11) (some selfCalling) second =
        some (.denymatch, st') ∧ 22 ≤ st'.deepest := by
  have hrules : ∀ map ∈ [selfCalling], ∀ index ∈ map.head, index.matchList ≠ [] := by
    simp [selfCalling]
  have hfirstRoom : (0 : Int) + (10 : Nat) = rmapRecursionLimit := rfl
  have hsecondRoom : (-11 : Int) + (21 : Nat) = rmapRecursionLimit := rfl
  obtain ⟨first, st, hfirst, hst, -⟩ := routeMapApply_drifts hrules 10 mem_cons_self
    (selfCalling_long 10) hfirstRoom (roomLeft 0) 0 0 (by decide)
  obtain ⟨second, st', hsecond, -, hdeep⟩ := routeMapApply_drifts hrules 21
    mem_cons_self (selfCalling_long 21) hsecondRoom (roomLeft (-11)) 0 0 (by decide)
  exact ⟨first, second, st, st', hfirst, hst, hsecond, hdeep⟩

end SdnQuagga
