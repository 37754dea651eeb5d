import Mathlib.Data.List.Basic

/-!
# Route maps

`route_map_apply` of `lib/routemap.c`. A route map is a list of clauses
(`struct route_map_index`) in the order of their preference. A clause that matches and
permits may call another route map, and the call statements may form cycles; what
bounds the recursion is a counter that outlives the call (`static int recursion`).

The rules of a clause are functions that the daemons install. They are a parameter
here: `funcApply` says what a rule answers for an object, and what it makes of it.
-/

namespace SdnQuagga

/-- `enum route_map_type`. -/
inductive RouteMapType where
  | permit
  | deny
  | any
deriving DecidableEq, Repr

/-- `route_map_result_t`. -/
inductive RouteMapResult where
  | matched
  | denymatch
  | nomatch
  | error
  | okay
deriving DecidableEq, Repr

/-- `route_map_end_t`. -/
inductive RouteMapEnd where
  | exit
  | goto
  | next
deriving DecidableEq, Repr

structure RouteMapIndex (ρ : Type) where
  pref : Int
  type : RouteMapType
  exitpolicy : RouteMapEnd
  nextpref : Int
  nextrm : Option String
  matchList : List ρ
  setList : List ρ

structure RouteMap (ρ : Type) where
  name : String
  head : List (RouteMapIndex ρ)

def rmapRecursionLimit : Nat := 10

/-- The object with the prefix and the type it comes with, and the static counter.
`deepest` is not in the source: it is the nesting of the deepest call so far. -/
structure ApplyState (ω : Type) where
  object : ω
  recursion : Int
  deepest : Nat

variable {ρ ω : Type} (maps : List (RouteMap ρ))

def routeMapLookupByName (name : String) : Option (RouteMap ρ) :=
  maps.find? (·.name = name)

def RouteMapIndex.callee (index : RouteMapIndex ρ) :
    Option (RouteMap ρ) :=
  index.nextrm.bind (routeMapLookupByName maps)

variable (funcApply : ρ → ω → RouteMapResult × ω)

/-- `route_map_apply_match`. Without a rule there is nothing that could fail. -/
def routeMapApplyMatch :
    List ρ → ω → RouteMapResult × ω
  | [], object => (.matched, object)
  | rule :: rules, object =>
    match funcApply rule object with
    | (.matched, object) => routeMapApplyMatch rules object
    | (ret, object) => (ret, object)

/-- The loop over the set rules. The result is that of the last one. -/
def applySets (sets : List ρ) (object : ω) :
    RouteMapResult × ω :=
  sets.foldl (fun acc set => funcApply set acc.2) (.matched, object)

namespace ApplyState

variable (st : ApplyState ω)

/-- A call begins at a depth. -/
@[simps]
def enter (depth : Nat) : ApplyState ω :=
  { st with deepest := max st.deepest depth }

@[simps]
def setObject (object : ω) : ApplyState ω :=
  { st with object := object }

/-- `recursion++` and `recursion--`. -/
@[simps]
def count (n : Int) : ApplyState ω :=
  { st with recursion := st.recursion + n }

end ApplyState

/-- What the loop does after a clause. -/
inductive IndexVerdict where
  | done (ret : RouteMapResult)
  | follow
  | jump (ret : RouteMapResult)

variable (maps : List (RouteMap ρ))

/-- The call statement of a clause, and its exit policy. -/
def applyCall (call : RouteMap ρ → ApplyState ω → Option (RouteMapResult × ApplyState ω))
    (index : RouteMapIndex ρ) (ret : RouteMapResult) (st : ApplyState ω) :
    Option (RouteMapResult × ApplyState ω) :=
  match index.callee maps with
  | none => some (ret, st)
  | some nextrm => (call nextrm (st.count 1)).map fun r => (r.1, r.2.count (-1))

def exitVerdict (index : RouteMapIndex ρ) (ret : RouteMapResult) : IndexVerdict :=
  if index.nextrm.isSome ∧ ret = .denymatch then .done ret
  else
    match index.exitpolicy with
    | .exit => .done ret
    | .next => .follow
    | .goto => .jump ret

variable (funcApply : ρ → ω → RouteMapResult × ω)
  (call : RouteMap ρ → ApplyState ω → Option (RouteMapResult × ApplyState ω))

def applyIndex
    (index : RouteMapIndex ρ) (st : ApplyState ω) : Option (IndexVerdict × ApplyState ω) :=
  match routeMapApplyMatch funcApply index.matchList st.object, index.type with
  | (.matched, object), .permit =>
    let (ret, object) := applySets funcApply index.setList object
    (applyCall maps call index ret (st.setObject object)).map fun r =>
      (exitVerdict index r.1, r.2)
  | (.matched, object), .deny => some (.done .denymatch, st.setObject object)
  | (_, object), _ => some (.follow, st.setObject object)

def applyIndices :
    List (RouteMapIndex ρ) → ApplyState ω → Option (RouteMapResult × ApplyState ω)
  | [], st => some (.denymatch, st)
  | index :: rest, st =>
    match applyIndex maps funcApply call index st with
    | none => none
    | some (.done ret, st) => some (ret, st)
    | some (.follow, st) => applyIndices rest st
    | some (.jump ret, st) =>
      if rest.dropWhile (·.pref < index.nextpref) = [] then some (ret, st)
      else applyIndices (rest.dropWhile (·.pref < index.nextpref)) st
termination_by indices => indices.length
decreasing_by
  · exact Nat.lt_succ_self _
  · exact Nat.lt_succ_of_le (List.dropWhile_suffix _).length_le

/-- `route_map_apply` at a depth, for calls that nest less than `fuel` deep. -/
def routeMapApply :
    Nat → Nat → Option (RouteMap ρ) → ApplyState ω → Option (RouteMapResult × ApplyState ω)
  | 0, _, _, _ => none
  | fuel + 1, depth, map, st =>
    if st.recursion > rmapRecursionLimit then
      some (.denymatch, { st.enter depth with recursion := 0 })
    else
      match map with
      | none => some (.denymatch, st.enter depth)
      | some map =>
        applyIndices maps funcApply (fun nextrm => routeMapApply fuel (depth + 1) (some nextrm))
          map.head (st.enter depth)

end SdnQuagga
