import Mathlib.Tactic.Ring
import SdnQuagga.BestChoice

/-!
# Metrics of Babel routes

`neighbour_cost` of `babeld/neighbour.c` and the functions of `babeld/route.c` that store
what it gives: `change_route_metric`, `update_route` and `update_route_metric`. The cost of a
neighbor has up to 24 bits on a link with quality estimation, and `struct babel_route` keeps
16 of them. A neighbor that announces a cost of 0 costs nothing.

`updateRoute_exact_iff` and `updateRouteMetric_exact_iff` say for which costs the stored
metric is the sum of its parts all the same, and larger than the metric that the neighbor has
announced.

Times are in microseconds.
-/

namespace SdnQuagga

/-! ## Neighbors -/

def babelInfinity : Nat := 65535

/-- What is read of an interface. -/
structure BabelIf where
  up : Bool
  /-- `BABEL_IF_LQ` -/
  lq : Bool
  cost : UInt16

/-- `struct neighbour`. -/
structure Neighbour where
  /-- none is -1 -/
  helloSeqno : Option UInt16
  reach : UInt16
  txcost : UInt16
  helloTime : Int
  ihuTime : Int
  helloInterval : UInt16
  ihuInterval : UInt16
  ifp : BabelIf

def timevalMinusMsec (s1 s2 : Int) : Nat :=
  let sec := s1 / 1000000 - s2 / 1000000
  let usec := s1 % 1000000 - s2 % 1000000
  if sec < 0 then 0
  else if sec > 2000000 then 2000000000
  else if sec > 0 then (sec * 1000 + usec.tdiv 1000).toNat
  else if usec ≤ 0 then 0
  else (usec / 1000).toNat

variable (now : Int) (neigh : Neighbour)

/-- `neighbour_rxcost`. The product with the delay is computed in 32 bits. -/
def neighbourRxcost : Nat :=
  let delay := timevalMinusMsec now neigh.helloTime
  let reach := neigh.reach
  if reach &&& 0xfff0 = 0 ∨ delay ≥ 180000 then babelInfinity
  else if neigh.ifp.lq then
    let sreach := ((reach &&& 0x8000) >>> 2).toNat + ((reach &&& 0x4000) >>> 1).toNat
      + (reach &&& 0x3fff).toNat
    let cost := 0x8000 * neigh.ifp.cost.toNat / (sreach + 1)
    let cost :=
      if delay ≥ 40000 then (cost * (delay - 20000) + 10000) % 2 ^ 32 / 20000 else cost
    min cost babelInfinity
  else if reach &&& 0xc000 = 0xc000 then neigh.ifp.cost.toNat
  else if reach &&& 0xc000 = 0 then babelInfinity
  else if reach &&& 0x2000 ≠ 0 then neigh.ifp.cost.toNat
  else babelInfinity

def neighbourCost : Nat :=
  if !neigh.ifp.up then babelInfinity
  else
    let a := neigh.txcost.toNat
    let b := neighbourRxcost now neigh
    if a ≥ babelInfinity then babelInfinity
    else if b ≥ babelInfinity then babelInfinity
    else if !neigh.ifp.lq ∨ (a < 256 ∧ b < 256) then a
    else (max a 256 * max b 256 + 128) >>> 8

/-- `find_neighbour` for a new one. -/
def Neighbour.new (ifp : BabelIf) : Neighbour where
  helloSeqno := none
  reach := 0
  txcost := 65535
  helloTime := 0
  ihuTime := now
  helloInterval := 0
  ihuInterval := 0
  ifp := ifp

def seqnoMinus (s1 s2 : UInt16) : Int :=
  let d := (s1 - s2).toNat
  if d < 0x8000 then d else d - 0x10000

/-- `reach` shifted to the right, which C leaves open from 32 bits on. -/
def shiftReach (reach : UInt16) (missed : Nat) : Option UInt16 :=
  if missed < 32 then some (.ofNat (reach.toNat >>> missed)) else none

/-- The end of `update_neighbour`: so many Hellos are missed, and one may have come. -/
def Neighbour.missed (missed : Nat) (hello : Option UInt16) (neigh : Neighbour) :
    Option Neighbour := do
  let reach ← shiftReach neigh.reach missed
  match hello with
  | none =>
    return { neigh with
      helloSeqno := neigh.helloSeqno.map (· + .ofNat missed), reach := reach }
  | some hello =>
    return { neigh with helloSeqno := some hello, reach := (reach >>> 1) ||| 0x8000 }

/-- `update_neighbour` for a Hello. -/
def updateNeighbour (hello interval : UInt16) (neigh : Neighbour) :
    Option Neighbour :=
  let timed := { neigh with helloTime := now, helloInterval := interval }
  match neigh.helloSeqno with
  | none => timed.missed 0 (some hello)
  | some last =>
    if neigh.reach = 0 then timed.missed 0 (some hello)
    else
      let missed := seqnoMinus hello last - 1
      if missed < -8 then { timed with reach := 0 }.missed 0 (some hello)
      else if missed < 0 then
        if interval > neigh.helloInterval then
          { timed with reach := .ofNat (neigh.reach.toNat <<< (-missed).toNat) }.missed 0
            (some hello)
        else { timed with helloSeqno := some hello }.missed 0 none
      else timed.missed missed.toNat (some hello)

/-- What a neighbor says. -/
inductive NeighbourEvent where
  | hello (now : Int) (seqno interval : UInt16)
  | ihu (now : Int) (txcost interval : UInt16)

/-- The part of `parse_packet` for a Hello, and for an IHU that is meant for us. -/
def Neighbour.event : NeighbourEvent → Option Neighbour
  | .hello now seqno interval => updateNeighbour now seqno interval neigh
  | .ihu now txcost interval =>
    some { neigh with txcost := txcost, ihuTime := now, ihuInterval := interval }

/-! ## Routes -/

/-- The parts of `struct babel_route` that decide about its metric. -/
structure BabelRoute where
  srcId : UInt64
  refmetric : UInt16
  cost : UInt16
  addMetric : UInt16
  seqno : UInt16
  time : Int
  holdTime : UInt16
  installed : Bool
deriving DecidableEq, Repr

def routeMetric (route : BabelRoute) : Nat :=
  min (route.refmetric.toNat + route.cost.toNat + route.addMetric.toNat) babelInfinity

/-- The settings, and whether `kernel_route` accepts a change. -/
structure BabelEnv where
  now : Int
  myid : UInt64
  kernelMetric : Nat
  keepUnfeasible : Bool
  kernelOk : Bool

variable (env : BabelEnv)

def metricToKernel (metric : Nat) : Nat :=
  if metric < babelInfinity then env.kernelMetric else 0xffff

variable (route : BabelRoute) (refmetric cost add : Nat)

/-- `kernel_route` is asked to change the route, and fails. -/
def Refused : Prop :=
  route.installed = true ∧ env.kernelOk = false ∧ metricToKernel env (routeMetric route)
      ≠ metricToKernel env (min ((refmetric + cost + add) % 2 ^ 32) babelInfinity)

instance (env : BabelEnv) (route : BabelRoute) (refmetric cost add : Nat) :
    Decidable (Refused env route refmetric cost add) :=
  inferInstanceAs (Decidable (_ ∧ _ ∧ _))

def changeRouteMetric :
    BabelRoute :=
  if Refused env route refmetric cost add then route
  else { route with refmetric := .ofNat refmetric, cost := .ofNat cost, addMetric := .ofNat add }

structure BabelSource where
  seqno : UInt16
  metric : UInt16
  time : Int

/-- `seqno_compare` is positive. -/
def seqnoAfter (s1 s2 : UInt16) : Prop := s1 ≠ s2 ∧ (s2 - s1) &&& 0x8000 ≠ 0

/-- `update_feasible`; `SOURCE_GC_TIME` is 200 seconds. -/
def updateFeasible (src : BabelSource) (seqno refmetric : UInt16) : Prop :=
  src.time / 1000000 < env.now / 1000000 - 200 ∨ refmetric.toNat ≥ babelInfinity
    ∨ seqnoAfter seqno src.seqno ∨ src.seqno = seqno ∧ refmetric < src.metric

instance (env : BabelEnv) (src : BabelSource) (seqno refmetric : UInt16) :
    Decidable (updateFeasible env src seqno refmetric) :=
  inferInstanceAs (Decidable (_ ∨ _ ∨ (_ ∧ _) ∨ _ ∧ _))

/-- What `update_route` is called with. `addMetric` is the answer of `input_filter`, and
`src` the source that it finds or makes. -/
structure BabelUpdate where
  routerId : UInt64
  martian : Bool
  seqno : UInt16
  refmetric : UInt16
  interval : UInt16
  addMetric : UInt16
  src : BabelSource

variable (u : BabelUpdate)

/-- The time that a route is kept. -/
def BabelUpdate.holdTime : UInt16 :=
  .ofNat (max (4 * u.interval.toNat / 100 + u.interval.toNat / 50) 15)

/-- A route before its metric is changed. An installed route that gets an unfeasible update
from another source goes. -/
def BabelUpdate.taken (route : BabelRoute) : BabelRoute :=
  let feasible := updateFeasible env u.src u.seqno u.refmetric
  { route with
    installed := route.installed && (decide feasible || u.routerId = route.srcId)
    srcId := u.routerId
    time := if (feasible ∨ env.keepUnfeasible = true) ∧ u.refmetric.toNat < babelInfinity
      then env.now else route.time
    seqno := u.seqno }

/-- `update_route`, with the route that `find_route` gives. The answer is the route that is
stored, if there is one. -/
def babelUpdateRoute (neigh : Neighbour) (u : BabelUpdate)
    (found : Option BabelRoute) : Option BabelRoute :=
  if u.routerId = env.myid then none
  else if u.martian then none
  else if u.addMetric.toNat ≥ babelInfinity then none
  else
    match found with
    | some route =>
      some { changeRouteMetric env (u.taken env route) u.refmetric.toNat
          (neighbourCost env.now neigh) u.addMetric.toNat with
        holdTime := u.holdTime }
    | none =>
      if u.refmetric.toNat ≥ babelInfinity then none
      else if ¬ updateFeasible env u.src u.seqno u.refmetric ∧ env.keepUnfeasible = false then
        none
      else some {
        srcId := u.routerId
        refmetric := u.refmetric
        cost := .ofNat (neighbourCost env.now neigh)
        addMetric := u.addMetric
        seqno := u.seqno
        time := env.now
        holdTime := u.holdTime
        installed := false }

def routeExpired : Prop :=
  route.time / 1000000 < env.now / 1000000 - route.holdTime.toNat

instance (env : BabelEnv) (route : BabelRoute) : Decidable (routeExpired env route) :=
  inferInstanceAs (Decidable (_ < _))

/-- `update_route_metric`, for a route of the neighbor. A route that has expired is
retracted. -/
def updateRouteMetric (neigh : Neighbour) (add srcSeqno : UInt16)
    (route : BabelRoute) : BabelRoute :=
  if routeExpired env route then
    if route.refmetric.toNat < babelInfinity then
      changeRouteMetric env { route with seqno := srcSeqno + 1 } babelInfinity babelInfinity 0
    else route
  else changeRouteMetric env route route.refmetric.toNat (neighbourCost env.now neigh) add.toNat

/-! ## What is stored -/

/-- The metric is the sum of its parts, and larger than what the neighbor has announced. -/
def MetricExact (route : BabelRoute) : Prop :=
  routeMetric route = min (refmetric + cost + add) babelInfinity
    ∧ (routeMetric route < babelInfinity → refmetric < routeMetric route)

/-- The cost fits into 16 bits, and something is added; or the sum is infinite also with the
lower 16 bits. -/
def CostFits : Prop :=
  babelInfinity ≤ refmetric + cost % 2 ^ 16 + add ∨ cost < 2 ^ 16 ∧ 0 < cost + add

instance (refmetric cost add : Nat) (route : BabelRoute) :
    Decidable (MetricExact refmetric cost add route) :=
  inferInstanceAs (Decidable (_ ∧ (_ → _)))

section

variable {env : BabelEnv} {refmetric cost add : Nat} {route : BabelRoute}

theorem neighbourCost_lt (now : Int) (neigh : Neighbour) : neighbourCost now neigh < 2 ^ 24 := by
  unfold neighbourCost babelInfinity
  dsimp only
  split_ifs with hup ha hb hpln
  · decide
  · decide
  · decide
  · omega
  · have hmul : max neigh.txcost.toNat 256 * max (neighbourRxcost now neigh) 256
        ≤ 65534 * 65534 := Nat.mul_le_mul (by omega) (by omega)
    rw [Nat.shiftRight_eq_div_pow]
    omega

theorem metricExact_iff (hrf : route.refmetric.toNat = refmetric)
    (hcost : route.cost.toNat = cost % 2 ^ 16) (hadd : route.addMetric.toNat = add) :
    MetricExact refmetric cost add route ↔ CostFits refmetric cost add := by
  unfold MetricExact CostFits routeMetric babelInfinity
  rw [hrf, hcost, hadd]
  omega

theorem changeRouteMetric_exact_iff (hrf : refmetric < 2 ^ 16) (hcost : cost < 2 ^ 24)
    (hadd : add < 2 ^ 16) :
    MetricExact refmetric cost add (changeRouteMetric env route refmetric cost add)
      ↔ ¬ Refused env route refmetric cost add ∧ CostFits refmetric cost add := by
  unfold changeRouteMetric
  by_cases h : Refused env route refmetric cost add
  · -- The stored metric is finite and the sum is not, or the other way round.
    rw [if_pos h]
    refine ⟨fun hexa => ?_, fun hft => (hft.1 h).elim⟩
    refine (h.2.2 ?_).elim
    rw [hexa.1, Nat.mod_eq_of_lt (by omega)]
  · rw [if_neg h]
    refine (metricExact_iff ?_ rfl ?_).trans (and_iff_right h).symm
    · exact UInt16.toNat_ofNat_of_lt' hrf
    · exact UInt16.toNat_ofNat_of_lt' hadd

theorem updateRoute_exact_iff {neigh : Neighbour} {u : BabelUpdate} {found : Option BabelRoute}
    {route' : BabelRoute} (h : babelUpdateRoute env neigh u found = some route') :
    MetricExact u.refmetric.toNat (neighbourCost env.now neigh) u.addMetric.toNat route'
      ↔ (∀ route ∈ found, ¬ Refused env (u.taken env route) u.refmetric.toNat
          (neighbourCost env.now neigh) u.addMetric.toNat)
        ∧ CostFits u.refmetric.toNat (neighbourCost env.now neigh) u.addMetric.toNat := by
  have hcost := neighbourCost_lt env.now neigh
  cases found with
  | some route =>
    unfold babelUpdateRoute at h
    dsimp only at h
    split_ifs at h
    cases h
    have hchg := @changeRouteMetric_exact_iff env u.refmetric.toNat
      (neighbourCost env.now neigh) u.addMetric.toNat (u.taken env route)
      u.refmetric.toNat_lt hcost u.addMetric.toNat_lt
    refine Iff.trans hchg (and_congr_left fun _ => ?_)
    exact ⟨fun hr route hrte => Option.some.inj hrte ▸ hr, fun hr => hr route rfl⟩
  | none =>
    unfold babelUpdateRoute at h
    dsimp only at h
    split_ifs at h
    cases h
    refine (metricExact_iff rfl rfl rfl).trans (and_iff_right ?_).symm
    intro route hrte
    cases hrte

/-- What the neighbor's metric counts as. -/
def expectedRefmetric (env : BabelEnv) (route : BabelRoute) : Nat :=
  if routeExpired env route then babelInfinity else route.refmetric.toNat

/-- The change by `update_route_metric` is refused. -/
def MetricRefused (env : BabelEnv) (neigh : Neighbour) (add : UInt16) (route : BabelRoute) :
    Prop :=
  if routeExpired env route then
    route.refmetric.toNat < babelInfinity ∧ Refused env route babelInfinity babelInfinity 0
  else Refused env route route.refmetric.toNat (neighbourCost env.now neigh) add.toNat

theorem updateRouteMetric_exact_iff {neigh : Neighbour} (add srcSeqno : UInt16) :
    MetricExact (expectedRefmetric env route) (neighbourCost env.now neigh) add.toNat
        (updateRouteMetric env neigh add srcSeqno route) ↔ ¬ MetricRefused env neigh add route
        ∧ CostFits (expectedRefmetric env route) (neighbourCost env.now neigh) add.toNat := by
  unfold expectedRefmetric updateRouteMetric MetricRefused
  by_cases hexp : routeExpired env route
  · rw [if_pos hexp, if_pos hexp, if_pos hexp]
    have hft : CostFits babelInfinity (neighbourCost env.now neigh) add.toNat := .inl (by omega)
    have hinfinite route' : MetricExact babelInfinity
        (neighbourCost env.now neigh) add.toNat route' ↔ MetricExact babelInfinity
        babelInfinity 0 route' := by
      unfold MetricExact babelInfinity
      omega
    rw [hinfinite]
    by_cases hfnt : route.refmetric.toNat < babelInfinity
    · rw [if_pos hfnt, changeRouteMetric_exact_iff (by decide) (by decide) (by decide)]
      have hif : CostFits babelInfinity babelInfinity 0 := .inl (by decide)
      rw [and_iff_left hif, and_iff_left hft, and_iff_right hfnt]
      exact Iff.rfl
    · rw [if_neg hfnt]
      refine iff_of_true ⟨?_, ?_⟩ ⟨fun hr => hfnt hr.1, hft⟩
      · unfold routeMetric babelInfinity at *
        omega
      · unfold routeMetric babelInfinity at *
        omega
  · rw [if_neg hexp, if_neg hexp, if_neg hexp]
    exact changeRouteMetric_exact_iff route.refmetric.toNat_lt (neighbourCost_lt _ _) add.toNat_lt

end

/-! ## Neighbors that cost nothing -/

def wiredIf : BabelIf := ⟨true, false, 96⟩
def wirelessIf : BabelIf := ⟨true, true, 256⟩

/-- A neighbor from which two Hellos have come, and an IHU. -/
def heardTwice (ifp : BabelIf) (txcost : UInt16) : Option Neighbour :=
  [.hello 1000000 1 400, .hello 2000000 2 400, .ihu 3000000 txcost 1200].foldlM
    Neighbour.event (Neighbour.new 0 ifp)

def wiredNeighbour : Neighbour := ⟨some 2, 0xc000, 96, 2000000, 3000000, 400, 1200, wiredIf⟩

def plainEnv : BabelEnv := ⟨4000000, 1, 0, false, true⟩

def wiredUpdate (refmetric : UInt16) : BabelUpdate :=
  ⟨2, false, 7, refmetric, 1600, 0, 7, 65535, 4000000⟩

/-- After every update that is stored, and every change of a neighbor's cost. -/
theorem stored_metric_exact_iff (env : BabelEnv) (neigh : Neighbour) :
    (∀ u found route', babelUpdateRoute env neigh u found = some route' →
      (MetricExact u.refmetric.toNat (neighbourCost env.now neigh) u.addMetric.toNat route'
        ↔ (∀ route ∈ found, ¬ Refused env (u.taken env route) u.refmetric.toNat
            (neighbourCost env.now neigh) u.addMetric.toNat)
          ∧ CostFits u.refmetric.toNat (neighbourCost env.now neigh) u.addMetric.toNat))
      ∧ ∀ route add srcSeqno,
        MetricExact (expectedRefmetric env route) (neighbourCost env.now neigh) add.toNat
            (updateRouteMetric env neigh add srcSeqno route) ↔ ¬ MetricRefused env neigh add route
            ∧ CostFits (expectedRefmetric env route) (neighbourCost env.now neigh) add.toNat :=
  ⟨fun _ _ _ => updateRoute_exact_iff, fun _ => updateRouteMetric_exact_iff⟩

/-- With the usual cost of a wired link. -/
theorem wired_metric_exact :
    ∃ route ∈ babelUpdateRoute plainEnv wiredNeighbour (wiredUpdate 300) none,
      MetricExact 300 (neighbourCost plainEnv.now wiredNeighbour) 0 route := by
  refine ⟨_, rfl, ?_⟩
  refine ((stored_metric_exact_iff plainEnv wiredNeighbour).1 (wiredUpdate 300) none _ rfl).mpr
    ⟨?_, Or.inr (by decide)⟩
  intro route hroute
  cases hroute

/-- On a wired link a neighbor announces a cost of 0, and on a wireless link one of 32832,
which makes a cost of 65536. The route gets the metric of the neighbor itself. -/
theorem free_neighbors :
    (∃ neigh ∈ heardTwice wiredIf 0,
      ∃ route ∈ babelUpdateRoute plainEnv neigh (wiredUpdate 300) none,
      neighbourCost plainEnv.now neigh = 0 ∧ routeMetric route = 300)
    ∧ ∃ neigh ∈ heardTwice wirelessIf 32832,
      ∃ route ∈ babelUpdateRoute plainEnv neigh (wiredUpdate 300) none,
        neighbourCost plainEnv.now neigh = 65536 ∧ routeMetric route = 300 := by
  decide

/-! ## The cost of receiving -/

section

variable (now : Int) (neigh : Neighbour)

/-- The cost by the Hellos that have come, on a link with quality estimation. -/
def linkCost : Nat :=
  0x8000 * neigh.ifp.cost.toNat / (((neigh.reach &&& 0x8000) >>> 2).toNat
    + ((neigh.reach &&& 0x4000) >>> 1).toNat + (neigh.reach &&& 0x3fff).toNat + 1)

/-- It grows after 40 seconds without a Hello. -/
def delayedCost (cost delay : Nat) : Nat :=
  if delay ≥ 40000 then (cost * (delay - 20000) + 10000) / 20000 else cost

/-- `neighbour_rxcost` in unbounded numbers. -/
def exactRxcost : Nat :=
  let delay := timevalMinusMsec now neigh.helloTime
  if neigh.reach &&& 0xfff0 = 0 ∨ delay ≥ 180000 then babelInfinity
  else if neigh.ifp.lq then min (delayedCost (linkCost neigh) delay) babelInfinity
  else if neigh.reach &&& 0xc000 = 0xc000
      ∨ neigh.reach &&& 0xc000 ≠ 0 ∧ neigh.reach &&& 0x2000 ≠ 0 then neigh.ifp.cost.toNat
  else babelInfinity

/-- The product with the delay loses its upper bits, and what is left is below infinity. -/
def RxcostWraps : Prop :=
  let delay := timevalMinusMsec now neigh.helloTime
  let product := linkCost neigh * (delay - 20000) + 10000
  neigh.ifp.lq = true ∧ neigh.reach &&& 0xfff0 ≠ 0 ∧ 40000 ≤ delay ∧ delay < 180000
    ∧ 2 ^ 32 ≤ product ∧ product % 2 ^ 32 < 20000 * babelInfinity

end

section

variable {now : Int} {neigh : Neighbour}

theorem rxcost_exact_iff :
    neighbourRxcost now neigh = exactRxcost now neigh ↔ ¬ RxcostWraps now neigh := by
  unfold neighbourRxcost exactRxcost RxcostWraps delayedCost babelInfinity
  dsimp only
  rw [← linkCost]
  generalize linkCost neigh * (timevalMinusMsec now neigh.helloTime - 20000) = product
  grind

theorem cost_le_linkCost : neigh.ifp.cost.toNat ≤ linkCost neigh := by
  have h8000 := @Nat.and_le_right neigh.reach.toNat 0x8000
  have h4000 := @Nat.and_le_right neigh.reach.toNat 0x4000
  have h3fff := @Nat.and_le_right neigh.reach.toNat 0x3fff
  unfold linkCost
  simp only [UInt16.toNat_and, UInt16.toNat_shiftRight, UInt16.reduceToNat, Nat.reduceMod,
    Nat.shiftRight_eq_div_pow]
  rw [Nat.le_div_iff_mul_le (by omega), Nat.mul_comm]
  exact Nat.mul_le_mul_right _ (by omega)

theorem le_delayedCost (cost delay : Nat) : cost ≤ delayedCost cost delay := by
  unfold delayedCost
  split_ifs with h
  · have := Nat.mul_le_mul_left cost (show 20000 ≤ delay - 20000 by omega)
    omega
  · exact Nat.le_refl _

theorem delayedCost_mono (cost : Nat) {d d' : Nat} (h : d ≤ d') :
    delayedCost cost d ≤ delayedCost cost d' := by
  by_cases hd : d ≥ 40000
  · rw [delayedCost, delayedCost, if_pos hd, if_pos (Nat.le_trans hd h)]
    have := Nat.mul_le_mul_left cost (Nat.sub_le_sub_right h 20000)
    omega
  · rw [delayedCost, if_neg hd]
    exact le_delayedCost cost d'

end

/-- Whether the cost is exact at all times, at least that of the interface, and does not fall
with the delay. -/
theorem rxcost_right_iff (neigh : Neighbour) :
    ((∀ now, neighbourRxcost now neigh = exactRxcost now neigh
        ∧ neigh.ifp.cost.toNat ≤ neighbourRxcost now neigh)
      ∧ ∀ now now', timevalMinusMsec now neigh.helloTime ≤ timevalMinusMsec now' neigh.helloTime →
        neighbourRxcost now neigh ≤ neighbourRxcost now' neigh)
    ↔ ∀ now, ¬ RxcostWraps now neigh := by
  refine ⟨fun h now => rxcost_exact_iff.mp (h.1 now).1, fun h => ?_⟩
  have hexact (now : Int) := rxcost_exact_iff.mpr (h now)
  have hcost := neigh.ifp.cost.toNat_lt
  refine ⟨fun now => ⟨hexact now, ?_⟩, fun now now' hle => ?_⟩
  · have hlink := @cost_le_linkCost neigh
    have hdelay := le_delayedCost (linkCost neigh) (timevalMinusMsec now neigh.helloTime)
    rw [hexact, exactRxcost, babelInfinity]
    grind
  · have hdelay := delayedCost_mono (linkCost neigh) hle
    rw [hexact, hexact, exactRxcost, exactRxcost, babelInfinity]
    grind

/-- A link of the usual cost, after seven Hellos that are missed. -/
theorem rxcost_wraps :
    let neigh : Neighbour := ⟨some 8, 0x0100, 96, 0, 0, 10000, 1200, wirelessIf⟩
    neighbourRxcost 151585000 neigh = 65535 ∧ neighbourRxcost 151586000 neigh = 0 := by
  decide

/-! ## The best route -/

/-- `struct babel_route` with its source and neighbor. -/
structure TableRoute extends BabelRoute where
  src : BabelSource
  neigh : Nat

section

variable (env : BabelEnv) (feasible : Bool) (exclude : Option Nat) (slot : List TableRoute)

/-- What `find_best_route` asks of a route. -/
def Eligible (r : TableRoute) : Prop :=
  ¬ routeExpired env r.toBabelRoute
    ∧ (feasible = false ∨ updateFeasible env r.src r.seqno r.refmetric)
    ∧ ∀ neigh ∈ exclude, r.neigh ≠ neigh

instance (r : TableRoute) : Decidable (Eligible env feasible exclude r) :=
  inferInstanceAs (Decidable (_ ∧ _ ∧ _))

/-- `find_best_route` in the slot of a prefix, which is empty if there is none. The first route
is the best one so far, and only the others are asked. -/
def findBestRoute : List TableRoute → Option TableRoute
  | [] => none
  | route :: rest => some (scanBest (fun r best => Eligible env feasible exclude r
      ∧ routeMetric r.toBabelRoute < routeMetric best.toBabelRoute) route rest)

/-- The least metric of the routes that pass, and none if no route does. -/
def RightBest : Option TableRoute → Prop
  | none => ∀ r ∈ slot, ¬ Eligible env feasible exclude r
  | some best => best ∈ slot ∧ Eligible env feasible exclude best ∧ ∀ r ∈ slot,
      Eligible env feasible exclude r → routeMetric best.toBabelRoute ≤ routeMetric r.toBabelRoute

end

/-- The scan ends with the first one, or with the best that passes if it is better. -/
theorem scanBest_filtered {α : Type} (ok : α → Prop) [DecidablePred ok] (metric : α → Nat)
    {best x : α} {as : List α}
    (hx : scanBest (fun a b => ok a ∧ metric a < metric b) best as = x) :
    (x = best ∨ x ∈ as ∧ ok x ∧ metric x < metric best) ∧ ∀ a ∈ as, ok a → metric x ≤ metric a := by
  induction as generalizing best with
  | nil => grind [scanBest]
  | cons a as ih => grind [scanBest]

/-- The first route passes, or one that does is better. -/
theorem best_route_right_iff (env : BabelEnv) (feasible : Bool) (exclude : Option Nat)
    (slot : List TableRoute) :
    RightBest env feasible exclude slot (findBestRoute env feasible exclude slot)
      ↔ ∀ route ∈ slot.head?, Eligible env feasible exclude route ∨ ∃ r ∈ slot,
        Eligible env feasible exclude r
          ∧ routeMetric r.toBabelRoute < routeMetric route.toBabelRoute := by
  cases slot with
  | nil => simp [findBestRoute, RightBest]
  | cons route rest =>
    rw [findBestRoute]
    generalize hx : scanBest _ route rest = x
    obtain ⟨hx, hle⟩ := scanBest_filtered (Eligible env feasible exclude)
      (routeMetric ·.toBabelRoute) hx
    simp only [RightBest, List.head?_cons, Option.mem_some_iff, forall_eq']
    constructor
    · grind
    · grind

/-- The only route has expired. -/
theorem expired_route_best :
    let route : TableRoute := ⟨⟨2, 0, 96, 0, 7, 1000000, 2, true⟩, ⟨7, 65535, 1000000⟩, 1⟩
    routeExpired plainEnv route.toBabelRoute
      ∧ ∃ best ∈ findBestRoute plainEnv true none [route], best.neigh = 1 := by
  decide

end SdnQuagga
