import SdnQuagga.OspfSpf
import SdnQuagga.ShortestPath

/-!
# The shortest path tree is right

The calculation refines a search for shortest paths in the graph of the
links that it follows. `SpfRel` relates the state of a calculation to a
search, with a map from each LSA to its vertex; considering a link
relaxes an edge, taking a candidate settles a vertex.
-/

namespace SdnQuagga

open FaultM List Function
open Search (relax_done relax_dist_of_ne relax_dist_self)

/-! ## The comparison -/

variable {n : Nat}

/-- The order of `cmp` as a number: distance first, networks before
routers. -/
def vertexRank (area : OspfArea n) (vertex : VertexRef → Vertex n) (v : VertexRef) : Nat :=
  2 * (vertex v).distance.toNat + if (area.lsdb (vertex v).lsa).isNetwork then 0 else 1

variable (vertex : VertexRef → Vertex n)

/-- Distances that `cmp` can compare. -/
def vertexFits (v : VertexRef) :
    Prop :=
  (vertex v).distance.toNat < 2 ^ 31

theorem toInt_sub_of_lt {a b : UInt32} (ha : a.toNat < 2 ^ 31) (hb : b.toNat < 2 ^ 31) :
    (a - b).toBitVec.toInt = (a.toNat : Int) - b.toNat := by
  have hia : a.toBitVec.toInt = a.toNat :=
    BitVec.toInt_eq_toNat_of_lt (show 2 * a.toNat < 2 ^ 32 by omega)
  have hib : b.toBitVec.toInt = b.toNat :=
    BitVec.toInt_eq_toNat_of_lt (show 2 * b.toNat < 2 ^ 32 by omega)
  rw [UInt32.toBitVec_sub, BitVec.toInt_sub, hia, hib]
  exact Int.bmod_eq_of_le (by omega) (by omega)

theorem spfCmp_ranks (area : OspfArea n) (vertex : VertexRef → Vertex n) :
    Ranks (spfCmp area vertex) (vertexFits vertex) (vertexRank area vertex) := by
  have hsign {x y} (hx : vertexFits vertex x) (hy : vertexFits vertex y) :
      (spfCmp area vertex x y < 0 ↔ vertexRank area vertex x < vertexRank area vertex y)
        ∧ (spfCmp area vertex x y > 0 ↔ vertexRank area vertex y < vertexRank area vertex x) := by
    unfold spfCmp vertexRank
    have hdf := toInt_sub_of_lt hx hy
    by_cases heq : (vertex x).distance = (vertex y).distance
    · rw [heq]
      cases (area.lsdb (vertex x).lsa).isNetwork <;>
        cases (area.lsdb (vertex y).lsa).isNetwork <;> simp
    · have hnat : (vertex x).distance.toNat ≠ (vertex y).distance.toNat :=
        fun h => heq (UInt32.toNat_inj.mp h)
      have hne : (vertex x).distance - (vertex y).distance ≠ 0 := by
        intro h
        rw [h] at hdf
        have hzer : (0 : UInt32).toBitVec.toInt = 0 := rfl
        omega
      simp only [hne, false_and, if_false, hdf]
      constructor
      · split <;> split <;> omega
      · split <;> split <;> omega
  exact ⟨fun hx hy => (hsign hx hy).1, fun hx hy => (hsign hx hy).2⟩

theorem updateStat_tracks :
    Tracks (updateStat vertex) (fun v => (vertex v).lsa) (fun stat lsa => stat lsa) := by
  intro v i stat lsa
  simp only [updateStat, update_apply]

/-! ## Next hops -/

section

variable {n : Nat} {area : OspfArea n} {st : SpfState n} {v w : VertexRef}
  {distance : UInt32}

/-- A vertex with new parents at this distance. -/
def Vertex.withParents (vertex : Vertex n) (distance : UInt32)
    (ps : List VertexParent) : Vertex n :=
  { vertex with
    distance := distance
    parents := (if vertex.distance ≠ 0 ∧ distance < vertex.distance then []
      else vertex.parents) ++ ps }

/-- Parents can be added at this distance. -/
structure Addable (vertex : Vertex n) (distance : UInt32) : Prop where
  ne_zero : distance ≠ 0
  le : vertex.distance = 0 ∨ distance ≤ vertex.distance

variable (area)

theorem ospfSpfAddParent_ok (v : VertexRef)
    (newhop : VertexNexthop) (h : Addable (st.vertex w) distance) :
    ∃ p : VertexParent, p.parent = v
      ∧ ospfSpfAddParent area v w distance newhop st = .ok ((), { st with
        vertex := update st.vertex w ((st.vertex w).withParents distance [p]) }) := by
  have hle : ¬ ((st.vertex w).distance ≠ 0 ∧ (st.vertex w).distance < distance) := by
    rintro ⟨hne, hlt⟩
    exact absurd hlt (UInt32.not_lt.mpr (h.le.resolve_left hne))
  refine ⟨⟨v, ospfLsaHasLink (vertexLsa area st w) (vertexLsa area st v), newhop⟩, rfl, ?_⟩
  rw [ospfSpfAddParent, get_bind, if_neg h.ne_zero, if_neg hle]
  rfl

theorem addParents_ok (v : VertexRef) (st : SpfState n)
    {hops : List VertexNexthop} (hne : hops ≠ []) (h : Addable (st.vertex w) distance) :
    ∃ ps : List VertexParent, ps ≠ [] ∧ (∀ p ∈ ps, p.parent = v)
      ∧ hops.forM (ospfSpfAddParent area v w distance) st = .ok ((), { st with
          vertex := update st.vertex w ((st.vertex w).withParents distance ps) }) := by
  induction hops generalizing st with
  | nil => exact absurd rfl hne
  | cons hop hops ih =>
    obtain ⟨p, hp, hrn⟩ := ospfSpfAddParent_ok area v hop h
    rw [forM_cons_ok hrn]
    by_cases hni : hops = []
    · subst hni
      exact ⟨[p], by simp, by simpa using hp, rfl⟩
    · have hadd : Addable (update st.vertex w
          ((st.vertex w).withParents distance [p]) w) distance :=
        ⟨h.ne_zero, by simp [Vertex.withParents]⟩
      obtain ⟨ps, -, hps, hrs⟩ := ih { st with
          vertex := update st.vertex w ((st.vertex w).withParents distance [p]) } hni hadd
      refine ⟨p :: ps, by simp, ?_, hrs.trans ?_⟩
      · simpa [hp] using hps
      · simp [Vertex.withParents]

variable {area}

theorem ospfNexthopCalculation_ok {l : Option RouterLink} (hadd : Addable (st.vertex w) distance)
    (hrt : v = st.spf → ∃ l', l = some l'
      ∧ (rootNexthop area (vertexLsa area st v) (vertexLsa area st w) l').isSome)
    (hbh : v ≠ st.spf → (st.vertex v).parents ≠ []) :
    ∃ ps : List VertexParent, ps ≠ [] ∧ (∀ p ∈ ps, p.parent = v)
      ∧ ospfNexthopCalculation area v w l distance st = .ok (true, { st with
          vertex := update st.vertex w ((st.vertex w).withParents distance ps) }) := by
  unfold ospfNexthopCalculation
  rw [get_bind]
  by_cases hv : v = st.spf
  · obtain ⟨l', rfl, hso⟩ := hrt hv
    obtain ⟨nh, hnh⟩ := Option.isSome_iff_exists.mp hso
    obtain ⟨p, hp, hrn⟩ := ospfSpfAddParent_ok area v nh hadd
    refine ⟨[p], by simp, by simpa using hp, ?_⟩
    rw [if_pos hv]
    simp only [hnh]
    rw [bind_ok hrn]
    rfl
  · rw [if_neg hv]
    generalize hho : (if (networkNexthops area st v w).isEmpty
      then (st.vertex v).parents.map (·.nexthop)
      else networkNexthops area st v w) = hops
    have hne : hops ≠ [] := by
      rw [← hho]
      split
      · simpa using hbh hv
      next hso => simpa using hso
    obtain ⟨ps, hps, hpr, hrn⟩ := addParents_ok area v st hne hadd
    refine ⟨ps, hps, hpr, ?_⟩
    rw [bind_ok hrn]
    simp [hne, pure_apply]

end

/-! ## The graph -/

variable {n : Nat} (area : OspfArea n) (root : Fin n)

/-- A link of `v` whose target exists, is not MaxAge and links back. -/
structure Leads (v : Fin n) (link : SpfLink) (w : Fin n) : Prop where
  mem : link ∈ spfLinks (area.lsdb v)
  target : spfLookup area true link = some w
  fresh : (area.lsdb w).maxAge = false
  back : LinksTo (area.lsdb w) (area.lsdb v)

/-- All such links, with their costs. -/
def linkGraph : WGraph (Fin n) where
  root := root
  edge := fun v w c => ∃ link, Leads area v link w ∧ link.metric.toNat = c

/-- The links that the calculation follows: those of infinite cost are
only followed from the root. -/
def spfGraph : WGraph (Fin n) where
  root := root
  edge := fun v w c => ∃ link, Leads area v link w ∧ link.metric.toNat = c
    ∧ (v = root ∨ link.metric ≠ ospfOutputCostInfinite)

/-- `ospf_lsa_has_link` sees the links back that there are. -/
def BackLinksSeen : Prop :=
  ∀ v w, (ospfLsaHasLink (area.lsdb w) (area.lsdb v)).isSome ↔ LinksTo (area.lsdb w) (area.lsdb v)

/-- The next-hop calculation succeeds for the links of the root: there is
a next hop, and the distance is not 0, which it asserts. -/
def NexthopsFound : Prop :=
  ∀ link w, Leads area root link w → w ≠ root → link.metric ≠ 0 ∧ ∀ l, link.l = some l →
      (rootNexthop area (area.lsdb root) (area.lsdb w) l).isSome

/-- Path costs stay below 2^31. -/
def CostsFit : Prop :=
  ∀ v w c d, (spfGraph area root).Dist v d → (spfGraph area root).edge v w c → d + c < 2 ^ 31

/-- Networks rank before routers. -/
def lsaRank (lsa : Fin n) : Nat := if (area.lsdb lsa).isNetwork then 0 else 1

/-- All router-link metrics are positive. -/
def PositiveMetrics : Prop :=
  ∀ v link w, Leads area v link w → (area.lsdb v).isNetwork = false → link.metric ≠ 0

theorem rising_of_positive (h : PositiveMetrics area) :
    (spfGraph area root).Rising (lsaRank area) := by
  rintro v w c ⟨link, hlds, rfl, -⟩
  cases hv : (area.lsdb v).isNetwork with
  | false =>
    have hne := h v link w hlds hv
    exact .inl (Nat.pos_of_ne_zero fun hz => hne (UInt16.toNat_inj.mp hz))
  | true =>
    -- behind a network there is a router
    have hba := hlds.back
    unfold LinksTo at hba
    split at hba
    · rw [hv] at hba
      cases hba.1
    next hbd =>
      have hw : (area.lsdb w).isNetwork = false := by rw [OspfLsa.isNetwork, hbd]
      right
      simp [lsaRank, hv, hw]

variable {area root} {v w : Fin n} {link : SpfLink}

theorem spfLookup_isRoot (isRoot : Bool) :
    spfLookup area isRoot link = if !isRoot && link.metric = ospfOutputCostInfinite then none
        else spfLookup area true link := by
  cases link with
  | router r => simp [spfLookup, SpfLink.metric, ospfOutputCostInfinite]
  | link l =>
    have hmx : l.metric ≥ ospfOutputCostInfinite ↔ l.metric = ospfOutputCostInfinite := by
      rw [ge_iff_le, UInt16.le_iff_toNat_le, ← UInt16.toNat_inj]
      have := l.metric.toNat_lt
      have : ospfOutputCostInfinite.toNat = 65535 := rfl
      omega
    cases isRoot with
    | true => simp
    | false =>
      by_cases hif : l.metric = ospfOutputCostInfinite
      · simp [spfLookup, SpfLink.metric, hif]
      · simp [spfLookup, SpfLink.metric, hif, hmx]

/-- The turn for a link goes on exactly if the graph has the edge. -/
theorem spfTarget_iff (hba : BackLinksSeen area)
    (hmb : link ∈ spfLinks (area.lsdb v)) (isRoot : Bool) :
    spfTarget area isRoot (area.lsdb v) link = some w ↔ Leads area v link w
        ∧ (isRoot = true ∨ link.metric ≠ ospfOutputCostInfinite) := by
  unfold spfTarget
  rw [spfLookup_isRoot]
  constructor
  · intro h
    split at h
    · cases h
    next w' hlk =>
      split at h
      · cases h
      next hage =>
        split at h
        · cases h
        next hli =>
          cases h
          split at hlk
          · cases hlk
          next hif =>
            refine ⟨⟨hmb, hlk, by simpa using hage,
              (hba v w).mp (by simpa [Option.isSome_iff_ne_none] using hli)⟩,
              ?_⟩
            cases isRoot <;> simp_all
  · rintro ⟨hlds, hif⟩
    have hso := (hba v w).mpr hlds.back
    rw [if_neg (by cases isRoot <;> simp_all), hlds.target]
    simp [hlds.fresh, Option.isNone_iff_eq_none, ← Option.isSome_iff_ne_none, hso]

/-! ## The calculation as a search -/

/-- The vertex of an LSA that has been found at distance `d`. -/
structure VertexRel (root : Fin n) (st : SpfState n) (s : Search (Fin n))
    (vx : Fin n → VertexRef) (lsa : Fin n) (d : Nat) : Prop where
  lsa_eq : (st.vertex (vx lsa)).lsa = lsa
  distance : (st.vertex (vx lsa)).distance.toNat = d
  fits : d < 2 ^ 31
  lt : vx lsa < st.vertices
  behind : lsa ≠ root → 0 < d ∧ (st.vertex (vx lsa)).parents ≠ []
  parents : ∀ p ∈ (st.vertex (vx lsa)).parents, ∃ m ∈ s.done, p.parent = vx m
  pred_done : ∀ m ∈ s.pred lsa, m ∈ s.done
  pred : ∀ m ∈ s.done, m ∈ s.pred lsa ↔ ∃ p ∈ (st.vertex (vx lsa)).parents, p.parent = vx m

/-- The candidates are in order, and `stat` has their places. -/
def QueueOk (area : OspfArea n) (vertex : VertexRef → Vertex n)
    (candidate : PQueue VertexRef) (stat : Fin n → Int) : Prop :=
  candidate.Ok (vertexFits vertex) (vertexRank area vertex)
    (fun v => (vertex v).lsa) (fun stat lsa => stat lsa) stat

/-- A state of the calculation and the search that it is in. -/
structure SpfRel (area : OspfArea n) (root : Fin n) (st : SpfState n)
    (s : Search (Fin n)) (vx : Fin n → VertexRef) : Prop where
  spf : st.spf = vx root
  root_done : root ∈ s.done
  done_found : ∀ {lsa}, lsa ∈ s.done → ∃ d, s.dist lsa = some d
  vertex : ∀ {lsa d}, s.dist lsa = some d → VertexRel root st s vx lsa d
  stat_none : ∀ {lsa}, s.dist lsa = none → st.stat lsa = lsaSpfNotExplored
  stat_done : ∀ {lsa}, lsa ∈ s.done → st.stat lsa = lsaSpfInSpftree
  queue : QueueOk area st.vertex st.candidate st.stat
  holds : ∀ v, Holds st.candidate.array st.candidate.size v
    ↔ ∃ lsa d, v = vx lsa ∧ lsa ∉ s.done ∧ s.dist lsa = some d
  installed : ∀ v, v ∈ vx root :: st.installed ↔ ∃ lsa ∈ s.done, v = vx lsa
  nodup : (vx root :: st.installed).Nodup

variable {st st' : SpfState n} {s s' : Search (Fin n)}
  {vx vx' : Fin n → VertexRef} {lsa v w : Fin n} {d N : Nat}

section

variable (h : SpfRel area root st s vx)
include h

theorem SpfRel.vx_inj {lsa' : Fin n}
    {d' : Nat} (hd : s.dist lsa = some d) (hd' : s.dist lsa' = some d')
    (heq : vx lsa = vx lsa') : lsa = lsa' := by
  have hlsa := (h.vertex hd).lsa_eq
  rw [heq, (h.vertex hd').lsa_eq] at hlsa
  exact hlsa.symm

/-- A candidate is where its `stat` says. -/
theorem SpfRel.candidate (hd : s.dist lsa = some d) (hdn : lsa ∉ s.done) :
    ∃ i < st.candidate.size, st.stat lsa = i ∧ st.candidate.array i = vx lsa := by
  obtain ⟨i, hi, heq⟩ := (h.holds (vx lsa)).mpr ⟨lsa, d, rfl, hdn, hd⟩
  have hpld := h.queue.placed i hi
  simp only [heq, (h.vertex hd).lsa_eq] at hpld
  exact ⟨i, hi, hpld, heq⟩

/-- The three cases of `stat`. -/
theorem SpfRel.stat_cases (lsa : Fin n) :
    lsa ∈ s.done ∧ st.stat lsa = lsaSpfInSpftree
      ∨ s.dist lsa = none ∧ lsa ∉ s.done ∧ st.stat lsa = lsaSpfNotExplored
      ∨ ∃ d i, s.dist lsa = some d ∧ lsa ∉ s.done ∧ i < st.candidate.size
        ∧ st.stat lsa = (i : Nat) ∧ st.candidate.array i = vx lsa := by
  by_cases hdn : lsa ∈ s.done
  · exact .inl ⟨hdn, h.stat_done hdn⟩
  · cases hd : s.dist lsa with
    | none => exact .inr (.inl ⟨rfl, hdn, h.stat_none hd⟩)
    | some d =>
      obtain ⟨i, hi, hstat, harr⟩ := h.candidate hd hdn
      exact .inr (.inr ⟨d, i, rfl, hdn, hi, hstat, harr⟩)

end

theorem QueueOk.congr {vertex vertex' : VertexRef → Vertex n}
    {candidate : PQueue VertexRef} {stat : Fin n → Int} (hq : QueueOk area vertex candidate stat)
    (h : ∀ v, Holds candidate.array candidate.size v → vertex' v = vertex v) :
    QueueOk area vertex' candidate stat := by
  refine PQueue.Ok.congr hq fun v hv => ?_
  obtain ⟨i, hi, rfl⟩ := hv
  simp only [vertexFits, vertexRank, h _ ⟨i, hi, rfl⟩, and_self, and_true]
  exact hq.member i hi

theorem VertexRel.kept (h : VertexRel root st s vx lsa d)
    (hvr : st'.vertex (vx' lsa) = st.vertex (vx lsa))
    (hlt : vx' lsa < st'.vertices) (hdn : s'.done = s.done)
    (hpred : s'.pred lsa = s.pred lsa) (hvx : ∀ m ∈ s.done, vx' m = vx m) :
    VertexRel root st' s' vx' lsa d where
  lsa_eq := hvr ▸ h.lsa_eq
  distance := hvr ▸ h.distance
  fits := h.fits
  lt := hlt
  behind := hvr ▸ h.behind
  parents := by
    intro p hp
    rw [hvr] at hp
    obtain ⟨m, hm, heq⟩ := h.parents p hp
    exact ⟨m, hdn ▸ hm, heq.trans (hvx m hm).symm⟩
  pred_done := by
    rw [hpred, hdn]
    exact h.pred_done
  pred := by
    intro m hm
    rw [hdn] at hm
    rw [hpred, hvr, hvx m hm]
    exact h.pred m hm

section

variable (h : SpfRel area root st s vx)
include h

/-- The vertex that a step reaches at a distance not seen to be too
long. -/
theorem SpfRel.reached (hv : v ∈ s.done) (hd : s.dist v = some d) (hw : w ∉ s.done)
    (hN : closer (s.dist w) N = N) (hft : N < 2 ^ 31) (hpos : 0 < N)
    (hvx : ∀ m ∈ s.done, vx' m = vx m) (hlt : vx' w < st'.vertices)
    (hlsa : (st'.vertex (vx' w)).lsa = w) (hdistance : (st'.vertex (vx' w)).distance.toNat = N)
    {base ps : List VertexParent} (hne : ps ≠ []) (hps : ∀ p ∈ ps, p.parent = vx v)
    (hprs : (st'.vertex (vx' w)).parents = base ++ ps)
    (hsm : s.dist w = some N → base = (st.vertex (vx w)).parents)
    (ho : s.dist w ≠ some N → base = []) : VertexRel root st' (s.relax v w N) vx' w N := by
  have hbase : ∀ p ∈ base, s.dist w = some N ∧ p ∈ (st.vertex (vx w)).parents := by
    intro p hp
    by_cases heq : s.dist w = some N
    · exact ⟨heq, hsm heq ▸ hp⟩
    · rw [ho heq] at hp
      cases hp
  refine ⟨hlsa, hdistance, hft, hlt, fun _ => ⟨hpos, ?_⟩, ?_, ?_, ?_⟩
  · rw [hprs]
    exact append_ne_nil_of_right_ne_nil base hne
  · intro p hp
    rw [hprs] at hp
    rw [relax_done]
    rcases mem_append.mp hp with hp | hp
    · obtain ⟨heq, hp⟩ := hbase p hp
      obtain ⟨m, hm, hpm⟩ := (h.vertex heq).parents p hp
      exact ⟨m, hm, hpm.trans (hvx m hm).symm⟩
    · exact ⟨v, hv, (hps p hp).trans (hvx v hv).symm⟩
  · intro m hm
    rw [Search.relax_pred_self hw] at hm
    rw [relax_done]
    rcases hm with ⟨hm, heq⟩ | ⟨rfl, -⟩
    · exact (h.vertex heq).pred_done m hm
    · exact hv
  · intro m hm
    rw [relax_done] at hm
    obtain ⟨p0, hp0⟩ := exists_mem_of_ne_nil ps hne
    rw [Search.relax_pred_self hw, hprs, hvx m hm, hN]
    constructor
    · rintro (⟨hpred, heq⟩ | ⟨rfl, -⟩)
      · obtain ⟨p, hp, hpm⟩ := ((h.vertex heq).pred m hm).mp hpred
        exact ⟨p, mem_append_left _ (hsm heq ▸ hp), hpm⟩
      · exact ⟨p0, mem_append_right _ hp0, hps p0 hp0⟩
    · rintro ⟨p, hp, hpm⟩
      rcases mem_append.mp hp with hp | hp
      · obtain ⟨heq, hp⟩ := hbase p hp
        exact .inl ⟨((h.vertex heq).pred m hm).mpr ⟨p, hp, hpm⟩, heq⟩
      · obtain ⟨e, he⟩ := h.done_found hm
        have heq := h.vx_inj hd he ((hps p hp).symm.trans hpm)
        exact .inr ⟨heq.symm, rfl⟩

section

variable {vert : Vertex n} {r : VertexRef} (hvx : vx' = update vx w r)
  (hvr : st'.vertex = update st.vertex r vert) (hle : st.vertices ≤ st'.vertices)
  (hr : ∀ {lsa d}, s.dist lsa = some d → lsa ≠ w → vx lsa ≠ r) (hw : w ∉ s.done)
include hvx hvr hle hr hw

/-- What is the same in all steps that change one vertex `r`, that of
`w`. -/
theorem SpfRel.others (hne : lsa ≠ w) (hd : s.dist lsa = some d) :
    VertexRel root st' (s.relax v w N) vx' lsa d := by
  have hsm : vx' lsa = vx lsa := by rw [hvx, update_of_ne hne]
  refine (h.vertex hd).kept ?_ ?_ relax_done (Search.relax_pred_of_ne hne) fun m hm => ?_
  · rw [hsm, hvr, update_of_ne (hr hd hne)]
  · rw [hsm]
    exact (h.vertex hd).lt.trans_le hle
  · have hmw : m ≠ w := fun heq => hw (heq ▸ hm)
    rw [hvx, update_of_ne hmw]

/-- A step that makes `r` the vertex of `w`. -/
theorem SpfRel.stepped (hrw : ∀ {d}, s.dist w = some d → vx w = r)
    (hspf : st'.spf = st.spf) (hinst : st'.installed = st.installed)
    (hrch : VertexRel root st' (s.relax v w N) vx' w (closer (s.dist w) N))
    (hqu : QueueOk area st'.vertex st'.candidate st'.stat)
    (hhd : ∀ y, Holds st'.candidate.array st'.candidate.size y
      ↔ y = r ∨ Holds st.candidate.array st.candidate.size y)
    (hfrm : ∀ lsa, lsa ≠ w → s.dist lsa = none ∨ lsa ∈ s.done → st'.stat lsa = st.stat lsa) :
    SpfRel area root st' (s.relax v w N) vx' := by
  have hvxw : vx' w = r := by rw [hvx, update_self]
  have hvxo {lsa} (hne : lsa ≠ w) : vx' lsa = vx lsa := by rw [hvx, update_of_ne hne]
  have hdn {lsa} (hmb : lsa ∈ s.done) : lsa ≠ w := fun heq => hw (heq ▸ hmb)
  have hrt := hvxo (hdn h.root_done)
  refine ⟨?_, ?_, ?_, ?_, ?_, ?_, hqu, ?_, ?_, ?_⟩
  · rw [hspf, h.spf, hrt]
  · exact relax_done.symm ▸ h.root_done
  · intro lsa hmb
    rw [relax_done] at hmb
    rw [relax_dist_of_ne (hdn hmb)]
    exact h.done_found hmb
  · intro lsa d hd
    by_cases hne : lsa = w
    · subst hne
      rw [relax_dist_self hw] at hd
      cases hd
      exact hrch
    · rw [relax_dist_of_ne hne] at hd
      exact h.others hvx hvr hle hr hw hne hd
  · intro lsa hd
    have hne : lsa ≠ w := by
      rintro rfl
      rw [relax_dist_self hw] at hd
      cases hd
    rw [relax_dist_of_ne hne] at hd
    exact (hfrm lsa hne (.inl hd)).trans (h.stat_none hd)
  · intro lsa hmb
    rw [relax_done] at hmb
    exact (hfrm lsa (hdn hmb) (.inr hmb)).trans (h.stat_done hmb)
  · intro y
    rw [hhd, h.holds, relax_done]
    constructor
    · rintro (rfl | ⟨lsa, d, rfl, hmb, hd⟩)
      · exact ⟨w, _, hvxw.symm, hw, relax_dist_self hw⟩
      · by_cases hne : lsa = w
        · subst hne
          exact ⟨lsa, _, (hrw hd).trans hvxw.symm, hw, relax_dist_self hw⟩
        · exact ⟨lsa, d, (hvxo hne).symm, hmb, (relax_dist_of_ne hne).trans hd⟩
    · rintro ⟨lsa, d, rfl, hmb, hd⟩
      by_cases hne : lsa = w
      · subst hne
        exact .inl hvxw
      · rw [relax_dist_of_ne hne] at hd
        exact .inr ⟨lsa, d, hvxo hne, hmb, hd⟩
  · intro y
    rw [hinst, hrt, h.installed, relax_done]
    constructor
    · rintro ⟨lsa, hmb, rfl⟩
      exact ⟨lsa, hmb, (hvxo (hdn hmb)).symm⟩
    · rintro ⟨lsa, hmb, rfl⟩
      exact ⟨lsa, hmb, hvxo (hdn hmb)⟩
  · rw [hinst, hrt]
    exact h.nodup

end

end

/-! ## Considering a link -/

variable {l : Option RouterLink} {distance : UInt32}

/-- `w` can be reached from `v`, at a distance the calculation can handle
and with a next hop. -/
structure Step (area : OspfArea n) (root : Fin n) (s : Search (Fin n))
    (v w : Fin n) (l : Option RouterLink) (distance : UInt32) (d N : Nat) :
    Prop where
  settled : v ∈ s.done
  dist : s.dist v = some d
  distance_eq : distance.toNat = N
  fits : N < 2 ^ 31
  pos : w ∉ s.done → 0 < N
  hop : w ∉ s.done → v = root → ∃ l', l = some l'
    ∧ (rootNexthop area (area.lsdb root) (area.lsdb w) l').isSome

/-- The next-hop calculation from `v` to a vertex `r` of `w`. -/
theorem Step.nexthop (hs : Step area root s v w l distance d N)
    (h : SpfRel area root st s vx) (hw : w ∉ s.done) (st1 : SpfState n)
    {r : VertexRef} (hspf : st1.spf = st.spf) (hv : st1.vertex (vx v) = st.vertex (vx v))
    (hlsa : (st1.vertex r).lsa = w)
    (hle : (st1.vertex r).distance = 0 ∨ distance ≤ (st1.vertex r).distance) :
    ∃ ps : List VertexParent, ps ≠ [] ∧ (∀ p ∈ ps, p.parent = vx v)
      ∧ ospfNexthopCalculation area (vx v) r l distance st1 = .ok (true, { st1 with
          vertex := update st1.vertex r ((st1.vertex r).withParents distance ps) }) := by
  have hrl := h.vertex hs.dist
  obtain ⟨e, he⟩ := h.done_found h.root_done
  refine ospfNexthopCalculation_ok ⟨?_, hle⟩ (fun hrt => ?_) fun hrt => ?_
  · intro hzer
    have hN := hs.distance_eq
    rw [hzer] at hN
    have := hs.pos hw
    simp at hN
    omega
  · rw [hspf, h.spf] at hrt
    have hvroot := h.vx_inj hs.dist he hrt
    obtain ⟨l', hl', hso⟩ := hs.hop hw hvroot
    refine ⟨l', hl', ?_⟩
    rwa [vertexLsa, vertexLsa, hlsa, hv, hrl.lsa_eq, hvroot]
  · rw [hv]
    refine (hrl.behind fun hvroot => hrt ?_).2
    rw [hspf, h.spf, hvroot]

variable {q : PQueue VertexRef} {stat : Fin n → Int}

theorem spfEnqueue_ok {r : VertexRef}
    (h : pqueueEnqueue (spfCmp area st.vertex) (updateStat st.vertex) r
      st.candidate st.stat = (q, stat)) :
    spfEnqueue area r st = .ok ((), { st with candidate := q, stat := stat }) := by
  obtain rfl := congrArg Prod.fst h
  obtain rfl := congrArg Prod.snd h
  rfl

variable {i e : Nat}

theorem spfTrickleUp_ok (h : trickleUp (spfCmp area st.vertex) (updateStat st.vertex) i
      st.candidate st.stat = (q, stat)) :
    spfTrickleUp area i st = .ok ((), { st with candidate := q, stat := stat }) := by
  obtain rfl := congrArg Prod.fst h
  obtain rfl := congrArg Prod.snd h
  rfl

/-- What considering a link does to the search. -/
def Relaxes (area : OspfArea n) (root : Fin n) (m : SpfM n Unit)
    (st : SpfState n) (s : Search (Fin n)) (vx : Fin n → VertexRef)
    (v w : Fin n) (N : Nat) : Prop :=
  ∃ st' vx', m st = .ok ((), st') ∧ SpfRel area root st' (s.relax v w N) vx'
    ∧ (∀ lsa ∈ s.done, vx' lsa = vx lsa) ∧ st'.installed = st.installed

theorem spfConsider_new (hs : Step area root s v w l distance d N)
    (h : SpfRel area root st s vx) (hw : w ∉ s.done) (hno : s.dist w = none) :
    Relaxes area root (spfConsider area (vx v) l w distance) st s vx v w N := by
  have hfr {lsa e} (he : s.dist lsa = some e) :
      vx lsa ≠ st.vertices := (h.vertex he).lt.ne
  have hhl {y} (hy : Holds st.candidate.array st.candidate.size y) :
      y ≠ st.vertices := by
    obtain ⟨lsa, e, rfl, -, he⟩ := (h.holds y).mp hy
    exact hfr he
  -- the new vertex and its parents
  obtain ⟨ps, hne, hps, hrn⟩ := hs.nexthop h hw { st with
      vertex := update st.vertex st.vertices ⟨w, 0, [], []⟩
      vertices := st.vertices + 1 } rfl
    (update_of_ne (hfr hs.dist) _ _)
    (congrArg Vertex.lsa (update_self st.vertices _ st.vertex))
    (.inl (congrArg Vertex.distance (update_self st.vertices _ st.vertex)))
  simp only [update_self, update_idem] at hrn
  have hvert : (.withParents ⟨w, 0, [], []⟩ distance ps : Vertex n)
      = ⟨w, distance, ps, []⟩ := by simp [Vertex.withParents]
  rw [hvert] at hrn
  generalize hvr : update st.vertex st.vertices ⟨w, distance, ps, []⟩ = vertex at hrn
  have hold {y} (hy : y ≠ st.vertices) :
      vertex y = st.vertex y := by rw [← hvr, update_of_ne hy]
  have hnw : vertex st.vertices = ⟨w, distance, ps, []⟩ := by rw [← hvr, update_self]
  -- the queue
  have hqu : QueueOk area vertex st.candidate st.stat := h.queue.congr fun y hy => hold (hhl hy)
  have hks : ∀ i < st.candidate.size,
      (vertex (st.candidate.array i)).lsa ≠ (vertex st.vertices).lsa := by
    intro i hi heq
    obtain ⟨lsa, e, harr, -, he⟩ := (h.holds _).mp ⟨i, hi, rfl⟩
    rw [harr, hold (hfr he), (h.vertex he).lsa_eq, hnw] at heq
    rw [heq, hno] at he
    cases he
  have hft : vertexFits vertex st.vertices := by
    rw [vertexFits, hnw, hs.distance_eq]
    exact hs.fits
  obtain ⟨q', stat', henq, hq', hsize, hhd, hfrm⟩ :=
    pqueueEnqueue_ok (spfCmp_ranks area vertex) (updateStat_tracks vertex) hqu hft hks
  refine ⟨{ st with
    vertex, vertices := st.vertices + 1, candidate := q', stat := stat' },
    update vx w st.vertices, ?_, ?_, ?_, rfl⟩
  · have hstat := h.stat_none hno
    rw [spfConsider, get_bind, if_neg (by rw [hstat]; decide), if_pos hstat]
    refine (bind_ok (f := fun w => _) rfl).trans ?_
    refine (bind_ok hrn).trans ?_
    rw [if_pos rfl, spfEnqueue_ok henq]
  · refine h.stepped rfl hvr.symm (Nat.le_succ _)
      (fun he _ => hfr he) hw (fun he => ?_) rfl rfl ?_ hq' hhd ?_
    · rw [hno] at he
      cases he
    · have hcl : closer (s.dist w) N = N := by rw [hno, closer]
      rw [hcl]
      refine h.reached hs.settled hs.dist hw hcl hs.fits (hs.pos hw)
        (fun m hm => ?_) ?_ ?_ ?_ hne hps ?_ ?_ fun _ => rfl
      · have hmw : m ≠ w := fun heq => hw (heq ▸ hm)
        rw [update_of_ne hmw]
      · rw [update_self]
        exact Nat.lt_succ_self _
      · simp only [update_self, hnw]
      · simp only [update_self, hnw, hs.distance_eq]
      · simp only [update_self, hnw, nil_append]
      · intro he
        rw [hno] at he
        cases he
    · intro lsa hlsa hcase
      refine hfrm lsa (by rwa [hnw]) fun i hi heq => ?_
      obtain ⟨lsa', e, harr, hmb, he⟩ := (h.holds _).mp ⟨i, hi, rfl⟩
      rw [harr, hold (hfr he), (h.vertex he).lsa_eq] at heq
      subst heq
      rcases hcase with hn | hd
      · rw [hn] at he
        cases he
      · exact hmb hd
  · intro lsa hmb
    have hlsa : lsa ≠ w := fun heq => hw (heq ▸ hmb)
    rw [update_of_ne hlsa]

/-- The candidate that `stat` points to. -/
structure Found (st : SpfState n) (s : Search (Fin n))
    (vx : Fin n → VertexRef) (w : Fin n) (e i : Nat) : Prop where
  notDone : w ∉ s.done
  dist : s.dist w = some e
  lt : i < st.candidate.size
  stat : st.stat w = i
  array : st.candidate.array i = vx w

theorem Found.consider (hf : Found st s vx w e i) (r : VertexRef) :
    spfConsider area r l w distance st = (if (st.vertex (vx w)).distance < distance then return
        else if (st.vertex (vx w)).distance = distance then do
          let _ ← ospfNexthopCalculation area r (vx w) l distance
          return
        else do
          if ← ospfNexthopCalculation area r (vx w) l distance then
            spfTrickleUp area i
          else return) st := by
  have htr : ¬ (i : Int) = lsaSpfInSpftree := by
    rw [lsaSpfInSpftree]
    omega
  have hnw : ¬ (i : Int) = lsaSpfNotExplored := by
    rw [lsaSpfNotExplored]
    omega
  rw [spfConsider, get_bind, hf.stat, if_neg htr, if_neg hnw,
    if_pos (Int.natCast_nonneg i), Int.toNat_natCast, hf.array]

variable (hs : Step area root s v w l distance d N)
include hs

variable (h : SpfRel area root st s vx)
include h

theorem spfConsider_longer (hf : Found st s vx w e i) (hlt : e < N) :
    Relaxes area root (spfConsider area (vx v) l w distance) st s vx v w N := by
  refine ⟨st, vx, ?_, ?_, fun _ _ => rfl, rfl⟩
  · have hds : (st.vertex (vx w)).distance < distance := by
      rwa [UInt32.lt_iff_toNat_lt, (h.vertex hf.dist).distance, hs.distance_eq]
    rw [hf.consider, if_pos hds]
    rfl
  · rwa [Search.relax_of_lt hf.dist hlt]

theorem spfConsider_candidate (hf : Found st s vx w e i) (hle : N ≤ e) :
    ∃ vert : Vertex n, vert.lsa = w ∧ vert.distance = distance
      ∧ ospfNexthopCalculation area (vx v) (vx w) l distance st = .ok (true, { st with
          vertex := update st.vertex (vx w) vert })
      ∧ ∀ candidate stat, QueueOk area (update st.vertex (vx w) vert) candidate stat →
        (∀ y, Holds candidate.array candidate.size y
          ↔ Holds st.candidate.array st.candidate.size y) →
        (∀ lsa, lsa ≠ w → s.dist lsa = none ∨ lsa ∈ s.done → stat lsa = st.stat lsa) →
        SpfRel area root { st with
            vertex := update st.vertex (vx w) vert
            candidate := candidate
            stat := stat } (s.relax v w N) vx := by
  have hrl := h.vertex hf.dist
  have hdle : distance ≤ (st.vertex (vx w)).distance := by
    rwa [UInt32.le_iff_toNat_le, hrl.distance, hs.distance_eq]
  obtain ⟨ps, hne, hps, hrn⟩ :=
    hs.nexthop h hf.notDone st rfl rfl hrl.lsa_eq (.inr hdle)
  refine ⟨(st.vertex (vx w)).withParents distance ps, hrl.lsa_eq, rfl, hrn,
    fun candidate stat hq hhd hfrm => ?_⟩
  have hcl : closer (s.dist w) N = N := by
    rw [hf.dist]
    exact Nat.min_eq_right hle
  refine h.stepped (update_eq_self w vx).symm rfl le_rfl
    (fun he hne' heq => hne' (h.vx_inj he hf.dist heq)) hf.notDone (fun _ => rfl) rfl rfl
    ?_ hq (fun y => ?_) hfrm
  · rw [hcl]
    refine h.reached hs.settled hs.dist hf.notDone hcl hs.fits
      (hs.pos hf.notDone) (fun _ _ => rfl) hrl.lt ?_ ?_ hne hps
      (by simp only [update_self]; rfl) (fun hN => ?_) fun hN => ?_
    · simp only [update_self]
      exact hrl.lsa_eq
    · simp only [update_self]
      exact hs.distance_eq
    · have heN : e = N := Option.some.inj (hf.dist.symm.trans hN)
      have hnt : ¬ distance < (st.vertex (vx w)).distance := by
        rw [UInt32.lt_iff_toNat_lt, hrl.distance, hs.distance_eq]
        omega
      rw [if_neg fun hlt => hnt hlt.2]
    · have hlt : N < e := by
        refine lt_of_le_of_ne hle fun heq => hN ?_
        rw [hf.dist, heq]
      rw [if_pos]
      constructor
      · intro hzer
        have hds := hrl.distance
        rw [hzer] at hds
        simp at hds
        omega
      · rwa [UInt32.lt_iff_toNat_lt, hrl.distance, hs.distance_eq]
  · rw [hhd]
    constructor
    · exact .inr
    · rintro (rfl | hy)
      · exact ⟨i, hf.lt, hf.array⟩
      · exact hy

theorem spfConsider_equal (hf : Found st s vx w N i) :
    Relaxes area root (spfConsider area (vx v) l w distance) st s vx v w N := by
  have hrl := h.vertex hf.dist
  have heq : (st.vertex (vx w)).distance = distance := by
    rw [← UInt32.toNat_inj, hrl.distance, hs.distance_eq]
  obtain ⟨vert, hlsa, hds, hrn, hspf⟩ :=
    spfConsider_candidate hs h hf le_rfl
  refine ⟨_, vx, ?_, hspf st.candidate st.stat ?_ (fun _ => Iff.rfl)
    (fun _ _ _ => rfl), fun _ _ => rfl, rfl⟩
  · rw [hf.consider, if_neg (by rw [heq]; exact UInt32.lt_irrefl _), if_pos heq, bind_ok hrn]
    rfl
  · -- neither the distance nor the LSA has changed
    refine PQueue.Ok.congr h.queue fun y hy => ?_
    obtain ⟨j, hj, rfl⟩ := hy
    have hft := h.queue.member j hj
    by_cases hy : st.candidate.array j = vx w
    · simp only [vertexFits, vertexRank, hy, update_self, hlsa, hrl.lsa_eq, hds, heq] at hft ⊢
      exact ⟨hft, trivial, trivial⟩
    · simp only [vertexFits, vertexRank, update_of_ne hy] at hft ⊢
      exact ⟨hft, trivial, trivial⟩

theorem spfConsider_shorter (hf : Found st s vx w e i) (hlt : N < e) :
    Relaxes area root (spfConsider area (vx v) l w distance) st s vx v w N := by
  have hrl := h.vertex hf.dist
  obtain ⟨vert, hlsa, hds, hrn, hspf⟩ :=
    spfConsider_candidate hs h hf hlt.le
  generalize hvr : update st.vertex (vx w) vert = vertex at *
  have hsf : vertex (vx w) = vert := by rw [← hvr, update_self]
  have ho {y} (hy : y ≠ vx w) : vertex y = st.vertex y := by
    rw [← hvr, update_of_ne hy]
  have hix {j} (hj : j < st.candidate.size) (hne : j ≠ i) :
      st.candidate.array j ≠ vx w := by
    intro heq
    refine hne (placed_inj h.queue.placed j hj i hf.lt ?_)
    simp only [heq, hf.array]
  -- the vertex of `w` has moved up in the order, all others are the same
  have hmember : ∀ j < st.candidate.size, vertexFits vertex (st.candidate.array j) := by
    intro j hj
    by_cases hji : j = i
    · rw [hji, hf.array, vertexFits, hsf, hds, hs.distance_eq]
      exact hs.fits
    · rw [vertexFits, ho (hix hj hji)]
      exact h.queue.member j hj
  have hpld : ∀ j < st.candidate.size, st.stat (vertex (st.candidate.array j)).lsa = j := by
    intro j hj
    by_cases hji : j = i
    · rw [hji, hf.array, hsf, hlsa]
      exact hf.stat
    · rw [ho (hix hj hji)]
      exact h.queue.placed j hj
  have hu : UpOrdered (vertexRank area vertex ∘ st.candidate.array) st.candidate.size i := by
    refine h.queue.ordered.upOrdered hf.lt (fun j hj hji => ?_) ?_
    · simp only [comp_apply, vertexRank, ho (hix hj hji)]
    · simp only [comp_apply, hf.array, vertexRank, hsf, hlsa,
        hrl.lsa_eq, hds, hs.distance_eq, hrl.distance]
      omega
  obtain ⟨array', stat', htrickle, ha⟩ :=
    trickleUp_ok (spfCmp_ranks area vertex) (updateStat_tracks vertex) hf.lt hmember hpld hu
  refine ⟨_, vx, ?_, hspf ⟨array', st.candidate.size⟩ stat'
    (ha.ok hmember) ha.holds (fun lsa hne hcase => ?_), fun _ _ => rfl, rfl⟩
  · have hnlt : ¬ (st.vertex (vx w)).distance < distance := by
      rw [UInt32.lt_iff_toNat_lt, hrl.distance, hs.distance_eq]
      omega
    have hne : (st.vertex (vx w)).distance ≠ distance := by
      rw [Ne, ← UInt32.toNat_inj, hrl.distance, hs.distance_eq]
      omega
    rw [hf.consider, if_neg hnlt, if_neg hne, bind_ok hrn, if_pos rfl]
    exact spfTrickleUp_ok htrickle
  · refine ha.frame lsa fun j hj heq => ?_
    by_cases hji : j = i
    · rw [hji, hf.array, hsf, hlsa] at heq
      exact hne heq.symm
    · obtain ⟨lsa', e', harr, hmb, he'⟩ := (h.holds _).mp ⟨j, hj, rfl⟩
      rw [ho (hix hj hji), harr, (h.vertex he').lsa_eq] at heq
      subst heq
      rcases hcase with hn | hd
      · rw [hn] at he'
        cases he'
      · exact hmb hd

/-- Considering a link relaxes the edge. -/
theorem spfConsider_relaxes :
    Relaxes area root (spfConsider area (vx v) l w distance) st s vx v w N := by
  rcases h.stat_cases w with ⟨hdn, hstat⟩ | ⟨hno, hw, -⟩
    | ⟨e, i, he, hw, hi, hstat, harr⟩
  · refine ⟨st, vx, ?_, ?_, fun _ _ => rfl, rfl⟩
    · rw [spfConsider, get_bind, if_pos hstat]
      rfl
    · rwa [Search.relax_of_done hdn]
  · exact spfConsider_new hs h hw hno
  · have hf : Found st s vx w e i := ⟨hw, he, hi, hstat, harr⟩
    rcases lt_trichotomy e N with hlt | rfl | hgt
    · exact spfConsider_longer hs h hf hlt
    · exact spfConsider_equal hs h hf
    · exact spfConsider_shorter hs h hf hgt

end SdnQuagga
