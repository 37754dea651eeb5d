import Mathlib.Data.Fintype.Card
import SdnQuagga.OspfSpfCorrect

/-!
# A whole run of the shortest path calculation

The points of a run are those between two links of the vertex that is
scanned. At each of them the state is that of a search in which the
links seen so far are relaxed (`SpfInv`); a link and a step to the next
vertex lead from point to point. A run ends, since no LSA is taken
twice, and at its end nothing is left to settle.
-/

namespace SdnQuagga

open FaultM List Function

/-! ## The invariant -/

section

variable {n : Nat} {area : OspfArea n} {root : Fin n}

/-- The state is that of a search that has relaxed the edges in
`scanned`, the last of them from `cur`. -/
structure SpfInv (area : OspfArea n) (root : Fin n)
    (scanned : Fin n → Fin n → Nat → Prop) (cur : Fin n) (st : SpfState n)
    (s : Search (Fin n)) (vx : Fin n → VertexRef) : Prop where
  rel : SpfRel area root st s vx
  search : SearchInv (spfGraph area root) scanned s
  cur_done : cur ∈ s.done
  pred : PositiveMetrics area → PredInv (lsaRank area) scanned cur s

/-- What is assumed of an area. -/
structure SpfAssumptions (area : OspfArea n) (root : Fin n) : Prop where
  self : area.routerLsaSelf = some root
  back : BackLinksSeen area
  hops : NexthopsFound area root
  costs : CostsFit area root

variable {scanned : Fin n → Fin n → Nat → Prop} {cur : Fin n}
  {st : SpfState n} {s : Search (Fin n)} {vx : Fin n → VertexRef}
  {link : SpfLink} {w : Fin n}

theorem SpfInv.vertexLsa_cur (h : SpfInv area root scanned cur st s vx) :
    vertexLsa area st (vx cur) = area.lsdb cur := by
  obtain ⟨d, hd⟩ := h.rel.done_found h.cur_done
  rw [vertexLsa, (h.rel.vertex hd).lsa_eq]

theorem SpfInv.cur_eq_spf (h : SpfInv area root scanned cur st s vx) :
    vx cur = st.spf ↔ cur = root := by
  rw [h.rel.spf]
  constructor
  · obtain ⟨d, hd⟩ := h.rel.done_found h.cur_done
    obtain ⟨e, he⟩ := h.rel.done_found h.rel.root_done
    exact h.rel.vx_inj hd he
  · rintro rfl
    rfl

/-- The edges of a link of `cur`. -/
def scanLink (area : OspfArea n) (root cur : Fin n) (link : SpfLink)
    (scanned : Fin n → Fin n → Nat → Prop) : Fin n → Fin n → Nat → Prop :=
  fun v w c => scanned v w c ∨ v = cur ∧ c = link.metric.toNat
    ∧ spfTarget area (cur = root) (area.lsdb cur) link = some w

theorem scanLink_none (h : spfTarget area (cur = root) (area.lsdb cur) link = none) :
    scanLink area root cur link scanned = scanned := by
  funext v w c
  simp [scanLink, h]

theorem scanLink_some (h : spfTarget area (cur = root) (area.lsdb cur) link = some w) :
    scanLink area root cur link scanned = orEdge scanned cur w link.metric.toNat := by
  funext v w' c
  simp only [scanLink, orEdge, h, Option.some.injEq, eq_iff_iff]
  constructor
  · rintro (hs | ⟨rfl, rfl, rfl⟩)
    · exact .inl hs
    · exact .inr ⟨rfl, rfl, rfl⟩
  · rintro (hs | ⟨rfl, rfl, rfl⟩)
    · exact .inl hs
    · exact .inr ⟨rfl, rfl, rfl⟩

theorem edge_of_target (ha : SpfAssumptions area root) (hmb : link ∈ spfLinks (area.lsdb cur))
    (htgt : spfTarget area (cur = root) (area.lsdb cur) link = some w) :
    (spfGraph area root).edge cur w link.metric.toNat := by
  obtain ⟨hlds, hif⟩ := (spfTarget_iff ha.back hmb _).mp htgt
  exact ⟨link, hlds, rfl, by simpa using hif⟩

/-- Following a link is a step that the calculation can make. -/
theorem SpfInv.step (h : SpfInv area root scanned cur st s vx) (ha : SpfAssumptions area root)
    (hmb : link ∈ spfLinks (area.lsdb cur))
    (htgt : spfTarget area (cur = root) (area.lsdb cur) link = some w)
    {d : Nat} (hd : s.dist cur = some d) :
    Step area root s cur w link.l ((st.vertex (vx cur)).distance + link.metric.toUInt32) d
      (d + link.metric.toNat) := by
  obtain ⟨hlds, -⟩ := (spfTarget_iff ha.back hmb _).mp htgt
  have hrl := h.rel.vertex hd
  have hft := ha.costs cur w _ d (h.search.dist_done h.cur_done hd) (edge_of_target ha hmb htgt)
  have hwroot (hw : w ∉ s.done) : w ≠ root := fun heq => hw (heq ▸ h.rel.root_done)
  refine ⟨h.cur_done, hd, ?_, hft, fun hw => ?_, fun hw hrt => ?_⟩
  · rw [UInt32.toNat_add, hrl.distance, UInt16.toNat_toUInt32]
    omega
  · by_cases hrt : cur = root
    · subst hrt
      have hne := (ha.hops link w hlds (hwroot hw)).1
      have hps : link.metric.toNat ≠ 0 := fun hz =>
        hne (UInt16.toNat_inj.mp hz)
      omega
    · have := (hrl.behind hrt).1
      omega
  · subst hrt
    cases link with
    | link l => exact ⟨l, rfl, (ha.hops _ w hlds (hwroot hw)).2 l rfl⟩
    | router r =>
      -- the root is a router
      have hsf := area.self_router cur ha.self
      unfold spfLinks at hmb
      unfold OspfLsa.isNetwork at hsf
      split at hmb
      · simp at hmb
      next hbod =>
        rw [hbod] at hsf
        cases hsf

theorem spfTurn_ok (h : SpfInv area root scanned cur st s vx) (ha : SpfAssumptions area root)
    (hmb : link ∈ spfLinks (area.lsdb cur)) :
    ∃ st' s' vx', spfTurn area (vx cur) link st = .ok ((), st')
      ∧ SpfInv area root (scanLink area root cur link scanned) cur st' s' vx'
      ∧ vx' cur = vx cur ∧ s'.done = s.done ∧ st'.installed = st.installed := by
  obtain ⟨d, hd⟩ := h.rel.done_found h.cur_done
  have htn : spfTurn area (vx cur) link st
      = (spfTarget area (cur = root) (area.lsdb cur) link).elim (.ok ((), st)) fun wLsa =>
        spfConsider area (vx cur) link.l wLsa
          ((st.vertex (vx cur)).distance + link.metric.toUInt32) st := by
    rw [spfTurn, get_bind, h.vertexLsa_cur]
    simp only [h.cur_eq_spf]
    cases spfTarget area (cur = root) (area.lsdb cur) link <;> rfl
  cases htgt : spfTarget area (cur = root) (area.lsdb cur) link with
  | none =>
    rw [scanLink_none htgt]
    exact ⟨st, s, vx, by rw [htn, htgt, Option.elim_none], h, rfl, rfl, rfl⟩
  | some w =>
    have hed := edge_of_target ha hmb htgt
    obtain ⟨st', vx', hrn, hrl, hvx, hinst⟩ :=
      spfConsider_relaxes (h.step ha hmb htgt hd) h.rel
    refine ⟨st', _, vx', by rw [htn, htgt]; exact hrn, ⟨hrl, ?_, ?_, ?_⟩,
      hvx cur h.cur_done, Search.relax_done, hinst⟩
    · rw [scanLink_some htgt]
      exact h.search.relax h.cur_done hd hed
    · rw [Search.relax_done]
      exact h.cur_done
    · intro hps
      rw [scanLink_some htgt]
      exact (h.pred hps).relax h.search (rising_of_positive area root hps) h.cur_done hd hed

/-! ## To the next vertex -/

variable {d : Nat}

/-- The vertices are the same but for their children. -/
def SameVertices (vertex vertex' : VertexRef → Vertex n) : Prop :=
  ∀ v, (vertex' v).lsa = (vertex v).lsa ∧ (vertex' v).distance = (vertex v).distance
    ∧ (vertex' v).parents = (vertex v).parents

theorem ospfVertexAddParent_ok (v : VertexRef) (st : SpfState n) :
    ∃ vertex', SameVertices st.vertex vertex' ∧ ospfVertexAddParent v st
        = .ok ((), { st with vertex := vertex' }) := by
  rw [ospfVertexAddParent, get_bind]
  generalize (st.vertex v).parents = parents
  induction parents generalizing st with
  | nil => exact ⟨st.vertex, fun _ => ⟨rfl, rfl, rfl⟩, rfl⟩
  | cons vp parents ih =>
    generalize hst : ({ st with
      vertex := update st.vertex vp.parent { st.vertex vp.parent with
          children := if v ∈ (st.vertex vp.parent).children
            then (st.vertex vp.parent).children
            else (st.vertex vp.parent).children ++ [v] } } : SpfState n) = st1
    obtain ⟨vertex', hsm, hrn⟩ := ih st1
    subst hst
    refine ⟨vertex', fun y => ?_, (forM_cons_ok rfl).trans hrn⟩
    rw [(hsm y).1, (hsm y).2.1, (hsm y).2.2]
    by_cases hy : y = vp.parent
    · subst hy
      simp only [update_self, and_self]
    · simp only [update_of_ne hy, and_self]

variable {vertex' : VertexRef → Vertex n} {e : Nat} {q : PQueue VertexRef} {stat : Fin n → Int}

theorem SameVertices.queueOk {vertex : VertexRef → Vertex n}
    (h : SameVertices vertex vertex') (hq : QueueOk area vertex q stat) :
    QueueOk area vertex' q stat := by
  refine PQueue.Ok.congr hq fun v hv => ?_
  obtain ⟨i, hi, rfl⟩ := hv
  simp only [vertexFits, vertexRank, (h _).1, (h _).2.1, and_self, and_true]
  exact hq.member i hi

/-- A vertex after one more has gone to the tree. -/
theorem VertexRel.settle {lsa : Fin n}
    (hr : VertexRel root st s vx lsa d) (h : SpfRel area root st s vx)
    (hsm : SameVertices st.vertex vertex') {st' : SpfState n}
    (hvr : st'.vertex = vertex') (hlt : st'.vertices = st.vertices) (hw : w ∉ s.done)
    (he : s.dist w = some e) : VertexRel root st' (s.settle w) vx lsa d := by
  have hprs := (hsm (vx lsa)).2.2
  rw [← hvr] at hsm hprs
  refine ⟨(hsm _).1.trans hr.lsa_eq, ?_, hr.fits, hlt ▸ hr.lt, ?_, ?_,
    fun m hm => .inr (hr.pred_done m hm), fun m hm => ?_⟩
  · rw [(hsm _).2.1]
    exact hr.distance
  · rw [hprs]
    exact hr.behind
  · intro p hp
    rw [hprs] at hp
    obtain ⟨m, hm, heq⟩ := hr.parents p hp
    exact ⟨m, .inr hm, heq⟩
  · rw [hprs]
    rcases hm with rfl | hm
    · -- it was nobody's parent so far
      constructor
      · intro hp
        exact absurd (hr.pred_done m hp) hw
      · rintro ⟨p, hp, heq⟩
        obtain ⟨u, hu, hpu⟩ := hr.parents p hp
        obtain ⟨f, hf⟩ := h.done_found hu
        have hum := h.vx_inj hf he (hpu.symm.trans heq)
        exact absurd (hum ▸ hu) hw
    · exact hr.pred m hm

/-- The candidate `w` goes from the queue to the tree. -/
theorem SpfRel.settle (h : SpfRel area root st s vx)
    (hw : w ∉ s.done) (he : s.dist w = some e) (hsm : SameVertices st.vertex vertex')
    (hq : QueueOk area st.vertex q stat)
    (hhd : ∀ y, Holds st.candidate.array st.candidate.size y ↔ y = vx w ∨ Holds q.array q.size y)
    (ho : ∀ y, Holds q.array q.size y → (st.vertex y).lsa ≠ w)
    (hfrm : ∀ lsa, s.dist lsa = none ∨ lsa ∈ s.done → stat lsa = st.stat lsa) :
    SpfRel area root { st with
      vertex := vertex'
      candidate := q
      stat := update stat w lsaSpfInSpftree
      installed := st.installed ++ [vx w] } (s.settle w) vx := by
  have hne {lsa} (hcase : s.dist lsa = none ∨ lsa ∈ s.done) :
      lsa ≠ w := by
    rintro rfl
    rcases hcase with hn | hd
    · rw [hn] at he
      cases he
    · exact hw hd
  refine ⟨h.spf, .inr h.root_done, ?_, ?_, ?_, ?_, ?_, ?_, ?_, ?_⟩
  · rintro lsa (rfl | hmb)
    · exact ⟨e, he⟩
    · exact h.done_found hmb
  · intro lsa d hd
    exact (h.vertex hd).settle h hsm rfl rfl hw he
  · intro lsa hn
    simp only [update_of_ne (hne (.inl hn)), hfrm lsa (.inl hn)]
    exact h.stat_none hn
  · rintro lsa (rfl | hmb)
    · exact update_self ..
    · simp only [update_of_ne (hne (.inr hmb)), hfrm lsa (.inr hmb)]
      exact h.stat_done hmb
  · refine hsm.queueOk ⟨hq.member, hq.ordered, fun i hi => ?_⟩
    simp only [update_of_ne (ho _ ⟨i, hi, rfl⟩)]
    exact hq.placed i hi
  · intro y
    constructor
    · intro hy
      obtain ⟨lsa, d, rfl, hmb, hd⟩ := (h.holds y).mp ((hhd y).mpr (.inr hy))
      refine ⟨lsa, d, rfl, ?_, hd⟩
      rintro (rfl | hm')
      · exact ho _ hy (h.vertex hd).lsa_eq
      · exact hmb hm'
    · rintro ⟨lsa, d, rfl, hmb, hd⟩
      have hy := (h.holds (vx lsa)).mpr ⟨lsa, d, rfl, fun hdn => hmb (.inr hdn), hd⟩
      refine ((hhd _).mp hy).resolve_left fun heq => ?_
      exact hmb (.inl (h.vx_inj hd he heq))
  · intro y
    rw [← cons_append, mem_append, mem_singleton, h.installed]
    constructor
    · rintro (⟨lsa, hmb, rfl⟩ | rfl)
      · exact ⟨lsa, .inr hmb, rfl⟩
      · exact ⟨w, .inl rfl, rfl⟩
    · rintro ⟨lsa, rfl | hmb, rfl⟩
      · exact .inr rfl
      · exact .inl ⟨lsa, hmb, rfl⟩
  · rw [← cons_append, nodup_append]
    refine ⟨h.nodup, nodup_singleton _, ?_⟩
    intro y hy z hz heq
    rw [mem_singleton] at hz
    obtain ⟨lsa, hmb, rfl⟩ := (h.installed y).mp hy
    obtain ⟨f, hf⟩ := h.done_found hmb
    exact hw (h.vx_inj hf he (heq.trans hz) ▸ hmb)

theorem spfExtract_none (h : st.candidate.size = 0) : spfExtract area st = .ok (none, st) := by
  rw [spfExtract, get_bind, if_pos h]
  rfl

/-- What `cmp` orders by is the order of the search. -/
theorem SpfRel.keyLe (h : SpfRel area root st s vx) {y : Fin n} {f : Nat}
    (he : s.dist w = some e) (hf : s.dist y = some f) (hle : vertexRank area st.vertex (vx w)
      ≤ vertexRank area st.vertex (vx y)) : KeyLe e (lsaRank area w) f (lsaRank area y) := by
  have hw := h.vertex he
  have hy := h.vertex hf
  simp only [vertexRank, hw.lsa_eq, hw.distance, hy.lsa_eq, hy.distance] at hle
  simp only [KeyLe, lsaRank]
  split at hle <;> split at hle <;> simp_all <;> omega

theorem spfExtract_ok (h : SpfInv area root scanned cur st s vx)
    (hcl : Closed (spfGraph area root) scanned s) (hsize : 0 < st.candidate.size) :
    ∃ w st', spfExtract area st = .ok (some (vx w), st') ∧ w ∉ s.done
      ∧ SpfInv area root scanned w st' (s.settle w) vx
      ∧ st'.installed = st.installed ++ [vx w] := by
  obtain ⟨q, stat, hdequeue, hq, -, hhd, ho, hlst, hfrm⟩ :=
    pqueueDequeue_ok (spfCmp_ranks area st.vertex) (updateStat_tracks st.vertex) h.rel.queue hsize
  obtain ⟨w, e, harr, hw, he⟩ := (h.rel.holds _).mp ⟨0, hsize, rfl⟩
  have hlsa := (h.rel.vertex he).lsa_eq
  simp only [harr, hlsa] at hdequeue hhd ho hlst
  obtain ⟨vertex', hsm, hadd⟩ := ospfVertexAddParent_ok (vx w) { st with
    candidate := q
    stat := update stat w lsaSpfInSpftree
    installed := st.installed ++ [vx w] }
  have hmi : ∀ y f, y ∉ s.done → s.dist y = some f →
      KeyLe e (lsaRank area w) f (lsaRank area y) := by
    intro y f hy hf
    exact h.rel.keyLe he hf (hlst _ ((h.rel.holds _).mpr ⟨y, f, rfl, hy, hf⟩))
  have hds : ∀ y f, y ∉ s.done → s.dist y = some f → e ≤ f := by
    intro y f hy hf
    rcases hmi y f hy hf with hlt | ⟨heq, -⟩
    · exact hlt.le
    · exact heq.le
  refine ⟨w, _, ?_, hw, ⟨h.rel.settle hw he hsm hq hhd ho ?_,
    h.search.settle hcl hw he hds, .inl rfl, fun hps => ?_⟩, rfl⟩
  · rw [spfExtract, get_bind, if_neg hsize.ne']
    simp only [hdequeue, hlsa]
    refine (bind_ok (f := fun _ => _) rfl).trans ?_
    rw [bind_ok hadd]
    rfl
  · intro lsa hcase
    refine hfrm lsa fun i hi heq => ?_
    obtain ⟨lsa', f, hy, hmb, hf⟩ := (h.rel.holds _).mp ⟨i, hi, rfl⟩
    rw [hy, (h.rel.vertex hf).lsa_eq] at heq
    subst heq
    rcases hcase with hn | hd
    · rw [hn] at hf
      cases hf
    · exact hmb hd
  · exact (h.pred hps).settle h.search h.cur_done hw he hmi

/-! ## The points of a run -/

variable {st0 : SpfState n} {v : VertexRef} {links : List SpfLink}

/-- The points of a run from `st0`: the vertex that is scanned, those of
its links that are left, and the state. -/
inductive SpfReaches (area : OspfArea n) (st0 : SpfState n) :
    VertexRef → List SpfLink → SpfState n → Prop where
  | start {root : Fin n} {v : VertexRef} {st1 st : SpfState n} :
      area.routerLsaSelf = some root → spfStart root st0 = .ok (v, st1) →
      spfTransit area v st1 = .ok ((), st) →
      SpfReaches area st0 v (spfLinks (vertexLsa area st v)) st
  | turn {v : VertexRef} {link : SpfLink} {links : List SpfLink}
      {st st' : SpfState n} :
      SpfReaches area st0 v (link :: links) st →
      spfTurn area v link st = .ok ((), st') →
      SpfReaches area st0 v links st'
  | next {v v' : VertexRef} {st st1 st' : SpfState n} :
      SpfReaches area st0 v [] st →
      spfExtract area st = .ok (some v', st1) →
      spfTransit area v' st1 = .ok ((), st') →
      SpfReaches area st0 v' (spfLinks (vertexLsa area st' v')) st'

/-- The invariant at a point: the only edges not yet relaxed are those of
the links that are left. -/
structure SpfPoint (area : OspfArea n) (root : Fin n) (v : VertexRef)
    (links : List SpfLink) (st : SpfState n) (scanned : Fin n → Fin n → Nat → Prop) (cur : Fin n)
    (s : Search (Fin n)) (vx : Fin n → VertexRef) : Prop where
  vertex_eq : v = vx cur
  inv : SpfInv area root scanned cur st s vx
  left : ∀ link ∈ links, link ∈ spfLinks (area.lsdb cur)
  seen : ∀ u w c, u ∈ s.done → (spfGraph area root).edge u w c →
    scanned u w c ∨ u = cur ∧ ∃ link ∈ links, c = link.metric.toNat
      ∧ spfTarget area (cur = root) (area.lsdb cur) link = some w

variable {scanned : Fin n → Fin n → Nat → Prop} {cur : Fin n}
  {s : Search (Fin n)} {vx : Fin n → VertexRef}

theorem SpfPoint.closed (h : SpfPoint area root v [] st scanned cur s vx) :
    Closed (spfGraph area root) scanned s := by
  intro u w c hu hed
  rcases h.seen u w c hu hed with hs | ⟨-, link, hmb, -⟩
  · exact hs
  · cases hmb

theorem spfTransit_ok (area : OspfArea n) (v : VertexRef) (st : SpfState n) :
    ∃ transit, spfTransit area v st = .ok ((), { st with transit := transit }) := by
  cases hbod : (vertexLsa area st v).body with
  | router flags links =>
    refine ⟨st.transit || flags &&& routerLsaVirtual ≠ 0, ?_⟩
    show Except.ok ((), _) = _
    simp only [hbod]
  | network routers =>
    refine ⟨st.transit, ?_⟩
    show Except.ok ((), _) = _
    simp only [hbod]

theorem SpfInv.transit (h : SpfInv area root scanned cur st s vx) (transit : Bool) :
    SpfInv area root scanned cur { st with transit := transit } s vx where
  rel := ⟨h.rel.spf, h.rel.root_done, h.rel.done_found,
    fun hd => (h.rel.vertex hd).kept rfl (h.rel.vertex hd).lt rfl rfl fun _ _ => rfl,
    h.rel.stat_none, h.rel.stat_done, h.rel.queue, h.rel.holds, h.rel.installed, h.rel.nodup⟩
  search := h.search
  cur_done := h.cur_done
  pred := h.pred

/-- The scan of `cur` begins when all edges from the others have been
relaxed. -/
theorem SpfInv.point (h : SpfInv area root scanned cur st s vx) (ha : SpfAssumptions area root)
    (hcl : ∀ u w c, u ∈ s.done → u ≠ cur →
      (spfGraph area root).edge u w c → scanned u w c) {st' : SpfState n}
    (hrn : spfTransit area (vx cur) st = .ok ((), st')) :
    SpfPoint area root (vx cur) (spfLinks (vertexLsa area st' (vx cur))) st' scanned cur s vx := by
  obtain ⟨transit, heq⟩ := spfTransit_ok area (vx cur) st
  rw [heq] at hrn
  cases hrn
  have hinv := h.transit transit
  rw [hinv.vertexLsa_cur]
  refine ⟨rfl, hinv, fun _ hmb => hmb, fun u w c hu hed => ?_⟩
  by_cases hcur : u = cur
  · subst hcur
    obtain ⟨link, hlds, rfl, hif⟩ := hed
    refine .inr ⟨rfl, link, hlds.mem, rfl, ?_⟩
    exact (spfTarget_iff ha.back hlds.mem _).mpr ⟨hlds, by simpa using hif⟩
  · exact .inl (hcl u w c hu hcur hed)

theorem spfStart_ok (area : OspfArea n) (root : Fin n) (st0 : SpfState n) :
    ∃ st, spfStart root st0 = .ok (st0.vertices, st)
      ∧ SpfInv area root (fun _ _ _ => False) root st (Search.start root) (fun _ => st0.vertices)
      ∧ st.installed = [] := by
  have hds {lsa d}
      (hd : (Search.start root).dist lsa = some d) : lsa = root ∧ d = 0 := by
    by_cases heq : lsa = root
    · simp [Search.start, heq] at hd
      exact ⟨heq, hd.symm⟩
    · simp [Search.start, heq] at hd
  have hdn {lsa} (hmb : lsa ∈ (Search.start root).done) :
      lsa = root := hmb
  refine ⟨_, rfl, ⟨⟨rfl, rfl, ?_, ?_, ?_, ?_, ⟨?_, ?_, ?_⟩, ?_, ?_, ?_⟩,
    searchInv_start root, rfl, fun _ => predInv_start _ root⟩, rfl⟩
  · rintro lsa rfl
    exact ⟨0, by simp [Search.start]⟩
  · intro lsa d hd
    obtain ⟨rfl, rfl⟩ := hds hd
    exact ⟨by simp, by simp, by omega, Nat.lt_succ_self _,
      fun hne => absurd rfl hne, by simp, fun m hm => hm.elim,
      fun m _ => by simp [Search.start]⟩
  · intro lsa hn
    have hne : lsa ≠ root := by
      rintro rfl
      simp [Search.start] at hn
    exact update_of_ne hne _ _
  · rintro lsa rfl
    exact update_self ..
  · exact fun i hi => absurd hi (Nat.not_lt_zero i)
  · exact fun i _ hi => absurd hi (Nat.not_lt_zero i)
  · exact fun i hi => absurd hi (Nat.not_lt_zero i)
  · intro y
    constructor
    · rintro ⟨i, hi, -⟩
      exact absurd hi (Nat.not_lt_zero i)
    · rintro ⟨lsa, d, -, hmb, hd⟩
      exact absurd (hds hd).1 hmb
  · intro y
    simp [Search.start]
  · exact nodup_singleton _

theorem SpfReaches.point (ha : SpfAssumptions area root) (h : SpfReaches area st0 v links st) :
    ∃ scanned cur s vx, SpfPoint area root v links st scanned cur s vx := by
  induction h with
  | @start root' v st1 st hsf hsta htr =>
    obtain rfl : root = root' := Option.some.inj (ha.self.symm.trans hsf)
    obtain ⟨st', hrn, hinv, -⟩ := spfStart_ok area root st0
    rw [hrn] at hsta
    cases hsta
    refine ⟨_, root, _, _, hinv.point ha (fun u w c hu hne => ?_) htr⟩
    exact absurd hu hne
  | @turn v link links st st' _ htn ih =>
    obtain ⟨scanned, cur, s, vx, hp⟩ := ih
    obtain rfl := hp.vertex_eq
    obtain ⟨st1, s', vx', hrn, hinv, hvx, hdn, -⟩ :=
      spfTurn_ok hp.inv ha (hp.left link (mem_cons_self ..))
    rw [hrn] at htn
    cases htn
    refine ⟨_, cur, s', vx', hvx.symm, hinv, fun l hl => hp.left l (mem_cons_of_mem _ hl), ?_⟩
    intro u w c hu hed
    rcases hp.seen u w c (hdn ▸ hu) hed with hs | ⟨rfl, l, hl, hc, htgt⟩
    · exact .inl (.inl hs)
    · rcases mem_cons.mp hl with rfl | hl
      · exact .inl (.inr ⟨rfl, hc, htgt⟩)
      · exact .inr ⟨rfl, l, hl, hc, htgt⟩
  | @next v v' st st1 st' _ hextr htr ih =>
    obtain ⟨scanned, cur, s, vx, hp⟩ := ih
    by_cases hsize : st.candidate.size = 0
    · rw [spfExtract_none hsize] at hextr
      cases hextr
    · obtain ⟨w, st2, hrn, hw, hinv, -⟩ :=
        spfExtract_ok hp.inv hp.closed (Nat.pos_of_ne_zero hsize)
      rw [hrn] at hextr
      cases hextr
      refine ⟨_, w, _, vx, hinv.point ha (fun u y c hu hne hed => ?_) htr⟩
      exact hp.closed u y c (hu.resolve_left hne) hed

/-- The vertices in the tree, in the order in which they came. -/
def SpfState.tree (st : SpfState n) : List VertexRef := st.spf :: st.installed

section

variable (h : SpfRel area root st s vx)
include h

theorem SpfRel.mem_tree : v ∈ st.tree ↔ ∃ lsa ∈ s.done, v = vx lsa := by
  rw [SpfState.tree, h.spf]
  exact h.installed v

theorem SpfRel.tree_nodup : (st.tree.map fun v => (st.vertex v).lsa).Nodup := by
  refine .map_on (fun y hy z hz heq => ?_) ?_
  · obtain ⟨lsa, hmb, rfl⟩ := h.mem_tree.mp hy
    obtain ⟨lsa', hm', rfl⟩ := h.mem_tree.mp hz
    obtain ⟨d, hd⟩ := h.done_found hmb
    obtain ⟨d', hd'⟩ := h.done_found hm'
    rw [(h.vertex hd).lsa_eq, (h.vertex hd').lsa_eq] at heq
    rw [heq]
  · rw [SpfState.tree, h.spf]
    exact h.nodup

theorem SpfRel.installed_lt : st.installed.length < n := by
  have hle := h.tree_nodup.length_le_card
  rwa [length_map, Fintype.card_fin, SpfState.tree, length_cons] at hle

end

/-! ## The run ends -/

section

variable (ha : SpfAssumptions area root)
include ha

theorem spfTurns_ok (h : SpfReaches area st0 v links st) :
    ∃ st', links.forM (spfTurn area v) st = .ok ((), st')
      ∧ SpfReaches area st0 v [] st' ∧ st'.installed = st.installed := by
  induction links generalizing st with
  | nil => exact ⟨st, rfl, h, rfl⟩
  | cons link links ih =>
    obtain ⟨scanned, cur, s, vx, hp⟩ := h.point ha
    obtain rfl := hp.vertex_eq
    obtain ⟨st1, -, -, hrn, -, -, -, hinst⟩ :=
      spfTurn_ok hp.inv ha (hp.left link (mem_cons_self ..))
    obtain ⟨st', hrs, hrch, hsm⟩ := ih (h.turn hrn)
    exact ⟨st', (forM_cons_ok hrn).trans hrs, hrch, hsm.trans hinst⟩

/-- The loop ends with no candidate left. -/
theorem spfLoop_ok (bound : Nat)
    (hbd : n ≤ bound + st.installed.length) (h : ∀ st', spfTransit area v st = .ok ((), st') →
      SpfReaches area st0 v (spfLinks (vertexLsa area st' v)) st') :
    ∃ v' st', spfLoop area bound v st = .ok ((), st')
      ∧ SpfReaches area st0 v' [] st' ∧ st'.candidate.size = 0 := by
  obtain ⟨transit, htr⟩ := spfTransit_ok area v st
  have hsta := h _ htr
  induction bound generalizing v st transit with
  | zero =>
    obtain ⟨scanned, cur, s, vx, hp⟩ := hsta.point ha
    have hlt := hp.inv.rel.installed_lt
    exact absurd hbd (by simpa using hlt)
  | succ bound ih =>
    obtain ⟨st1, hturns, hrch, hinst⟩ := spfTurns_ok ha hsta
    have hnx : ospfSpfNext area v st = .ok ((), st1) := by
      rwa [ospfSpfNext, bind_ok htr, get_bind]
    rw [spfLoop, bind_ok hnx]
    by_cases hsize : st1.candidate.size = 0
    · refine ⟨v, st1, ?_, hrch, hsize⟩
      rw [bind_ok (spfExtract_none hsize)]
      rfl
    · obtain ⟨scanned, cur, s, vx, hp⟩ := hrch.point ha
      obtain ⟨w, st2, hextr, -, -, hlonger⟩ :=
        spfExtract_ok hp.inv hp.closed (Nat.pos_of_ne_zero hsize)
      rw [bind_ok hextr]
      obtain ⟨transit', htr'⟩ := spfTransit_ok area (vx w) st2
      refine ih ?_ (fun st' hrn => hrch.next hextr hrn) transit' htr' (hrch.next hextr htr')
      rw [hlonger, hinst, length_append, length_singleton]
      exact hbd.trans (by simp; omega)

theorem ospfSpfCalculate_ok (st0 : SpfState n) :
    ∃ v st, ospfSpfCalculate area st0 = .ok ((), st)
      ∧ SpfReaches area st0 v [] st ∧ st.candidate.size = 0 := by
  obtain ⟨st1, hsta, -, hni⟩ := spfStart_ok area root st0
  obtain ⟨v, st, hrn, hrch, hsize⟩ := spfLoop_ok ha n
    (by rw [hni]; simp) fun st' htr => .start ha.self hsta htr
  refine ⟨v, st, ?_, hrch, hsize⟩
  rw [ospfSpfCalculate, ha.self]
  exact (bind_ok hsta).trans hrn

end

/-! ## The tree -/

/-- `lsa->stat` of candidates, of vertices in the tree and of LSAs that
are neither. -/
structure StatOk (st : SpfState n) : Prop where
  candidate : ∀ i < st.candidate.size, st.stat (st.vertex (st.candidate.array i)).lsa = i
  tree : ∀ v ∈ st.tree, st.stat (st.vertex v).lsa = lsaSpfInSpftree
  other : ∀ lsa, (∀ v ∈ st.tree, (st.vertex v).lsa ≠ lsa) → (∀ i < st.candidate.size,
      (st.vertex (st.candidate.array i)).lsa ≠ lsa) → st.stat lsa = lsaSpfNotExplored

/-- The tree has the LSAs that can be reached, each once, at their
distances and with their predecessors on shortest paths as parents. -/
structure ShortestTree (area : OspfArea n) (root : Fin n) (st : SpfState n) : Prop where
  once : (st.tree.map fun v => (st.vertex v).lsa).Nodup
  reachable : ∀ lsa, (∃ v ∈ st.tree, (st.vertex v).lsa = lsa) ↔ (spfGraph area root).Reachable lsa
  distance : ∀ v ∈ st.tree, (spfGraph area root).Dist (st.vertex v).lsa (st.vertex v).distance.toNat
  parents : PositiveMetrics area → ∀ v ∈ st.tree, ∀ u, (∃ p ∈ (st.vertex v).parents, p.parent = u)
      ↔ u ∈ st.tree ∧ (spfGraph area root).Precedes (st.vertex u).lsa (st.vertex v).lsa

theorem SpfRel.done_lsa (h : SpfRel area root st s vx) {lsa : Fin n}
    (hmb : lsa ∈ s.done) : (st.vertex (vx lsa)).lsa = lsa := by
  obtain ⟨d, hd⟩ := h.done_found hmb
  exact (h.vertex hd).lsa_eq

theorem SpfRel.statOk (h : SpfRel area root st s vx) : StatOk st where
  candidate := h.queue.placed
  tree := by
    intro v hv
    obtain ⟨lsa, hmb, rfl⟩ := h.mem_tree.mp hv
    rw [h.done_lsa hmb]
    exact h.stat_done hmb
  other := by
    intro lsa htre hcandidate
    rcases h.stat_cases lsa with ⟨hdn, -⟩ | ⟨-, -, hstat⟩
      | ⟨d, i, hd, -, hi, -, harr⟩
    · exact absurd (h.done_lsa hdn) (htre _ (h.mem_tree.mpr ⟨lsa, hdn, rfl⟩))
    · exact hstat
    · refine absurd ?_ (hcandidate i hi)
      rw [harr, (h.vertex hd).lsa_eq]

theorem SpfPoint.shortestTree (h : SpfPoint area root v [] st scanned cur s vx)
    (hsize : st.candidate.size = 0) : ShortestTree area root st := by
  have hrl := h.inv.rel
  have hno : ∀ w, w ∉ s.done → s.dist w = none := by
    intro w hw
    by_contra hne
    obtain ⟨d, hd⟩ := Option.ne_none_iff_exists'.mp hne
    obtain ⟨i, hi, -⟩ := (hrl.holds (vx w)).mpr ⟨w, d, rfl, hw, hd⟩
    omega
  refine ⟨hrl.tree_nodup, fun lsa => ?_, fun y hy => ?_, fun hps y hy u => ?_⟩
  · rw [← h.inv.search.done_iff h.closed hno]
    constructor
    · rintro ⟨y, hy, rfl⟩
      obtain ⟨lsa', hmb, rfl⟩ := hrl.mem_tree.mp hy
      rwa [hrl.done_lsa hmb]
    · intro hmb
      exact ⟨vx lsa, hrl.mem_tree.mpr ⟨lsa, hmb, rfl⟩, hrl.done_lsa hmb⟩
  · obtain ⟨lsa, hmb, rfl⟩ := hrl.mem_tree.mp hy
    obtain ⟨d, hd⟩ := hrl.done_found hmb
    rw [(hrl.vertex hd).lsa_eq, (hrl.vertex hd).distance]
    exact h.inv.search.dist_done hmb hd
  · obtain ⟨lsa, hmb, rfl⟩ := hrl.mem_tree.mp hy
    obtain ⟨d, hd⟩ := hrl.done_found hmb
    have hvr := hrl.vertex hd
    have hpred m := (h.inv.pred hps).pred_iff h.inv.search h.closed hno m lsa
    rw [hvr.lsa_eq]
    constructor
    · rintro ⟨p, hp, rfl⟩
      obtain ⟨m, hm, heq⟩ := hvr.parents p hp
      rw [heq, hrl.done_lsa hm]
      exact ⟨hrl.mem_tree.mpr ⟨m, hm, rfl⟩, (hpred m).mp ((hvr.pred m hm).mpr ⟨p, hp, heq⟩)⟩
    · rintro ⟨hu, hprec⟩
      obtain ⟨m, hm, rfl⟩ := hrl.mem_tree.mp hu
      rw [hrl.done_lsa hm] at hprec
      exact (hvr.pred m hm).mp ((hpred m).mpr hprec)

end

/-! ## Three routers in a row -/

def pointopointLink (linkId linkData : UInt32) (metric : UInt16) :
    RouterLink :=
  ⟨linkId, linkData, lsaLinkTypePointopoint, metric, [], RouterLink.noTos⟩

variable (metric : UInt16)

/-- Routers 1, 2 and 3; the middle one has this metric to the last. -/
def rowLsas : Fin 3 → OspfLsa
  | 0 => ⟨1, 1, false, .router 0 [pointopointLink 2 12 1]⟩
  | 1 => ⟨2, 2, false, .router 0 [pointopointLink 1 21 1, pointopointLink 3 23 metric]⟩
  | 2 => ⟨3, 3, false, .router 0 [pointopointLink 2 32 1]⟩

def rowArea : OspfArea 3 where
  lsdb := rowLsas metric
  routerLsaSelf := some 0
  self_router := by
    rintro root h
    cases h
    rfl
  ifIsConfigured := fun a => if a = 21 then some ⟨1, false, 12, 24⟩ else none
  vlNexthop := fun _ => none

/-- Whatever was there before. -/
def emptySpfState : SpfState 3 where
  stat := fun _ => 0
  vertex := fun _ => ⟨0, 0, [], []⟩
  vertices := 0
  spf := 0
  candidate := ⟨fun _ => 0, 0⟩
  transit := false
  installed := []

theorem rowArea_leads {metric : UInt16} {v w : Fin 3} {link : SpfLink}
    (h : Leads (rowArea metric) v link w) :
    v = 0 ∧ w = 1 ∧ link = .link (pointopointLink 2 12 1)
      ∨ v = 1 ∧ w = 0 ∧ link = .link (pointopointLink 1 21 1)
      ∨ v = 1 ∧ w = 2 ∧ link = .link (pointopointLink 3 23 metric)
      ∨ v = 2 ∧ w = 1 ∧ link = .link (pointopointLink 2 32 1) := by
  have hmb := h.mem
  have htgt := h.target
  match v with
  | 0 =>
    obtain rfl := mem_singleton.mp hmb
    cases htgt
    exact .inl ⟨rfl, rfl, rfl⟩
  | 1 =>
    rcases mem_cons.mp hmb with rfl | hmb
    · cases htgt
      exact .inr (.inl ⟨rfl, rfl, rfl⟩)
    · obtain rfl := mem_singleton.mp hmb
      cases htgt
      exact .inr (.inr (.inl ⟨rfl, rfl, rfl⟩))
  | 2 =>
    obtain rfl := mem_singleton.mp hmb
    cases htgt
    exact .inr (.inr (.inr ⟨rfl, rfl, rfl⟩))

theorem rowArea_linked :
    Leads (rowArea metric) 0 (.link (pointopointLink 2 12 1)) 1
      ∧ Leads (rowArea metric) 1 (.link (pointopointLink 3 23 metric)) 2 := by
  constructor
  · exact ⟨mem_singleton.mpr rfl, rfl, rfl, ⟨pointopointLink 1 21 1, mem_cons_self, rfl⟩⟩
  · exact ⟨mem_cons_of_mem _ mem_cons_self, rfl, rfl, ⟨pointopointLink 2 32 1, mem_cons_self, rfl⟩⟩

theorem rowArea_near : (spfGraph (rowArea metric) 0).Walk 1 1 := by
  have hed : (spfGraph (rowArea metric) 0).edge 0 1 1 :=
    ⟨_, (rowArea_linked metric).1, rfl, .inl rfl⟩
  exact WGraph.Walk.root.step hed

theorem rowArea_dist_le {metric : UInt16} {v : Fin 3} {d : Nat}
    (h : (spfGraph (rowArea metric) 0).Dist v d) : d ≤ 1 + metric.toNat := by
  match v with
  | 0 => exact (h.le 0 .root).trans (Nat.zero_le _)
  | 1 => exact (h.le 1 (rowArea_near metric)).trans (Nat.le_add_right _ _)
  | 2 =>
    -- the last step comes from the middle
    cases h.walk with
    | step hwk hed =>
      obtain ⟨link, hlds, rfl, hif⟩ := hed
      obtain ⟨-, hw, -⟩ | ⟨-, hw, -⟩ | ⟨rfl, -, rfl⟩ | ⟨-, hw, -⟩ :=
        rowArea_leads hlds
      · cases hw
      · cases hw
      · exact h.le _ ((rowArea_near metric).step ⟨_, hlds, rfl, hif⟩)
      · cases hw

theorem rowArea_assumptions : SpfAssumptions (rowArea metric) 0 where
  self := rfl
  back := by
    intro v w
    refine ospfLsaHasLink_isSome ?_
    match w with
    | 0 | 1 | 2 => simp [OspfLsa.NoTos, OspfLsa.links, rowArea, rowLsas, pointopointLink]
  hops := by
    intro link w hlds _
    obtain ⟨-, rfl, rfl⟩ | ⟨hv, -⟩ | ⟨hv, -⟩ | ⟨hv, -⟩ := rowArea_leads hlds
    · refine ⟨by decide, fun l hl => ?_⟩
      cases hl
      rfl
    · cases hv
    · cases hv
    · cases hv
  costs := by
    rintro v w c d hd ⟨link, -, rfl, -⟩
    have hle := rowArea_dist_le hd
    have := metric.toNat_lt
    have := link.metric.toNat_lt
    omega

/-! ## The whole calculation -/

/-- The calculation ends with the tree of the shortest paths over the
links that it follows, and `lsa->stat` is right at every point. -/
theorem ospf_spf_calculate_shortest_paths {n : Nat} (area : OspfArea n)
    (root : Fin n) (ha : SpfAssumptions area root) (st0 : SpfState n) :
    (∃ st, ospfSpfCalculate area st0 = .ok ((), st)
        ∧ st.candidate.size = 0 ∧ ShortestTree area root st)
      ∧ ∀ v links st, SpfReaches area st0 v links st → StatOk st := by
  constructor
  · obtain ⟨v, st, hrun, hreach, hsize⟩ := ospfSpfCalculate_ok ha st0
    obtain ⟨scanned, cur, s, vx, hp⟩ := hreach.point ha
    exact ⟨st, hrun, hsize, hp.shortestTree hsize⟩
  · intro v links st hreach
    obtain ⟨scanned, cur, s, vx, hp⟩ := hreach.point ha
    exact hp.inv.rel.statOk

theorem ospf_spf_calculate_shortest_paths_row :
    (∃ st, ospfSpfCalculate (rowArea 10) emptySpfState = .ok ((), st)
        ∧ st.candidate.size = 0 ∧ ShortestTree (rowArea 10) 0 st)
      ∧ ∀ v links st, SpfReaches (rowArea 10) emptySpfState v links st → StatOk st :=
  ospf_spf_calculate_shortest_paths (rowArea 10) 0 (rowArea_assumptions 10) emptySpfState

/-- The last router has a link back and can be reached, but not over
links of finite cost. -/
theorem ospf_spf_calculate_not_infinite :
    SpfAssumptions (rowArea ospfOutputCostInfinite) 0
      ∧ (linkGraph (rowArea ospfOutputCostInfinite) 0).Reachable 2
      ∧ ∃ st, ospfSpfCalculate (rowArea ospfOutputCostInfinite) emptySpfState = .ok ((), st)
        ∧ st.tree.map (fun v => (st.vertex v).lsa) = [0, 1] := by
  refine ⟨rowArea_assumptions _, ⟨_, .step (.step .root
    ⟨_, (rowArea_linked _).1, rfl⟩) ⟨_, (rowArea_linked _).2, rfl⟩⟩, ?_⟩
  obtain ⟨v, st, hrun, -⟩ :=
    ospfSpfCalculate_ok (rowArea_assumptions ospfOutputCostInfinite) emptySpfState
  have htree : ((ospfSpfCalculate (rowArea ospfOutputCostInfinite)
      emptySpfState).toOption.map fun r =>
        r.2.tree.map fun v => (r.2.vertex v).lsa) = some [0, 1] := by decide +kernel
  rw [hrun] at htree
  exact ⟨st, hrun, Option.some.inj htree⟩

end SdnQuagga
