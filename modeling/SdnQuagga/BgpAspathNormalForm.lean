import SdnQuagga.BgpAspathAggregate
import SdnQuagga.BgpAspathBuild
import SdnQuagga.BgpAspathEdit
import SdnQuagga.BgpAspathReconcile

/-!
# Normal form as an invariant of AS paths

What each constructor of AS paths gives for normalised arguments. Parsing,
removing confederation segments and aggregating give the normal form;
prepending an ASN and reconciling do, up to a segment whose length wraps.
`aspath_prepend`, `aspath_filter_exclude` and `aspath_str2aspath` do not call
`assegment_normalise`, and each has arguments that it leaves unnormalised.
-/

namespace SdnQuagga

open FaultM SdnQuagga.Stream List

/-! ## Parsing -/

theorem asnsGet_length (use32bit : Bool) :
    ∀ n, Returns (fun as => as.length = n) (asnsGet use32bit n)
  | 0 => .pure rfl
  | n + 1 => .bind fun _ => fun s as s' hr => by
    obtain ⟨rest, s1, hrs, hr⟩ := bind_eq_ok hr
    obtain ⟨rfl, -⟩ := Prod.mk.inj (Except.ok.inj hr)
    rw [length_cons, asnsGet_length use32bit n _ _ _ hrs]

/-- Segments that are not empty, whose ASNs take at least their share of the
bytes. -/
def ReadSegments (bytes : Nat) (segs : List Assegment) : Prop :=
  (∀ seg ∈ segs, 0 < seg.length) ∧ 2 * (asns segs).length ≤ bytes

variable {segs next : List Assegment} {as : List UInt32} {seg : Assegment}

theorem ReadSegments.concat {bytes n : Nat} (h : ReadSegments bytes segs) (type : SegType)
    (hps : 0 < as.length) (hlt : as.length < 65536) (hn : 2 * as.length ≤ n) :
    ReadSegments (bytes + n) (segs ++ [.ofAsns type as]) := by
  obtain ⟨hsg, hasn⟩ := h
  rw [Assegment.ofAsns_eq hlt]
  constructor
  · intro seg hg
    rcases mem_append.mp hg with hold | hnw
    · exact hsg seg hold
    · rwa [mem_singleton.mp hnw]
  · rw [asns_append, length_append, asns_cons, asns_nil, List.append_nil]
    change 2 * ((asns segs).length + as.length) ≤ bytes + n
    omega

theorem assegmentsParseLoop_read (use32bit : Bool) (length bytes : Nat)
    (head : List Assegment) (hhe : ReadSegments bytes head) (hby : bytes ≤ length) :
    Returns (fun result => ∀ segs ∈ result, ReadSegments length segs)
      (assegmentsParseLoop use32bit length bytes head) := by
  induction hn : length - bytes using Nat.strong_induction_on generalizing bytes head with
  | _ n ih =>
    have hno : Returns (fun result => ∀ segs ∈ result, ReadSegments length segs)
        (pure none : StreamM (Option (List Assegment))) := .pure (by simp)
    rw [assegmentsParseLoop]
    split
    · refine .ite hno (.bind fun code => .bind fun seglen => ?_)
      intro s result s' hr
      dsimp only at hr
      split at hr
      · exact hno _ _ _ hr
      next hsize =>
        cases hco : SegType.ofCode code with
        | none =>
          rw [hco] at hr
          exact hno _ _ _ hr
        | some type =>
          rw [hco] at hr
          obtain ⟨as, s1, has, hr⟩ := bind_eq_ok hr
          have hlen := asnsGet_length use32bit _ _ _ _ has
          have hg : seglen.toNat ≠ 0 := fun h =>
            hsize (Or.inr (UInt8.toNat_inj.mp h))
          have hbt := seglen.toNat_lt
          refine ih _ ?_ _ _ (hhe.concat type ?_ ?_ ?_) ?_ rfl _ _ _ hr
          · simp only [assegmentSize, asHeaderSize] at hsize ⊢
            omega
          · omega
          · omega
          · simp only [assegmentSize, asHeaderSize, assegmentDataSize]
            split <;> omega
          · omega
    next hdn =>
      refine .pure fun segs hsg => ?_
      cases hsg
      exact ⟨hhe.1, hhe.2.trans hby⟩

/-- `aspath_parse` with the length of an attribute. -/
theorem aspathParse_normalForm {length : Nat} (hlen : length < 65536) (use32bit : Bool) :
    Returns (fun result => ∀ segs ∈ result, NormalForm segs) (aspathParse length use32bit) := by
  have hemp : NormalForm [] := ⟨by simp, isChain_nil, by simp⟩
  refine .ite (.pure (by simp)) (.ite (.pure ?_) (.bind fun s => ?_))
  · rintro _ ⟨⟩
    exact hemp
  · refine .ite (.pure (by simp)) ?_
    intro s1 result s' hr
    obtain ⟨head, s2, hlp, hr⟩ := bind_eq_ok hr
    obtain ⟨rfl, -⟩ := Prod.mk.inj (Except.ok.inj hr)
    intro segs hsg
    obtain ⟨read, hrd, rfl⟩ := Option.map_eq_some_iff.mp hsg
    obtain ⟨hps, hasn⟩ := assegmentsParseLoop_read use32bit length 0 []
      ⟨by simp, by simp⟩ (Nat.zero_le _) _ _ _ hlp read hrd
    exact (normalForm_normalise hps (by omega)).1

/-! ## Joining two normalised paths -/

/-- Two sequences that meet do not have 65536 ASNs together. -/
def JoinFits (xs ys : List Assegment) : Prop :=
  ∀ x ∈ xs.getLast?, ∀ y ∈ ys.head?, x.type = .sequence → y.type = .sequence →
    x.length + y.length ≠ 65536

theorem assegmentNormalise_join {init : List Assegment}
    {seg1 seg2 : Assegment} (hsq1 : seg1.type = .sequence)
    (hsq2 : seg2.type = .sequence) (h2 : NormalForm (seg2 :: next)) :
    NormalForm (init ++ [seg1]) →
    assegmentNormalise (init ++ seg1 :: seg2 :: next)
      = init ++ assegmentAppendAsns seg1 seg2.as :: next := by
  induction init with
  | nil =>
    intro h1
    have hnx : ∀ y ∈ next.head?, y.type ≠ .sequence := by
      intro y hy hyseq
      exact (isChain_cons.mp h2.separated).1 y hy ⟨hsq2, hyseq⟩
    have hsrt : assegmentSorted seg1 = seg1 :=
      assegmentSorted_of_normal (h1.ascending seg1 (by simp))
    obtain ⟨htk, hdr⟩ := @takeWhile_packable_append seg1 [seg2] next hsq1 (by simpa using hsq2) hnx
    rw [singleton_append] at htk hdr
    rw [nil_append, assegmentNormalise, hsrt, htk, hdr, assegmentNormalise_of_normal h2.tail]
    rfl
  | cons seg init ih =>
    intro h1
    rw [cons_append] at h1
    obtain ⟨hhe, -⟩ := isChain_cons.mp h1.separated
    have hsrt : assegmentSorted seg = seg :=
      assegmentSorted_of_normal (h1.ascending seg mem_cons_self)
    rw [cons_append, assegmentNormalise_cons ?_, ih h1.tail, hsrt, cons_append]
    intro y hy
    refine hhe y ?_
    cases init <;> exact hy

theorem normalForm_join_iff {xs ys : List Assegment} (hx : NormalForm xs) (hy : NormalForm ys) :
    NormalForm (assegmentNormalise (xs ++ ys)) ↔ JoinFits xs ys := by
  by_cases hbo : ∃ x ∈ xs.getLast?, ∃ y ∈ ys.head?, x.type = .sequence ∧ y.type = .sequence
  · obtain ⟨x, hla, y, hhe, hxseq, hyseq⟩ := hbo
    obtain ⟨init, rfl⟩ := getLast?_eq_some_iff.mp hla
    obtain ⟨next, rfl⟩ := head?_eq_some_iff.mp hhe
    have hft : JoinFits (init ++ [x]) (y :: next) ↔ x.length + y.length ≠ 65536 := by
      simp [JoinFits, hxseq, hyseq]
    have hjn := joinSequences_normalForm_iff hx hy hxseq hyseq
    rw [joinSequences, dropLast_concat] at hjn
    rw [hft, ← hjn, append_assoc, singleton_append, assegmentNormalise_join hxseq hyseq hy hx]
  · have hap : NormalForm (xs ++ ys) := by
      refine hx.append hy fun x hxl y hyh hsq => ?_
      exact hbo ⟨x, hxl, y, hyh, hsq⟩
    rw [assegmentNormalise_of_normal hap]
    refine iff_of_true hap fun x hxl y hyh hxseq hyseq => ?_
    exact absurd ⟨x, hxl, y, hyh, hxseq, hyseq⟩ hbo

/-! ## Reconciling -/

variable (aspath as4path : List Assegment)

/-- The hops that `aspath_reconcile_as4` takes from the AS_PATH. -/
def reconcileHops : Int :=
  let hops : Int := (aspathCountHops aspath + aspathCountConfeds aspath : Nat)
    - (aspathCountHops as4path : Nat)
  if hops < 0 then (aspathCountHops aspath : Int) else hops

theorem reconcileLoop_types (segs : List Assegment) : ∀ hops : Int,
    (reconcileLoop hops segs).map Assegment.type <+: segs.map Assegment.type := by
  induction segs with
  | nil => exact fun hops => nil_prefix
  | cons seg next ih =>
    intro hops
    rw [reconcileLoop]
    split
    · split <;> exact (prefix_cons_inj _).mpr (ih _)
    · exact nil_prefix

theorem separated_map_type :
    Separated segs ↔ (segs.map Assegment.type).IsChain
      fun x y => ¬ (x = .sequence ∧ y = .sequence) := by
  rw [isChain_map]
  rfl

theorem reconcileLoop_segment {x : Assegment} :
    ∀ {hops : Int}, x ∈ reconcileLoop hops segs →
    ∃ seg ∈ segs, x.type = seg.type ∧ x.as <+: seg.as ∧ (0 < seg.length → 0 < x.length) := by
  induction segs with
  | nil => exact fun h => absurd h (by simp [reconcileLoop])
  | cons seg next ih =>
    intro hops hx
    have hlat : ∀ {hops}, x ∈ reconcileLoop hops next →
        ∃ seg' ∈ seg :: next, x.type = seg'.type ∧ x.as <+: seg'.as
          ∧ (0 < seg'.length → 0 < x.length) := by
      intro hops hm
      obtain ⟨seg', hg', hrs⟩ := ih hm
      exact ⟨seg', mem_cons_of_mem _ hg', hrs⟩
    have hwhole : x = .ofAsns seg.type seg.as →
        ∃ seg' ∈ seg :: next, x.type = seg'.type ∧ x.as <+: seg'.as
          ∧ (0 < seg'.length → 0 < x.length) := by
      intro heq
      rw [Assegment.ofAsns_self] at heq
      exact ⟨seg, mem_cons_self, by rw [heq], heq ▸ prefix_rfl, fun h => heq ▸ h⟩
    rw [reconcileLoop] at hx
    split at hx
    next hho =>
      cases hty : seg.type with
      | set | confedSet | confedSequence =>
        simp only [hty] at hx hwhole
        exact (mem_cons.mp hx).elim (hty ▸ hwhole) hlat
      | sequence =>
        simp only [hty] at hx
        rcases mem_cons.mp hx with rfl | hm
        · have hlt : (seg.as.take hops.toNat).length < 65536 :=
            (length_take_le' _ _).trans_lt seg.length_lt
          rw [Assegment.ofAsns_eq hlt]
          refine ⟨seg, mem_cons_self, hty.symm, take_prefix _ _, ?_⟩
          intro hps
          rw [Assegment.length] at hps ⊢
          rw [length_take]
          omega
        · exact hlat hm
    · exact absurd hx (by simp)

/-- The leading hops of a normalised path are normalised. -/
theorem reconcileLoop_normalForm (h : NormalForm segs)
    (hops : Int) : NormalForm (reconcileLoop hops segs) where
  nonempty := by
    intro x hx
    obtain ⟨seg, hg, -, -, hps⟩ := reconcileLoop_segment hx
    exact hps (h.nonempty seg hg)
  separated := by
    obtain ⟨later, htys⟩ := reconcileLoop_types segs hops
    have hal := separated_map_type.mp h.separated
    rw [← htys] at hal
    exact separated_map_type.mpr (isChain_append.mp hal).1
  ascending := by
    intro x hx hset
    obtain ⟨seg, hg, hty, hpre, -⟩ := reconcileLoop_segment hx
    exact (h.ascending seg hg (hty ▸ hset)).sublist hpre.sublist

theorem aspathReconcileAs4_eq :
    aspathReconcileAs4 aspath as4path = if reconcileHops aspath as4path = 0 then as4path
      else assegmentNormalise (reconcileLoop (reconcileHops aspath as4path) aspath ++ as4path) :=
  rfl

theorem aspathReconcileAs4_normalForm_iff {aspath as4path : List Assegment}
    (h : NormalForm aspath) (h4 : NormalForm as4path) :
    NormalForm (aspathReconcileAs4 aspath as4path)
      ↔ JoinFits (reconcileLoop (reconcileHops aspath as4path) aspath) as4path := by
  rw [aspathReconcileAs4_eq]
  split
  next hz =>
    refine iff_of_true h4 ?_
    rw [reconcileLoop_nil hz.le]
    simp [JoinFits]
  · exact normalForm_join_iff (reconcileLoop_normalForm h _) h4

/-! ## Putting one ASN in front -/

/-- A segment that has the type of the new ASN is not full. -/
def HeadFits (type : SegType) (segs : List Assegment) : Prop :=
  ∀ seg ∈ segs.head?, seg.type = type → seg.length ≠ 65535

theorem aspathAddOneAs_normalForm_iff {type : SegType} (hset : type.isSet = false)
    (asno : UInt32) (h : NormalForm segs) :
    NormalForm (aspathAddOneAs type asno segs) ↔ HeadFits type segs := by
  have hone : NormalForm [.ofAsns type [asno]] := by
    rw [Assegment.ofAsns_eq (by simp)]
    exact normalForm_singleton Nat.one_pos (by simp [hset])
  cases segs with
  | nil => exact iff_of_true hone (by simp [HeadFits])
  | cons seg next =>
    have hps := h.nonempty seg mem_cons_self
    rw [aspathAddOneAs, if_neg (by omega)]
    by_cases hty : seg.type = type
    · have hft : HeadFits type (seg :: next) ↔ seg.length ≠ 65535 := by simp [HeadFits, hty]
      have hlen : 0 < (assegmentPrependAsns seg asno 1).length ↔ seg.length ≠ 65535 := by
        have hlt := seg.length_lt
        rw [assegmentPrependAsns, if_neg (by decide)]
        simp only [Assegment.ofAsns, Assegment.length, length_take, length_append, length_replicate]
        omega
      have hnw : (assegmentPrependAsns seg asno 1).type = seg.type := by
        rw [assegmentPrependAsns, if_neg (by decide)]
        rfl
      rw [if_pos hty, hft, ← hlen]
      constructor
      · exact fun hn => hn.nonempty _ mem_cons_self
      · intro hp'
        have hpln : NormalForm ([] ++ seg :: next) := h
        refine hpln.replace hnw hp' fun hs => ?_
        rw [hnw, hty, hset] at hs
        exact absurd hs (by simp)
    · rw [if_neg hty]
      refine iff_of_true (hone.append h ?_) ?_
      · rintro _ ⟨⟩ _ ⟨⟩ ⟨hsq1, hsq2⟩
        exact hty (hsq2.trans hsq1.symm)
      · rintro _ ⟨⟩ heq
        exact absurd heq hty

/-! ## Aggregating -/

/-- What is left of two paths behind their common part holds at most 65535
different ASNs. -/
def AggregateFits (as1 as2 : List Assegment) : Prop :=
  let shared := commonPart as1 as2
  let rest1 := as1.drop shared.length
  let rest2 := as2.drop shared.length
  let start := restStart 0 shared rest1 rest2
  (asnsFrom start rest1 ++ asnsFrom start rest2).toFinset.card < 65536

theorem aspathAggregate_normalForm_iff {as1 : List Assegment}
    (as2 : List Assegment) (h1 : NormalForm as1) :
    (∃ agg, aspathAggregate as1 as2 = some agg ∧ NormalForm agg) ↔ AggregateFits as1 as2 := by
  obtain ⟨hso, hno⟩ := aspathAggregate_spec as2 h1
  constructor
  · rintro ⟨agg, hr, -⟩
    exact Nat.lt_of_not_le fun hcr =>
      absurd (hr.symm.trans (hno hcr)) (by simp)
  · intro hft
    obtain ⟨agg, hr, hnm, -⟩ := hso hft
    exact ⟨agg, hr, hnm⟩

/-! ## The hops of a path -/

/-- A step of an AS_PATH: an AS of a sequence, a set, or a confederation
segment. -/
inductive Hop where
  | as (asn : UInt32)
  | set (members : Finset UInt32)
  | confedSequence (as : List UInt32)
  | confedSet (members : Finset UInt32)

def Assegment.hops (seg : Assegment) : List Hop :=
  match seg.type with
  | .sequence => seg.as.map .as
  | .set => [.set seg.as.toFinset]
  | .confedSequence => [.confedSequence seg.as]
  | .confedSet => [.confedSet seg.as.toFinset]

/-- The AS_PATH that a path stands for: the boundaries of adjacent sequences and
the order within a set do not count. -/
def pathHops (segs : List Assegment) : List Hop := segs.flatMap Assegment.hops

def Hop.isAs : Hop → Bool
  | .as _ => true
  | .set _ | .confedSequence _ | .confedSet _ => false

theorem ascending_ext {bs : List UInt32} (ha : as.Pairwise (· < ·))
    (hb : bs.Pairwise (· < ·)) (h : as.toFinset = bs.toFinset) : as = bs := by
  refine ha.eq_of_mem_iff hb fun n => ?_
  rw [← mem_toFinset, h, mem_toFinset]

/-- Behind a sequence comes a hop that is not one of a sequence. -/
theorem head_pathHops (h : NormalForm (seg :: next)) (hsq : seg.type = .sequence) :
    ∀ hop ∈ (pathHops next).head?, hop.isAs = false := by
  cases next with
  | nil => simp [pathHops]
  | cons y ys =>
    intro hop hhop
    have hy := (isChain_cons_cons.mp h.separated).1
    cases hty : y.type with
    | sequence => exact absurd ⟨hsq, hty⟩ hy
    | set | confedSequence | confedSet =>
      simp only [pathHops, flatMap_cons, Assegment.hops, hty,
        singleton_append, head?_cons, Option.mem_some_iff] at hhop
      rw [← hhop]
      rfl

theorem takeWhile_isAs {rest : List Hop} (h : ∀ hop ∈ rest.head?, hop.isAs = false) :
    (as.map Hop.as ++ rest).takeWhile Hop.isAs = as.map Hop.as := by
  rw [takeWhile_append_of_pos (by simp [Hop.isAs])]
  cases rest with
  | nil => simp
  | cons hop rest => simp [h hop rfl]

theorem hops_ne_nil (h : 0 < seg.length) : seg.hops ≠ [] := by
  have has : seg.as ≠ [] := length_pos_iff.mp h
  unfold Assegment.hops
  split <;> simp [has]

def Hop.type : Hop → SegType
  | .as _ => .sequence
  | .set _ => .set
  | .confedSequence _ => .confedSequence
  | .confedSet _ => .confedSet

theorem hops_type {hop : Hop} (h : hop ∈ seg.hops) : hop.type = seg.type := by
  unfold Assegment.hops at h
  split at h
  next hty =>
    obtain ⟨asn, -, rfl⟩ := mem_map.mp h
    exact hty.symm
  all_goals
    rw [mem_singleton.mp h]
    exact Eq.symm ‹_›

/-- The first segment of a normalised path can be read off its hops. -/
theorem first_segment_ext {s t : Assegment} {ps qs : List Assegment}
    (hp : NormalForm (s :: ps)) (hq : NormalForm (t :: qs))
    (h : pathHops (s :: ps) = pathHops (t :: qs)) : s = t ∧ pathHops ps = pathHops qs := by
  have hs := hops_ne_nil (hp.nonempty s mem_cons_self)
  have ht := hops_ne_nil (hq.nonempty t mem_cons_self)
  have hap : s.hops ++ pathHops ps = t.hops ++ pathHops qs := h
  have hty : s.type = t.type := by
    obtain ⟨hop, srest, hshops⟩ := exists_cons_of_ne_nil hs
    obtain ⟨hop', trest, hthops⟩ := exists_cons_of_ne_nil ht
    rw [hshops, hthops, cons_append, cons_append] at hap
    rw [← hops_type (hshops ▸ mem_cons_self), (List.cons.inj hap).1,
      hops_type (hthops ▸ mem_cons_self)]
  have hsnext := head_pathHops hp
  have htnext := head_pathHops hq
  have hsasc := hp.ascending s mem_cons_self
  have htasc := hq.ascending t mem_cons_self
  obtain ⟨type, sas, slt⟩ := s
  obtain ⟨_, tas, tlt⟩ := t
  obtain rfl : type = _ := hty
  cases type with
  | sequence =>
    have htk := congrArg (takeWhile Hop.isAs) hap
    simp only [Assegment.hops] at hap htk
    rw [takeWhile_isAs (hsnext rfl), takeWhile_isAs (htnext rfl)] at htk
    rw [htk, append_cancel_left_eq] at hap
    have has : sas = tas := map_injective_iff.mpr (fun _ _ heq => Hop.as.inj heq) htk
    exact ⟨by simp [has], hap⟩
  | set =>
    obtain ⟨hhop, hrs⟩ := List.cons.inj hap
    have has := ascending_ext (hsasc rfl) (htasc rfl) (Hop.set.inj hhop)
    exact ⟨by simp [show sas = tas from has], hrs⟩
  | confedSequence =>
    obtain ⟨hhop, hrs⟩ := List.cons.inj hap
    exact ⟨by simp [show sas = tas from Hop.confedSequence.inj hhop], hrs⟩
  | confedSet =>
    obtain ⟨hhop, hrs⟩ := List.cons.inj hap
    have has := ascending_ext (hsasc rfl) (htasc rfl) (Hop.confedSet.inj hhop)
    exact ⟨by simp [show sas = tas from has], hrs⟩

/-- Two normalised paths for one AS_PATH are the same. -/
theorem normalForm_ext {p : List Assegment} : ∀ {q : List Assegment},
    NormalForm p → NormalForm q → pathHops p = pathHops q → p = q := by
  induction p with
  | nil =>
    intro q _ hq h
    cases q with
    | nil => rfl
    | cons seg next =>
      have hne := hops_ne_nil (hq.nonempty seg mem_cons_self)
      rw [pathHops, pathHops, flatMap_nil, flatMap_cons] at h
      exact absurd (append_eq_nil_iff.mp h.symm).1 hne
  | cons s ps ih =>
    intro q hp hq h
    cases q with
    | nil =>
      have hne := hops_ne_nil (hp.nonempty s mem_cons_self)
      rw [pathHops, pathHops, flatMap_nil, flatMap_cons] at h
      exact absurd (append_eq_nil_iff.mp h).1 hne
    | cons t qs =>
      obtain ⟨rfl, hrs⟩ := first_segment_ext hp hq h
      rw [ih hp.tail hq.tail hrs]

/-! ## All constructors -/

/-- Each constructor returns a normalised path for normalised arguments, just
when they meet the condition that stands behind it; and a normalised path is
determined by its hops. -/
theorem aspath_constructors_normalForm {as1 as2 : List Assegment}
    (h1 : NormalForm as1) (h2 : NormalForm as2) (asno : UInt32) (str : List Char)
    (length : UInt16) (use32bit : Bool) (s : Stream) :
    (∀ segs s', aspathParse length.toNat use32bit s = .ok (some segs, s') → NormalForm segs)
    ∧ ((∃ agg, aspathAggregate as1 as2 = some agg ∧ NormalForm agg) ↔ AggregateFits as1 as2)
    ∧ ((∀ freed, ∃ segs, aspathPrepend freed as1 as2 = some segs ∧ NormalForm segs)
      ↔ PrependFits as1 as2)
    ∧ (NormalForm (aspathFilterExclude as1 as2) ↔ Separated (as1.filter (Assegment.survives as2)))
    ∧ (NormalForm (aspathAddSeq asno as1) ↔ HeadFits .sequence as1)
    ∧ (NormalForm (aspathAddConfedSeq asno as1) ↔ HeadFits .confedSequence as1)
    ∧ NormalForm (aspathDeleteConfedSeq as1)
    ∧ (NormalForm (aspathReconcileAs4 as1 as2)
      ↔ JoinFits (reconcileLoop (reconcileHops as1 as2) as1) as2)
    ∧ ((∀ segs, aspathStr2aspath str = some segs → NormalForm segs) ↔ .unknown ∈ aspathTokens str
        ∨ WellWritten (writtenSegments none (aspathTokens str)))
    ∧ (pathHops as1 = pathHops as2 → as1 = as2) := by
  refine ⟨?_, ?_, ?_, ?_, ?_, ?_, ?_, ?_, ?_, ?_⟩
  · intro segs s' hrun
    exact aspathParse_normalForm length.toNat_lt use32bit s _ s' hrun segs rfl
  · exact aspathAggregate_normalForm_iff as2 h1
  · exact aspathPrepend_normalForm_iff h1 h2
  · exact aspathFilterExclude_normalForm_iff h1 as2
  · exact aspathAddOneAs_normalForm_iff rfl asno h1
  · exact aspathAddOneAs_normalForm_iff rfl asno h1
  · exact h1.suffix (deleteConfedSeq_suffix as1)
  · exact aspathReconcileAs4_normalForm_iff h1 h2
  · exact aspathStr2aspath_normalForm_iff str
  · exact normalForm_ext h1 h2

theorem not_normalForm_adjacent {x y : Assegment}
    (hx : x.type = .sequence) (hy : y.type = .sequence) : ¬ NormalForm (x :: y :: next) :=
  fun h => (isChain_cons_cons.mp h.separated).1 ⟨hx, hy⟩

/-- The path `1`, the set of 2, `3`. -/
def setBetween : List Assegment :=
  [⟨.sequence, [1], by decide⟩, ⟨.set, [2], by decide⟩, ⟨.sequence, [3], by decide⟩]

/-- The confederation segment 2 in front of `3`. -/
def confedFirst : List Assegment :=
  [⟨.confedSequence, [2], by decide⟩, ⟨.sequence, [3], by decide⟩]

theorem confedFirst_normalForm : NormalForm confedFirst :=
  ⟨by decide, isChain_cons_cons.mpr ⟨by decide, isChain_singleton _⟩, by decide⟩

/-- 7 in front of the confederation segment, and the path behind it. -/
theorem aspath_constructors_add_seven :
    NormalForm (aspathAddSeq 7 confedFirst) ∧ NormalForm (aspathDeleteConfedSeq confedFirst) := by
  obtain ⟨-, -, -, -, hadd, -, hdelete, -⟩ := aspath_constructors_normalForm
    confedFirst_normalForm confedFirst_normalForm 7 [] 0 true (.ofBytes [])
  exact ⟨hadd.mpr (by rintro _ ⟨⟩ _; decide), hdelete⟩

/-- Taking 2 out of `setBetween`, putting `1` in front of `confedFirst` with
the freed segment unchanged, and reading a set that is not sorted. -/
theorem aspath_constructors_unnormalised :
    (NormalForm setBetween
      ∧ ¬ NormalForm (aspathFilterExclude setBetween [⟨.sequence, [2], by decide⟩]))
    ∧ (NormalForm confedFirst ∧ ∃ segs, aspathPrepend .confedSequence [⟨.sequence, [1], by decide⟩]
        confedFirst = some segs ∧ ¬ NormalForm segs)
    ∧ ∃ segs, aspathStr2aspath ['\x7b', '2', ',', '1', '\x7d'] = some segs ∧ ¬ NormalForm segs := by
  refine ⟨⟨⟨by decide, ?_, by decide⟩, ?_⟩, ⟨confedFirst_normalForm, ?_⟩, ?_⟩
  · exact isChain_cons_cons.mpr ⟨by decide, isChain_cons_cons.mpr
      ⟨by decide, isChain_singleton _⟩⟩
  · have hrun : aspathFilterExclude setBetween [⟨.sequence, [2], by decide⟩]
        = [⟨.sequence, [1], by decide⟩, ⟨.sequence, [3], by decide⟩] := by decide +kernel
    rw [hrun]
    exact not_normalForm_adjacent rfl rfl
  · exact ⟨[⟨.sequence, [1], by decide⟩, ⟨.sequence, [3], by decide⟩],
      by decide +kernel, not_normalForm_adjacent rfl rfl⟩
  · refine ⟨[⟨.set, [2, 1], by decide⟩], by decide +kernel, fun h => ?_⟩
    exact absurd (h.ascending _ mem_cons_self rfl) (by decide)

end SdnQuagga
