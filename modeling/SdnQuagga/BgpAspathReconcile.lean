import SdnQuagga.BgpAspathNormalise
import SdnQuagga.BgpAttrParse

/-!
# Reconciling AS_PATH with AS4_PATH

A path crosses speakers that know 16-bit ASNs only. They see `AS_TRANS` for
each larger ASN and put their own ASNs in front; the original path travels
beside it. `aspath_reconcile_as4` finds the split by counting hops: a set counts
as one, and normalisation does not change the count.
-/

namespace SdnQuagga

open List

/-! ## The path on a 16-bit session -/

/-- What `assegment_data_put` writes for an ASN in two bytes. -/
def asnTrans (asn : UInt32) : UInt32 :=
  if asn ≤ bgpAsMax then asn else bgpAsTrans

variable (seg : Assegment)

def Assegment.as16 : Assegment where
  type := seg.type
  as := seg.as.map asnTrans
  length_lt := by
    rw [length_map]
    exact seg.length_lt

def aspath16 (segs : List Assegment) : List Assegment := segs.map Assegment.as16

/-- The ASNs of a leading `AS_SEQUENCE`. -/
def leadingSequence : List Assegment → List UInt32
  | [] => []
  | seg :: _ => if seg.type = .sequence then seg.as else []

/-- The normalised path with `ks` in front as an `AS_SEQUENCE`; there is none
where the first segment would have more ASNs than its length can count. -/
def prepended (ks : List UInt32) (segs : List Assegment) :
    Option (List Assegment) :=
  if ks = [] then some (assegmentNormalise segs)
  else if (ks ++ leadingSequence segs).length < 65536 then
    some (assegmentNormalise (.ofAsns .sequence ks :: segs))
  else none

/-! ## The shape of a prepended path -/

/-- The segments behind a leading `AS_SEQUENCE`. -/
def behindSequence : List Assegment → List Assegment
  | [] => []
  | seg :: next => if seg.type = .sequence then next else seg :: next

variable {ks : List UInt32} {segs : List Assegment}

theorem assegmentNormalise_prepend
    (hsep : Separated segs) (hlt : (ks ++ leadingSequence segs).length < 65536) :
    assegmentNormalise (.ofAsns .sequence ks :: segs) = ⟨.sequence, ks ++ leadingSequence segs, hlt⟩
        :: (behindSequence segs).map assegmentSorted := by
  have hks : ks.length < 65536 := by
    rw [length_append] at hlt
    omega
  rw [Assegment.ofAsns_eq hks]
  -- Only a sequence at the head of the path is joined.
  cases segs with
  | nil =>
    rw [assegmentNormalise_of_separated (isChain_singleton _)]
    simp [leadingSequence, behindSequence, assegmentSorted, SegType.isSet]
  | cons seg next =>
    by_cases hsq : seg.type = .sequence
    · have hnx : ∀ x ∈ next.head?, x.type ≠ .sequence := by
        intro x hx hxseq
        cases next with
        | nil => simp at hx
        | cons y ys =>
          obtain rfl : y = x := by simpa using hx
          exact (isChain_cons_cons.mp hsep).1 ⟨hsq, hxseq⟩
      have hjn := @assegmentNormalise_sequences
        ⟨.sequence, ks ++ leadingSequence (seg :: next), hlt⟩ ⟨.sequence, ks, hks⟩ [seg] next rfl
        (by simp [hsq]) (by simp [leadingSequence, hsq]) hnx
      rw [singleton_append] at hjn
      have htl : Separated next := hsep.tail
      rw [hjn, assegmentNormalise_of_separated htl, behindSequence, if_pos hsq]
    · have hhe : Separated (⟨.sequence, ks, hks⟩ :: seg :: next) :=
        isChain_cons_cons.mpr ⟨by simp [hsq], hsep⟩
      rw [assegmentNormalise_of_separated hhe, map_cons]
      simp [leadingSequence, behindSequence, hsq, assegmentSorted, SegType.isSet]

/-! ## Hops -/

theorem aspathCountHops_cons (segs : List Assegment) :
    aspathCountHops (seg :: segs) = aspathCountHops [seg] + aspathCountHops segs := by
  simp [aspathCountHops]

theorem aspathCountHops_map {f : Assegment → Assegment}
    (hf : ∀ seg, aspathCountHops [f seg] = aspathCountHops [seg]) (segs : List Assegment) :
    aspathCountHops (segs.map f) = aspathCountHops segs := by
  induction segs with
  | nil => rfl
  | cons seg next ih => rw [map_cons, aspathCountHops_cons, aspathCountHops_cons seg, hf, ih]

theorem aspathCountHops_sorted : aspathCountHops [assegmentSorted seg] = aspathCountHops [seg] := by
  by_cases hset : seg.type.isSet
  · have hty : seg.type ≠ .sequence := fun h => by simp [h, SegType.isSet] at hset
    simp only [aspathCountHops, map_cons, assegmentSorted_type]
    cases hg : seg.type with
    | sequence => exact absurd hg hty
    | set | confedSequence | confedSet => rfl
  · rw [assegmentSorted_not_set hset]

theorem aspathCountHops_as16 : aspathCountHops [seg.as16] = aspathCountHops [seg] := by
  simp [aspathCountHops, Assegment.as16, Assegment.length]

theorem aspathCountHops_split (segs : List Assegment) :
    aspathCountHops segs
      = (leadingSequence segs).length + aspathCountHops (behindSequence segs) := by
  cases segs with
  | nil => rfl
  | cons seg next =>
    by_cases hsq : seg.type = .sequence
    · simp [leadingSequence, behindSequence, aspathCountHops, hsq, Assegment.length]
    · simp [leadingSequence, behindSequence, hsq]

theorem aspathCountConfeds_zero
    (h : ∀ seg ∈ segs, seg.type.isConfed = false) : aspathCountConfeds segs = 0 := by
  induction segs with
  | nil => rfl
  | cons seg next ih =>
    have hg := h seg mem_cons_self
    have hnx := ih fun x hx => h x (mem_cons_of_mem _ hx)
    simp only [aspathCountConfeds, map_cons, sum_cons] at hnx ⊢
    rw [hnx]
    cases hs : seg.type <;> simp [hs, SegType.isConfed] at hg ⊢

/-! ## The split -/

theorem separated_aspath16 (h : Separated segs) : Separated (aspath16 segs) :=
  (isChain_map Assegment.as16).mpr h

theorem leadingSequence_as16_length (segs : List Assegment) :
    (leadingSequence (aspath16 segs)).length = (leadingSequence segs).length := by
  cases segs with
  | nil => rfl
  | cons seg next =>
    simp only [aspath16, map_cons, leadingSequence, Assegment.as16]
    split
    · exact length_map _
    · rfl

theorem mem_behindSequence {seg : Assegment} (h : seg ∈ behindSequence segs) : seg ∈ segs := by
  cases segs with
  | nil => exact h
  | cons x next =>
    rw [behindSequence] at h
    split at h
    · exact mem_cons_of_mem _ h
    · exact h

theorem reconcileLoop_nil {hops : Int} (h : hops ≤ 0) (segs : List Assegment) :
    reconcileLoop hops segs = [] := by
  cases segs with
  | nil => rfl
  | cons seg next => rw [reconcileLoop, if_neg (by omega)]

/-- The first `AS_SEQUENCE` holds all the hops that are asked for. -/
theorem reconcileLoop_first {as : List UInt32} (hks : ks ≠ [])
    (hlt : (ks ++ as).length < 65536) (next : List Assegment) :
    reconcileLoop (ks.length : Nat) (⟨.sequence, ks ++ as, hlt⟩ :: next)
      = [.ofAsns .sequence ks] := by
  have hps : 0 < ks.length := length_pos_iff.mpr hks
  rw [reconcileLoop, if_pos (by omega)]
  simp only [Int.toNat_natCast, take_left]
  rw [reconcileLoop_nil]
  simp only [Assegment.length, length_append]
  omega

/-- The number of hops in front of the AS4_PATH is the number of ASNs that
were put there. -/
theorem aspathCountHops_prepend (hsep : Separated segs)
    (hlt : (ks ++ leadingSequence (aspath16 segs)).length < 65536) :
    aspathCountHops (assegmentNormalise (.ofAsns .sequence ks :: aspath16 segs))
      = ks.length + aspathCountHops segs := by
  rw [assegmentNormalise_prepend (separated_aspath16 hsep) hlt,
    aspathCountHops_cons, aspathCountHops_map aspathCountHops_sorted,
    ← aspathCountHops_map aspathCountHops_as16 segs, ← aspath16,
    aspathCountHops_split (aspath16 segs)]
  simp only [aspathCountHops, map_cons, map_nil, sum_cons, sum_nil, Assegment.length, length_append]
  omega

theorem aspathReconcileAs4_hops {q p : List Assegment} {n : Nat}
    (hho : aspathCountHops q = n + aspathCountHops p) (hcfs : aspathCountConfeds q = 0) :
    aspathReconcileAs4 q p
      = if n = 0 then p else assegmentNormalise (reconcileLoop (n : Nat) q ++ p) := by
  have hdf : ((aspathCountHops q + aspathCountConfeds q : Nat) : Int)
      - (aspathCountHops p : Nat) = (n : Nat) := by
    rw [hho, hcfs]
    omega
  unfold aspathReconcileAs4
  dsimp only
  rw [hdf, if_neg (by omega : ¬ ((n : Nat) : Int) < 0)]
  simp only [Int.natCast_eq_zero]

theorem isConfed_as16 {p : List Assegment} (hcf : ∀ seg ∈ p, seg.type.isConfed = false) :
    ∀ seg ∈ aspath16 p, seg.type.isConfed = false := by
  intro seg hg
  obtain ⟨old, hold, rfl⟩ := mem_map.mp hg
  exact hcf old hold

theorem isConfed_map_sorted (hcf : ∀ seg ∈ segs, seg.type.isConfed = false) :
    ∀ seg ∈ segs.map assegmentSorted, seg.type.isConfed = false := by
  intro seg hg
  obtain ⟨old, hold, rfl⟩ := mem_map.mp hg
  rw [assegmentSorted_type]
  exact hcf old hold

/-- `aspath_reconcile_as4` gives the original path with the ASNs of the 16-bit
speakers in front. -/
theorem reconcile_as4_prepended {p : List Assegment} (h : NormalForm p)
    (hconfed : ∀ seg ∈ p, seg.type.isConfed = false) (ks : List UInt32)
    {q : List Assegment} (hq : prepended ks (aspath16 p) = some q) :
    prepended ks p = some (aspathReconcileAs4 q p) ∧ (ks = [] → aspathReconcileAs4 q p = p) := by
  have hconfed16 := isConfed_as16 hconfed
  by_cases hks : ks = []
  · subst hks
    rw [prepended, if_pos rfl, Option.some.injEq] at hq
    subst hq
    have hsep := separated_aspath16 h.separated
    have hp : assegmentNormalise p = p := assegmentNormalise_of_normal h
    have hsame : aspathReconcileAs4 (assegmentNormalise (aspath16 p)) p = p := by
      rw [assegmentNormalise_of_separated hsep]
      refine (aspathReconcileAs4_hops (n := 0) ?_ ?_).trans (if_pos rfl)
      · rw [aspathCountHops_map aspathCountHops_sorted, aspath16,
          aspathCountHops_map aspathCountHops_as16, Nat.zero_add]
      · exact aspathCountConfeds_zero (isConfed_map_sorted hconfed16)
    rw [prepended, if_pos rfl, hp, hsame]
    exact ⟨rfl, fun _ => rfl⟩
  · refine ⟨?_, fun hnil => absurd hnil hks⟩
    rw [prepended, if_neg hks] at hq
    split at hq
    next hlt =>
      cases hq
      have hhops := aspathCountHops_prepend h.separated hlt
      have hlt' : (ks ++ leadingSequence p).length < 65536 := by
        rw [length_append, leadingSequence_as16_length] at hlt
        rwa [length_append]
      have hshape := assegmentNormalise_prepend (separated_aspath16 h.separated) hlt
      have hconfeds : aspathCountConfeds
          (assegmentNormalise (.ofAsns .sequence ks :: aspath16 p)) = 0 := by
        rw [hshape]
        refine aspathCountConfeds_zero fun seg hseg => ?_
        rcases mem_cons.mp hseg with rfl | htail
        · rfl
        · exact isConfed_map_sorted (fun x hx => hconfed16 x (mem_behindSequence hx)) seg htail
      have hzero : ks.length ≠ 0 := fun hlen => hks (length_eq_zero_iff.mp hlen)
      rw [prepended, if_neg hks, if_pos hlt', aspathReconcileAs4_hops hhops hconfeds,
        if_neg hzero, hshape, reconcileLoop_first hks, singleton_append]
    · exact absurd hq (by simp)

/-- AS 70000 behind the 16-bit speakers 1 and 2. -/
theorem reconcile_as4_prepended_two :
    prepended [1, 2] [⟨.sequence, [70000], by decide⟩]
      = some (aspathReconcileAs4 [⟨.sequence, [1, 2, 23456], by decide⟩]
        [⟨.sequence, [70000], by decide⟩]) :=
  (reconcile_as4_prepended (normalForm_singleton (by decide) (by decide))
    (by decide) [1, 2] (by decide +kernel)).1

end SdnQuagga
