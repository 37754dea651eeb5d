import SdnQuagga.BgpAspathWire

/-!
# What normalisation does to a path

The general facts about `assegment_normalise` behind the constructors of AS
paths: sorting a set keeps its ASNs, a separated path is sorted segment by
segment, and a path whose ASNs fit one segment comes out in normal form.
-/

namespace SdnQuagga

open List

def asns (segs : List Assegment) : List UInt32 := segs.flatMap Assegment.as

@[simp] theorem asns_nil : asns [] = [] := rfl

@[simp] theorem asns_cons (seg : Assegment) (segs : List Assegment) :
    asns (seg :: segs) = seg.as ++ asns segs := rfl

@[simp] theorem asns_append (xs ys : List Assegment) : asns (xs ++ ys) = asns xs ++ asns ys :=
  flatMap_append

/-! ## Sorting a set -/

variable {as : List UInt32} {n : UInt32} {seg : Assegment} {segs : List Assegment}

theorem mem_weedDupes (n : UInt32) : ∀ {a : UInt32}, n ∈ a :: weedDupes a as ↔ n ∈ a :: as := by
  induction as with
  | nil => simp [weedDupes]
  | cons b bs ih =>
    intro a
    by_cases hab : a = b
    · subst hab
      rw [weedDupes, if_pos rfl, ih]
      simp
    · rw [weedDupes, if_neg hab, mem_cons, ih, ← mem_cons]

theorem weedDupes_sublist : ∀ {a : UInt32}, (weedDupes a as).Sublist as := by
  induction as with
  | nil => exact Sublist.refl _
  | cons b bs ih =>
    intro a
    rw [weedDupes]
    split
    · exact ih.cons b
    · exact ih.cons_cons b

theorem weedDupes_pairwise : ∀ {a : UInt32},
    (a :: as).Pairwise (· ≤ ·) → (a :: weedDupes a as).Pairwise (· < ·) := by
  induction as with
  | nil => simp [weedDupes]
  | cons b bs ih =>
    intro a h
    obtain ⟨ha, hbs⟩ := pairwise_cons.mp h
    by_cases hab : a = b
    · subst hab
      rw [weedDupes, if_pos rfl]
      exact ih hbs
    · rw [weedDupes, if_neg hab]
      refine pairwise_cons.mpr ⟨fun c hc => ?_, ih hbs⟩
      have hlt : a < b := UInt32.lt_of_le_of_ne (ha b mem_cons_self) hab
      rcases mem_cons.mp ((mem_weedDupes c).mp hc) with rfl | hm
      · exact hlt
      · exact UInt32.lt_of_lt_of_le hlt ((pairwise_cons.mp hbs).1 c hm)

@[simp] theorem mem_sortSet : n ∈ sortSet as ↔ n ∈ as := by
  have hm : n ∈ as.insertionSort (· ≤ ·) ↔ n ∈ as := mem_insertionSort _
  rw [← hm, sortSet]
  cases as.insertionSort (· ≤ ·) with
  | nil => rfl
  | cons a as => exact mem_weedDupes n

variable (as)

theorem sortSet_pairwise : (sortSet as).Pairwise (· < ·) := by
  have hsrt := pairwise_insertionSort (· ≤ ·) as
  rw [sortSet]
  cases hs : as.insertionSort (· ≤ ·) with
  | nil => exact List.Pairwise.nil
  | cons a as => exact weedDupes_pairwise (hs ▸ hsrt)

theorem sortSet_length_le : (sortSet as).length ≤ as.length := by
  rw [← length_insertionSort (· ≤ ·) as, sortSet]
  cases as.insertionSort (· ≤ ·) with
  | nil => exact le_rfl
  | cons a as => exact Nat.succ_le_succ weedDupes_sublist.length_le

variable {as}

@[simp] theorem assegmentSorted_type (seg : Assegment) : (assegmentSorted seg).type = seg.type := by
  unfold assegmentSorted
  split <;> rfl

theorem assegmentSorted_as (h : seg.type.isSet) : (assegmentSorted seg).as = sortSet seg.as := by
  have hlt := (sortSet_length_le seg.as).trans_lt seg.length_lt
  rw [assegmentSorted, if_pos h, Assegment.ofAsns_eq hlt]

theorem assegmentSorted_not_set (h : ¬ seg.type.isSet) : assegmentSorted seg = seg := by
  rw [assegmentSorted, if_neg h]

@[simp] theorem mem_assegmentSorted : n ∈ (assegmentSorted seg).as ↔ n ∈ seg.as := by
  by_cases h : seg.type.isSet
  · rw [assegmentSorted_as h, mem_sortSet]
  · rw [assegmentSorted_not_set h]

theorem assegmentSorted_pos (h : 0 < seg.length) : 0 < (assegmentSorted seg).length := by
  obtain ⟨n, hn⟩ := exists_mem_of_length_pos h
  exact length_pos_of_mem (mem_assegmentSorted.mpr hn)

theorem assegmentSorted_ascending (seg : Assegment) (h : (assegmentSorted seg).type.isSet) :
    (assegmentSorted seg).as.Pairwise (· < ·) := by
  rw [assegmentSorted_type] at h
  rw [assegmentSorted_as h]
  exact sortSet_pairwise seg.as

/-! ## Separated paths -/

variable {next : List Assegment}

theorem assegmentNormalise_cons
    (h : ∀ y ∈ next.head?, ¬ (seg.type = .sequence ∧ y.type = .sequence)) :
    assegmentNormalise (seg :: next) = assegmentSorted seg :: assegmentNormalise next := by
  have hpack : next.takeWhile (assegmentTypesPackable (assegmentSorted seg)) = []
      ∧ next.dropWhile (assegmentTypesPackable (assegmentSorted seg)) = next := by
    cases next with
    | nil => exact ⟨rfl, rfl⟩
    | cons y ys =>
      have hy : assegmentTypesPackable (assegmentSorted seg) y = false := by
        by_contra hne
        have hbo := assegmentTypesPackable_sequence (by simpa using hne)
        rw [assegmentSorted_type] at hbo
        exact h y rfl hbo
      simp [takeWhile, dropWhile, hy]
  rw [assegmentNormalise, hpack.1, hpack.2, foldl_nil]

/-- Nothing is merged in a separated path. -/
theorem assegmentNormalise_of_separated :
    Separated segs → assegmentNormalise segs = segs.map assegmentSorted := by
  induction segs with
  | nil =>
    intro h
    rw [assegmentNormalise]
    rfl
  | cons seg next ih =>
    intro h
    obtain ⟨hhe, htl⟩ := isChain_cons.mp h
    rw [assegmentNormalise_cons hhe, ih htl, map_cons]

theorem assegmentNormalise_of_normal (h : NormalForm segs) : assegmentNormalise segs = segs := by
  rw [assegmentNormalise_of_separated h.separated]
  refine (map_congr_left fun seg hg => ?_).trans (map_id segs)
  exact assegmentSorted_of_normal (h.ascending seg hg)

theorem separated_map_sorted (h : Separated segs) : Separated (segs.map assegmentSorted) := by
  refine (isChain_map assegmentSorted).mpr (h.imp fun x y hxy => ?_)
  rwa [assegmentSorted_type, assegmentSorted_type]

theorem normalForm_map_sorted (hp : ∀ seg ∈ segs, 0 < seg.length) (h : Separated segs) :
    NormalForm (segs.map assegmentSorted) where
  nonempty := by
    intro seg hg
    obtain ⟨old, hold, rfl⟩ := mem_map.mp hg
    exact assegmentSorted_pos (hp old hold)
  separated := separated_map_sorted h
  ascending := by
    intro seg hg
    obtain ⟨old, hold, rfl⟩ := mem_map.mp hg
    exact assegmentSorted_ascending old

theorem mem_asns_map_sorted : n ∈ asns (segs.map assegmentSorted) ↔ n ∈ asns segs := by
  simp [asns]

/-! ## Paths whose ASNs fit one segment -/

theorem assegmentSorted_length_le (seg : Assegment) :
    (assegmentSorted seg).length ≤ seg.length := by
  by_cases h : seg.type.isSet
  · rw [Assegment.length, assegmentSorted_as h]
    exact sortSet_length_le seg.as
  · rw [assegmentSorted_not_set h]

theorem asns_takeWhile_dropWhile (p : Assegment → Bool) (segs : List Assegment) :
    (asns (segs.takeWhile p)).length + (asns (segs.dropWhile p)).length = (asns segs).length := by
  rw [← length_append, ← asns_append, takeWhile_append_dropWhile]

theorem takeWhile_packable (h : seg.type ≠ .sequence) :
    next.takeWhile (assegmentTypesPackable (assegmentSorted seg)) = [] := by
  cases next with
  | nil => rfl
  | cons y ys =>
    refine takeWhile_cons_of_neg fun hpack => h ?_
    rw [← assegmentSorted_type seg, (assegmentTypesPackable_sequence hpack).1]

/-- The segment that the first one becomes, with the sequences that follow. -/
theorem assegmentNormalise_joined (hlen : (asns (seg :: next)).length < 65536) :
    ∃ pin : Assegment, assegmentNormalise (seg :: next) = pin :: assegmentNormalise
          (next.dropWhile (assegmentTypesPackable (assegmentSorted seg)))
      ∧ pin.type = seg.type ∧ pin.as = (assegmentSorted seg).as
        ++ asns (next.takeWhile (assegmentTypesPackable (assegmentSorted seg))) := by
  set merged := next.takeWhile (assegmentTypesPackable (assegmentSorted seg)) with hmerged
  have hmerged_le := asns_takeWhile_dropWhile (assegmentTypesPackable (assegmentSorted seg)) next
  rw [← hmerged] at hmerged_le
  have hft : ((assegmentSorted seg).as ++ asns merged).length < 65536 := by
    have := assegmentSorted_length_le seg
    rw [asns_cons, length_append] at hlen
    rw [Assegment.length, Assegment.length] at this
    rw [length_append]
    omega
  have hjn := foldl_assegmentAppendAsns (assegmentSorted seg) merged hft
  rw [Assegment.ofAsns_eq (by exact hft)] at hjn
  exact ⟨⟨(assegmentSorted seg).type, (assegmentSorted seg).as ++ asns merged, hft⟩,
    by rw [assegmentNormalise, hjn]; rfl, assegmentSorted_type seg, rfl⟩

theorem assegmentNormalise_head (hp : 0 < seg.length) (hlen : (asns (seg :: next)).length < 65536) :
    ∃ pin : Assegment, assegmentNormalise (seg :: next) = pin :: assegmentNormalise
          (next.dropWhile (assegmentTypesPackable (assegmentSorted seg)))
      ∧ pin.type = seg.type ∧ 0 < pin.length ∧ (pin.type.isSet → pin.as.Pairwise (· < ·)) := by
  obtain ⟨pin, heq, hty, has⟩ := assegmentNormalise_joined hlen
  refine ⟨pin, heq, hty, ?_, fun hset => ?_⟩
  · have := assegmentSorted_pos hp
    rw [Assegment.length] at this ⊢
    rw [has, length_append]
    omega
  · rw [hty] at hset
    rw [has, takeWhile_packable fun h => by simp [h, SegType.isSet] at hset, asns_nil, append_nil]
    exact assegmentSorted_ascending seg (by rwa [assegmentSorted_type])

theorem normalForm_normalise
    (hp : ∀ seg ∈ segs, 0 < seg.length) (hlen : (asns segs).length < 65536) :
    NormalForm (assegmentNormalise segs) ∧ ∀ x ∈ (assegmentNormalise segs).head?, ∀ y ∈ segs.head?,
        x.type = y.type := by
  induction hn : segs.length using Nat.strong_induction_on generalizing segs with
  | _ n ih =>
    subst hn
    cases segs with
    | nil =>
      rw [assegmentNormalise]
      exact ⟨⟨by simp, isChain_nil, by simp⟩, by simp⟩
    | cons seg next =>
      obtain ⟨pin, heq, hty, hpin, hasc⟩ :=
        assegmentNormalise_head (hp seg mem_cons_self) hlen
      set rest := next.dropWhile (assegmentTypesPackable (assegmentSorted seg)) with hrs
      have hsuffix : rest <:+ next := dropWhile_suffix _
      have hrest_le : (asns rest).length < 65536 := by
        have hle := asns_takeWhile_dropWhile (assegmentTypesPackable (assegmentSorted seg)) next
        rw [← hrs] at hle
        rw [asns_cons, length_append] at hlen
        omega
      obtain ⟨hnm, hheads⟩ := ih rest.length
        (by have := hsuffix.length_le; rw [length_cons]; omega)
        (fun x hx => hp x (mem_cons_of_mem _ (hsuffix.subset hx)))
        hrest_le rfl
      rw [heq]
      refine ⟨⟨?_, ?_, ?_⟩, by rintro _ ⟨⟩ _ ⟨⟩; exact hty⟩
      · exact forall_mem_cons.mpr ⟨hpin, hnm.nonempty⟩
      · refine isChain_cons.mpr ⟨?_, hnm.separated⟩
        rintro x hx ⟨hsq, hxseq⟩
        -- The segment behind the merged ones is not a sequence.
        cases hcn : rest with
        | nil =>
          rw [hcn, assegmentNormalise] at hx
          simp at hx
        | cons y ys =>
          have hy : y.type = .sequence := (hheads x hx y (by simp [hcn])).symm.trans hxseq
          have hnt := head?_dropWhile_not (assegmentTypesPackable (assegmentSorted seg)) next
          rw [← hrs, hcn] at hnt
          rw [hty] at hsq
          simp [assegmentTypesPackable, hsq, hy] at hnt
      · exact forall_mem_cons.mpr ⟨hasc, hnm.ascending⟩

end SdnQuagga
