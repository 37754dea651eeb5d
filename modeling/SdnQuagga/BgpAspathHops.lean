import SdnQuagga.BgpAspathNormalForm

/-!
# What reconciling keeps

`aspath_reconcile_as4` puts the leading hops of the AS_PATH in front of the AS4_PATH. The result
has all ASNs of the AS4_PATH and is not shorter than the AS_PATH, as long as the sequences that
are joined do not get longer than a segment can be.
-/

namespace SdnQuagga

open List

variable {seg : Assegment} {segs next xs ys : List Assegment}

/-- `aspath_count_hops` and `aspath_count_confeds` together. -/
def hopLength (segs : List Assegment) : Nat := aspathCountHops segs + aspathCountConfeds segs

@[simp] theorem hopLength_nil : hopLength [] = 0 := rfl

theorem hopLength_cons (seg : Assegment) (segs : List Assegment) :
    hopLength (seg :: segs) = (if seg.type.isSet then 1 else seg.length) + hopLength segs := by
  simp only [hopLength, aspathCountHops, aspathCountConfeds, map_cons, sum_cons]
  cases seg.type <;> simp [SegType.isSet] <;> omega

theorem hopLength_append : hopLength (xs ++ ys) = hopLength xs + hopLength ys := by
  simp only [hopLength, aspathCountHops, aspathCountConfeds, map_append, sum_append]
  omega

/-! ## Normalisation -/

theorem hopLength_sequences (h : ∀ seg ∈ segs, seg.type = .sequence) :
    hopLength segs = (asns segs).length := by
  induction segs with
  | nil => rfl
  | cons seg segs ih =>
    have hg := h seg mem_cons_self
    rw [hopLength_cons, ih fun x hx => h x (mem_cons_of_mem _ hx), hg, asns_cons, length_append]
    rfl

theorem hopLength_joined {pin : Assegment} (hty : pin.type = seg.type)
    (has : pin.as = (assegmentSorted seg).as
      ++ asns (next.takeWhile (assegmentTypesPackable (assegmentSorted seg)))) :
    hopLength [pin] = hopLength
      (seg :: next.takeWhile (assegmentTypesPackable (assegmentSorted seg))) := by
  have hpacked := all_eq_true.mp
    (all_takeWhile (l := next) (p := assegmentTypesPackable (assegmentSorted seg)))
  have hmerged := hopLength_sequences fun x hx => (assegmentTypesPackable_sequence (hpacked x hx)).2
  rw [hopLength_cons, hopLength_cons, hty]
  split
  next hs => rw [takeWhile_packable fun h => by simp [h, SegType.isSet] at hs]
  next hs =>
    rw [hmerged, Assegment.length, has, assegmentSorted_not_set hs, length_append]
    rfl

theorem normalise_keeps (hlen : (asns segs).length < 65536) :
    hopLength (assegmentNormalise segs) = hopLength segs
      ∧ ∀ n ∈ asns segs, n ∈ asns (assegmentNormalise segs) := by
  induction hn : segs.length using Nat.strong_induction_on generalizing segs with
  | _ n ih =>
    subst hn
    cases segs with
    | nil =>
      rw [assegmentNormalise]
      exact ⟨rfl, fun _ h => h⟩
    | cons seg next =>
      obtain ⟨pin, heq, hty, has⟩ := assegmentNormalise_joined hlen
      have hpin := hopLength_joined hty has
      have hnx := takeWhile_append_dropWhile
        (p := assegmentTypesPackable (assegmentSorted seg)) (l := next)
      set merged := next.takeWhile (assegmentTypesPackable (assegmentSorted seg))
      set rest := next.dropWhile (assegmentTypesPackable (assegmentSorted seg))
      rw [asns_cons, ← hnx, asns_append, length_append, length_append] at hlen
      obtain ⟨hho, hm⟩ := ih rest.length
        (by rw [length_cons, ← hnx, length_append]; omega)
        (show (asns rest).length < 65536 by omega) rfl
      rw [heq]
      constructor
      · rw [← singleton_append, hopLength_append, hpin, hho, ← hopLength_append, cons_append, hnx]
      · intro n hn
        rw [asns_cons, mem_append, ← hnx, asns_append, mem_append] at hn
        rw [asns_cons, has, mem_append, mem_append, mem_assegmentSorted, or_assoc]
        exact hn.imp_right (.imp_right (hm n))

/-! ## The leading hops -/

/-- The end of the leading hops is inside an `AS_CONFED_SEQUENCE`. -/
def SplitsConfed (hops : Int) (segs : List Assegment) : Prop :=
  ∃ before seg behind, segs = before ++ seg :: behind ∧ seg.type = .confedSequence
    ∧ hopLength before < hops ∧ hops < hopLength before + seg.length

theorem SplitsConfed.behind {hops : Int} {n : Nat} (h : SplitsConfed (hops - n) next)
    (hn : hopLength [seg] = n) : SplitsConfed hops (seg :: next) := by
  obtain ⟨before, confed, behind, rfl, hty, hlt, hgt⟩ := h
  refine ⟨seg :: before, confed, behind, rfl, hty, ?_, ?_⟩
  · rw [← singleton_append, hopLength_append, hn]
    omega
  · rw [← singleton_append, hopLength_append, hn]
    omega

/-- What the loop takes of a segment, and of those behind it. -/
theorem hopLength_taken {hops : Int} {taken : Assegment} {rest : List Assegment} {n : Nat}
    (hn : hopLength [seg] = n) (htak : hopLength [taken] = n) (ih : hops - n ≤ hopLength rest
      ∧ (¬ SplitsConfed (hops - n) next → (hopLength rest : Int) = hops - n)) :
    hops ≤ hopLength (taken :: rest)
      ∧ (¬ SplitsConfed hops (seg :: next) → (hopLength (taken :: rest) : Int) = hops) := by
  rw [← singleton_append, hopLength_append, htak]
  refine ⟨by omega, fun hsp => ?_⟩
  have := ih.2 fun h => hsp (h.behind hn)
  omega

variable (segs)

theorem reconcileLoop_keeps : ∀ {hops : Int}, 0 ≤ hops →
    hops ≤ hopLength segs → hops ≤ hopLength (reconcileLoop hops segs)
      ∧ (¬ SplitsConfed hops segs → (hopLength (reconcileLoop hops segs) : Int) = hops) := by
  induction segs with
  | nil =>
    intro hops hp hle
    rw [hopLength_nil] at hle
    rw [show hops = 0 by omega]
    exact ⟨le_rfl, fun _ => rfl⟩
  | cons seg next ih =>
    intro hops hp hle
    have hunit := hopLength_cons seg []
    rw [← singleton_append, hopLength_append] at hle
    by_cases hz : hops = 0
    · rw [reconcileLoop_nil hz.le, hz]
      exact ⟨le_rfl, fun _ => rfl⟩
    have hho : hops > 0 := by omega
    rw [reconcileLoop, if_pos hho]
    cases hty : seg.type with
    | set | confedSet =>
      rw [hty] at hunit
      have h1 : hopLength [seg] = 1 := hunit
      have hsf := Assegment.ofAsns_self seg
      rw [hty] at hsf
      simp only [hsf]
      exact hopLength_taken h1 h1 (ih (by omega) (by omega))
    | confedSequence =>
      rw [hty] at hunit
      have hlen : hopLength [seg] = seg.length := hunit
      have hsf := Assegment.ofAsns_self seg
      rw [hty] at hsf
      simp only [hsf]
      by_cases hsh : hops < seg.length
      · rw [max_eq_right hsh.le, Int.sub_self, reconcileLoop_nil le_rfl, hlen]
        refine ⟨hsh.le, fun h => absurd ⟨[], seg, next, rfl, hty, ?_, ?_⟩ h⟩
        · simpa using hho
        · simpa using hsh
      · rw [max_eq_left (by omega)]
        exact hopLength_taken hlen hlen (ih (by omega) (by omega))
    | sequence =>
      rw [hty] at hunit
      have hlen : hopLength [seg] = seg.length := hunit
      have htk : (seg.as.take hops.toNat).length < 65536 :=
        (length_take_le' _ _).trans_lt seg.length_lt
      have hln : seg.length = seg.as.length := rfl
      simp only [Assegment.ofAsns_eq htk]
      by_cases hsh : hops < seg.length
      · have htak : hopLength [⟨.sequence, seg.as.take hops.toNat, htk⟩] = hops.toNat := by
          rw [hopLength_cons]
          show (seg.as.take hops.toNat).length + 0 = hops.toNat
          rw [length_take]
          omega
        rw [reconcileLoop_nil (by omega), htak]
        omega
      · have hal : seg.as.take hops.toNat = seg.as := take_of_length_le (by omega)
        have hsf : (⟨.sequence, seg.as.take hops.toNat, htk⟩ : Assegment) = seg := by
          simp only [hal, ← hty]
        rw [hsf]
        exact hopLength_taken hlen hlen (ih (by omega) (by omega))

theorem asns_reconcileLoop_le :
    ∀ hops, (asns (reconcileLoop hops segs)).length ≤ (asns segs).length := by
  induction segs with
  | nil => exact fun _ => le_rfl
  | cons seg next ih =>
    intro hops
    rw [reconcileLoop]
    split
    · rw [asns_cons, length_append]
      cases seg.type with
      | set | confedSet | confedSequence =>
        rw [asns_cons, length_append]
        exact Nat.add_le_add (length_take_le' _ _) (ih _)
      | sequence =>
        rw [asns_cons, length_append]
        exact Nat.add_le_add ((length_take_le' _ _).trans (length_take_le' _ _)) (ih _)
    · exact Nat.zero_le _

variable {segs}

/-! ## The whole path -/

/-- No ASN of the AS4_PATH is lost, and the AS_PATH does not get shorter. -/
structure ReconcileKeeps (aspath as4path : List Assegment) : Prop where
  members : ∀ n ∈ asns as4path, n ∈ asns (aspathReconcileAs4 aspath as4path)
  hops : hopLength aspath ≤ hopLength (aspathReconcileAs4 aspath as4path)
  same : (∀ seg ∈ as4path, seg.type.isConfed = false) → aspathCountHops as4path ≤ hopLength aspath →
    ¬ SplitsConfed ((hopLength aspath : Int) - aspathCountHops as4path) aspath →
    hopLength (aspathReconcileAs4 aspath as4path) = hopLength aspath

theorem reconcileHops_bounds (aspath as4path : List Assegment) :
    0 ≤ reconcileHops aspath as4path ∧ reconcileHops aspath as4path ≤ hopLength aspath
      ∧ (hopLength aspath : Int) ≤ reconcileHops aspath as4path + aspathCountHops as4path
      ∧ (aspathCountHops as4path ≤ hopLength aspath →
        reconcileHops aspath as4path = hopLength aspath - aspathCountHops as4path) := by
  unfold reconcileHops hopLength
  dsimp only
  split
  · omega
  · omega

theorem reconcile_keeps (aspath as4path : List Assegment)
    (hlen : (asns aspath).length + (asns as4path).length < 65536) :
    ReconcileKeeps aspath as4path := by
  obtain ⟨hpos, hle, htotal, hdiff⟩ := reconcileHops_bounds aspath as4path
  have hresult : hopLength (aspathReconcileAs4 aspath as4path)
        = hopLength (reconcileLoop (reconcileHops aspath as4path) aspath) + hopLength as4path
      ∧ ∀ n ∈ asns as4path, n ∈ asns (aspathReconcileAs4 aspath as4path) := by
    rw [aspathReconcileAs4_eq]
    split
    next hzero =>
      rw [reconcileLoop_nil hzero.le]
      exact ⟨(Nat.zero_add _).symm, fun _ h => h⟩
    · have htaken := asns_reconcileLoop_le aspath (reconcileHops aspath as4path)
      have hjoined : (asns (reconcileLoop (reconcileHops aspath as4path) aspath
          ++ as4path)).length < 65536 := by
        rw [asns_append, length_append]
        omega
      obtain ⟨hhops, hmem⟩ := normalise_keeps hjoined
      refine ⟨hhops.trans hopLength_append, fun n hn => hmem n ?_⟩
      rw [asns_append]
      exact mem_append_right _ hn
  obtain ⟨htaken, hexact⟩ := reconcileLoop_keeps aspath hpos hle
  have has4 : hopLength as4path = aspathCountHops as4path + aspathCountConfeds as4path := rfl
  refine ⟨hresult.2, by omega, fun hconfed hnot hsplit => ?_⟩
  have hconfeds := aspathCountConfeds_zero hconfed
  have := hexact (hdiff hnot ▸ hsplit)
  have := hdiff hnot
  omega

/-- AS 70000 behind a 16-bit speaker. -/
theorem reconcile_keeps_one : ReconcileKeeps [⟨.sequence, [1, 23456], by decide⟩]
    [⟨.sequence, [70000], by decide⟩] :=
  reconcile_keeps _ _ (by decide)

theorem normalise_full {xs ys : List UInt32} {hx : xs.length < 65536} {hy : ys.length < 65536}
    (h : xs.length + ys.length = 65536) :
    asns (assegmentNormalise [⟨.sequence, xs, hx⟩, ⟨.sequence, ys, hy⟩]) = [] := by
  have hjoined : (Assegment.ofAsns .sequence (xs ++ ys)).as = [] := by
    show (xs ++ ys).take ((xs ++ ys).length % 65536) = []
    rw [length_append, h]
    rfl
  rw [assegmentNormalise, assegmentSorted_not_set (by decide : ¬ SegType.sequence.isSet),
    takeWhile_cons_of_pos rfl, dropWhile_cons_of_pos rfl, dropWhile_nil,
    assegmentNormalise, asns_cons]
  exact (append_nil _).trans hjoined

/-- The joined sequence has 65536 ASNs, and its length is stored as 0. -/
theorem reconcile_wraps : ∃ aspath as4path : List Assegment,
    ∃ n ∈ asns as4path, n ∉ asns (aspathReconcileAs4 aspath as4path) := by
  have hlen : (replicate 65535 (2 : UInt32)).length = 65535 := length_replicate
  have hmem : 2 ∈ replicate 65535 (2 : UInt32) := mem_replicate.mpr ⟨by decide, rfl⟩
  generalize replicate 65535 (2 : UInt32) = as at hlen hmem
  refine ⟨[⟨.sequence, [1], by decide⟩], [⟨.sequence, as, by omega⟩], 2, ?_, ?_⟩
  · simpa using hmem
  · have hhops : reconcileHops [⟨.sequence, [1], by decide⟩] [⟨.sequence, as, by omega⟩] = 1 := by
      simp [reconcileHops, aspathCountHops, aspathCountConfeds, Assegment.length, hlen]
    rw [aspathReconcileAs4_eq, hhops, if_neg (by decide)]
    intro h
    rw [show reconcileLoop 1 [⟨.sequence, [1], by decide⟩]
      = [(⟨.sequence, [1], by decide⟩ : Assegment)] from rfl, singleton_append,
      normalise_full (by rw [hlen]; rfl)] at h
    exact not_mem_nil h

end SdnQuagga
