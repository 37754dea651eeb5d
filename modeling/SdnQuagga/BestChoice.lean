import Mathlib.Data.Prod.Lex
import Mathlib.Data.Set.Function

/-!
# Choosing the best of a list

A comparison that works down a list of criteria is the lexicographic order of
their values, and a scan that keeps the better of two ends with the best
element, in whatever order it meets them.
-/

namespace SdnQuagga

open List

/-! ## Criteria, one after the other -/

section

variable {α β : Type} [LinearOrder α] [LinearOrder β]

/-- The smaller value wins; equal values leave it to the next criterion. -/
def preferLess (x y : α) (next : Bool) : Bool :=
  if x < y then true else if y < x then false else next

/-- The larger value wins. -/
def preferMore (x y : α) (next : Bool) : Bool := preferLess y x next

theorem preferLess_iff {x y : α} {u v : β} {next : Bool} (h : x = y → (next = true ↔ u < v)) :
    preferLess x y next = true ↔ toLex (x, u) < toLex (y, v) := by
  rw [preferLess, Prod.Lex.toLex_lt_toLex]
  rcases lt_trichotomy x y with hlt | heq | hgt
  · simp [hlt]
  · subst heq
    simp [h rfl]
  · simp [hgt, hgt.ne', hgt.not_gt]

theorem preferMore_iff {x y : α} {u v : β} {next : Bool} (h : x = y → (next = true ↔ u < v)) :
    preferMore x y next = true ↔ toLex (OrderDual.toDual x, u) < toLex (OrderDual.toDual y, v) := by
  rw [preferMore, preferLess, Prod.Lex.toLex_lt_toLex]
  rcases lt_trichotomy x y with hlt | heq | hgt
  · simp [hlt, hlt.ne, hlt.not_gt]
  · subst heq
    simp [h rfl]
  · simp [hgt]

end

/-! ## Scanning -/

variable {α : Type} (better : α → α → Bool)

/-- A comparison that orders the elements of a set by a key. -/
def OrdersBy {κ : Type} [LinearOrder κ] (key : α → κ) (s : Set α) : Prop :=
  Set.InjOn key s ∧ ∀ a ∈ s, ∀ b ∈ s, a ≠ b → (better a b = true ↔ key a < key b)

/-- The element that wins against every other. -/
def IsBest (s : Set α) (best : α) : Prop :=
  best ∈ s ∧ ∀ a ∈ s, a ≠ best → better best a = true

/-- One pass over a list that keeps the better of two. -/
def scanBest (best : α) : List α → α
  | [] => best
  | a :: as => scanBest (if better a best then a else best) as

/-- The scan of renamed elements, if the names do not matter. -/
theorem scanBest_map {better : α → α → Bool} {f : α → α}
    (hf : ∀ a b, better (f a) (f b) = better a b) (best : α) (as : List α) :
    scanBest better (f best) (as.map f) = f (scanBest better best as) := by
  induction as generalizing best with
  | nil => rfl
  | cons a as ih => rw [map_cons, scanBest, scanBest, hf, ← ih, ← apply_ite f]

variable {better} {κ : Type} [LinearOrder κ] {key : α → κ} {s t : Set α}

section

variable (h : OrdersBy better key s)
include h

theorem OrdersBy.subset (hts : t ⊆ s) : OrdersBy better key t :=
  ⟨h.1.mono hts, fun a ha b hb => h.2 a (hts ha) b (hts hb)⟩

/-- The best element is the one with the least key. -/
theorem OrdersBy.isBest_iff {best : α} :
    IsBest better s best ↔ best ∈ s ∧ ∀ a ∈ s, key best ≤ key a := by
  refine and_congr_right fun hm => forall₂_congr fun a ha => ?_
  by_cases heq : a = best
  · simp [heq]
  · rw [h.2 best hm a ha (Ne.symm heq)]
    have hne : key best ≠ key a := fun hk => heq (h.1 hm ha hk).symm
    exact ⟨fun hlt => (hlt heq).le, fun hle _ => lt_of_le_of_ne hle hne⟩

theorem OrdersBy.isBest_unique {a b : α}
    (ha : IsBest better s a) (hb : IsBest better s b) : a = b := by
  obtain ⟨hmema, hlea⟩ := h.isBest_iff.mp ha
  obtain ⟨hmemb, hleb⟩ := h.isBest_iff.mp hb
  exact h.1 hmema hmemb (le_antisymm (hlea b hmemb) (hleb a hmema))

end

/-- A scan ends with the best of what it has met. -/
theorem OrdersBy.scanBest_isBest {as : List α} : ∀ {best : α} {seen : Set α},
    OrdersBy better key (seen ∪ {a | a ∈ as}) → IsBest better seen best →
    (∀ a ∈ as, a ∉ seen) → as.Nodup →
    IsBest better (seen ∪ {a | a ∈ as}) (scanBest better best as) := by
  induction as with
  | nil =>
    intro best seen _ hbe _ _
    simpa [scanBest] using hbe
  | cons a as ih =>
    intro best seen h hbe hn hnd
    have hunion : seen ∪ {x | x ∈ a :: as} = (seen ∪ {a}) ∪ {x | x ∈ as} := by
      ext x
      simp only [Set.mem_union, Set.mem_ofPred_eq, mem_cons, Set.mem_singleton_iff, or_assoc]
    obtain ⟨ha, hnd⟩ := nodup_cons.mp hnd
    rw [hunion] at h ⊢
    have hse := h.subset (Set.subset_union_left : seen ∪ {a} ⊆ _)
    refine ih h ?_ ?_ hnd
    · have hne : a ≠ best := fun heq => hn a mem_cons_self (heq ▸ hbe.1)
      have hm : a ∈ seen ∪ {a} := Or.inr rfl
      have hbmem : best ∈ seen ∪ {a} := Or.inl hbe.1
      have hlst := ((hse.subset Set.subset_union_left).isBest_iff.mp hbe).2
      have hcmp := hse.2 a hm best hbmem hne
      rw [hse.isBest_iff]
      split
      next hwi =>
        refine ⟨hm, ?_⟩
        rintro x (hx | rfl)
        · exact ((hcmp.mp hwi).trans_le (hlst x hx)).le
        · exact le_rfl
      next hloses =>
        refine ⟨hbmem, ?_⟩
        rintro x (hx | rfl)
        · exact hlst x hx
        · exact not_lt.mp fun hlt => hloses (hcmp.mpr hlt)
    · rintro x hx (hold | rfl)
      · exact hn x (mem_cons_of_mem _ hx) hold
      · exact ha hx

end SdnQuagga
