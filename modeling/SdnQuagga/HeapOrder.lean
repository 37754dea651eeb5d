import Mathlib.Tactic.Ring

/-!
# Binary heaps in arrays

The order of a binary heap that is stored in the first `n` places of an
array, and what an exchange of two neighbours does to it. While an entry
is on its way up or down, the order holds except around the place it is
at; `UpOrdered` and `DownOrdered` say what is left. An array is a
function of the index, of which only the first `n` values count.
-/

namespace SdnQuagga

/-! ## Places -/

def heapParent (i : Nat) : Nat := (i - 1) / 2

theorem heapParent_lt {i : Nat} (h : 0 < i) : heapParent i < i := by
  unfold heapParent
  omega

theorem heapParent_eq {i p : Nat} (h : 0 < i) (hp : heapParent i = p) :
    i = 2 * p + 1 ∨ i = 2 * p + 2 := by
  unfold heapParent at hp
  omega

theorem heapParent_left (p : Nat) : heapParent (2 * p + 1) = p := by
  unfold heapParent
  omega

theorem heapParent_right (p : Nat) : heapParent (2 * p + 2) = p := by
  unfold heapParent
  omega

variable {κ : Type} [LinearOrder κ] {a : Nat → κ} {n h : Nat}

/-- No entry is above a smaller one. -/
def HeapOrdered (a : Nat → κ) (n : Nat) : Prop :=
  ∀ i, 0 < i → i < n → a (heapParent i) ≤ a i

/-- The first entry is the least. -/
theorem HeapOrdered.first_le (ho : HeapOrdered a n) {i : Nat} (hi : i < n) : a 0 ≤ a i := by
  induction i using Nat.strongRecOn with
  | ind i ih =>
    rcases Nat.eq_zero_or_pos i with rfl | hps
    · exact le_rfl
    · have hlt := heapParent_lt hps
      exact (ih _ hlt (hlt.trans hi)).trans (ho i hps hi)

/-! ## An entry on its way up -/

/-- In order, except that the entry at `h` may belong further up. -/
structure UpOrdered (a : Nat → κ) (n h : Nat) : Prop where
  others : ∀ i, 0 < i → i < n → i ≠ h → a (heapParent i) ≤ a i
  below : ∀ i, 0 < i → i < n → heapParent i = h → 0 < h → a (heapParent h) ≤ a i

theorem UpOrdered.finish (hu : UpOrdered a n h)
    (htop : 0 < h → a (heapParent h) ≤ a h) : HeapOrdered a n := by
  intro i hps hi
  by_cases hih : i = h
  · subst hih
    exact htop hps
  · exact hu.others i hps hi hih

/-- One entry of a heap has become smaller. -/
theorem HeapOrdered.upOrdered {b : Nat → κ} (ho : HeapOrdered a n)
    (hn : h < n) (hoth : ∀ i < n, i ≠ h → b i = a i) (hle : b h ≤ a h) : UpOrdered b n h := by
  refine ⟨fun i hps hi hih => ?_, fun i hps hi hpr hhpos => ?_⟩
  · rw [hoth i hi hih]
    have hlt := heapParent_lt hps
    by_cases hpr : heapParent i = h
    · rw [hpr]
      exact hle.trans (hpr ▸ ho i hps hi)
    · rw [hoth _ (hlt.trans hi) hpr]
      exact ho i hps hi
  · have hlt := heapParent_lt hhpos
    have hih : i ≠ h := by
      have := heapParent_lt hps
      omega
    rw [hoth _ (hlt.trans hn) hlt.ne, hoth i hi hih]
    exact (ho h hhpos hn).trans (hpr ▸ ho i hps hi)

theorem UpOrdered.step (hu : UpOrdered a n h) (hps : 0 < h) (hn : h < n)
    (hlt : a h ≤ a (heapParent h)) :
    UpOrdered (a ∘ Equiv.swap h (heapParent h)) n (heapParent h) := by
  have hp := heapParent_lt hps
  have hat : (a ∘ Equiv.swap h (heapParent h)) h = a (heapParent h) := by simp
  have hatp : (a ∘ Equiv.swap h (heapParent h)) (heapParent h) = a h := by simp
  have hoff {i} (hih : i ≠ h) (hip : i ≠ heapParent h) :
      (a ∘ Equiv.swap h (heapParent h)) i = a i := by simp [Equiv.swap_apply_of_ne_of_ne hih hip]
  -- the other child of the parent is not smaller than the parent was
  have hsibling {i} (hi : i < n) (hipo : 0 < i) (hih : i ≠ h)
      (hpr : heapParent i = heapParent h) : a (heapParent h) ≤ a i :=
    hpr ▸ hu.others i hipo hi hih
  refine ⟨fun i hipo hi hip => ?_, fun i hipo hi hpr hppos => ?_⟩
  · by_cases hih : i = h
    · subst hih
      rwa [hat, hatp]
    · rw [hoff hih hip]
      by_cases hparh : heapParent i = h
      · rw [hparh, hat]
        exact hu.below i hipo hi hparh hps
      · by_cases hparp : heapParent i = heapParent h
        · rw [hparp, hatp]
          exact hlt.trans (hsibling hi hipo hih hparp)
        · rw [hoff hparh hparp]
          exact hu.others i hipo hi hih
  · have hpp := heapParent_lt hppos
    have hup := hu.others (heapParent h) hppos (hp.trans hn) hp.ne
    rw [hoff (by omega) hpp.ne]
    by_cases hih : i = h
    · subst hih
      rwa [hat]
    · have := heapParent_lt hipo
      rw [hoff hih (by omega)]
      exact hup.trans (hsibling hi hipo hih hpr)

/-! ## An entry on its way down -/

/-- In order, except that the entry at `h` may belong further down. -/
structure DownOrdered (a : Nat → κ) (n h : Nat) : Prop where
  others : ∀ i, 0 < i → i < n → heapParent i ≠ h → a (heapParent i) ≤ a i
  below : ∀ i, 0 < i → i < n → heapParent i = h → 0 < h → a (heapParent h) ≤ a i

theorem DownOrdered.finish (hd : DownOrdered a n h)
    (hbot : ∀ i, 0 < i → i < n → heapParent i = h → a h ≤ a i) : HeapOrdered a n := by
  intro i hps hi
  by_cases hpr : heapParent i = h
  · rw [hpr]
    exact hbot i hps hi hpr
  · exact hd.others i hps hi hpr

/-- `c` is the child with the smaller entry. -/
theorem DownOrdered.step {c : Nat} (hd : DownOrdered a n h) (hc : c < n)
    (hcpos : 0 < c) (hpr : heapParent c = h) (hlt : a c ≤ a h)
    (hlst : ∀ i, 0 < i → i < n → heapParent i = h → a c ≤ a i) :
    DownOrdered (a ∘ Equiv.swap h c) n c := by
  have hhc : h < c := hpr ▸ heapParent_lt hcpos
  have hath : (a ∘ Equiv.swap h c) h = a c := by simp
  have hatc : (a ∘ Equiv.swap h c) c = a h := by simp
  have hoff {i} (hih : i ≠ h) (hic : i ≠ c) :
      (a ∘ Equiv.swap h c) i = a i := by simp [Equiv.swap_apply_of_ne_of_ne hih hic]
  refine ⟨fun i hipo hi hic => ?_, fun i hipo hi hic _ => ?_⟩
  · have hlti := heapParent_lt hipo
    by_cases hih : i = h
    · subst hih
      rw [hath, hoff (by omega) hic]
      exact hd.below c hcpos hc hpr hipo
    · by_cases hparh : heapParent i = h
      · rw [hparh, hath]
        by_cases hieq : i = c
        · subst hieq
          rwa [hatc]
        · rw [hoff hih hieq]
          exact hlst i hipo hi hparh
      · have hieq : i ≠ c := by
          rintro rfl
          exact hparh hpr
        rw [hoff hparh hic, hoff hih hieq]
        exact hd.others i hipo hi hparh
  · have hlti := heapParent_lt hipo
    rw [hpr, hath, hoff (by omega) (by omega)]
    have := hd.others i hipo hi (by omega)
    rwa [hic] at this

end SdnQuagga
