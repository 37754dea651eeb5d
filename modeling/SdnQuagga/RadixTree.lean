import Mathlib.Data.List.Infix
import Mathlib.Logic.Relation
import Mathlib.Tactic.Simps.Basic

/-!
# Radix trees in memory

A binary radix tree as cells with addresses. A slot is a place that holds a
pointer to a cell: the top, or one of the two links of a cell. `Shape` says that
each cell is held by one slot, that its parent pointer leads back to the cell of
that slot, and that keys grow along the links by the bit of the link.

Every cell lies below the top, so a walk that follows the bits of a query meets
each cell whose key is a prefix of the query. Three changes keep the shape: a
leaf in an empty slot, a cell in the middle of an edge, and taking out a cell
with at most one child.
-/

namespace RadixTree

open List Function Option

/-- The top, or the link of a cell for a bit. -/
abbrev Slot := Option (Nat × Bool)

/-- The cell a slot is a part of. -/
def Slot.cell (slot : Slot) : Option Nat := slot.map Prod.fst

@[ext]
structure Tree where
  key : Nat → Option (List Bool)
  parent : Nat → Option Nat
  read : Slot → Option Nat

/-- A key fits into a slot. -/
def Tree.Fits (t : Tree) (slot : Slot) (k : List Bool) : Prop :=
  ∀ m b, slot = some (m, b) → ∃ l, t.key m = some l ∧ l ++ [b] <+: k

structure Shape (t : Tree) : Prop where
  held : ∀ {slot x}, t.read slot = some x →
    t.parent x = slot.cell ∧ ∃ k, t.key x = some k ∧ t.Fits slot k
  holder : ∀ {x k}, t.key x = some k → ∃ slot, slot.cell = t.parent x ∧ t.read slot = some x

variable {t : Tree}

/-! ## Keys -/

variable {k l : List Bool}

theorem bit_eq {b b' : Bool} (h : k ++ [b] <+: l) (h' : k ++ [b'] <+: l) : b = b' := by
  obtain ⟨s, rfl⟩ := h
  rw [append_assoc, prefix_append_right_inj] at h'
  exact (cons_prefix_cons.mp h').1.symm

theorem length_lt {b : Bool} (h : k ++ [b] <+: l) : k.length < l.length := by
  have hle := h.length_le
  rwa [length_append] at hle

/-! ## Below a cell -/

/-- The cell `x` hangs under `a`. -/
def Under (t : Tree) (a x : Nat) : Prop := ∃ b, t.read (some (a, b)) = some x

/-- The cell `x` is in the subtree of `a`. -/
def Below (t : Tree) : Nat → Nat → Prop := Relation.ReflTransGen (Under t)

namespace Shape

variable {a x : Nat} {l k : List Bool}

section

variable (h : Shape t)
include h

theorem link {b : Bool} (hx : t.read (some (a, b)) = some x) :
    ∃ l k, t.key a = some l ∧ t.key x = some k ∧ l ++ [b] <+: k := by
  obtain ⟨-, k, hk, hft⟩ := h.held hx
  obtain ⟨l, hl, hlg⟩ := hft a b rfl
  exact ⟨l, k, hl, hk, hlg⟩

theorem below_key (hax : Below t a x)
    (hl : t.key a = some l) (hk : t.key x = some k) : l <+: k := by
  induction hax generalizing k with
  | refl =>
    cases hl.symm.trans hk
    exact prefix_rfl
  | tail _ hla ih =>
    obtain ⟨b, hrd⟩ := hla
    obtain ⟨l', k', hl', hk', hlg⟩ := h.link hrd
    cases hk.symm.trans hk'
    exact (ih hl').trans ((prefix_append _ _).trans hlg)

/-- Every cell is in the tree under the top. -/
theorem below_top (hk : t.key x = some k) : ∃ a, t.read none = some a ∧ Below t a x := by
  induction hn : k.length using Nat.strongRecOn generalizing x k with
  | ind n ih =>
    obtain ⟨slot, -, hrd⟩ := h.holder hk
    cases slot with
    | none => exact ⟨x, hrd, .refl⟩
    | some link =>
      obtain ⟨l, k', hl, hk', hlg⟩ := h.link hrd
      cases hk.symm.trans hk'
      obtain ⟨a, htop, hbel⟩ := ih _ (hn ▸ length_lt hlg) hl rfl
      exact ⟨a, htop, hbel.tail ⟨link.2, hrd⟩⟩

/-- From a cell towards one in its subtree, by a bit of that one's key. -/
theorem down (hax : Below t a x) (hne : a ≠ x) (hl : t.key a = some l) (hk : t.key x = some k) :
    ∃ b y, t.read (some (a, b)) = some y ∧ Below t y x ∧ l ++ [b] <+: k := by
  rcases hax.cases_head with heq | ⟨y, ⟨b, hrd⟩, hyx⟩
  · exact absurd heq hne
  · obtain ⟨l', j, hl', hj, hlg⟩ := h.link hrd
    cases hl.symm.trans hl'
    exact ⟨b, y, hrd, hyx, hlg.trans (h.below_key hyx hj hk)⟩

/-- A walk along the bits of a query stays above each cell whose key is a prefix
of the query. -/
theorem walk {q : List Bool} {b : Bool}
    (hax : Below t a x) (hne : a ≠ x) (hl : t.key a = some l) (hk : t.key x = some k)
    (hkq : k <+: q) (hbit : l ++ [b] <+: q) : ∃ y, t.read (some (a, b)) = some y ∧ Below t y x := by
  obtain ⟨b', y, hrd, hbel, hlg⟩ := h.down hax hne hl hk
  obtain rfl := bit_eq hbit (hlg.trans hkq)
  exact ⟨y, hrd, hbel⟩

/-- A cell is held by one slot. -/
theorem slot_eq {s s' : Slot} (hs : t.read s = some x) (hs' : t.read s' = some x) : s = s' := by
  obtain ⟨hpr, k, hk, hft⟩ := h.held hs
  obtain ⟨hpr', k', hk', hft'⟩ := h.held hs'
  cases hk.symm.trans hk'
  have hce : s.cell = s'.cell := hpr.symm.trans hpr'
  rcases s with _ | ⟨m, b⟩
  · rcases s' with _ | ⟨m', b'⟩
    · rfl
    · cases hce
  · rcases s' with _ | ⟨m', b'⟩
    · cases hce
    · obtain rfl : m = m' := some.inj hce
      obtain ⟨l, hl, hlg⟩ := hft m b rfl
      obtain ⟨l', hl', hlg'⟩ := hft' m b' rfl
      cases hl.symm.trans hl'
      rw [bit_eq hlg hlg']

/-- A cell has no other cell with its key below it. -/
theorem eq_of_below (hax : Below t a x)
    (ha : t.key a = some k) (hx : t.key x = some k) : a = x := by
  by_contra hne
  obtain ⟨b, -, -, -, hlg⟩ := h.down hax hne ha hx
  exact lt_irrefl _ (length_lt hlg)

/-- Cells are told apart by their keys. -/
theorem eq_of_key {y : Nat} (hx : t.key x = some k) (hy : t.key y = some k) : x = y := by
  obtain ⟨a, htop, hax⟩ := h.below_top hx
  obtain ⟨a', htop', hay⟩ := h.below_top hy
  cases htop.symm.trans htop'
  clear htop htop'
  -- both walks take the same links until one of them arrives
  induction hax using Relation.ReflTransGen.head_induction_on with
  | refl => exact h.eq_of_below hay hx hy
  | @head a m hst hrs ih =>
    obtain ⟨b, hrd⟩ := hst
    obtain ⟨l, j, hl, hj, hlg⟩ := h.link hrd
    by_cases hne : a = y
    · obtain rfl := hne
      exact (h.eq_of_below (hrs.head ⟨b, hrd⟩) hy hx).symm
    · obtain ⟨z, hrd', hzy⟩ := h.walk hay hne hl hy prefix_rfl (hlg.trans (h.below_key hrs hj hx))
      cases hrd.symm.trans hrd'
      exact ih hzy

end

end Shape

/-! ## Changes that keep the shape -/

section

open Function (update)

/-- A new leaf in an empty slot. -/
@[simps]
def Tree.addLeaf (t : Tree) (slot : Slot) (a : Nat) (k : List Bool) : Tree where
  key := update t.key a (some k)
  parent := update t.parent a slot.cell
  read := update t.read slot (some a)

/-- A new cell between a slot and the cell `x` it points to. -/
@[simps]
def Tree.splice (t : Tree) (slot : Slot) (a : Nat) (k : List Bool) (x : Nat) (b : Bool) : Tree where
  key := update t.key a (some k)
  parent := update (update t.parent a slot.cell) x (some a)
  read := update (update t.read slot (some a)) (some (a, b)) (some x)

/-- A cell taken out, its child in its place. -/
@[simps]
def Tree.unlink (t : Tree) (slot : Slot) (a : Nat) (child : Option Nat) : Tree where
  key := update t.key a none
  parent := update (fun y => if some y = child then slot.cell else t.parent y) a none
  read := fun s => if s.cell = some a then none else update t.read slot child s

variable {slot : Slot} {a x : Nat} {k : List Bool} {b : Bool}

theorem Shape.read_fresh (h : Shape t) (ha : t.key a = none) {s : Slot}
    (hs : s.cell = some a) : t.read s = none := by
  obtain ⟨⟨m, b⟩, rfl, rfl⟩ := map_eq_some_iff.mp hs
  cases hrd : t.read (some (m, b)) with
  | none => rfl
  | some x =>
    obtain ⟨l, -, hl, -, -⟩ := h.link hrd
    cases hl.symm.trans ha

/-- Keys that are kept leave a key where it fits. -/
theorem Tree.Fits.mono {t t' : Tree} (h : t.Fits slot k)
    (hky : ∀ m l, slot.cell = some m → t.key m = some l → t'.key m = some l) : t'.Fits slot k := by
  intro m b hsl
  obtain ⟨l, hl, hlg⟩ := h m b hsl
  exact ⟨l, hky m l (by rw [hsl]; rfl) hl, hlg⟩

theorem ne_of_fresh {key : Nat → Option (List Bool)} (ha : key a = none) {m : Nat}
    {l : List Bool} (hm : key m = some l) : m ≠ a := by
  rintro rfl
  cases hm.symm.trans ha

/-- A fresh key does not hurt either. -/
theorem Tree.Fits.insert {t t' : Tree} {s : Slot} {j : List Bool} (h : t.Fits s j)
    (ha : t.key a = none) (hky : t'.key = update t.key a (some k)) : t'.Fits s j :=
  h.mono fun m l _ hl => by rw [hky, update_of_ne (ne_of_fresh ha hl), hl]

theorem Shape.addLeaf (h : Shape t) (ha : t.key a = none) (hsl : t.read slot = none)
    (hft : t.Fits slot k) : Shape (t.addLeaf slot a k) := by
  constructor
  · intro s x hrd
    rw [Tree.addLeaf_read] at hrd
    by_cases hs : s = slot
    · rw [hs, update_self, some_inj] at hrd
      subst hrd hs
      exact ⟨update_self _ _ _, k, update_self _ _ _, hft.insert ha rfl⟩
    · rw [update_of_ne hs] at hrd
      obtain ⟨hpr, j, hj, hf⟩ := h.held hrd
      have hne := ne_of_fresh ha hj
      exact ⟨(update_of_ne hne _ _).trans hpr, j, (update_of_ne hne _ _).trans hj, hf.insert ha rfl⟩
  · intro x j hj
    rw [Tree.addLeaf_key] at hj
    simp only [Tree.addLeaf_parent, Tree.addLeaf_read]
    by_cases hne : x = a
    · subst hne
      exact ⟨slot, by rw [update_self], update_self _ _ _⟩
    · rw [update_of_ne hne] at hj
      obtain ⟨s, hce, hrd⟩ := h.holder hj
      have hs : s ≠ slot := by
        rintro rfl
        cases hrd.symm.trans hsl
      exact ⟨s, hce.trans (update_of_ne hne _ _).symm, (update_of_ne hs _ _).trans hrd⟩

theorem Shape.splice (h : Shape t) (ha : t.key a = none) (hsl : t.read slot = some x)
    (hft : t.Fits slot k) {l : List Bool} (hx : t.key x = some l)
    (hlg : k ++ [b] <+: l) : Shape (t.splice slot a k x b) := by
  have hxa := ne_of_fresh ha hx
  have hli : some (a, b) ≠ slot := by
    rintro rfl
    cases hsl.symm.trans (h.read_fresh ha rfl)
  constructor
  · intro s y hrd
    rw [Tree.splice_read] at hrd
    rw [Tree.splice_parent, Tree.splice_key]
    by_cases hs : s = some (a, b)
    · rw [hs, update_self, some_inj] at hrd
      subst hrd hs
      refine ⟨update_self _ _ _, l, ?_, ?_⟩
      · rw [update_of_ne hxa, hx]
      · rintro m c ⟨⟩
        exact ⟨k, update_self _ _ _, hlg⟩
    · rw [update_of_ne hs] at hrd
      by_cases hs' : s = slot
      · rw [hs', update_self, some_inj] at hrd
        subst hrd hs'
        refine ⟨?_, k, update_self _ _ _, hft.insert ha rfl⟩
        rw [update_of_ne hxa.symm, update_self]
      · rw [update_of_ne hs'] at hrd
        obtain ⟨hpr, j, hj, hf⟩ := h.held hrd
        have hne := ne_of_fresh ha hj
        refine ⟨?_, j, (update_of_ne hne _ _).trans hj, hf.insert ha rfl⟩
        have hy : y ≠ x := by
          rintro rfl
          exact hs' (h.slot_eq hrd hsl)
        rw [update_of_ne hy, update_of_ne hne, hpr]
  · intro y j hj
    rw [Tree.splice_key] at hj
    simp only [Tree.splice_parent, Tree.splice_read]
    by_cases hy : y = x
    · subst hy
      exact ⟨some (a, b), by rw [update_self]; rfl, update_self _ _ _⟩
    · rw [update_of_ne hy]
      by_cases hne : y = a
      · subst hne
        refine ⟨slot, by rw [update_self], ?_⟩
        rw [update_of_ne hli.symm, update_self]
      · rw [update_of_ne hne] at hj
        obtain ⟨s, hce, hrd⟩ := h.holder hj
        have hs : s ≠ slot := by
          rintro rfl
          exact hy (some.inj (hrd.symm.trans hsl))
        have hs' : s ≠ some (a, b) := by
          rintro rfl
          cases hrd.symm.trans (h.read_fresh ha rfl)
        exact ⟨s, hce.trans (update_of_ne hne _ _).symm,
          (update_of_ne hs' _ _).trans ((update_of_ne hs _ _).trans hrd)⟩

theorem Shape.unlink (h : Shape t) (hsl : t.read slot = some a) {child : Option Nat}
    (honly : ∀ b x, t.read (some (a, b)) = some x → child = some x)
    (hchd : ∀ x, child = some x → ∃ b, t.read (some (a, b)) = some x) :
    Shape (t.unlink slot a child) := by
  obtain ⟨hpr, k, hk, hft⟩ := h.held hsl
  have hke : ∀ {s j}, s.cell ≠ some a → t.Fits s j →
      (t.unlink slot a child).Fits s j :=
    fun hs hf => hf.mono fun m l hm hl => by
      have hne : m ≠ a := fun heq => hs (hm.trans (congrArg some heq))
      rw [Tree.unlink_key, update_of_ne hne, hl]
  have hsf : slot.cell ≠ some a := by
    intro hce
    obtain ⟨⟨m, b⟩, rfl, rfl⟩ := map_eq_some_iff.mp hce
    obtain ⟨l, hl, hlg⟩ := hft m b rfl
    cases hl.symm.trans hk
    exact lt_irrefl _ (length_lt hlg)
  have hlonger : ∀ {b x}, t.read (some (a, b)) = some x →
      x ≠ a ∧ ∃ l, t.key x = some l ∧ t.Fits slot l := by
    intro b x hrd
    obtain ⟨k', l, hk', hl, hlg⟩ := h.link hrd
    cases hk.symm.trans hk'
    refine ⟨?_, l, hl, ?_⟩
    · rintro rfl
      cases hk.symm.trans hl
      exact lt_irrefl _ (length_lt hlg)
    · intro m b' hs
      obtain ⟨l', hl', hlg'⟩ := hft m b' hs
      exact ⟨l', hl', hlg'.trans ((prefix_append _ _).trans hlg)⟩
  constructor
  · intro s y hrd
    rw [Tree.unlink_read] at hrd
    rw [Tree.unlink_parent, Tree.unlink_key]
    split at hrd
    · cases hrd
    next hs =>
      by_cases hs' : s = slot
      · rw [hs', update_self] at hrd
        subst hs'
        obtain ⟨b, hb⟩ := hchd y hrd
        obtain ⟨hne, l, hl, hf⟩ := hlonger hb
        rw [update_of_ne hne, update_of_ne hne, if_pos hrd.symm]
        exact ⟨rfl, l, hl, hke hs hf⟩
      · rw [update_of_ne hs'] at hrd
        obtain ⟨hpr, j, hj, hf⟩ := h.held hrd
        have hne : y ≠ a := by
          rintro rfl
          exact hs' (h.slot_eq hrd hsl)
        have hy : ¬ some y = child := by
          intro heq
          obtain ⟨b, hb⟩ := hchd y heq.symm
          exact hs (h.slot_eq hrd hb ▸ rfl)
        rw [update_of_ne hne, update_of_ne hne, if_neg hy]
        exact ⟨hpr, j, hj, hke hs hf⟩
  · intro y j hj
    rw [Tree.unlink_key] at hj
    simp only [Tree.unlink_parent, Tree.unlink_read]
    have hne : y ≠ a := by
      rintro rfl
      rw [update_self] at hj
      cases hj
    rw [update_of_ne hne] at hj ⊢
    obtain ⟨s, hce, hrd⟩ := h.holder hj
    split
    next hy => exact ⟨slot, rfl, by rw [if_neg hsf, update_self, ← hy]⟩
    next hy =>
      have hs : s.cell ≠ some a := by
        intro hs
        obtain ⟨⟨m, b⟩, rfl, rfl⟩ := map_eq_some_iff.mp hs
        exact hy (honly b y hrd).symm
      have hs' : s ≠ slot := by
        rintro rfl
        exact hne (some.inj (hrd.symm.trans hsl))
      exact ⟨s, hce, by rw [if_neg hs, update_of_ne hs', hrd]⟩

end

end RadixTree
