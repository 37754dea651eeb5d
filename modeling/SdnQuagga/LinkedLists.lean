import Mathlib.Data.List.Nodup
import Mathlib.Tactic.Common

/-!
# Families of doubly linked lists

A family of head pointers, indexed by `κ`, over one pool of cells with a
`next` and a `prev` field. `push` and `remove` are the pointer
manipulations of C list macros: neither walks a list, and `remove` is
told the list.

`Lists l f` says that the pointers of `l` represent the family `f` of
sequences, with no cell on two lists or twice on one. Under it

- `Lists.push` puts a cell that is on no list in front of one of them;
- `Lists.remove` takes a cell off, provided the list named is the one the
  cell is on;
- `Lists.detach` empties a list at its head and leaves the cells linked
  by `next` (`Follows`), for a loop that empties a list as it walks it.
-/

namespace LinkedLists

open List Function

/-- The head of each list and the links of each cell. -/
@[ext]
structure Links (κ : Type) where
  head : κ → Option Nat
  next : Nat → Option Nat
  prev : Nat → Option Nat

variable (f : Nat → Option Nat)

/-- Assignment through a pointer that may be null. -/
def write (o v : Option Nat) : Nat → Option Nat :=
  match o with
  | none => f
  | some x => update f x v

@[simp] theorem write_none (v : Option Nat) : write f none v = f := rfl

theorem write_ne {f : Nat → Option Nat} {o v : Option Nat} {x : Nat}
    (h : o ≠ some x) : write f o v x = f x := by
  cases o with
  | none => rfl
  | some y => exact update_of_ne (fun e => h (by rw [e])) _ _

@[simp] theorem write_self (x : Nat) (v : Option Nat) : write f (some x) v x = v := update_self ..

variable {κ : Type} {l l' : Links κ} {f : κ → List Nat}

section
variable [DecidableEq κ]

/-- Put `a` in front of list `k`. -/
@[simps]
def push (l : Links κ) (k : κ) (a : Nat) : Links κ where
  head := update l.head k (some a)
  next := update l.next a (l.head k)
  prev := write (update l.prev a none) (l.head k) (some a)

/-- Take `a` off list `k`: the head of `k` moves only if `a` has no
predecessor. -/
@[simps]
def remove (l : Links κ) (k : κ) (a : Nat) : Links κ where
  head := if l.prev a = none then update l.head k (l.next a) else l.head
  next := write l.next (l.prev a) (l.next a)
  prev := write l.prev (l.next a) (l.prev a)

/-- Empty list `k` without touching its cells. -/
@[simps]
def detach (l : Links κ) (k : κ) : Links κ where
  head := update l.head k none
  next := l.next
  prev := l.prev

end

/-! ## Chains of cells -/

/-- The cells of the sequence, linked both ways: the first is pointed to by
the second argument and points back to the first. -/
def Chain (l : Links κ) : Option Nat → Option Nat → List Nat → Prop
  | _, o, [] => o = none
  | p, o, x :: xs => o = some x ∧ l.prev x = p ∧ Chain l (some x) (l.next x) xs

/-- The cells a walk along `next` meets. -/
def Follows (next : Nat → Option Nat) : Option Nat → List Nat → Prop
  | o, [] => o = none
  | o, x :: xs => o = some x ∧ Follows next (next x) xs

variable {p o : Option Nat} {xs : List Nat}

theorem Chain.congr (h : Chain l p o xs) (hpv : ∀ x ∈ xs, l'.prev x = l.prev x)
    (hnx : ∀ x ∈ xs, l'.next x = l.next x) : Chain l' p o xs := by
  induction xs generalizing p o with
  | nil => exact h
  | cons x xs ih =>
    obtain ⟨ho, hp, hrs⟩ := h
    refine ⟨ho, by rw [hpv x (mem_cons_self ..), hp], ?_⟩
    rw [hnx x (mem_cons_self ..)]
    exact ih hrs (fun y hy => hpv y (mem_cons_of_mem _ hy))
      (fun y hy => hnx y (mem_cons_of_mem _ hy))

theorem Chain.follows (h : Chain l p o xs) : Follows l.next o xs := by
  induction xs generalizing p o with
  | nil => exact h
  | cons x xs ih => exact ⟨h.1, ih h.2.2⟩

theorem Follows.congr {next next' : Nat → Option Nat} (h : Follows next o xs)
    (hnx : ∀ x ∈ xs, next' x = next x) : Follows next' o xs := by
  induction xs generalizing o with
  | nil => exact h
  | cons x xs ih =>
    refine ⟨h.1, ?_⟩
    rw [hnx x (mem_cons_self ..)]
    exact ih h.2 fun y hy => hnx y (mem_cons_of_mem _ hy)

theorem Chain.eq_head (h : Chain l p o xs) : o = xs.head? := by
  cases xs with
  | nil => exact h
  | cons x xs => exact h.1

/-- Both neighbours of a cell inside a chain. -/
theorem Chain.neighbours {ys : List Nat} {a : Nat} (h : Chain l p o (xs ++ a :: ys)) :
    l.prev a = (xs.getLast?).or p ∧ l.next a = ys.head? := by
  induction xs generalizing p o with
  | nil => exact ⟨h.2.1, h.2.2.eq_head⟩
  | cons x xs ih =>
    obtain ⟨hpv, hnx⟩ := ih h.2.2
    refine ⟨?_, hnx⟩
    rw [hpv, getLast?_cons]
    cases xs.getLast? <;> rfl

section
variable [DecidableEq κ]

/-- The chain behind a cell that is taken out, seen from its predecessor. -/
theorem Chain.bypass {k : κ} {p o : Option Nat} {a : Nat} {ys : List Nat}
    (h : Chain l p o (a :: ys)) (hp : ∀ x, p = some x → x ∉ a :: ys) (hnd : (a :: ys).Nodup) :
    Chain (remove l k a) p (l.next a) ys := by
  obtain ⟨-, hpv, hrs⟩ := h
  cases ys with
  | nil => exact hrs
  | cons y ys =>
    obtain ⟨hy, -, hys⟩ := hrs
    obtain ⟨hay, hnd⟩ := nodup_cons.mp hnd
    obtain ⟨hyys, -⟩ := nodup_cons.mp hnd
    have hnx : ∀ x ∈ y :: ys, (remove l k a).next x = l.next x := by
      intro x hx
      refine write_ne fun e => ?_
      exact hp x (by rw [← hpv, e]) (mem_cons_of_mem _ hx)
    refine ⟨hy, by rw [remove_prev, hy, write_self, hpv], ?_⟩
    rw [hnx y (mem_cons_self ..)]
    refine hys.congr (fun x hx => write_ne fun e => ?_) (fun x hx => hnx x (mem_cons_of_mem _ hx))
    rw [hy] at e
    exact hyys (Option.some.inj e ▸ hx)

theorem Chain.remove {k : κ} {p o : Option Nat} {xs ys : List Nat} {a : Nat}
    (h : Chain l p o (xs ++ a :: ys)) (hp : ∀ x, p = some x → x ∉ xs ++ a :: ys)
    (hnd : (xs ++ a :: ys).Nodup) :
    Chain (remove l k a) p (if xs = [] then l.next a else o) (xs ++ ys) := by
  induction xs generalizing p o with
  | nil => exact h.bypass hp hnd
  | cons x xs ih =>
    obtain ⟨ho, hpv, hrs⟩ := h
    obtain ⟨hx, hnd⟩ := nodup_cons.mp hnd
    obtain ⟨haprev, hanext⟩ := hrs.neighbours
    have hba : ∀ y, some x = some y → y ∉ xs ++ a :: ys := fun y e => Option.some.inj e ▸ hx
    have hnx : (LinkedLists.remove l k a).next x = if xs = [] then l.next a else l.next x := by
      cases xs with
      | nil =>
        rw [remove_next, haprev, if_pos rfl]
        exact write_self ..
      | cons z zs =>
        rw [if_neg (cons_ne_nil z zs), remove_next]
        refine write_ne fun e => hx ?_
        rw [haprev, Option.or_of_isSome (by simp)] at e
        exact mem_append_left _ (mem_of_getLast? e)
    refine ⟨by rw [if_neg (cons_ne_nil x xs), ho], ?_, ?_⟩
    · rw [remove_prev, write_ne, hpv]
      intro e
      rw [hanext] at e
      refine hx (mem_append_right _ (mem_cons_of_mem _ ?_))
      exact mem_of_head? e
    · rw [hnx]
      exact ih hrs hba hnd

end

/-! ## Families of lists -/

/-- The pointers of `l` represent the sequences `f`, each cell standing at
most once in the whole family. -/
structure Lists (l : Links κ) (f : κ → List Nat) : Prop where
  chain : ∀ k, Chain l none (l.head k) (f k)
  nodup : ∀ k, (f k).Nodup
  only : ∀ {k k' : κ} {a : Nat}, a ∈ f k → a ∈ f k' → k = k'

/-- Empty heads represent empty lists, whatever the cells hold. -/
theorem Lists.nil (h : ∀ k, l.head k = none) : Lists l fun _ => [] where
  chain := h
  nodup _ := nodup_nil
  only ha := absurd ha (not_mem_nil)

/-- Cells that are on no list may hold anything. -/
theorem Lists.congr (h : Lists l f) (hhe : ∀ k, l'.head k = l.head k)
    (hnx : ∀ k, ∀ x ∈ f k, l'.next x = l.next x)
    (hpv : ∀ k, ∀ x ∈ f k, l'.prev x = l.prev x) : Lists l' f where
  chain k := by
    rw [hhe k]
    exact (h.chain k).congr (hpv k) (hnx k)
  nodup := h.nodup
  only := h.only

theorem Lists.head_eq (h : Lists l f) (k : κ) : l.head k = (f k).head? := (h.chain k).eq_head

variable {k : κ} {x a : Nat}

/-- The cell at the head of a list stands on that list. -/
theorem Lists.mem_of_head (h : Lists l f) (hx : l.head k = some x) : x ∈ f k :=
  mem_of_head? ((h.head_eq k).symm.trans hx)

/-- The neighbours of a cell stand on its list. -/
theorem Lists.neighbours_mem (h : Lists l f) (ha : a ∈ f k)
    (hx : l.next a = some x ∨ l.prev a = some x) : x ∈ f k := by
  obtain ⟨xs, ys, hf⟩ := append_of_mem ha
  obtain ⟨hpv, hnx⟩ := (hf ▸ h.chain k : Chain l none _ (xs ++ a :: ys)).neighbours
  rw [hf]
  rcases hx with hx | hx
  · exact mem_append_right _ (mem_cons_of_mem _ (mem_of_head? (hnx ▸ hx)))
  · rw [hpv, Option.or_none] at hx
    exact mem_append_left _ (mem_of_getLast? hx)

variable [DecidableEq κ]

theorem Lists.push (h : Lists l f) (ha : ∀ k, a ∉ f k) (k : κ) :
    Lists (push l k a) (update f k (a :: f k)) := by
  have hnx : ∀ k', ∀ x ∈ f k', (LinkedLists.push l k a).next x = l.next x :=
    fun k' x hx => update_of_ne (ne_of_mem_of_not_mem hx (ha k')) _ _
  have hpv : ∀ k', ∀ x ∈ f k', l.head k ≠ some x → (LinkedLists.push l k a).prev x = l.prev x := by
    intro k' x hx hhe
    rw [push_prev, write_ne hhe]
    exact update_of_ne (ne_of_mem_of_not_mem hx (ha k')) _ _
  constructor
  · intro k'
    rcases eq_or_ne k' k with rfl | hk
    · have hchain := h.chain k'
      have hsf : l.head k' ≠ some a := fun e => ha k' (h.mem_of_head e)
      rw [push_head, update_self, update_self]
      refine ⟨rfl, by rw [push_prev, write_ne hsf, update_self], ?_⟩
      rw [push_next, update_self]
      -- the old first cell now points back to `a`, the others are untouched
      cases hf : f k' with
      | nil => rw [h.head_eq, hf]; rfl
      | cons y ys =>
        rw [hf] at hchain
        obtain ⟨hy, -, hys⟩ := hchain
        have hm : ∀ x ∈ y :: ys, x ∈ f k' := fun x hx => by rwa [hf]
        have hnd := h.nodup k'
        rw [hf] at hnd
        obtain ⟨hyys, -⟩ := nodup_cons.mp hnd
        refine ⟨hy, by rw [push_prev, hy]; exact write_self .., ?_⟩
        rw [hnx k' y (hm y (mem_cons_self ..))]
        refine hys.congr (fun x hx => ?_) (fun x hx => hnx k' x (hm x (mem_cons_of_mem _ hx)))
        refine hpv k' x (hm x (mem_cons_of_mem _ hx)) fun e => ?_
        rw [hy] at e
        exact hyys (Option.some.inj e ▸ hx)
    · rw [push_head, update_of_ne hk, update_of_ne hk]
      refine (h.chain k').congr (fun x hx => hpv k' x hx fun e => ?_) (hnx k')
      exact hk (h.only hx (h.mem_of_head e))
  · intro k'
    rcases eq_or_ne k' k with rfl | hk
    · rw [update_self]
      exact nodup_cons.mpr ⟨ha k', h.nodup k'⟩
    · rw [update_of_ne hk]
      exact h.nodup k'
  · intro k1 k2 x h1 h2
    have hcas : ∀ k', x ∈ update f k (a :: f k) k' → x ∈ f k' ∨ x = a ∧ k' = k := by
      intro k' hx
      rcases eq_or_ne k' k with rfl | hk
      · rw [update_self] at hx
        rcases mem_cons.mp hx with rfl | hx
        · exact Or.inr ⟨rfl, rfl⟩
        · exact Or.inl hx
      · rw [update_of_ne hk] at hx
        exact Or.inl hx
    rcases hcas k1 h1 with hf1 | ⟨he1, hk1⟩ <;>
      rcases hcas k2 h2 with hf2 | ⟨he2, hk2⟩
    · exact h.only hf1 hf2
    · exact absurd (he2 ▸ hf1) (ha k1)
    · exact absurd (he1 ▸ hf2) (ha k2)
    · rw [hk1, hk2]

theorem Lists.mono_only (h : Lists l f) {xs : List Nat} (hxs : ∀ x ∈ xs, x ∈ f k) {k1 k2 : κ}
    (h1 : x ∈ update f k xs k1) (h2 : x ∈ update f k xs k2) : k1 = k2 := by
  have hm : ∀ k', x ∈ update f k xs k' → x ∈ f k' := by
    intro k' hx
    rcases eq_or_ne k' k with rfl | hk
    · rw [update_self] at hx
      exact hxs x hx
    · rwa [update_of_ne hk] at hx
  exact h.only (hm k1 h1) (hm k2 h2)

theorem Lists.remove (h : Lists l f) (ha : a ∈ f k) :
    Lists (remove l k a) (update f k ((f k).erase a)) := by
  obtain ⟨xs, ys, hf⟩ := append_of_mem ha
  have hnd : (xs ++ a :: ys).Nodup := hf ▸ h.nodup k
  have hchain : Chain l none (l.head k) (xs ++ a :: ys) := hf ▸ h.chain k
  obtain ⟨hpv, hnx⟩ := hchain.neighbours
  have hxs : a ∉ xs := fun hx =>
    (nodup_append.mp hnd).2.2 a hx a (mem_cons_self ..) rfl
  have herase : (f k).erase a = xs ++ ys := by rw [hf, erase_append_right _ hxs, erase_cons_head]
  have hnull : l.prev a = none ↔ xs = [] := by
    rw [hpv, Option.or_none]
    exact getLast?_eq_none_iff
  constructor
  · intro k'
    rcases eq_or_ne k' k with rfl | hk
    · rw [update_self, herase]
      have hhe : (LinkedLists.remove l k' a).head k' = if xs = [] then l.next a else l.head k' := by
        rw [remove_head]
        by_cases hx : xs = []
        · rw [if_pos (hnull.mpr hx), if_pos hx, update_self]
        · rw [if_neg (fun e => hx (hnull.mp e)), if_neg hx]
      rw [hhe]
      exact hchain.remove (fun x e => by simp at e) hnd
    · rw [update_of_ne hk]
      have hhe : (LinkedLists.remove l k a).head k' = l.head k' := by
        rw [remove_head]
        split
        · exact update_of_ne hk _ _
        · rfl
      rw [hhe]
      refine (h.chain k').congr (fun x hx => write_ne fun e => hk ?_)
        (fun x hx => write_ne fun e => hk ?_)
      · refine h.only hx (hf ▸ mem_append_right _ (mem_cons_of_mem _ ?_))
        exact mem_of_head? (hnx ▸ e)
      · rw [hpv, Option.or_none] at e
        exact h.only hx (hf ▸ mem_append_left _ (mem_of_getLast? e))
  · intro k'
    rcases eq_or_ne k' k with rfl | hk
    · rw [update_self]
      exact (h.nodup k').erase a
    · rw [update_of_ne hk]
      exact h.nodup k'
  · exact h.mono_only fun x hx => mem_of_mem_erase hx

theorem Lists.detach (h : Lists l f) (k : κ) : Lists (detach l k) (update f k []) := by
  constructor
  · intro k'
    rcases eq_or_ne k' k with rfl | hk
    · rw [detach_head, update_self, update_self]
      exact rfl
    · rw [detach_head, update_of_ne hk, update_of_ne hk]
      exact (h.chain k').congr (fun _ _ => rfl) (fun _ _ => rfl)
  · intro k'
    rcases eq_or_ne k' k with rfl | hk
    · rw [update_self]
      exact nodup_nil
    · rw [update_of_ne hk]
      exact h.nodup k'
  · exact h.mono_only fun x hx => absurd hx not_mem_nil

end LinkedLists
