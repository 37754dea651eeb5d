import Mathlib.Tactic.Ring

/-!
# Reference counts

An intern table is followed by the number of references to each object; an
object with none is not in the table. A holder of at most one reference is
an `Option`, and `held` is what it contributes.
-/

namespace RefTable

variable {α : Type} [DecidableEq α]

/-- One reference to the object, if there is one. -/
def held (o : Option α) : α → Nat := fun a => if o = some a then 1 else 0

@[simp] theorem held_none : held (none : Option α) = 0 := rfl

@[simp] theorem held_self (a : α) : held (some a) a = 1 := if_pos rfl

theorem held_inj {o o' : Option α} (h : held o = held o') : o = o' := by
  cases o with
  | none =>
    cases o' with
    | none => rfl
    | some a =>
      have ha := congrFun h a
      rw [held_self] at ha
      cases ha
  | some a =>
    have ha := congrFun h a
    rw [held_self] at ha
    by_contra hne
    rw [held, if_neg fun heq => hne heq.symm] at ha
    cases ha

theorem held_eq_zero {o : Option α} : held o = 0 ↔ o = none :=
  ⟨fun h => held_inj (h.trans held_none.symm), fun h => h ▸ held_none⟩

/-- Two holders that could be dropped could have been empty. -/
theorem add_held_eq {t : α → Nat} {o : Option α} : t + held o = t ↔ o = none := by
  rw [← held_eq_zero]
  constructor
  · intro h
    funext a
    have ha := congrFun h a
    simp only [Pi.add_apply] at ha
    show held o a = 0
    omega
  · intro h
    rw [h, add_zero]

theorem add_held_pos (t : α → Nat) (a : α) : (t + held (some a)) a ≠ 0 := by
  rw [Pi.add_apply, held_self]
  exact Nat.succ_ne_zero _

theorem add_held_sub (t : α → Nat) (o : Option α) : t + held o - held o = t := by
  funext a
  exact Nat.add_sub_cancel _ _

end RefTable
