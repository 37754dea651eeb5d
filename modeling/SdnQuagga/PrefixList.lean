import Mathlib.Data.List.TakeWhile
import Mathlib.Tactic.Ring

/-!
# Prefix lists

Adding and deleting an entry by the commands of `lib/plist.c`. A bound
`le` that is the length of an address is dropped beside a `ge` before
the entry is stored, but not before an entry is looked up to be deleted.
-/

namespace SdnQuagga

open List

structure PlistEntry where
  seq : Int
  le : Int
  ge : Int
  permit : Bool
  pfx : Nat × Nat
deriving DecidableEq

/-- The arguments of both commands: `seq` is -1 and a bound 0 unless
given, the prefix is an address and a length or `any`. -/
structure PlistArgs where
  seq : Int
  permit : Bool
  pfx : Option (Nat × Nat)
  ge : Int
  le : Int

def prefixNewSeqGet (plist : List PlistEntry) : Int :=
  Int.bmod (plist.foldl (fun maxseq e => max maxseq e.seq) 0 / 5 * 5 + 5) (2 ^ 32)

section

variable (bits : Int) (plist : List PlistEntry) (a : PlistArgs)

/-- The entry the arguments ask for, as it is looked up. -/
def PlistArgs.entry : PlistEntry :=
  match a.pfx with
  | none => ⟨a.seq, bits, 0, a.permit, 0, 0⟩
  | some p => ⟨a.seq, a.le, a.ge, a.permit, p⟩

def PlistEntry.samePolicy (e x : PlistEntry) : Bool :=
  x.pfx = e.pfx ∧ x.permit = e.permit ∧ x.le = e.le ∧ x.ge = e.ge

/-- The entry as it is stored. -/
def PlistArgs.stored : PlistEntry :=
  let e := a.entry bits
  { e with
    seq := if a.seq = -1 then prefixNewSeqGet plist else a.seq
    le := if e.ge ≠ 0 ∧ e.le = bits then 0 else e.le }

def vtyPrefixListInstall : Option (List PlistEntry) :=
  let e := a.entry bits
  let new := a.stored bits plist
  if e.ge ≠ 0 ∧ e.ge ≤ e.pfx.2 ∨ e.le ≠ 0 ∧ (e.le ≤ e.pfx.2 ∨ e.ge > e.le) then none
  else if plist.any fun x => new.samePolicy x ∧ x.seq ≠ new.seq then none
  else
    let rest := plist.eraseP (·.seq = new.seq)
    some (rest.takeWhile (·.seq < new.seq) ++ new :: rest.dropWhile (·.seq < new.seq))

def vtyPrefixListUninstall : Option (List PlistEntry) :=
  let found x := (a.entry bits).samePolicy x ∧ ¬ (a.seq ≥ 0 ∧ x.seq ≠ a.seq)
  if plist.any found then some (plist.eraseP found) else none

end

/-- An entry in the place of what `p` finds is found and taken out again. -/
theorem eraseP_inserted_iff {α : Type} {p q found : α → Bool} {l l' : List α} {new : α}
    (hl : l' = (l.eraseP p).takeWhile q ++ new :: (l.eraseP p).dropWhile q) (hp : p new)
    (hno : found new → ∀ x ∈ l, found x → p x) :
    l'.any found ∧ l'.eraseP found = l ↔ (∀ x ∈ l, ¬ p x) ∧ found new := by
  subst hl
  have hall := takeWhile_append_dropWhile (p := q) (l := l.eraseP p)
  constructor
  · rintro ⟨hany, heq⟩
    obtain ⟨y, hy, hfd⟩ := any_eq_true.mp hany
    have hfr : ∀ x ∈ l, ¬ p x := by
      intro x hx hpx
      have hl' := length_eraseP_of_mem hy hfd
      have hsh := length_eraseP_of_mem hx hpx
      have hps := length_pos_of_mem hx
      rw [heq, length_append, length_cons, ← Nat.add_assoc, Nat.add_sub_cancel,
        ← length_append, hall] at hl'
      omega
    refine ⟨hfr, by_contra fun hnew => hfr new ?_ hp⟩
    rw [← heq, mem_eraseP_of_neg hnew]
    simp
  · rintro ⟨hfr, hnew⟩
    rw [eraseP_of_forall_not hfr] at hall ⊢
    refine ⟨any_eq_true.mpr ⟨new, by simp, hnew⟩, ?_⟩
    have hpre : ∀ x ∈ l.takeWhile q, ¬ found x := fun x hx hf =>
      have hx := (takeWhile_sublist q).subset hx
      hfr x hx (hno hnew x hx hf)
    rw [eraseP_append_right _ hpre, eraseP_cons_of_pos hnew, hall]

theorem uninstall_install_iff {bits : Int} (hbits : bits = 32 ∨ bits = 128)
    {plist plist' : List PlistEntry} {a : PlistArgs}
    (h : vtyPrefixListInstall bits plist a = some plist') :
    vtyPrefixListUninstall bits plist' a = some plist ↔
      (∀ x ∈ plist, x.seq ≠ (a.stored bits plist).seq)
        ∧ ((a.entry bits).ge = 0 ∨ (a.entry bits).le ≠ bits) := by
  simp only [vtyPrefixListInstall, Option.ite_none_left_eq_some, Option.some.injEq] at h
  obtain ⟨-, hdup, rfl⟩ := h
  simp only [vtyPrefixListUninstall, Option.ite_none_right_eq_some, Option.some.injEq]
  rw [eraseP_inserted_iff rfl (by simp) (by grind [PlistArgs.stored, PlistEntry.samePolicy])]
  grind [PlistArgs.stored, PlistEntry.samePolicy]

theorem uninstall_install_le :
    vtyPrefixListUninstall 32 [⟨5, 24, 16, true, 10, 8⟩] ⟨-1, true, some (10, 8), 16, 24⟩
      = some [] ↔ (∀ x ∈ [], PlistEntry.seq x ≠ 5) ∧ ((16 : Int) = 0 ∨ (24 : Int) ≠ 32) :=
  uninstall_install_iff (.inl rfl) (by decide)

/-- `ge 16 le 32` is stored without `le` and not found again. -/
theorem uninstall_not_found :
    (vtyPrefixListInstall 32 [] ⟨-1, true, some (10, 8), 16, 32⟩).map
      (vtyPrefixListUninstall 32 · ⟨-1, true, some (10, 8), 16, 32⟩) = some none := by
  decide

end SdnQuagga
