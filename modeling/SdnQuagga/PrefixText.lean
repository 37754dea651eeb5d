import Mathlib.Data.List.TakeWhile
import Mathlib.Tactic.Ring

/-!
# Prefixes as text

`str2prefix_ipv4` and `str2prefix_ipv6` of `lib/prefix.c`. The length
behind the slash goes through `atoi` and a cast to `u_char` before it is
compared with the number of bits of an address, so the check sees a
residue of it. The two parsers of addresses are those of the C library
and arbitrary here.
-/

namespace SdnQuagga

open List

/-- The value of a string of decimal digits. -/
def numeral (digits : List Char) : Nat :=
  digits.foldl (fun n c => 10 * n + (c.toNat - 48)) 0

def signOf : List Char → Int × List Char
  | '-' :: s => (-1, s)
  | '+' :: s => (1, s)
  | s => (1, s)

/-- `strtol` stops at the ends of a 64-bit `long`; `atoi` keeps the low
32 bits of what it returns. -/
def atoi (nptr : List Char) : Int :=
  let s := signOf (nptr.dropWhile fun c => c = ' ' ∨ 9 ≤ c.toNat ∧ c.toNat ≤ 13)
  let long := s.1 * numeral (s.2.takeWhile Char.isDigit)
  Int.bmod (max (-2 ^ 63) (min long (2 ^ 63 - 1))) (2 ^ 32)

/-- `struct prefix_ipv4` and `struct prefix_ipv6`. -/
structure TextPrefix (α : Type) where
  family : Nat
  prefixlen : Nat
  addr : α

section

variable {α : Type} (str : List Char) (p : TextPrefix α)

/-- Returns whether the result is not zero, and what is left in `p`. -/
def str2prefixIpv4 (inetAton : List Char → Option α) : Bool × TextPrefix α :=
  match str.dropWhile (· ≠ '/') with
  | [] =>
    match inetAton str with
    | none => (false, p)
    | some addr => (true, ⟨2, 32, addr⟩)
  | _ :: pnt =>
    let ret := inetAton (str.takeWhile (· ≠ '/'))
    let p := { p with addr := ret.getD p.addr }
    let plen := (atoi pnt % 256).toNat
    if plen > 32 then (false, p)
    else (ret.isSome, { p with family := 2, prefixlen := plen })

def str2prefixIpv6 (inetPton : List Char → Option α) : Bool × TextPrefix α :=
  match str.dropWhile (· ≠ '/') with
  | [] =>
    match inetPton str with
    | none => (false, p)
    | some addr => (true, ⟨10, 128, addr⟩)
  | _ :: pnt =>
    match inetPton (str.takeWhile (· ≠ '/')) with
    | none => (false, p)
    | some addr =>
      let plen := (atoi pnt % 256).toNat
      if plen > 128 then (false, { p with addr }) else (true, ⟨10, plen, addr⟩)

end

/-- A length is taken if an address has as many bits, and then as it is. -/
def ExactLength {α : Type} (bits len : Nat) (result : Bool × TextPrefix α) : Prop :=
  (result.1 = true ↔ len ≤ bits) ∧ (result.1 = true → result.2.prefixlen = len)

/-- The check sees the length that was written, or what it sees is
refused anyway. -/
def LengthSeen (bits len : Nat) : Prop :=
  len < 256 ∨ bits < len % 256 ∨ 2 ^ 63 ≤ len

section

variable {α : Type} {a n : List Char} (p : TextPrefix α)

theorem atoi_numeral (hn : n ≠ []) (hd : ∀ c ∈ n, c.isDigit) :
    (atoi n % 256).toNat = if numeral n < 2 ^ 63 then numeral n % 256 else 255 := by
  have htk : n.takeWhile Char.isDigit = n := takeWhile_eq_self_iff.mpr hd
  obtain _ | ⟨c, n⟩ := n
  · exact absurd rfl hn
  have hc := hd c mem_cons_self
  have hnu : 48 ≤ c.toNat ∧ c.toNat ≤ 57 := by
    simpa [Char.isDigit, UInt32.le_iff_toNat_le] using hc
  have hne d (h : d.toNat < 48) : c ≠ d := by
    rintro rfl
    omega
  have hsg : signOf (c :: n) = (1, c :: n) := by
    unfold signOf
    split
    next h => exact absurd (cons.inj h).1 (hne '-' (by decide))
    next h => exact absurd (cons.inj h).1 (hne '+' (by decide))
    · rfl
  rw [atoi, dropWhile_cons_of_neg (by simp [hne ' ' (by decide)]; omega), hsg, htk,
    Int.bmod_def]
  split <;> split <;> omega

theorem takeWhile_slash (ha : '/' ∉ a) : (a ++ '/' :: n).takeWhile (· ≠ '/') = a := by
  rw [takeWhile_append_of_pos (by grind), takeWhile_cons_of_neg (by simp), append_nil]

theorem dropWhile_slash (ha : '/' ∉ a) : (a ++ '/' :: n).dropWhile (· ≠ '/') = '/' :: n := by
  rw [dropWhile_append_of_pos (by grind), dropWhile_cons_of_neg (by simp)]

variable (inetAton inetPton : List Char → Option α)

theorem str2prefix_exact_iff (ha : '/' ∉ a) (hn : n ≠ []) (hd : ∀ c ∈ n, c.isDigit) :
    ((inetAton a).isSome → (ExactLength 32 (numeral n) (str2prefixIpv4 (a ++ '/' :: n) p inetAton)
        ↔ LengthSeen 32 (numeral n))) ∧ ((inetPton a).isSome → (ExactLength 128 (numeral n)
          (str2prefixIpv6 (a ++ '/' :: n) p inetPton) ↔ LengthSeen 128 (numeral n))) := by
  have hln := atoi_numeral hn hd
  constructor
  · intro hso
    simp only [ExactLength, LengthSeen, str2prefixIpv4, takeWhile_slash ha, dropWhile_slash ha,
      hln]
    grind
  · intro hso
    obtain ⟨addr, had⟩ := Option.isSome_iff_exists.mp hso
    simp only [ExactLength, LengthSeen, str2prefixIpv6, takeWhile_slash ha, dropWhile_slash ha,
      hln, had]
    grind

end

theorem str2prefix_exact_24 : ExactLength 32 24 (str2prefixIpv4 "10.0.0.0/24".toList ⟨0, 0, 0⟩
    fun _ => some 167772160) ↔ LengthSeen 32 24 :=
  (str2prefix_exact_iff (a := "10.0.0.0".toList) (n := "24".toList) ⟨0, 0, 0⟩ _ (fun _ => none)
    (by decide) (by decide) (by simp)).1 rfl

/-- Any address with the length 256 is read as the default route. -/
theorem str2prefix_256 : ¬ ExactLength 32 (numeral "256".toList)
    (str2prefixIpv4 "10.0.0.0/256".toList ⟨0, 0, 0⟩ fun s =>
      if s = "10.0.0.0".toList then some 167772160 else none) := by
  unfold ExactLength
  decide

end SdnQuagga
