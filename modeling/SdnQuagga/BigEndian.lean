import Mathlib.Data.List.Basic
import Mathlib.Tactic.Ring

/-!
# Big-endian words

Network byte order, independent of any packet format: `toBE w n` is the
`w`-byte big-endian image of `n` and `ofBE` reads an image back. The two
are mutually inverse on their ranges (`ofBE_toBE`, `toBE_ofBE`); no
proof above this file looks at a shift or a mask.
-/

namespace SdnQuagga

open List

/-! ## Images of natural numbers -/

/-- The `w`-byte big-endian image of `n`, most significant byte first;
whatever exceeds `w` bytes is cut off. -/
def toBE : Nat → Nat → List UInt8
  | 0, _ => []
  | w + 1, n => UInt8.ofNat (n / 256 ^ w) :: toBE w n

/-- The number a byte string denotes in network byte order. -/
def ofBE : List UInt8 → Nat
  | [] => 0
  | b :: bs => b.toNat * 256 ^ bs.length + ofBE bs

@[simp] theorem toBE_length (w n : Nat) : (toBE w n).length = w := by
  induction w with
  | zero => rfl
  | succ w ih => simp [toBE, ih]

variable (bs : List UInt8)

theorem ofBE_lt : ofBE bs < 256 ^ bs.length := by
  induction bs with
  | nil => simp [ofBE]
  | cons b bs ih =>
    have hb : b.toNat ≤ 255 := by have := b.toNat_lt; omega
    have hmul : b.toNat * 256 ^ bs.length ≤ 255 * 256 ^ bs.length := Nat.mul_le_mul_right _ hb
    rw [ofBE, length_cons, pow_succ]
    omega

theorem ofBE_toBE (w n : Nat) : ofBE (toBE w n) = n % 256 ^ w := by
  induction w with
  | zero => simp [toBE, ofBE, Nat.mod_one]
  | succ w ih =>
    rw [toBE, ofBE, toBE_length, ih, UInt8.toNat_ofNat', pow_succ 256 w,
      Nat.mod_mul (x := n) (a := 256 ^ w) (b := 256)]
    ring

theorem ofBE_toBE_of_lt {w n : Nat} (h : n < 256 ^ w) : ofBE (toBE w n) = n := by
  rw [ofBE_toBE, Nat.mod_eq_of_lt h]

/-- The high byte of an image leaves the low bytes alone. -/
theorem toBE_add_mul (w a n : Nat) : toBE w (a * 256 ^ w + n) = toBE w n := by
  suffices h : ∀ v ≤ w, toBE v (a * 256 ^ w + n) = toBE v n from h w le_rfl
  intro v
  induction v with
  | zero => intro _; rfl
  | succ v ih =>
    intro hv
    obtain ⟨k, rfl⟩ := Nat.exists_eq_add_of_lt (Nat.lt_of_succ_le hv)
    have hsp : a * 256 ^ (v + k + 1) + n = n + 256 ^ v * (256 * (a * 256 ^ k)) := by ring
    rw [toBE, toBE, ih (by omega)]
    congr 1
    rw [hsp, Nat.add_mul_div_left _ _ (Nat.pow_pos (by decide))]
    apply UInt8.toNat_inj.mp
    simp only [UInt8.toNat_ofNat']
    omega

theorem toBE_ofBE : toBE bs.length (ofBE bs) = bs := by
  induction bs with
  | nil => rfl
  | cons b bs ih =>
    have hlt := ofBE_lt bs
    rw [length_cons, toBE, ofBE, toBE_add_mul, ih]
    congr 1
    rw [Nat.add_comm, Nat.add_mul_div_right _ _ (Nat.pow_pos (by decide)),
      Nat.div_eq_of_lt hlt, Nat.zero_add]
    exact UInt8.ofNat_toNat

/-! ## Machine words -/

variable (w : UInt16)

/-- A 16-bit word as it lies on the wire. -/
def be16 : List UInt8 := toBE 2 w.toNat

variable (l : UInt32)

/-- A 32-bit word as it lies on the wire. -/
def be32 : List UInt8 := toBE 4 l.toNat

@[simp] theorem be16_length : (be16 w).length = 2 := toBE_length ..

@[simp] theorem be32_length : (be32 l).length = 4 := toBE_length ..

@[simp] theorem ofNat_ofBE_be16 : UInt16.ofNat (ofBE (be16 w)) = w := by
  rw [be16, ofBE_toBE_of_lt (by simpa using w.toNat_lt), UInt16.ofNat_toNat]

@[simp] theorem ofNat_ofBE_be32 : UInt32.ofNat (ofBE (be32 l)) = l := by
  rw [be32, ofBE_toBE_of_lt (by simpa using l.toNat_lt), UInt32.ofNat_toNat]

/-- A 64-bit word as it lies on the wire. -/
def be64 (l : UInt64) : List UInt8 := toBE 8 l.toNat

@[simp] theorem be64_length (l : UInt64) : (be64 l).length = 8 := toBE_length ..

@[simp] theorem ofNat_ofBE_be64 (l : UInt64) : UInt64.ofNat (ofBE (be64 l)) = l := by
  rw [be64, ofBE_toBE_of_lt (by simpa using l.toNat_lt), UInt64.ofNat_toNat]

variable (l : BitVec 128)

/-- A 128-bit word as it lies on the wire. -/
def be128 : List UInt8 := toBE 16 l.toNat

@[simp] theorem be128_length : (be128 l).length = 16 := toBE_length ..

@[simp] theorem ofNat_ofBE_be128 : BitVec.ofNat 128 (ofBE (be128 l)) = l := by
  rw [be128, ofBE_toBE_of_lt (by simpa using l.isLt), BitVec.ofNat_toNat, BitVec.setWidth_eq]

/-! ## Arrays of words -/

/-- The first `n` words of `w` bytes each. -/
def ofBEs (w : Nat) : Nat → List UInt8 → List Nat
  | 0, _ => []
  | n + 1, bs => ofBE (bs.take w) :: ofBEs w n (bs.drop w)

/-- An array written word by word reads back. -/
theorem ofBEs_flatMap {α : Type} {w : Nat} {put : α → List UInt8}
    (hlen : ∀ a, (put a).length = w) (as : List α) :
    ofBEs w as.length (as.flatMap put) = as.map fun a => ofBE (put a) := by
  induction as with
  | nil => rfl
  | cons a as ih =>
    rw [flatMap_cons, length_cons, ofBEs, map_cons, ← hlen a, take_left, drop_left, hlen a, ih]

theorem flatMap_length_of_width {α : Type} {w : Nat} {put : α → List UInt8}
    (hlen : ∀ a, (put a).length = w) (as : List α) : (as.flatMap put).length = w * as.length := by
  induction as with
  | nil => simp
  | cons a as ih =>
    rw [flatMap_cons, length_append, hlen, ih, length_cons, Nat.mul_succ]
    omega

end SdnQuagga
