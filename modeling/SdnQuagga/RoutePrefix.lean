import Mathlib.Data.Nat.Bitwise
import SdnQuagga.RadixTree

/-!
# The bits of a prefix

`prefix_bit`, `prefix_match` and `route_common` read addresses byte by byte.
What they compute is said by the list of network bits of a prefix: one prefix
matches another when its bits begin the other's, and `route_common` finds the
longest list of bits that begins both.
-/

namespace SdnQuagga

open List

/-- `struct prefix` of a family whose addresses have `size` bytes. -/
structure NetPrefix (size : Nat) where
  prefixlen : Nat
  addr : List UInt8
  addr_length : addr.length = size
  prefixlen_le : prefixlen ≤ 8 * size
deriving DecidableEq, Repr

/-- Utility mask array. -/
def maskbit : List UInt8 := [0x00, 0x80, 0xc0, 0xe0, 0xf0, 0xf8, 0xfc, 0xfe, 0xff]

section

variable {size : Nat} (p : NetPrefix size)

def NetPrefix.byte (i : Nat) : UInt8 := p.addr.getD i 0

/-- `prefix_bit` of the address. -/
def prefixBit (prefixlen : Nat) : Bool :=
  let offset := prefixlen / 8
  let shift := 7 - prefixlen % 8
  ((p.byte offset).toNat >>> shift) &&& 1 = 1

/-- The loop of `prefix_match`, from the last byte down. -/
def sameBytes (n p : NetPrefix size) : Nat → Bool
  | 0 => true
  | offset + 1 => if n.byte offset ≠ p.byte offset then false else sameBytes n p offset

variable (n p : NetPrefix size)

/-- If `n` includes `p`. -/
def prefixMatch : Bool :=
  if n.prefixlen > p.prefixlen then false
  else
    let offset := n.prefixlen / 8
    let shift := n.prefixlen % 8
    if shift ≠ 0 && maskbit.getD shift 0 &&& (n.byte offset ^^^ p.byte offset) ≠ 0 then
      false
    else sameBytes n p offset

/-- The first loop of `route_common`: the index it stops at and the bytes of the
new address. -/
def commonBytes (n p : NetPrefix size) (newp : List UInt8) (i : Nat) :
    Nat → Nat × List UInt8
  | 0 => (i, newp)
  | turns + 1 =>
    if n.byte i = p.byte i then commonBytes n p (newp.set i (n.byte i)) (i + 1) turns
    else (i, newp)

/-- The second loop of `route_common`: the length it stops at. -/
def commonBits (diff mask : UInt8) (prefixlen : Nat) : Nat → Nat
  | 0 => prefixlen
  | turns + 1 =>
    if mask &&& diff = 0 then commonBits diff (mask >>> 1) (prefixlen + 1) turns
    else prefixlen

theorem commonBits_le (diff mask : UInt8) (prefixlen turns : Nat) :
    commonBits diff mask prefixlen turns ≤ prefixlen + turns := by
  induction turns generalizing mask prefixlen with
  | zero => exact le_rfl
  | succ turns ih =>
    rw [commonBits]
    split
    · have := ih (mask >>> 1) (prefixlen + 1)
      omega
    · omega

variable (newp : List UInt8)

theorem commonBytes_le (i turns : Nat) : (commonBytes n p newp i turns).1 ≤ i + turns := by
  induction turns generalizing newp i with
  | zero => exact le_rfl
  | succ turns ih =>
    rw [commonBytes]
    split
    · have := ih (newp.set i (n.byte i)) (i + 1)
      omega
    · omega

theorem commonBytes_length (i turns : Nat) :
    (commonBytes n p newp i turns).2.length = newp.length := by
  induction turns generalizing newp i with
  | zero => rfl
  | succ turns ih =>
    rw [commonBytes]
    split
    · rw [ih, length_set]
    · rfl

/-- The length and the address that `route_common` leaves in a prefix that was
all zero. -/
def commonPair : Nat × List UInt8 :=
  let r := commonBytes n p (replicate size 0) 0 (p.prefixlen / 8)
  let i := r.1
  let newp := r.2
  if i * 8 ≠ p.prefixlen then
    let diff := n.byte i ^^^ p.byte i
    let prefixlen := commonBits diff 0x80 (i * 8) (p.prefixlen - i * 8)
    (prefixlen, newp.set i (n.byte i &&& maskbit.getD (prefixlen % 8) 0))
  else (i * 8, newp)

theorem commonPair_length : (commonPair n p).2.length = size := by
  simp only [commonPair]
  split
  · rw [length_set, commonBytes_length, length_replicate]
  · rw [commonBytes_length, length_replicate]

theorem commonPair_le : (commonPair n p).1 ≤ p.prefixlen := by
  have hby := commonBytes_le n p (replicate size 0) 0 (p.prefixlen / 8)
  simp only [commonPair]
  split
  · refine (commonBits_le _ _ _ _).trans ?_
    omega
  · omega

/-- `route_common`: common prefix route generation. -/
def routeCommon : NetPrefix size where
  prefixlen := (commonPair n p).1
  addr := (commonPair n p).2
  addr_length := commonPair_length n p
  prefixlen_le := (commonPair_le n p).trans p.prefixlen_le

end

/-! ## Bits of a byte -/

/-- Bit `j` of a byte, from the most significant one. -/
def byteBit (x : UInt8) (j : Nat) : Bool := x.toNat.testBit (7 - j)

theorem byteBit_eq (x : UInt8) (j : Nat) :
    byteBit x j = decide ((x.toNat >>> (7 - j)) &&& 1 = 1) := by
  rw [byteBit, Nat.testBit, Nat.and_comm]
  have h : x.toNat >>> (7 - j) &&& 1 = x.toNat >>> (7 - j) % 2 := Nat.and_one_is_mod _
  rw [h]
  rcases Nat.mod_two_eq_zero_or_one (x.toNat >>> (7 - j)) with h0 | h1
  · rw [h0]; rfl
  · rw [h1]; rfl

theorem byteBit_xor (x y : UInt8) (j : Nat) :
    byteBit (x ^^^ y) j = (byteBit x j ^^ byteBit y j) := by
  rw [byteBit, UInt8.toNat_xor, Nat.testBit_xor, byteBit, byteBit]

theorem byte_ext {x y : UInt8} (h : ∀ j < 8, byteBit x j = byteBit y j) : x = y := by
  refine UInt8.toNat_inj.mp (Nat.eq_of_testBit_eq fun i => ?_)
  rcases Nat.lt_or_ge i 8 with hi | hi
  · have hj := h (7 - i) (by omega)
    rwa [byteBit, byteBit, show 7 - (7 - i) = i by omega] at hj
  · have hpow : 2 ^ 8 ≤ 2 ^ i := Nat.pow_le_pow_right (by decide) hi
    rw [Nat.testBit_lt_two_pow (x.toNat_lt.trans_le hpow),
      Nat.testBit_lt_two_pow (y.toNat_lt.trans_le hpow)]

theorem byte_eq_zero {x : UInt8} : x = 0 ↔ ∀ j < 8, byteBit x j = false := by
  constructor
  · rintro rfl j _
    simp [byteBit]
  · intro h
    exact byte_ext fun j hj => by rw [h j hj]; simp [byteBit]

theorem mask_xor_eq_zero (m x y : UInt8) :
    m &&& (x ^^^ y) = 0 ↔ ∀ j < 8, byteBit m j = true → byteBit x j = byteBit y j := by
  rw [byte_eq_zero]
  refine forall₂_congr fun j _ => ?_
  have hand : byteBit (m &&& (x ^^^ y)) j = (byteBit m j && byteBit (x ^^^ y) j) := by
    rw [byteBit, UInt8.toNat_and, Nat.testBit_and, byteBit, byteBit]
  rw [hand, byteBit_xor]
  cases byteBit m j <;> simp

theorem byteBit_maskbit : ∀ s < 8, ∀ j < 8, byteBit (maskbit.getD s 0) j = decide (j < s) := by
  decide +kernel

/-! ## The list of network bits -/

variable {size : Nat} {n p : NetPrefix size}

variable (p)

def NetPrefix.bits : List Bool :=
  (range p.prefixlen).map (prefixBit p)

@[simp] theorem NetPrefix.bits_length : p.bits.length = p.prefixlen := by
  rw [NetPrefix.bits, length_map, length_range]

theorem prefixBit_eq (i : Nat) : prefixBit p i = byteBit (p.byte (i / 8)) (i % 8) :=
  (byteBit_eq _ _).symm

theorem bits_take {k : Nat} (hk : k ≤ p.prefixlen) :
    p.bits.take k = (range k).map (prefixBit p) := by
  rw [NetPrefix.bits, ← map_take, take_range, Nat.min_eq_left hk]

variable {p}

/-- A list of bits begins the bits of a prefix when it has them all. -/
theorem prefix_bits_iff {k : Nat} {f : Nat → Bool} :
    (range k).map f <+: p.bits ↔ k ≤ p.prefixlen ∧ ∀ i < k, f i = prefixBit p i := by
  constructor
  · intro h
    have hlen : k ≤ p.prefixlen := by simpa using h.length_le
    refine ⟨hlen, ?_⟩
    have heq := prefix_iff_eq_take.mp h
    rw [length_map, length_range, bits_take p hlen] at heq
    exact fun i hi => map_inj_left.mp heq i (mem_range.mpr hi)
  · rintro ⟨hlen, h⟩
    rw [map_congr_left (g := prefixBit p) fun i hi => h i (mem_range.mp hi), ← bits_take p hlen]
    exact take_prefix _ _

theorem bits_prefix_iff : n.bits <+: p.bits
    ↔ n.prefixlen ≤ p.prefixlen ∧ ∀ i < n.prefixlen, prefixBit n i = prefixBit p i :=
  prefix_bits_iff

/-- Bits agree when whole bytes do and the bits of the last one. -/
theorem bits_agree_iff (n p : NetPrefix size) (k : Nat) :
    (∀ i < k, prefixBit n i = prefixBit p i) ↔ (∀ j < k / 8, n.byte j = p.byte j)
        ∧ ∀ j < k % 8, byteBit (n.byte (k / 8)) j = byteBit (p.byte (k / 8)) j := by
  simp only [prefixBit_eq]
  constructor
  · intro h
    constructor
    · intro j hj
      refine byte_ext fun b hb => ?_
      have := h (8 * j + b) (by omega)
      rwa [show (8 * j + b) / 8 = j by omega, show (8 * j + b) % 8 = b by omega] at this
    · intro j hj
      have := h (8 * (k / 8) + j) (by omega)
      rwa [show (8 * (k / 8) + j) / 8 = k / 8 by omega,
        show (8 * (k / 8) + j) % 8 = j by omega] at this
  · rintro ⟨hby, hbt⟩ i hi
    rcases Nat.lt_or_ge (i / 8) (k / 8) with hlt | hge
    · rw [hby _ hlt]
    · rw [show i / 8 = k / 8 by omega]
      exact hbt _ (by omega)

theorem sameBytes_iff (n p : NetPrefix size) (k : Nat) :
    sameBytes n p k = true ↔ ∀ j < k, n.byte j = p.byte j := by
  induction k with
  | zero => simp [sameBytes]
  | succ k ih =>
    rw [sameBytes]
    split
    next hne => exact iff_of_false (by simp) fun h => hne (h k (Nat.lt_succ_self k))
    next heq =>
      rw [ih]
      refine ⟨fun h j hj => ?_, fun h j hj => h j (Nat.lt_succ_of_lt hj)⟩
      rcases Nat.lt_succ_iff_lt_or_eq.mp hj with hj | rfl
      · exact h j hj
      · exact not_ne_iff.mp heq

/-- `n` includes `p` when the bits of `n` begin the bits of `p`. -/
theorem prefixMatch_iff (n p : NetPrefix size) : prefixMatch n p = true ↔ n.bits <+: p.bits := by
  rw [bits_prefix_iff, bits_agree_iff, prefixMatch]
  have hmk : maskbit.getD (n.prefixlen % 8) 0
        &&& (n.byte (n.prefixlen / 8) ^^^ p.byte (n.prefixlen / 8)) = 0
      ↔ ∀ j < n.prefixlen % 8, byteBit (n.byte (n.prefixlen / 8)) j
        = byteBit (p.byte (n.prefixlen / 8)) j := by
    rw [mask_xor_eq_zero]
    have hs : n.prefixlen % 8 < 8 := Nat.mod_lt _ (by decide)
    constructor
    · intro h j hj
      refine h j (hj.trans hs) ?_
      rw [byteBit_maskbit _ hs j (hj.trans hs), decide_eq_true hj]
    · intro h j hj hbit
      rw [byteBit_maskbit _ hs j hj, decide_eq_true_eq] at hbit
      exact h j hbit
  split
  next hlg => exact iff_of_false (by simp) fun h => absurd h.1 (Nat.not_le.mpr hlg)
  next hlen =>
    simp only [Bool.and_eq_true, decide_eq_true_eq]
    split
    next hdf => exact iff_of_false (by simp) fun h => hdf.2 (hmk.mpr h.2.2)
    next hsm =>
      rw [sameBytes_iff]
      refine ⟨fun h => ⟨Nat.le_of_not_gt hlen, h, ?_⟩, fun h => h.2.1⟩
      by_cases hs : n.prefixlen % 8 = 0
      · rw [hs]
        exact fun j hj => absurd hj (Nat.not_lt_zero j)
      · exact hmk.mp (not_ne_iff.mp fun hne => hsm ⟨hs, hne⟩)

/-! ## The common prefix -/

theorem commonBytes_spec (n p : NetPrefix size) (newp : List UInt8) (i turns : Nat)
    (hlen : i + turns ≤ newp.length)
    (hdn : ∀ j < i, n.byte j = p.byte j ∧ newp.getD j 0 = n.byte j) :
    let r := commonBytes n p newp i turns
    (∀ j < r.1, n.byte j = p.byte j ∧ r.2.getD j 0 = n.byte j)
      ∧ (r.1 = i + turns ∨ n.byte r.1 ≠ p.byte r.1) := by
  induction turns generalizing newp i with
  | zero => exact ⟨hdn, .inl rfl⟩
  | succ turns ih =>
    simp only [commonBytes]
    split
    next heq =>
      have hnx := ih (newp.set i (n.byte i)) (i + 1) (by rw [length_set]; omega) ?_
      · rwa [show i + (turns + 1) = i + 1 + turns by omega]
      · intro j hj
        rcases Nat.lt_succ_iff_lt_or_eq.mp hj with hj | rfl
        · rw [getD_eq_getElem?_getD, getElem?_set_ne hj.ne', ← getD_eq_getElem?_getD]
          exact hdn j hj
        · refine ⟨heq, ?_⟩
          rw [getD_eq_getElem?_getD, getElem?_set_self (by omega)]
          rfl
    next hne => exact ⟨hdn, .inr hne⟩

/-- The mask of the second loop after some turns. -/
def maskAfter : Nat → UInt8
  | 0 => 0x80
  | j + 1 => maskAfter j >>> 1

theorem byteBit_maskAfter : ∀ i < 8, ∀ j < 8, byteBit (maskAfter i) j = decide (j = i) := by
  decide +kernel

theorem commonBits_spec {x y : UInt8} (len j turns : Nat) (hdn : ∀ i < j, byteBit x i = byteBit y i)
    (hin : j + turns < 8 ∨ ∃ i < 8, byteBit x i ≠ byteBit y i) :
    ∃ k, commonBits (x ^^^ y) (maskAfter j) (len + j) turns = len + k ∧ k ≤ j + turns
      ∧ (∀ i < k, byteBit x i = byteBit y i)
      ∧ (k = j + turns ∨ k < 8 ∧ byteBit x k ≠ byteBit y k) := by
  induction turns generalizing j with
  | zero => exact ⟨j, rfl, le_rfl, hdn, .inl rfl⟩
  | succ turns ih =>
    have hj : j < 8 := by
      rcases hin with hin | ⟨i, hi, hne⟩
      · omega
      · by_contra hge
        exact hne (hdn i (by omega))
    have hmk : maskAfter j &&& (x ^^^ y) = 0 ↔ byteBit x j = byteBit y j := by
      rw [mask_xor_eq_zero]
      constructor
      · intro h
        exact h j hj (by rw [byteBit_maskAfter j hj j hj, decide_eq_true rfl])
      · intro h i hi hbit
        rw [byteBit_maskAfter j hj i hi, decide_eq_true_eq] at hbit
        rw [hbit, h]
    rw [commonBits]
    split
    next hz =>
      have hnx : ∀ i < j + 1, byteBit x i = byteBit y i := by
        intro i hi
        rcases Nat.lt_succ_iff_lt_or_eq.mp hi with hi | rfl
        · exact hdn i hi
        · exact hmk.mp hz
      have hin' : j + 1 + turns < 8 ∨ ∃ i < 8, byteBit x i ≠ byteBit y i := by
        rwa [show j + 1 + turns = j + (turns + 1) by omega]
      obtain ⟨k, hk, hle, hsm, hsp⟩ := ih (j + 1) hnx hin'
      exact ⟨k, hk, by omega, hsm, hsp.imp_left fun h => by omega⟩
    next hone => exact ⟨j, rfl, by omega, hdn, .inr ⟨hj, mt hmk.mpr hone⟩⟩

/-- A byte in front of the one that `route_common` masks. -/
theorem byte_set_of_lt {bytes : List UInt8} {i j : Nat} (h : j < i) (x : UInt8) :
    (bytes.set i x).getD j 0 = bytes.getD j 0 := by
  rw [getD_eq_getElem?_getD, getElem?_set_ne h.ne', ← getD_eq_getElem?_getD]

theorem byteBit_masked {x : UInt8} {k j : Nat} (hk : k < 8) (hj : j < k) :
    byteBit (x &&& maskbit.getD k 0) j = byteBit x j := by
  have hmk := byteBit_maskbit k hk j (hj.trans hk)
  rw [byteBit] at hmk
  rw [byteBit, UInt8.toNat_and, Nat.testBit_and, hmk, decide_eq_true hj, Bool.and_true, byteBit]

/-- `route_common` keeps the bits of `n` up to the first one that differs from
`p`, or to the end of `p`. -/
theorem commonPair_spec (n p : NetPrefix size) :
    let new := commonPair n p
    (∀ i < new.1, byteBit (n.byte (i / 8)) (i % 8) = byteBit (p.byte (i / 8)) (i % 8)
        ∧ byteBit (new.2.getD (i / 8) 0) (i % 8) = byteBit (n.byte (i / 8)) (i % 8))
      ∧ (new.1 = p.prefixlen ∨ byteBit (n.byte (new.1 / 8)) (new.1 % 8)
          ≠ byteBit (p.byte (new.1 / 8)) (new.1 % 8)) := by
  have hle := p.prefixlen_le
  obtain ⟨hsm, he⟩ := commonBytes_spec n p (replicate size 0) 0
    (p.prefixlen / 8) (by rw [length_replicate]; omega)
    fun j hj => absurd hj (Nat.not_lt_zero j)
  have hsp := commonBytes_le n p (replicate size 0) 0 (p.prefixlen / 8)
  have hlen := commonBytes_length n p (replicate size 0) 0 (p.prefixlen / 8)
  rw [length_replicate] at hlen
  simp only [commonPair]
  generalize commonBytes n p (replicate size 0) 0 (p.prefixlen / 8) = r at *
  split
  next hne =>
    have hin : 0 + (p.prefixlen - r.1 * 8) < 8
        ∨ ∃ i < 8, byteBit (n.byte r.1) i ≠ byteBit (p.byte r.1) i := by
      rcases he with he | he
      · exact .inl (by omega)
      · refine .inr ?_
        by_contra hal
        push Not at hal
        exact he (byte_ext hal)
    obtain ⟨k, hk, hkle, hbt, hkstop⟩ := commonBits_spec (r.1 * 8) 0
      (p.prefixlen - r.1 * 8) (fun i hi => absurd hi (Nat.not_lt_zero i)) hin
    have hk8 : k < 8 := by
      rcases hin with hin | ⟨i, hi, hdf⟩
      · omega
      · by_contra hge
        exact hdf (hbt i (by omega))
    rw [Nat.add_zero, maskAfter] at hk
    simp only [hk]
    rw [show (r.1 * 8 + k) / 8 = r.1 by omega, show (r.1 * 8 + k) % 8 = k by omega]
    refine ⟨fun i hi => ?_, ?_⟩
    · rcases Nat.lt_or_ge (i / 8) r.1 with hlt | hge
      · rw [byte_set_of_lt hlt, (hsm _ hlt).2]
        exact ⟨congrArg (byteBit · _) (hsm _ hlt).1, rfl⟩
      · rw [show i / 8 = r.1 by omega]
        refine ⟨hbt _ (by omega), ?_⟩
        rw [getD_eq_getElem?_getD, getElem?_set_self (by omega)]
        exact byteBit_masked hk8 (by omega)
    · rcases hkstop with hkstop | ⟨-, hkstop⟩
      · exact .inl (by omega)
      · exact .inr hkstop
  next heq =>
    have heq := not_ne_iff.mp heq
    refine ⟨fun i hi => ?_, .inl heq⟩
    have hlt : i / 8 < r.1 := by omega
    rw [(hsm _ hlt).2]
    exact ⟨congrArg (byteBit · _) (hsm _ hlt).1, rfl⟩

/-- Where `n` does not include `p`, the common prefix is shorter than `n`, and
shorter than `p` unless `n` lies in `p`. -/
theorem routeCommon_bits (h : ¬ n.bits <+: p.bits) :
    let new := routeCommon n p
    new.bits ++ [prefixBit n new.prefixlen] <+: n.bits
      ∧ (new.bits = p.bits ∧ new.prefixlen = p.prefixlen ∨ new.prefixlen < p.prefixlen
          ∧ new.bits ++ [!prefixBit n new.prefixlen] <+: p.bits) := by
  intro new
  have hle : new.prefixlen ≤ p.prefixlen := commonPair_le n p
  have hsc := commonPair_spec n p
  have hbt : ∀ i < new.prefixlen, prefixBit n i = prefixBit p i
      ∧ prefixBit new i = prefixBit n i := by
    simp only [prefixBit_eq]
    exact hsc.1
  have hsp : new.prefixlen = p.prefixlen
      ∨ prefixBit n new.prefixlen ≠ prefixBit p new.prefixlen := by
    simp only [prefixBit_eq]
    exact hsc.2
  have hsucc : ∀ {q : NetPrefix size}, new.prefixlen < q.prefixlen →
      (∀ i < new.prefixlen, prefixBit new i = prefixBit q i) →
      new.bits ++ [prefixBit q new.prefixlen] <+: q.bits := by
    intro q hlt hag
    have hrng : new.bits ++ [prefixBit q new.prefixlen]
        = (range (new.prefixlen + 1)).map (prefixBit q) := by
      rw [range_succ, map_append, NetPrefix.bits]
      congr 1
      exact map_congr_left fun i hi => hag i (mem_range.mp hi)
    rw [hrng, ← bits_take q hlt]
    exact take_prefix _ _
  have hsh : new.prefixlen < n.prefixlen := by
    by_contra hge
    refine h (bits_prefix_iff.mpr ⟨by omega, fun i hi => ?_⟩)
    exact (hbt i (by omega)).1
  refine ⟨hsucc hsh fun i hi => (hbt i hi).2, ?_⟩
  rcases Nat.lt_or_eq_of_le hle with hlt | heq
  · refine .inr ⟨hlt, ?_⟩
    have hbit : (!prefixBit n new.prefixlen) = prefixBit p new.prefixlen := by
      have hne := hsp.resolve_left hlt.ne
      cases hn : prefixBit n new.prefixlen <;> cases hp : prefixBit p new.prefixlen <;> simp_all
    rw [hbit]
    exact hsucc hlt fun i hi => (hbt i hi).2.trans (hbt i hi).1
  · refine .inl ⟨?_, heq⟩
    rw [NetPrefix.bits, NetPrefix.bits, heq]
    refine map_congr_left fun i hi => ?_
    have hi := hbt i (heq ▸ mem_range.mp hi)
    exact hi.2.trans hi.1

end SdnQuagga
