import SdnQuagga.BigEndian
import Mathlib.Data.ZMod.Basic
import Mathlib.Tactic.Linarith

/-!
# Checksums

The Internet checksum and the Fletcher checksum of `lib/checksum.c`, and
the checksum that `zebra/zserv.c` puts in an OSPFv3 message.

The Internet checksum adds in ones-complement: a carry out of the
sixteenth bit comes back in at the first. `onesOf` is the word a natural
number ends as, and each way of folding carries is compared with it
once.
-/

namespace SdnQuagga.Checksum

open List

/-! ## Ones-complement sums -/

def onesAdd (a b : Nat) : Nat :=
  if a + b < 65536 then a + b else a + b - 65535

def onesSum (words : List Nat) : Nat :=
  words.foldl onesAdd 0

/-- The word `n` ends as when its carries are added back. -/
def onesOf (n : Nat) : Nat :=
  if n = 0 then 0 else (n - 1) % 65535 + 1

theorem onesAdd_onesOf (n : Nat) {w : Nat} (hw : w < 65536) :
    onesAdd (onesOf n) w = onesOf (n + w) := by
  unfold onesAdd onesOf
  split <;> split <;> split <;> omega

theorem onesSum_eq {words : List Nat} (hw : ∀ w ∈ words, w < 65536) :
    onesSum words = onesOf words.sum := by
  have hfo n : words.foldl onesAdd (onesOf n) = onesOf (n + words.sum) := by
    induction words generalizing n with
    | nil => rfl
    | cons w words ih =>
      rw [foldl_cons, onesAdd_onesOf n (hw w mem_cons_self), sum_cons, ← Nat.add_assoc]
      exact ih (fun v hv => hw v (mem_cons_of_mem w hv)) _
  have h0 := hfo 0
  rwa [Nat.zero_add] at h0

/-- The complement of a sum fills it up to the ones that stand for zero. -/
theorem onesOf_add_complement (n : Nat) : onesOf (n + (65535 - onesOf n)) = 65535 := by
  unfold onesOf
  split <;> split <;> omega

/-- One fold of the carries. -/
theorem onesOf_fold (n : Nat) : onesOf (n % 65536 + n / 65536) = onesOf n := by
  unfold onesOf
  split <;> split <;> omega

/-- A second fold that leaves no carry. -/
theorem onesOf_of_lt {n : Nat} (h : n < 98304) : (n + n / 65536) % 65536 = onesOf n := by
  have hdv : n / 65536 = 0 ∧ n < 65536 ∨ n / 65536 = 1 ∧ 65536 ≤ n := by omega
  unfold onesOf
  rcases hdv with ⟨hq, hn⟩ | ⟨hq, hn⟩
  · rw [hq]
    split <;> omega
  · rw [hq]
    split <;> omega

/-! ## The words of a buffer -/

section

variable (big : Bool) (w : Nat) (bs : List UInt8)

/-- A word of two adjacent bytes, for either byte order of the host. -/
def word16 (a b : UInt8) : Nat :=
  if big then 256 * a.toNat + b.toNat else a.toNat + 256 * b.toNat

/-- An odd last byte is followed by a zero. -/
def words16 : List UInt8 → List Nat
  | a :: b :: bs => word16 big a b :: words16 bs
  | [a] => [word16 big a 0]
  | [] => []

/-- Stores a word at a byte offset. -/
def putWord16 (offset : Nat) : List UInt8 :=
  (bs.set offset (.ofNat (if big then w / 256 else w))).set (offset + 1)
    (.ofNat (if big then w else w / 256))

variable {big bs w}

theorem word16_lt (a b : UInt8) : word16 big a b < 65536 := by
  have := a.toNat_lt
  have := b.toNat_lt
  unfold word16
  split <;> omega

theorem words16_lt : ∀ v ∈ words16 big bs, v < 65536 := by
  fun_induction words16 big bs with grind [word16_lt]

theorem words16_length : (words16 big bs).length = (bs.length + 1) / 2 := by
  fun_induction words16 big bs with grind

theorem words16_sum_le (big : Bool) (bs : List UInt8) :
    (words16 big bs).sum ≤ 65535 * ((bs.length + 1) / 2) := by
  rw [← @words16_length big, Nat.mul_comm]
  exact sum_le_card_nsmul _ _ fun v hv => Nat.le_of_lt_succ (words16_lt v hv)

theorem words16_append {as : List UInt8} (h : as.length % 2 = 0) :
    words16 big (as ++ bs) = words16 big as ++ words16 big bs := by
  fun_induction words16 big as with grind [words16]

theorem words16_pad (h : bs.length % 2 = 1) : words16 big (bs ++ [0]) = words16 big bs := by
  fun_induction words16 big bs with grind [words16]

theorem words16_putWord16 {k : Nat} (hk : 2 * k + 1 < bs.length) (hw : w < 65536) :
    words16 big (putWord16 big w bs (2 * k)) = (words16 big bs).set k w := by
  fun_induction words16 big bs generalizing k with
  | case1 a b bs ih =>
    cases k with
    | zero =>
      have hwd : word16 big (.ofNat (if big then w / 256 else w))
          (.ofNat (if big then w else w / 256)) = w := by
        cases big <;> simp [word16] <;> omega
      simp [putWord16, words16, hwd]
    | succ k =>
      have hpt : putWord16 big w (a :: b :: bs) (2 * (k + 1))
          = a :: b :: putWord16 big w bs (2 * k) := rfl
      rw [length_cons, length_cons] at hk
      rw [hpt, words16, ih (by omega), set_cons_succ]
  | case2 => simp at hk
  | case3 => simp at hk

theorem sum_set_zero {l : List Nat} {k : Nat} (h : l[k]? = some 0) :
    (l.set k w).sum = l.sum + w := by
  induction l generalizing k with
  | nil => simp at h
  | cons a l ih => cases k <;> grind

end

/-! ## The Internet checksum -/

/-- `in_cksum`, of which the loop reads the words of the buffer. -/
def inCksum (big : Bool) (buf : List UInt8) : Nat :=
  let sum := (words16 big buf).sum
  let sum := sum / 65536 + sum % 65536
  let sum := sum + sum / 65536
  65535 - sum % 65536

/-- Two folds are enough for a sum below 2^31. -/
theorem inCksum_eq {big : Bool} {buf : List UInt8} (h : buf.length ≤ 65535) :
    inCksum big buf = 65535 - onesOf (words16 big buf).sum := by
  have hle := words16_sum_le big buf
  have hn : 65535 * ((buf.length + 1) / 2) ≤ 65535 * 32768 := by omega
  rw [inCksum, ← onesOf_fold, Nat.add_comm (_ / 65536)]
  rw [onesOf_of_lt (by omega)]

theorem inCksum_ones (big : Bool) (buf : List UInt8) (h : buf.length ≤ 65535) :
    inCksum big buf = 65535 - onesSum (words16 big buf)
      ∧ ∀ k, 2 * k + 1 < buf.length → (words16 big buf)[k]? = some 0 →
        inCksum big (putWord16 big (inCksum big buf) buf (2 * k)) = 0 := by
  refine ⟨by rw [inCksum_eq h, onesSum_eq words16_lt], fun k hk hz => ?_⟩
  have hln : (putWord16 big (inCksum big buf) buf (2 * k)).length ≤ 65535 := by
    simpa [putWord16] using h
  have hw : inCksum big buf < 65536 := by
    rw [inCksum_eq h]
    omega
  rw [inCksum_eq hln, words16_putWord16 hk hw, sum_set_zero hz, inCksum_eq h,
    onesOf_add_complement]

theorem inCksum_ones_header : inCksum false [1, 2, 0, 0, 3]
      = 65535 - onesSum (words16 false [1, 2, 0, 0, 3])
    ∧ inCksum false
      (putWord16 false (inCksum false [1, 2, 0, 0, 3]) [1, 2, 0, 0, 3] 2) = 0 :=
  have h := inCksum_ones false [1, 2, 0, 0, 3] (by decide)
  ⟨h.1, h.2 1 (by decide) rfl⟩

/-! ## The checksum of an OSPFv3 message -/

/-- The carries of `sum` are added back until there are none. -/
def addCarries (sum : Nat) : Nat :=
  if sum / 65536 = 0 then sum else addCarries (sum % 65536 + sum / 65536)
termination_by sum
decreasing_by omega

theorem addCarries_eq (sum : Nat) : addCarries sum = onesOf sum := by
  fun_induction addCarries sum with
  | case1 sum h =>
    unfold onesOf
    split <;> omega
  | case2 sum h ih => rw [ih, onesOf_fold]

/-- Words added to a `uint32_t`. -/
def addWords (sum : Nat) (words : List Nat) : Nat :=
  words.foldl (fun sum word => (sum + word) % 2 ^ 32) sum

theorem addWords_eq {words : List Nat} {sum : Nat} (h : sum + words.sum < 2 ^ 32) :
    addWords sum words = sum + words.sum := by
  induction words generalizing sum with
  | nil => rfl
  | cons w words ih =>
    rw [sum_cons] at h ⊢
    have hw : (sum + w) % 2 ^ 32 = sum + w := Nat.mod_eq_of_lt (by omega)
    rw [addWords, foldl_cons, hw, ← addWords, ih (by omega), Nat.add_assoc]

/-- The byte behind an odd message is overwritten; the result has it. -/
def ospfv3SumCalc (srcAddr dstAddr : Option (List UInt8)) (buffOspfMsg : List UInt8) :
    Nat × List UInt8 :=
  let lenOspfMsg := buffOspfMsg.length
  let buff := if lenOspfMsg % 2 = 1 then buffOspfMsg ++ [0] else buffOspfMsg
  let fin := (lenOspfMsg + lenOspfMsg % 2) % 65536 / 2
  let sum := addWords 0 ((words16 true buff).take fin)
  let sum := addWords sum (srcAddr.elim [] fun addr => (words16 true addr).take 8)
  let sum := addWords sum (dstAddr.elim [] fun addr => (words16 true addr).take 8)
  let sum := addWords sum [89, lenOspfMsg % 65536]
  let wynik := 65535 - addCarries sum
  let wynik := if wynik = 0 then 65535 else wynik
  (wynik, putWord16 true wynik buff 12)

/-- What is summed besides the message. -/
def pseudoHeader (src dst : List UInt8) (len : Nat) : List UInt8 :=
  src ++ (dst ++ (toBE 4 len ++ [0, 0, 0, 89]))

theorem pseudoHeader_sum {src dst : List UInt8} {len : Nat} (hsrc : src.length = 16)
    (hdst : dst.length = 16) (hln : len < 65536) :
    (words16 true (pseudoHeader src dst len)).sum
      = (words16 true src).sum + (words16 true dst).sum + (89 + len) := by
  rw [pseudoHeader, words16_append (by omega), words16_append (by omega),
    words16_append (by simp), sum_append, sum_append, sum_append]
  simp [toBE, words16, word16]
  omega

/-- The sum that goes into the message makes the whole all ones. -/
theorem onesOf_add_stored {n w : Nat} (hn : 0 < n)
    (hw : w = if 65535 - onesOf n = 0 then 65535 else 65535 - onesOf n) :
    w ≠ 0 ∧ w < 65536 ∧ onesOf (n + w) = 65535 := by
  subst hw
  unfold onesOf
  grind

theorem ospfv3SumCalc_sum (src dst msg : List UInt8) (hsrc : src.length = 16)
    (hdst : dst.length = 16) (hmi : 16 ≤ msg.length) (hmx : msg.length ≤ 65534)
    (hz : (words16 true msg)[6]? = some 0) :
    ∃ w buff, ospfv3SumCalc (some src) (some dst) msg = (w, buff) ∧ w ≠ 0 ∧ w < 65536
      ∧ buff.take msg.length = putWord16 true w msg 12
      ∧ onesSum (words16 true (pseudoHeader src dst msg.length ++ buff.take msg.length))
        = 65535 := by
  refine ⟨_, _, rfl, ?_⟩
  have hbf : words16 true (if msg.length % 2 = 1 then msg ++ [0] else msg) = words16 true msg := by
    split
    next h => exact words16_pad h
    · rfl
  have he : (words16 true msg).length ≤ (msg.length + msg.length % 2) % 65536 / 2 := by
    rw [words16_length]
    omega
  have h8 {addr : List UInt8} (h : addr.length = 16) :
      (words16 true addr).take 8 = words16 true addr :=
    take_of_length_le (by rw [words16_length]; omega)
  have hm := words16_sum_le true msg
  have hs := words16_sum_le true src
  have hd := words16_sum_le true dst
  have hN : addWords (addWords (addWords (addWords 0 (words16 true msg)) (words16 true src))
      (words16 true dst)) [89, msg.length % 65536]
        = (words16 true (pseudoHeader src dst msg.length)).sum + (words16 true msg).sum := by
    have hln := Nat.mod_eq_of_lt (show msg.length < 65536 by omega)
    have hsu := pseudoHeader_sum hsrc hdst (show msg.length < 65536 by omega)
    simp only [addWords, ← foldl_append]
    rw [← addWords, addWords_eq (by simp; omega), hsu, hln]
    simp
    omega
  simp only [Option.elim_some, hbf, take_of_length_le he, h8 hsrc, h8 hdst, hN, addCarries_eq]
  obtain ⟨hne, hlt, hon⟩ := onesOf_add_stored (n :=
    (words16 true (pseudoHeader src dst msg.length)).sum + (words16 true msg).sum)
    (by rw [pseudoHeader_sum hsrc hdst (by omega)]; omega) rfl
  generalize (if 65535 - onesOf _ = 0 then 65535 else 65535 - onesOf _) = w at *
  have htk : (putWord16 true w (if msg.length % 2 = 1 then msg ++ [0] else msg) 12).take
      msg.length = putWord16 true w msg 12 := by
    unfold putWord16
    split <;> simp [take_set]
  refine ⟨hne, hlt, htk, ?_⟩
  rw [htk, onesSum_eq words16_lt, words16_append (by simp [pseudoHeader]; omega), sum_append,
    words16_putWord16 (k := 6) (by omega) hlt, sum_set_zero hz, ← Nat.add_assoc]
  exact hon

/-- Every word but the checksum is all ones. -/
theorem ospfv3SumCalc_sum_carries :
    let addr : List UInt8 := replicate 16 255
    let msg : List UInt8 := replicate 12 255 ++ [0, 0, 255, 255, 255]
    ∃ w buff, ospfv3SumCalc (some addr) (some addr) msg = (w, buff) ∧ w ≠ 0 ∧
      onesSum (words16 true (pseudoHeader addr addr 17 ++ buff.take 17)) = 65535 :=
  have ⟨w, buff, h, hw, _, _, hsum⟩ := ospfv3SumCalc_sum (replicate 16 255) (replicate 16 255)
    (replicate 12 255 ++ [0, 0, 255, 255, 255]) rfl rfl (by decide) (by decide) rfl
  ⟨w, buff, h, hw, hsum⟩

/-! ## The Fletcher checksum -/

/-- The sum of `int`s that are not negative; none where it is no `int`. -/
def intAdd (a b : Nat) : Option Nat :=
  if a + b < 2 ^ 31 then some (a + b) else none

def fletcherBlock : List UInt8 → Nat → Nat → Option (Nat × Nat)
  | [], c0, c1 => some (c0, c1)
  | b :: p, c0, c1 => do
    let c0 ← intAdd c0 b.toNat
    let c1 ← intAdd c1 c0
    fletcherBlock p c0 c1

/-- Blocks of `MODX` bytes. -/
def fletcherLoop (p : List UInt8) (c0 c1 : Nat) : Option (Nat × Nat) :=
  if p = [] then some (c0, c1)
  else do
    let (c0, c1) ← fletcherBlock (p.take 4102) c0 c1
    fletcherLoop (p.drop 4102) (c0 % 255) (c1 % 255)
termination_by p.length
decreasing_by grind [length_pos_iff]

/-- The difference is taken in `size_t` and cast to `int`. -/
def fletcherX (left c0 c1 : Nat) : Int :=
  let x := (Int.bmod (left * c0 - c1) (2 ^ 32)).tmod 255
  if x ≤ 0 then x + 255 else x

def fletcherY (c0 : Nat) (x : Int) : Int :=
  let y := 510 - c0 - x
  if y > 255 then y - 255 else y

/-- The buffer and the two bytes as one number; none after a failed
assertion or an overflow. -/
def fletcherChecksum (buffer : List UInt8) (offset : Nat) : Option (List UInt8 × Int) := do
  guard (offset < buffer.length)
  let zeroed := (buffer.set offset 0).set (offset + 1) 0
  let (c0, c1) ← fletcherLoop zeroed 0 0
  let x := fletcherX (buffer.length - offset - 1) c0 c1
  let y := fletcherY c0 x
  some ((zeroed.set offset (.ofNat x.toNat)).set (offset + 1) (.ofNat y.toNat), 256 * x + y % 256)

/-- The sum of the bytes. -/
def byteSum : List UInt8 → Nat
  | [] => 0
  | b :: bs => b.toNat + byteSum bs

/-- The sum of the bytes, each times the number of bytes from it on. -/
def weightedSum : List UInt8 → Nat
  | [] => 0
  | b :: bs => (bs.length + 1) * b.toNat + weightedSum bs

theorem byteSum_append (as bs : List UInt8) : byteSum (as ++ bs) = byteSum as + byteSum bs := by
  induction as with
  | nil => rw [nil_append, byteSum, Nat.zero_add]
  | cons a as ih => rw [cons_append, byteSum, byteSum, ih, Nat.add_assoc]

theorem weightedSum_append (as bs : List UInt8) :
    weightedSum (as ++ bs) = weightedSum as + bs.length * byteSum as + weightedSum bs := by
  induction as with
  | nil => simp [weightedSum, byteSum]
  | cons a as ih =>
    rw [cons_append, weightedSum, weightedSum, ih, byteSum, length_append]
    ring

/-- The bound is that of bytes that are all 255, in halves of `int`s. -/
theorem fletcherBlock_eq (p : List UInt8) {c0 c1 : Nat}
    (h : 2 * c1 + 2 * (p.length * c0) + 255 * (p.length * (p.length + 1)) < 2 ^ 32) :
    fletcherBlock p c0 c1 = some (c0 + byteSum p, c1 + p.length * c0 + weightedSum p) := by
  induction p generalizing c0 c1 with
  | nil => simp [fletcherBlock, byteSum, weightedSum]
  | cons b p ih =>
    have hb : b.toNat ≤ 255 := Nat.le_of_lt_succ b.toNat_lt
    have hmu := Nat.mul_le_mul_left p.length hb
    rw [length_cons] at h
    have h0 : c0 + b.toNat < 2 ^ 31 := by nlinarith
    have h1 : c1 + (c0 + b.toNat) < 2 ^ 31 := by nlinarith
    rw [fletcherBlock, intAdd, if_pos h0, Option.bind_eq_bind, Option.bind_some, intAdd,
      if_pos h1, Option.bind_some, ih (by nlinarith)]
    rw [byteSum, weightedSum, length_cons]
    congr 2
    · ring
    · ring

/-- The sums so far are known modulo 255. -/
theorem fletcherLoop_eq (p : List UInt8) {c0 c1 : Nat} (h0 : c0 < 255) (h1 : c1 < 255) :
    ∃ d0 d1, fletcherLoop p c0 c1 = some (d0, d1) ∧ d0 < 255 ∧ d1 < 255
      ∧ (d0 : ZMod 255) = c0 + byteSum p
      ∧ (d1 : ZMod 255) = c1 + p.length * c0 + weightedSum p := by
  induction hn : p.length using Nat.strongRecOn generalizing p c0 c1 with
  | ind n ih =>
    rw [fletcherLoop]
    split
    next hp =>
      subst hp hn
      exact ⟨c0, c1, rfl, h0, h1, by simp [byteSum], by simp [weightedSum]⟩
    next hp =>
      have hps := length_pos_iff.mpr hp
      have hln : (p.take 4102).length ≤ 4102 := length_take_le _ _
      rw [fletcherBlock_eq _ (by nlinarith), Option.bind_eq_bind, Option.bind_some]
      obtain ⟨d0, d1, hd, hd0, hd1, hs0, hs1⟩ := ih (p.drop 4102).length
        (by rw [length_drop]; omega) (p.drop 4102) (Nat.mod_lt _ (by decide : 0 < 255))
        (Nat.mod_lt _ (by decide : 0 < 255)) rfl
      have hsp := take_append_drop 4102 p
      refine ⟨d0, d1, hd, hd0, hd1, ?_, ?_⟩
      · rw [hs0, ZMod.natCast_mod, ← hsp, byteSum_append, hsp]
        push_cast
        ring
      · rw [hs1, ← hn, ← hsp, weightedSum_append, length_append, hsp]
        push_cast [ZMod.natCast_mod]
        ring

theorem exists_byte {v : Int} (h1 : 1 ≤ v) (h2 : v ≤ 255) : ∃ x : UInt8, v = x.toNat ∧ x ≠ 0 := by
  lift v to Nat using by omega
  have hv : (UInt8.ofNat v).toNat = v := by
    simp
    omega
  refine ⟨.ofNat v, by rw [hv], fun h => ?_⟩
  rw [h] at hv
  simp at hv
  omega

variable {left c0 c1 : Nat}

/-- The cast to `int` is exact. -/
theorem bmod_left (h0 : c0 < 255) (h1 : c1 < 255) (hl : left < 65536) :
    Int.bmod (left * c0 - c1) (2 ^ 32) = left * c0 - c1 := by
  have hle : left * c0 ≤ 65535 * 254 := Nat.mul_le_mul (by omega) (by omega)
  have hnn : (0 : Int) ≤ left * c0 := by positivity
  zify at hle
  exact Int.bmod_eq_of_le (by omega) (by omega)

theorem fletcherX_spec (h0 : c0 < 255) (h1 : c1 < 255) (hl : left < 65536) :
    ∃ x : UInt8, fletcherX left c0 c1 = x.toNat ∧ x ≠ 0
      ∧ (x.toNat : ZMod 255) = left * c0 - c1 := by
  have hmd := bmod_left h0 h1 hl
  have hlt := Int.tmod_lt_of_pos (left * c0 - c1 : Int) (show (0 : Int) < 255 by decide)
  have hgt := Int.lt_tmod_of_pos (left * c0 - c1 : Int) (show (0 : Int) < 255 by decide)
  have h255 : (255 : ZMod 255) = 0 := rfl
  have hca := congrArg (Int.cast (R := ZMod 255)) (Int.mul_tdiv_add_tmod (left * c0 - c1) 255)
  push_cast at hca
  rw [h255, zero_mul, zero_add] at hca
  obtain ⟨x, hx, hne⟩ := exists_byte (v := fletcherX left c0 c1)
    (by rw [fletcherX, hmd]; split <;> omega) (by rw [fletcherX, hmd]; split <;> omega)
  refine ⟨x, hx, hne, ?_⟩
  rw [← Int.cast_natCast, ← hx, fletcherX, hmd, ← hca]
  split
  · push_cast
    rw [h255, add_zero]
  · rfl

theorem fletcherY_spec {x : UInt8} (h0 : c0 < 255) (hx : x ≠ 0) :
    ∃ y : UInt8, fletcherY c0 x.toNat = y.toNat ∧ y ≠ 0
      ∧ (y.toNat : ZMod 255) = - c0 - x.toNat := by
  have hlt := x.toNat_lt
  have hps : x.toNat ≠ 0 := fun h => hx (UInt8.toNat_inj.mp h)
  have h255 : (255 : ZMod 255) = 0 := rfl
  have h510 : (510 : ZMod 255) = 0 := rfl
  obtain ⟨y, hy, hne⟩ := exists_byte (v := fletcherY c0 x.toNat)
    (by rw [fletcherY]; split <;> omega) (by rw [fletcherY]; split <;> omega)
  refine ⟨y, hy, hne, ?_⟩
  rw [← Int.cast_natCast, ← hy, fletcherY]
  split
  · push_cast
    rw [h510, h255, sub_zero, zero_sub]
  · push_cast
    rw [h510, zero_sub]

theorem exists_split {buffer : List UInt8} {offset : Nat} (h : offset + 1 < buffer.length) :
    ∃ as a b bs, buffer = as ++ a :: b :: bs ∧ as.length = offset :=
  ⟨_, _, _, _, by rw [← drop_eq_getElem_cons h, ← drop_eq_getElem_cons (by omega),
    take_append_drop], by simp; omega⟩

theorem set_two (as bs : List UInt8) (a b x y : UInt8) :
    ((as ++ a :: b :: bs).set as.length x).set (as.length + 1) y = as ++ x :: y :: bs := by
  simp

theorem fletcherChecksum_sums (buffer : List UInt8) (offset : Nat) (hln : buffer.length ≤ 65535)
    (hoff : offset + 1 < buffer.length) :
    ∃ x y : UInt8, fletcherChecksum buffer offset = some
        ((buffer.set offset x).set (offset + 1) y, (256 * x.toNat + y.toNat % 256 : Int))
      ∧ x ≠ 0 ∧ y ≠ 0 ∧ byteSum ((buffer.set offset x).set (offset + 1) y) % 255 = 0
      ∧ weightedSum ((buffer.set offset x).set (offset + 1) y) % 255 = 0 := by
  obtain ⟨as, a, b, bs, rfl, rfl⟩ := exists_split hoff
  have hlf : (as ++ a :: b :: bs).length - as.length - 1 = bs.length + 1 := by
    simp
  obtain ⟨c0, c1, hr, h0, h1, hs0, hs1⟩ := fletcherLoop_eq (as ++ 0 :: 0 :: bs)
    (show 0 < 255 by decide) (show 0 < 255 by decide)
  obtain ⟨x, hx, hx0, hxz⟩ := fletcherX_spec h0 h1 (show bs.length + 1 < 65536 by omega)
  obtain ⟨y, hy, hy0, hyz⟩ := fletcherY_spec h0 hx0
  refine ⟨x, y, ?_, hx0, hy0, ?_⟩
  · rw [fletcherChecksum, guard, if_pos (by omega)]
    simp only [set_two, hlf, hr, Option.bind_eq_bind, Option.bind_some, Option.pure_def, hx, hy,
      Int.toNat_natCast, UInt8.ofNat_toNat]
  · rw [set_two, ← Nat.dvd_iff_mod_eq_zero, ← Nat.dvd_iff_mod_eq_zero, ← ZMod.natCast_eq_zero_iff,
      ← ZMod.natCast_eq_zero_iff]
    simp only [byteSum_append, byteSum, weightedSum_append, weightedSum, length_cons,
      UInt8.toNat_zero] at *
    push_cast at *
    constructor
    · rw [hyz, hs0]
      ring
    · rw [hyz, hxz, hs0, hs1]
      ring

theorem fletcherChecksum_sums_four :
    ∃ x y : UInt8, fletcherChecksum [1, 2, 0, 0] 2
      = some ([1, 2, x, y], (256 * x.toNat + y.toNat % 256 : Int)) ∧ x ≠ 0 ∧ y ≠ 0 :=
  have ⟨x, y, h, hx, hy, _⟩ := fletcherChecksum_sums [1, 2, 0, 0] 2 (by decide) (by decide)
  ⟨x, y, h, hx, hy⟩

end SdnQuagga.Checksum
