import SdnQuagga.BigEndian

/-!
# Hash tables

`lib/hash.c` and `lib/jhash.c`. A table is the list of its backets, the
newest first: the chains of the source keep that order, and backets with
equal keys are in one chain. `hash_get` compares the stored key before the
data, so that an object is found under the key it was put in with.
-/

namespace SdnQuagga

/-! ## The Jenkins hash -/

namespace Jhash

def goldenRatio : UInt32 := 0x9e3779b9

/-- `__jhash_mix`. -/
def mix (a b c : UInt32) : UInt32 × UInt32 × UInt32 :=
  let a := (a - b - c) ^^^ (c >>> 13)
  let b := (b - c - a) ^^^ (a <<< 8)
  let c := (c - a - b) ^^^ (b >>> 13)
  let a := (a - b - c) ^^^ (c >>> 12)
  let b := (b - c - a) ^^^ (a <<< 16)
  let c := (c - a - b) ^^^ (b >>> 5)
  let a := (a - b - c) ^^^ (c >>> 3)
  let b := (b - c - a) ^^^ (a <<< 10)
  let c := (c - a - b) ^^^ (b >>> 15)
  (a, b, c)

/-- Four bytes, the first of them lowest. -/
def word (k0 k1 k2 k3 : UInt8) : UInt32 :=
  k0.toUInt32 + (k1.toUInt32 <<< 8) + (k2.toUInt32 <<< 16) + (k3.toUInt32 <<< 24)

variable (length : UInt32)

/-- The bytes left over by the blocks of twelve; `c` keeps its lowest byte
for the length. -/
def last (k : List UInt8) (a b c : UInt32) : UInt32 :=
  let byte (i : Nat) : UInt8 := k.getD i 0
  (mix (a + word (byte 0) (byte 1) (byte 2) (byte 3)) (b + word (byte 4) (byte 5) (byte 6) (byte 7))
    (c + length + word 0 (byte 8) (byte 9) (byte 10))).2.2

def blocks :
    List UInt8 → UInt32 → UInt32 → UInt32 → UInt32
  | k0 :: k1 :: k2 :: k3 :: k4 :: k5 :: k6 :: k7 :: k8 :: k9 :: k10 :: k11 :: k, a, b, c =>
    let m := mix (a + word k0 k1 k2 k3) (b + word k4 k5 k6 k7)
      (c + word k8 k9 k10 k11)
    blocks k m.1 m.2.1 m.2.2
  | k, a, b, c => last length k a b c

/-- `jhash`. -/
def hash (key : List UInt8) (initval : UInt32) : UInt32 :=
  blocks (UInt32.ofNat key.length) key goldenRatio goldenRatio initval

/-- `jhash_1word`. -/
def oneWord (a initval : UInt32) : UInt32 :=
  (mix (a + goldenRatio) goldenRatio initval).2.2

end Jhash

/-! ## Tables -/

/-- `struct hash_backet`. -/
structure Backet (α : Type) where
  key : UInt32
  data : α

variable {α : Type} (hashKey : α → UInt32) (hashCmp : α → α → Bool)

/-- The test of `hash_get` and `hash_release`. -/
def Backet.holds (data : α) (backet : Backet α) : Bool :=
  backet.key = hashKey data && hashCmp backet.data data

variable (table : List (Backet α))

def hashLookup (data : α) : Option α :=
  (table.find? (Backet.holds hashKey hashCmp data)).map Backet.data

def hashRelease (data : α) : List (Backet α) :=
  table.eraseP (Backet.holds hashKey hashCmp data)

variable {hashKey hashCmp} {table : List (Backet α)} {data found : α}

theorem hashLookup_some (h : hashLookup hashKey hashCmp table data = some found) :
    ∃ backet ∈ table, backet.data = found ∧ backet.key = hashKey data
      ∧ hashCmp found data = true := by
  unfold hashLookup at h
  obtain ⟨backet, hfind, rfl⟩ := Option.map_eq_some_iff.mp h
  have hhd := List.find?_some hfind
  rw [Backet.holds, Bool.and_eq_true, decide_eq_true_eq] at hhd
  exact ⟨backet, List.mem_of_find?_eq_some hfind, rfl, hhd.1, hhd.2⟩

theorem hashLookup_none (h : hashLookup hashKey hashCmp table data = none)
    {backet : Backet α} (hm : backet ∈ table)
    (hk : backet.key = hashKey data) : hashCmp backet.data data = false := by
  unfold hashLookup at h
  have hno := List.find?_eq_none.mp (Option.map_eq_none_iff.mp h) backet hm
  rwa [Backet.holds, decide_eq_true hk, Bool.true_and, Bool.not_eq_true] at hno

end SdnQuagga
