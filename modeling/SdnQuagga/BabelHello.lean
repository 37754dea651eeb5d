import Mathlib.Data.Nat.Bitwise
import SdnQuagga.BabelMetric

/-!
# Which Hellos of a neighbor have come

The map of the last 16 Hellos that `update_neighbour` of `babeld/neighbour.c` keeps in `reach`.
Hellos are numbered without a bound here, and a packet has the lower 16 bits.

The timer counts a Hello as missed before it may still come. One that comes then is ignored, or
takes back what was shifted out of the map. After 32 Hellos that are missed at once the map is
shifted by more than its type allows. Nothing else goes wrong.
-/

namespace SdnQuagga

open Option

section

variable (now : Int) (neigh : Neighbour)

/-- The Hellos that `update_neighbour` misses by the time. -/
def missedHellos : Nat :=
  if neigh.helloInterval = 0 then 0
  else (timevalMinusMsec now neigh.helloTime - neigh.helloInterval.toNat * 7)
    / (neigh.helloInterval.toNat * 10)

/-- `update_neighbour` without a Hello. -/
def updateNeighbourTimer : Option Neighbour :=
  let missed := missedHellos now neigh
  if missed = 0 then some neigh
  else { neigh with
    helloTime := neigh.helloTime + (missed * neigh.helloInterval.toNat * 10000 : Nat) }.missed
      missed none

/-- A neighbor with the number of the last Hello that is expected, and those that have come. -/
structure HelloLog where
  neigh : Neighbour
  last : Nat
  got : List Nat

inductive HelloEvent where
  | hello (now : Int) (n : Nat) (interval : UInt16)
  | timer (now : Int)

variable (s : HelloLog)

def HelloLog.step : HelloEvent → Option HelloLog
  | .hello now n interval =>
    (updateNeighbour now (.ofNat n) interval s.neigh).map (⟨·, n, n :: s.got⟩)
  | .timer now =>
    (updateNeighbourTimer now s.neigh).map (⟨·, s.last + missedHellos now s.neigh, s.got⟩)

/-- Hellos come with increasing numbers. -/
def HelloLog.Fits : HelloEvent → Prop
  | .hello _ n _ => (∀ j ∈ s.got, j < n) ∧ ∀ j ∈ s.got.head?, n < j + 2 ^ 15
  | .timer _ => True

/-- The bit for the Hello that is `k` before the last one. -/
def heardAt (reach : UInt16) (k : Nat) : Prop := reach.toNat.testBit (15 - k) = true

def HelloLog.Exact : Prop := ∀ k < 16, heardAt s.neigh.reach k ↔ ∃ j ∈ s.got, j + k = s.last

/-- No Hello that has come is forgotten, and no more than 31 are missed at once. -/
def HelloLog.Safe : HelloEvent → Prop
  | .hello _ n interval =>
    if s.neigh.reach = 0 then ∀ j ∈ s.got, j + 16 ≤ n
    else if s.last < n then n ≤ s.last + 32
    else s.last < n + 8 ∧ s.neigh.helloInterval < interval
      ∧ ∀ j ∈ s.got, j + 16 ≤ n ∨ s.last < j + 16
  | .timer now => missedHellos now s.neigh < 32

def HelloLog.ExactAlong (s : HelloLog) : List HelloEvent → Prop
  | [] => True
  | e :: es => s.Fits e → ∃ s' ∈ s.step e, s'.Exact ∧ s'.ExactAlong es

def HelloLog.SafeAlong (s : HelloLog) : List HelloEvent → Prop
  | [] => True
  | e :: es => s.Fits e → s.Safe e ∧ ∀ s' ∈ s.step e, s'.SafeAlong es

/-- The neighbor keeps the number of the last Hello. -/
structure HelloLog.Tracks : Prop where
  seqno : s.neigh.helloSeqno = s.got.head?.map fun _ => .ofNat s.last
  le : ∀ j ∈ s.got, j ≤ s.last

end

section

variable {reach : UInt16} {k : Nat}

theorem heardAt_zero : ¬ heardAt 0 k := by
  simp [heardAt]

theorem testBit_reach {i : Nat} (hi : 16 ≤ i) : reach.toNat.testBit i = false :=
  Nat.testBit_lt_two_pow (reach.toNat_lt.trans_le (Nat.pow_le_pow_right (by decide) hi))

theorem heardAt_hello (hk : k < 16) :
    heardAt ((reach >>> 1) ||| 0x8000) k ↔ k = 0 ∨ 0 < k ∧ heardAt reach (k - 1) := by
  have hbit : Nat.testBit 0x8000 (15 - k) = true ↔ k = 0 := by
    rw [show 0x8000 = 2 ^ 15 from rfl, Nat.testBit_two_pow, decide_eq_true_eq]
    omega
  simp only [heardAt, UInt16.toNat_or, UInt16.toNat_shiftRight, UInt16.reduceToNat,
    Nat.reduceMod, Nat.testBit_or, Nat.testBit_shiftRight, Bool.or_eq_true, hbit]
  rcases k.eq_zero_or_pos with rfl | hp
  · simp
  · rw [or_comm, and_iff_right hp, show 1 + (15 - k) = 15 - (k - 1) by omega]

theorem heardAt_shiftRight (m : Nat) (hk : k < 16) :
    heardAt (.ofNat (reach.toNat >>> m)) k ↔ m ≤ k ∧ heardAt reach (k - m) := by
  have hlt : reach.toNat >>> m < 2 ^ 16 := Nat.lt_of_le_of_lt (Nat.shiftRight_le _ _) reach.toNat_lt
  rw [heardAt, UInt16.toNat_ofNat_of_lt' hlt, Nat.testBit_shiftRight]
  by_cases hm : m ≤ k
  · rw [and_iff_right hm, heardAt, show m + (15 - k) = 15 - (k - m) by omega]
  · simp [hm, testBit_reach (show 16 ≤ m + (15 - k) by omega)]

theorem heardAt_shiftLeft (c : Nat) (hk : k < 16) :
    heardAt (.ofNat (reach.toNat <<< c)) k ↔ k + c < 16 ∧ heardAt reach (k + c) := by
  rw [heardAt, UInt16.toNat_ofNat', Nat.testBit_mod_two_pow, Nat.testBit_shiftLeft, heardAt,
    Nat.sub_sub]
  simp only [Bool.and_eq_true, decide_eq_true_eq, ← and_assoc]
  exact and_congr_left fun _ => by omega

theorem eq_zero_of_not_heardAt (h : ∀ k < 16, ¬ heardAt reach k) : reach = 0 := by
  refine UInt16.toNat_inj.mp (Nat.eq_of_testBit_eq fun i => ?_)
  rw [UInt16.toNat_zero, Nat.zero_testBit]
  by_cases hi : 16 ≤ i
  · exact testBit_reach hi
  · have := h (15 - i) (by omega)
    rwa [heardAt, show 15 - (15 - i) = i by omega, Bool.not_eq_true] at this

theorem seqnoMinus_ofNat {n last : Nat} (hlt : n < last + 2 ^ 15) (hle : last ≤ n + 2 ^ 15) :
    seqnoMinus (.ofNat n) (.ofNat last) = n - last := by
  unfold seqnoMinus
  dsimp only
  rw [UInt16.toNat_sub, UInt16.toNat_ofNat', UInt16.toNat_ofNat']
  split_ifs <;> omega

end

variable {s s' : HelloLog} {e : HelloEvent} {neigh neigh' : Neighbour}

theorem timer_exact_iff (now : Int) (htk : s.Tracks) (hexa : s.Exact) :
    (∃ s' ∈ s.step (.timer now), s'.Exact) ↔ s.Safe (.timer now) := by
  simp only [HelloLog.step, HelloLog.Safe, updateNeighbourTimer, Neighbour.missed, shiftReach]
  generalize missedHellos now s.neigh = missed
  split_ifs with h0 hlt
  · simp_all [HelloLog.Exact]
  · simp only [hlt, iff_true]
    refine ⟨_, rfl, fun k hk => ?_⟩
    have hle := htk.le
    have hbit := hexa (k - missed) (by omega)
    simp only [heardAt_shiftRight _ hk]
    grind
  · simp [hlt]

theorem exists_got (hexa : s.Exact) (hrch : s.neigh.reach ≠ 0) : ∃ j ∈ s.got, s.last < j + 16 := by
  by_contra h
  push Not at h
  refine hrch (eq_zero_of_not_heardAt fun k hk hbit => ?_)
  obtain ⟨j, hj, hla⟩ := (hexa k hk).mp hbit
  have := h j hj
  omega

/-- A Hello comes after so many that are missed. -/
theorem missed_exact_iff {neigh : Neighbour} {hello : UInt16} {got : List Nat} {n : Nat} (m : Nat)
    (hlt : ∀ j ∈ got, j < n) :
    (∃ s' ∈ (neigh.missed m (some hello)).map (HelloLog.mk · n (n :: got)), s'.Exact)
      ↔ m < 32 ∧ (∀ k < 15, m ≤ k → heardAt neigh.reach (k - m) → ∃ j ∈ got, j + k + 1 = n)
        ∧ ∀ j ∈ got, n < j + 16 → m + j < n ∧ heardAt neigh.reach (n - j - 1 - m) := by
  unfold Neighbour.missed shiftReach
  split_ifs with hm
  · rw [and_iff_right hm]
    simp only [bind_eq_bind, bind_some, pure_def, map_some,
      mem_some_iff, exists_eq_left', HelloLog.Exact]
    have hbit k (hk : k + 1 < 16) := @heardAt_hello (.ofNat (neigh.reach.toNat >>> m)) _ hk
    simp only [Nat.add_sub_cancel] at hbit
    constructor
    · intro h
      refine ⟨fun k hk => ?_, fun j hj hn => ?_⟩
      · have := h (k + 1) (by omega)
        rw [hbit k (by omega), heardAt_shiftRight m (by omega)] at this
        grind
      · have := h (n - j - 1 + 1) (by omega)
        rw [hbit _ (by omega), heardAt_shiftRight m (by omega)] at this
        grind
    · intro h k hk
      cases k with
      | zero => simp [heardAt_hello]
      | succ k =>
        rw [hbit k hk, heardAt_shiftRight m (by omega)]
        grind
  · simp [hm]

theorem hello_exact_iff {now : Int} {n : Nat} {interval : UInt16} (htk : s.Tracks)
    (hexa : s.Exact) (hft : s.Fits (.hello now n interval)) :
    (∃ s' ∈ s.step (.hello now n interval), s'.Exact) ↔ s.Safe (.hello now n interval) := by
  obtain ⟨hlt, hgap⟩ := hft
  have hle := htk.le
  simp only [HelloLog.step, HelloLog.Safe]
  by_cases hrch : s.neigh.reach = 0
  · have hnw : updateNeighbour now (.ofNat n) interval s.neigh
        = { s.neigh with helloTime := now, helloInterval := interval }.missed 0
          (some (.ofNat n)) := by
      simp only [updateNeighbour, if_pos hrch]
      cases s.neigh.helloSeqno <;> rfl
    rw [hnw, missed_exact_iff 0 hlt, if_pos hrch]
    simp only [hrch, heardAt_zero]
    grind
  · obtain ⟨j, hj, hla⟩ := exists_got hexa hrch
    obtain ⟨m, hm⟩ : ∃ m, s.got.head? = some m := by
      cases hgot : s.got with
      | nil => simp [hgot] at hj
      | cons m _ => exact ⟨m, rfl⟩
    have hmle := hle m (List.mem_of_mem_head? hm)
    have hjn := hlt j hj
    have hseqno := htk.seqno
    rw [hm] at hseqno
    have hmn := hgap m hm
    simp only [updateNeighbour]
    rw [hseqno]
    simp only [map_some, if_neg hrch, seqnoMinus_ofNat (show n < s.last + 2 ^ 15 by omega)
      (show s.last ≤ n + 2 ^ 15 by omega)]
    split_ifs with hold hnw hlate hivl
    · omega
    · -- The neighbor seems to have restarted, and is forgotten.
      rw [missed_exact_iff 0 hlt]
      simp only [heardAt_zero]
      grind
    · omega
    · -- What the timer has counted as missed is taken back.
      rw [missed_exact_iff 0 hlt]
      obtain ⟨c, hc⟩ : ∃ c, s.last + 1 = n + c := ⟨s.last + 1 - n, by omega⟩
      have hneg : (-((n : Int) - s.last - 1)).toNat = c := by omega
      have hbit := fun k hk => @heardAt_shiftLeft s.neigh.reach k c hk
      simp only [hneg]
      unfold HelloLog.Exact at hexa
      grind
    · omega
    · -- The Hello is ignored, although the last one expected now is this one.
      refine iff_of_false ?_ (fun h => hivl h.2.1)
      rintro ⟨s', hs', hexa'⟩
      cases hs'
      have hbit := (hexa' 0 (by decide)).mpr ⟨n, List.mem_cons_self, rfl⟩
      rw [heardAt_shiftRight 0 (by decide)] at hbit
      obtain ⟨j, hj, hjlast⟩ := (hexa 0 (by decide)).mp hbit.2
      have := hlt j hj
      omega
    · -- Hellos are missed.
      rw [missed_exact_iff _ hlt]
      obtain ⟨c, hc⟩ : ∃ c, n = s.last + 1 + c := ⟨n - (s.last + 1), by omega⟩
      have hmissed : ((n : Int) - s.last - 1).toNat = c := by omega
      simp only [hmissed]
      unfold HelloLog.Exact at hexa
      grind
    · omega

theorem missed_seqno {m : Nat} {hello : Option UInt16}
    (h : neigh.missed m hello = some neigh') :
    neigh'.helloSeqno = hello.or (neigh.helloSeqno.map (· + .ofNat m)) := by
  obtain ⟨reach, -, h⟩ := bind_eq_some_iff.mp h
  cases hello <;> cases h <;> rfl

theorem updateNeighbour_seqno {now : Int} {hello interval : UInt16}
    (h : updateNeighbour now hello interval neigh = some neigh') :
    neigh'.helloSeqno = some hello := by
  simp only [updateNeighbour] at h
  split at h
  · exact missed_seqno h
  · split_ifs at h
    · exact missed_seqno h
    · exact missed_seqno h
    · exact missed_seqno h
    · rw [missed_seqno h]
      simp
    · exact missed_seqno h

theorem tracks_step (htk : s.Tracks) (hft : s.Fits e) (h : s.step e = some s') : s'.Tracks := by
  cases e with
  | hello now n interval =>
    obtain ⟨neigh, hngh, rfl⟩ := map_eq_some_iff.mp h
    refine ⟨updateNeighbour_seqno hngh, fun j hj => ?_⟩
    obtain rfl | hj := List.mem_cons.mp hj
    · exact le_rfl
    · exact (hft.1 j hj).le
  | timer now =>
    obtain ⟨neigh, hngh, rfl⟩ := map_eq_some_iff.mp h
    refine ⟨?_, fun j hj => Nat.le_add_right_of_le (htk.le j hj)⟩
    simp only [updateNeighbourTimer] at hngh
    split_ifs at hngh with h0
    · cases hngh
      rw [htk.seqno, h0]
      rfl
    · rw [missed_seqno hngh]
      simp only [htk.seqno, none_or, map_map, UInt16.ofNat_add]
      rfl

theorem exactAlong_iff (htk : s.Tracks) (hexa : s.Exact) (es : List HelloEvent) :
    s.ExactAlong es ↔ s.SafeAlong es := by
  induction es generalizing s with
  | nil => rfl
  | cons e es ih =>
    refine forall_congr' fun hft => ?_
    have hst : (∃ s' ∈ s.step e, s'.Exact) ↔ s.Safe e := by
      cases e with
      | hello now n interval => exact hello_exact_iff htk hexa hft
      | timer now => exact timer_exact_iff now htk hexa
    rw [← hst]
    constructor
    · rintro ⟨s', hs', hexa', hes⟩
      refine ⟨⟨s', hs', hexa'⟩, fun s'' hs'' => ?_⟩
      cases mem_unique hs' hs''
      exact (ih (tracks_step htk hft hs') hexa').mp hes
    · rintro ⟨⟨s', hs', hexa'⟩, hes⟩
      exact ⟨s', hs', hexa', (ih (tracks_step htk hft hs') hexa').mpr (hes s' hs')⟩

/-- Of a neighbor from the beginning. -/
theorem hello_map_exact_iff (now : Int) (ifp : BabelIf) (es : List HelloEvent) :
    HelloLog.ExactAlong ⟨.new now ifp, 0, []⟩ es ↔ HelloLog.SafeAlong ⟨.new now ifp, 0, []⟩ es := by
  refine exactAlong_iff ⟨rfl, by simp⟩ (fun k _ => ?_) es
  exact iff_of_false heardAt_zero (by simp)

/-- The timer misses the third Hello, which then comes but is not in the map; and 32 Hellos are
missed at once. -/
theorem hello_map_inexact :
    (∃ s ∈ [.hello 1000000 1 100, .hello 2000000 2 100, .timer 4000000,
        .hello 4100000 3 100].foldlM HelloLog.step ⟨.new 0 wirelessIf, 0, []⟩,
      s.last = 3 ∧ s.got = [3, 2, 1] ∧ s.neigh.reach = 0x6000)
    ∧ ¬ ∃ s ∈ [.hello 1000000 1 100, .hello 2000000 34 100].foldlM HelloLog.step
        ⟨.new 0 wirelessIf, 0, []⟩, s.got = [34, 1] := by
  decide

end SdnQuagga
