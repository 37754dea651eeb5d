import Mathlib.Data.Finset.Card
import SdnQuagga.BgpAspathNormalise

/-!
# Aggregation of AS paths

`aspath_aggregate` keeps the leading part that two paths share and puts the
rest of both into one set. The index at which the rest starts is left over
from the last pair of segments that was compared. Where the paths part inside
a pair of segments of one type it is the number of ASNs that agree; where they
part at the end of a segment it is the length of that segment, and as many
ASNs of the segments behind it get lost.
-/

namespace SdnQuagga

open List

/-! ## The source -/

/-- The longest common leading part of two lists. -/
def commonPart {α : Type} [DecidableEq α] : List α → List α → List α
  | x :: xs, y :: ys => if x = y then x :: commonPart xs ys else []
  | _, _ => []

/-- What the first loop of `aspath_aggregate` leaves behind. -/
structure Leading where
  segments : List Assegment
  matched : Nat
  seg1 : List Assegment
  seg2 : List Assegment

/-- The first loop of `aspath_aggregate`. -/
def aggregateLeading (matched : Nat) : List Assegment → List Assegment → Leading
  | seg1 :: next1, seg2 :: next2 =>
    if seg1.type ≠ seg2.type then ⟨[], matched, seg1 :: next1, seg2 :: next2⟩
    else
      let same := commonPart seg1.as seg2.as
      let seg := if same.length = 0 then [] else [.ofAsns seg1.type same]
      if same.length ≠ min seg1.length seg2.length ∨ same.length ≠ seg1.length
          ∨ seg1.length ≠ seg2.length then
        ⟨seg, same.length, seg1 :: next1, seg2 :: next2⟩
      else
        let rest := aggregateLeading same.length next1 next2
        { rest with segments := seg ++ rest.segments }
  | seg1, seg2 => ⟨[], matched, seg1, seg2⟩

/-- `aspath_aggregate_as_set_add`; the missing set is the empty one. With
65535 members the length wraps to zero and the store is out of bounds. -/
def aggregateAsSetAdd (asset : List UInt32) (as : UInt32) :
    Option (List UInt32) :=
  if as ∈ asset then some asset
  else if asset.length + 1 < 65536 then some (asset ++ [as])
  else none

/-- The loops over the rest of one path. -/
def aggregateRest (start : Nat) (asset : List UInt32) :
    List Assegment → Option (List UInt32)
  | [] => some asset
  | seg :: next => do
    let asset ← (seg.as.drop start).foldlM aggregateAsSetAdd asset
    aggregateRest 0 asset next

def aspathAggregate (as1 as2 : List Assegment) : Option (List Assegment) := do
  let leading := aggregateLeading 0 as1 as2
  let asset ← aggregateRest leading.matched [] leading.seg1
  let asset ← aggregateRest leading.matched asset leading.seg2
  return assegmentNormalise (leading.segments ++ if asset = [] then [] else [.ofAsns .set asset])

def aspathLoopCheck (aspath : List Assegment) (asno : UInt32) : Nat :=
  (aspath.map fun seg => seg.as.count asno).sum

/-! ## Common parts -/

section

variable {α : Type} [DecidableEq α]

theorem commonPart_isPrefix : ∀ xs ys : List α, commonPart xs ys <+: xs ∧ commonPart xs ys <+: ys
  | [], _ | _ :: _, [] => ⟨ nil_prefix, nil_prefix⟩
  | x :: xs, y :: ys => by
    rw [commonPart]
    split
    next hxy =>
      obtain ⟨hx, hy⟩ := commonPart_isPrefix xs ys
      subst hxy
      exact ⟨prefix_cons_inj x |>.mpr hx, prefix_cons_inj x |>.mpr hy⟩
    · exact ⟨ nil_prefix, nil_prefix⟩

theorem commonPart_append_drop (xs ys : List α) :
    xs = commonPart xs ys ++ xs.drop (commonPart xs ys).length
      ∧ ys = commonPart xs ys ++ ys.drop (commonPart xs ys).length := by
  obtain ⟨hxs, hys⟩ := commonPart_isPrefix xs ys
  exact ⟨(prefix_iff_eq_append.mp hxs).symm, (prefix_iff_eq_append.mp hys).symm⟩

theorem commonPart_self (xs : List α) : commonPart xs xs = xs := by
  induction xs with
  | nil => rfl
  | cons x xs ih => rw [commonPart, if_pos rfl, ih]

theorem eq_of_commonPart_length {xs ys : List α} (hx : (commonPart xs ys).length = xs.length)
    (hlen : xs.length = ys.length) : xs = ys := by
  obtain ⟨hxs, hys⟩ := commonPart_isPrefix xs ys
  rw [← hxs.eq_of_length hx, hys.eq_of_length (hx.trans hlen)]

end

/-! ## The leading part -/

variable (start : Nat)

/-- The ASNs of a path from an index of its first segment on. -/
def asnsFrom : List Assegment → List UInt32
  | [] => []
  | seg :: next => seg.as.drop start ++ asns next

def asnsUpTo : List Assegment → List UInt32
  | [] => []
  | seg :: _ => seg.as.take start

theorem mem_asns_split {n : UInt32} (segs : List Assegment) :
    n ∈ asns segs ↔ n ∈ asnsUpTo start segs ∨ n ∈ asnsFrom start segs := by
  cases segs with
  | nil => simp [asnsUpTo, asnsFrom]
  | cons seg next =>
    have hsp : n ∈ seg.as ↔ n ∈ seg.as.take start ∨ n ∈ seg.as.drop start := by
      rw [← mem_append, take_append_drop]
    simp only [asns_cons, asnsUpTo, asnsFrom, mem_append, hsp, or_assoc]

/-- Two paths part inside a pair of segments of one type. -/
def partsInside : List Assegment → List Assegment → Bool
  | seg1 :: _, seg2 :: _ => seg1.type = seg2.type
  | _, _ => false

/-- The ASNs that the parting segments share. -/
def sharedAsns : List Assegment → List Assegment → List UInt32
  | seg1 :: _, seg2 :: _ =>
    if seg1.type = seg2.type then commonPart seg1.as seg2.as else []
  | _, _ => []

/-- The last segment of the leading part, where the paths part inside it. -/
def partingSegment : List Assegment → List Assegment → List Assegment
  | seg1 :: next1, rest2 =>
    if (sharedAsns (seg1 :: next1) rest2).length = 0 then []
    else [.ofAsns seg1.type (sharedAsns (seg1 :: next1) rest2)]
  | [], _ => []

/-- The length of the last of the segments that two paths share. -/
def lastLength (matched : Nat) (shared : List Assegment) : Nat :=
  (shared.getLast?.map Assegment.length).getD matched

def restStart (matched : Nat) (shared rest1 rest2 : List Assegment) : Nat :=
  if partsInside rest1 rest2 then (sharedAsns rest1 rest2).length
  else lastLength matched shared

variable {as1 rest1 rest2 : List Assegment}

/-- The first loop stops where the paths part. -/
theorem aggregateLeading_eq :
    ∀ (matched : Nat) (as2 : List Assegment), (∀ seg ∈ as1, 0 < seg.length) →
    let shared := commonPart as1 as2
    let rest1 := as1.drop shared.length
    let rest2 := as2.drop shared.length
    aggregateLeading matched as1 as2 = ⟨shared ++ partingSegment rest1 rest2,
        restStart matched shared rest1 rest2, rest1, rest2⟩ := by
  induction as1 with
  | nil =>
    intro matched as2 hp
    simp [aggregateLeading, commonPart, partingSegment, restStart, partsInside, lastLength]
  | cons seg1 next1 ih =>
    intro matched as2 hp
    cases as2 with
    | nil =>
      simp [aggregateLeading, commonPart, partingSegment, restStart,
        partsInside, lastLength, sharedAsns]
    | cons seg2 next2 =>
      have hlen := hp seg1 mem_cons_self
      by_cases heq : seg1 = seg2
      · subst heq
        have hshr : commonPart (seg1 :: next1) (seg1 :: next2)
            = seg1 :: commonPart next1 next2 := by rw [commonPart, if_pos rfl]
        have hla : ∀ shared, lastLength matched (seg1 :: shared)
            = lastLength seg1.length shared := by
          intro shared
          rw [lastLength, lastLength, getLast?_cons]
          cases shared.getLast? <;> rfl
        have hfu : ¬ (seg1.as.length ≠ min seg1.length seg1.length
            ∨ seg1.as.length ≠ seg1.length ∨ seg1.length ≠ seg1.length) := by
          simp [Assegment.length]
        have hnx := ih seg1.length next2 fun seg hg => hp seg (mem_cons_of_mem _ hg)
        have hz : seg1.as.length ≠ 0 := Nat.pos_iff_ne_zero.mp hlen
        rw [aggregateLeading, if_neg (by simp), commonPart_self, if_neg hfu,
          if_neg hz, Assegment.ofAsns_self, hshr]
        simp only [length_cons, drop_succ_cons, restStart, hla]
        rw [show seg1.as.length = seg1.length from rfl, hnx]
        rfl
      · have hshr : commonPart (seg1 :: next1) (seg2 :: next2) = [] := by
          rw [commonPart, if_neg heq]
        rw [hshr]
        simp only [length_nil, drop_zero, nil_append]
        by_cases hty : seg1.type = seg2.type
        · have hpart : (commonPart seg1.as seg2.as).length ≠ min seg1.length seg2.length
              ∨ (commonPart seg1.as seg2.as).length ≠ seg1.length ∨ seg1.length ≠ seg2.length := by
            by_contra hnt
            push Not at hnt
            obtain ⟨type1, as1, h1⟩ := seg1
            obtain ⟨type2, as2, h2⟩ := seg2
            have has : as1 = as2 := eq_of_commonPart_length hnt.2.1 hnt.2.2
            exact heq (by simpa [has] using hty)
          rw [aggregateLeading, if_neg (not_not.mpr hty), if_pos hpart]
          simp [partingSegment, sharedAsns, restStart, partsInside, hty]
        · simp [aggregateLeading, hty, partingSegment, sharedAsns,
            restStart, partsInside, lastLength]

/-! ## The set of the rest -/

theorem aggregateRest_eq (asset : List UInt32) (segs : List Assegment) :
    aggregateRest start asset segs = (asnsFrom start segs).foldlM aggregateAsSetAdd asset := by
  have hz : ∀ segs asset,
      aggregateRest 0 asset segs = (asns segs).foldlM aggregateAsSetAdd asset := by
    intro segs
    induction segs with
    | nil => exact fun asset => rfl
    | cons seg next ih =>
      intro asset
      rw [aggregateRest, asns_cons, foldlM_append, drop_zero]
      simp only [ih]
  cases segs with
  | nil => rfl
  | cons seg next =>
    rw [aggregateRest, asnsFrom, foldlM_append]
    simp only [hz]

theorem aspathAggregate_eq (as1 as2 : List Assegment) :
    aspathAggregate as1 as2 = let leading := aggregateLeading 0 as1 as2
        ((asnsFrom leading.matched leading.seg1 ++ asnsFrom leading.matched leading.seg2).foldlM
            aggregateAsSetAdd []).map fun asset =>
          assegmentNormalise (leading.segments
            ++ if asset = [] then [] else [.ofAsns .set asset]) := by
  unfold aspathAggregate
  simp only [aggregateRest_eq, foldlM_append]
  cases (asnsFrom (aggregateLeading 0 as1 as2).matched
    (aggregateLeading 0 as1 as2).seg1).foldlM aggregateAsSetAdd [] with
  | none => rfl
  | some asset =>
    simp only [Option.bind_eq_bind, Option.bind_some]
    cases (asnsFrom (aggregateLeading 0 as1 as2).matched
      (aggregateLeading 0 as1 as2).seg2).foldlM aggregateAsSetAdd asset <;> rfl

/-- The set has a member for each ASN, as long as its length can count them. -/
theorem foldlM_aggregateAsSetAdd {as : List UInt32} :
    ∀ {asset : List UInt32}, asset.Nodup → asset.length < 65536 →
    ((asset ++ as).toFinset.card < 65536 →
      ∃ full, as.foldlM aggregateAsSetAdd asset = some full ∧ full.length < 65536
        ∧ ∀ n, n ∈ full ↔ n ∈ asset ∨ n ∈ as)
    ∧ (65536 ≤ (asset ++ as).toFinset.card → as.foldlM aggregateAsSetAdd asset = none) := by
  induction as with
  | nil =>
    intro asset hnd hlen
    rw [append_nil, toFinset_card_of_nodup hnd]
    exact ⟨fun _ => ⟨asset, rfl, hlen, by simp⟩, fun h => by omega⟩
  | cons a as ih =>
    intro asset hnd hlen
    rw [foldlM_cons, aggregateAsSetAdd]
    by_cases hm : a ∈ asset
    · have hs : (asset ++ a :: as).toFinset = (asset ++ as).toFinset := by
        ext n
        simp only [mem_toFinset, mem_append, mem_cons]
        constructor
        · rintro (h | rfl | h)
          · exact .inl h
          · exact .inl hm
          · exact .inr h
        · tauto
      rw [if_pos hm, hs]
      obtain ⟨hso, hno⟩ := ih hnd hlen
      refine ⟨fun hcr => ?_, hno⟩
      obtain ⟨full, hr, hfu, hiff⟩ := hso hcr
      refine ⟨full, hr, hfu, fun n => ?_⟩
      rw [hiff, mem_cons]
      constructor
      · tauto
      · rintro (h | rfl | h)
        · exact .inl h
        · exact .inl hm
        · exact .inr h
    · have hs : asset ++ a :: as = (asset ++ [a]) ++ as := by simp
      have hnd' : (asset ++ [a]).Nodup := by
        rw [nodup_append]
        refine ⟨hnd, by simp, ?_⟩
        rintro x hx y hy rfl
        exact hm (mem_singleton.mp hy ▸ hx)
      rw [if_neg hm, hs]
      split_ifs with hrm
      · obtain ⟨hso, hno⟩ := ih hnd' (by simpa using hrm)
        refine ⟨fun hcr => ?_, hno⟩
        obtain ⟨full, hr, hfu, hiff⟩ := hso hcr
        refine ⟨full, hr, hfu, fun n => ?_⟩
        rw [hiff, mem_append, mem_singleton, mem_cons, or_assoc]
      · refine ⟨fun hcr => ?_, fun _ => rfl⟩
        have hle : (asset ++ [a]).toFinset.card ≤ ((asset ++ [a]) ++ as).toFinset.card := by
          refine Finset.card_le_card fun n hn => ?_
          rw [mem_toFinset] at hn ⊢
          exact mem_append_left as hn
        rw [toFinset_card_of_nodup hnd', length_append, length_singleton] at hle
        omega

/-! ## The result -/

theorem sharedAsns_isPrefix (rest1 rest2 : List Assegment) :
    (∀ seg ∈ rest1.head?, sharedAsns rest1 rest2 <+: seg.as)
      ∧ ∀ seg ∈ rest2.head?, sharedAsns rest1 rest2 <+: seg.as := by
  unfold sharedAsns
  split
  next seg1 _ seg2 _ =>
    obtain ⟨h1, h2⟩ := commonPart_isPrefix seg1.as seg2.as
    split
    · exact ⟨by rintro _ ⟨⟩; exact h1, by rintro _ ⟨⟩; exact h2⟩
    · exact ⟨fun _ _ => nil_prefix, fun _ _ => nil_prefix⟩
  · exact ⟨fun _ _ => nil_prefix, fun _ _ => nil_prefix⟩

theorem asns_partingSegment (rest1 rest2 : List Assegment) :
    asns (partingSegment rest1 rest2) = sharedAsns rest1 rest2 := by
  cases rest1 with
  | nil => simp [partingSegment, sharedAsns]
  | cons seg1 next1 =>
    rw [partingSegment]
    split
    next hz =>
      rw [length_eq_zero_iff] at hz
      rw [hz, asns_nil]
    · have hlt := ((sharedAsns_isPrefix (seg1 :: next1) rest2).1 seg1
        rfl).length_le.trans_lt seg1.length_lt
      rw [Assegment.ofAsns_eq hlt, asns_cons, asns_nil, append_nil]

theorem separated_parting {shared : List Assegment}
    (h : Separated (shared ++ rest1)) (rest2 : List Assegment) :
    Separated (shared ++ partingSegment rest1 rest2) := by
  cases rest1 with
  | nil => exact h
  | cons seg1 next1 =>
    obtain ⟨hshr, -, hjn⟩ := isChain_append.mp h
    rw [partingSegment]
    split
    · rwa [append_nil]
    · refine isChain_append.mpr ⟨hshr, isChain_singleton _, ?_⟩
      rintro x hx _ ⟨⟩
      exact hjn x hx seg1 rfl

variable {seg : Assegment}

theorem separated_set {segs : List Assegment} (h : Separated segs) (hs : seg.type = .set) :
    Separated (segs ++ [seg]) := by
  refine isChain_append.mpr ⟨h, isChain_singleton _, ?_⟩
  rintro x - _ ⟨⟩
  rw [hs]
  simp

/-- What aggregation needs to keep every ASN: where the paths part at the end
of a segment, each ASN among the first ones of the next segments, as many as
that segment has, occurs somewhere else; and the set can count its members. -/
structure AggregateKeeps (as1 as2 : List Assegment) : Prop where
  skipped : let shared := commonPart as1 as2
    let rest1 := as1.drop shared.length
    let rest2 := as2.drop shared.length
    let start := lastLength 0 shared
    ¬ partsInside rest1 rest2 → ∀ n ∈ asnsUpTo start rest1 ++ asnsUpTo start rest2,
        n ∈ asns shared ++ asnsFrom start rest1 ++ asnsFrom start rest2
  room : let shared := commonPart as1 as2
    let rest1 := as1.drop shared.length
    let rest2 := as2.drop shared.length
    let start := restStart 0 shared rest1 rest2
    (asnsFrom start rest1 ++ asnsFrom start rest2).toFinset.card < 65536

theorem aspathLoopCheck_pos {aspath : List Assegment} {n : UInt32} :
    1 ≤ aspathLoopCheck aspath n ↔ n ∈ asns aspath := by
  induction aspath with
  | nil => simp [aspathLoopCheck]
  | cons seg next ih =>
    have hg : 1 ≤ seg.as.count n ↔ n ∈ seg.as := one_le_count_iff
    have hsu : aspathLoopCheck (seg :: next) n = seg.as.count n + aspathLoopCheck next n := rfl
    rw [asns_cons, mem_append, ← hg, ← ih, hsu]
    omega

theorem partingSegment_pos (hg : seg ∈ partingSegment rest1 rest2) : 0 < seg.length := by
  have hasn := asns_partingSegment rest1 rest2
  cases rest1 with
  | nil => simp [partingSegment] at hg
  | cons seg1 next1 =>
    rw [partingSegment] at hg hasn
    split at hg
    · simp at hg
    next hne =>
      rw [if_neg hne, asns_cons, asns_nil, append_nil] at hasn
      rw [mem_singleton.mp hg, Assegment.length, hasn]
      omega

/-- The path that is made of the leading part and the set. -/
def aggregated (leading : List Assegment) (asset : List UInt32) :
    List Assegment :=
  assegmentNormalise (leading ++ if asset = [] then [] else [.ofAsns .set asset])

theorem aggregated_spec {leading : List Assegment} {asset : List UInt32}
    (hp : ∀ seg ∈ leading, 0 < seg.length) (hsep : Separated leading)
    (hlen : asset.length < 65536) :
    NormalForm (aggregated leading asset)
      ∧ ∀ n, n ∈ asns (aggregated leading asset) ↔ n ∈ asns leading ∨ n ∈ asset := by
  unfold aggregated
  split
  next hni =>
    rw [append_nil, assegmentNormalise_of_separated hsep, hni]
    refine ⟨normalForm_map_sorted hp hsep, fun n => ?_⟩
    rw [mem_asns_map_sorted]
    simp
  next hne =>
    have hs : Separated (leading ++ [.ofAsns .set asset]) :=
      separated_set hsep (Assegment.ofAsns_type _ _)
    rw [assegmentNormalise_of_separated hs]
    refine ⟨normalForm_map_sorted (fun seg hg => ?_) hs, fun n => ?_⟩
    · rcases mem_append.mp hg with hold | hnw
      · exact hp seg hold
      · rw [mem_singleton.mp hnw, Assegment.ofAsns_eq hlen]
        exact length_pos_iff.mpr hne
    · rw [mem_asns_map_sorted, asns_append, mem_append, asns_cons, asns_nil,
        append_nil, Assegment.ofAsns_eq hlen]

/-- The result of aggregation, with the ASNs that it holds. -/
theorem aspathAggregate_spec (as2 : List Assegment) (h1 : NormalForm as1) :
    let shared := commonPart as1 as2
    let rest1 := as1.drop shared.length
    let rest2 := as2.drop shared.length
    let start := restStart 0 shared rest1 rest2
    let rest := asnsFrom start rest1 ++ asnsFrom start rest2
    (rest.toFinset.card < 65536 → ∃ agg, aspathAggregate as1 as2 = some agg
      ∧ NormalForm agg ∧ ∀ n, n ∈ asns agg ↔
        n ∈ asns shared ∨ n ∈ sharedAsns rest1 rest2 ∨ n ∈ rest)
    ∧ (65536 ≤ rest.toFinset.card → aspathAggregate as1 as2 = none) := by
  intro shared rest1 rest2 start rest
  have hsp : as1 = shared ++ rest1 := (commonPart_append_drop as1 as2).1
  have hsep : Separated (shared ++ partingSegment rest1 rest2) :=
    separated_parting (hsp ▸ h1.separated) rest2
  have hp : ∀ seg ∈ shared ++ partingSegment rest1 rest2, 0 < seg.length := by
    intro seg hg
    rcases mem_append.mp hg with hold | hnw
    · exact h1.nonempty seg (hsp ▸ mem_append_left _ hold)
    · exact partingSegment_pos hnw
  have hr : aspathAggregate as1 as2 = (rest.foldlM aggregateAsSetAdd []).map
      (aggregated (shared ++ partingSegment rest1 rest2)) := by
    rw [aspathAggregate_eq, aggregateLeading_eq 0 as2 h1.nonempty]
    rfl
  obtain ⟨hso, hno⟩ :=
    @foldlM_aggregateAsSetAdd rest [] nodup_nil (by simp)
  rw [hr]
  constructor
  · intro hcr
    obtain ⟨full, hfu, hlen, hm⟩ := hso hcr
    obtain ⟨hnm, hasn⟩ := aggregated_spec hp hsep hlen
    refine ⟨_, by rw [hfu, Option.map_some], hnm, fun n => ?_⟩
    rw [hasn, hm, asns_append, mem_append, asns_partingSegment, or_assoc]
    simp
  · intro hcr
    rw [hno hcr, Option.map_none]

/-- Where the paths part inside a pair of segments, the ASNs before the start
are those that the pair shares. -/
theorem asnsUpTo_sharedAsns (h : partsInside rest1 rest2) :
    asnsUpTo (sharedAsns rest1 rest2).length rest1 = sharedAsns rest1 rest2
      ∧ asnsUpTo (sharedAsns rest1 rest2).length rest2 = sharedAsns rest1 rest2 := by
  obtain ⟨hpre1, hpre2⟩ := sharedAsns_isPrefix rest1 rest2
  unfold partsInside at h
  split at h
  next seg1 _ seg2 _ =>
    exact ⟨(prefix_iff_eq_take.mp (hpre1 seg1 rfl)).symm,
      (prefix_iff_eq_take.mp (hpre2 seg2 rfl)).symm⟩
  · exact absurd h (by simp)

theorem sharedAsns_of_not_inside (h : ¬ partsInside rest1 rest2) : sharedAsns rest1 rest2 = [] := by
  unfold partsInside at h
  unfold sharedAsns
  split
  · rw [if_neg (by simpa using h)]
  · rfl

/-- The set of ASNs before the start must be held elsewhere. -/
theorem aggregate_asns_iff {as2 agg : List Assegment} (hagg : let shared := commonPart as1 as2
      let rest1 := as1.drop shared.length
      let rest2 := as2.drop shared.length
      let start := restStart 0 shared rest1 rest2
      ∀ n, n ∈ asns agg ↔ n ∈ asns shared ∨ n ∈ sharedAsns rest1 rest2
        ∨ n ∈ asnsFrom start rest1 ++ asnsFrom start rest2) :
    (∀ n, n ∈ asns agg ↔ n ∈ asns as1 ∨ n ∈ asns as2) ↔ let shared := commonPart as1 as2
        let rest1 := as1.drop shared.length
        let rest2 := as2.drop shared.length
        let start := lastLength 0 shared
        ¬ partsInside rest1 rest2 → ∀ n ∈ asnsUpTo start rest1 ++ asnsUpTo start rest2,
            n ∈ asns shared ++ asnsFrom start rest1 ++ asnsFrom start rest2 := by
  obtain ⟨has1, has2⟩ := commonPart_append_drop as1 as2
  set shared := commonPart as1 as2
  set rest1 := as1.drop shared.length
  set rest2 := as2.drop shared.length
  have hbo : ∀ start n, n ∈ asns as1 ∨ n ∈ asns as2 ↔ n ∈ asns shared
      ∨ (n ∈ asnsUpTo start rest1 ∨ n ∈ asnsFrom start rest1)
      ∨ (n ∈ asnsUpTo start rest2 ∨ n ∈ asnsFrom start rest2) := by
    intro start n
    rw [has1, has2, asns_append, asns_append, mem_append, mem_append,
      mem_asns_split start rest1, mem_asns_split start rest2]
    tauto
  by_cases his : partsInside rest1 rest2
  · obtain ⟨hup1, hup2⟩ := asnsUpTo_sharedAsns his
    refine iff_of_true (fun n => ?_) (fun hnt => absurd his hnt)
    have hst : restStart 0 shared rest1 rest2 = (sharedAsns rest1 rest2).length := by
      rw [restStart, if_pos his]
    rw [hagg, hst, hbo (sharedAsns rest1 rest2).length, hup1, hup2, mem_append]
    tauto
  · have hst : restStart 0 shared rest1 rest2 = lastLength 0 shared := by
      rw [restStart, if_neg his]
    have hagg' : ∀ n, n ∈ asns agg ↔ n ∈ asns shared ++ asnsFrom (lastLength 0 shared) rest1
        ++ asnsFrom (lastLength 0 shared) rest2 := by
      intro n
      rw [hagg, hst, sharedAsns_of_not_inside his]
      simp only [not_mem_nil, false_or, mem_append, or_assoc]
      exact Iff.rfl
    simp only [hagg', hbo (lastLength 0 shared), mem_append]
    constructor
    · intro h _ n hn
      exact (h n).mpr (by tauto)
    · intro h n
      have := h his n
      tauto

/-- An ASN is found in the aggregate just when it is found in one of the two
paths, if and only if they meet `AggregateKeeps`. -/
theorem aggregate_loop_check_iff {as1 : List Assegment} (as2 : List Assegment)
    (h1 : NormalForm as1) :
    (∃ agg, aspathAggregate as1 as2 = some agg ∧ ∀ n, 1 ≤ aspathLoopCheck agg n
        ↔ 1 ≤ aspathLoopCheck as1 n ∨ 1 ≤ aspathLoopCheck as2 n) ↔ AggregateKeeps as1 as2 := by
  obtain ⟨hsome, hnone⟩ := aspathAggregate_spec as2 h1
  simp only [aspathLoopCheck_pos]
  constructor
  · rintro ⟨agg, hrun, hloop⟩
    have hroom := Nat.lt_of_not_le fun hcard =>
      absurd (hrun.symm.trans (hnone hcard)) (by simp)
    obtain ⟨agg', hrun', -, hagg⟩ := hsome hroom
    cases hrun.symm.trans hrun'
    exact ⟨(aggregate_asns_iff hagg).mp hloop, hroom⟩
  · rintro ⟨hskipped, hroom⟩
    obtain ⟨agg, hrun, -, hagg⟩ := hsome hroom
    exact ⟨agg, hrun, (aggregate_asns_iff hagg).mpr hskipped⟩

/-- `1 2` and `1 3` part inside a sequence. -/
theorem aggregate_loop_check_inside :
    ∃ agg, aspathAggregate [⟨.sequence, [1, 2], by decide⟩]
        [⟨.sequence, [1, 3], by decide⟩] = some agg
      ∧ ∀ n, 1 ≤ aspathLoopCheck agg n ↔ 1 ≤ aspathLoopCheck [⟨.sequence, [1, 2], by decide⟩] n
          ∨ 1 ≤ aspathLoopCheck [⟨.sequence, [1, 3], by decide⟩] n :=
  (aggregate_loop_check_iff _ (normalForm_singleton (by decide) (by decide))).mpr
    { skipped := fun hnot => absurd (by decide) hnot
      room := by decide }

/-- `1 2` with the set of 3 and 4 behind it, and `1 2` alone: the set is lost. -/
theorem aggregate_loses_set :
    let as1 : List Assegment :=
      [⟨.sequence, [1, 2], by decide⟩, ⟨.set, [3, 4], by decide⟩]
    let as2 : List Assegment := [⟨.sequence, [1, 2], by decide⟩]
    NormalForm as1 ∧ NormalForm as2 ∧ aspathAggregate as1 as2 = some as2
      ∧ aspathLoopCheck as1 3 = 1 ∧ aspathLoopCheck as2 3 = 0 := by
  refine ⟨⟨by decide, ?_, by decide⟩, normalForm_singleton (by decide) (by decide),
    by decide +kernel, by decide, by decide⟩
  exact isChain_cons_cons.mpr ⟨by decide, isChain_singleton _⟩

end SdnQuagga
