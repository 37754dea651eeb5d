import SdnQuagga.BgpAspathNormalise
import SdnQuagga.BgpAttr

/-!
# Prepending, excluding, and reading a path from text

The constructors of AS paths that do not call `assegment_normalise`.
`aspath_prepend` joins two paths, `aspath_filter_exclude` takes ASNs out, and
`aspath_str2aspath` reads the text of a command.
-/

namespace SdnQuagga

open List
open Assegment (ofAsns ofAsns_eq)

/-! ## Prepending a path -/

/-- `aspath_merge` of nonempty paths. -/
def aspathMerge (as1 as2 : List Assegment) : List Assegment := as1 ++ as2

/-- The last part of `aspath_prepend`: the segment of the new head of `as2` is
joined to the last one of `as1`. -/
def joinSequences (as1 : List Assegment) (seg1 seg2 : Assegment)
    (next : List Assegment) : List Assegment :=
  as1.dropLast ++ assegmentAppendAsns seg1 seg2.as :: next

/-- `aspath_prepend`. `aspath_delete_confed_seq` frees the segment that `seg2`
points to; `freed` is the type that is read there afterwards. With a type
that sends the function to the freed ASNs there is no result. -/
def aspathPrepend (freed : SegType) (as1 as2 : List Assegment) :
    Option (List Assegment) :=
  match as2 with
  | [] => some as1
  | seg2 :: next =>
    match as1.getLast? with
    | none => some as2
    | some seg1 =>
      if seg1.type = .sequence ∧ seg2.type = .confedSequence then
        if seg1.type ≠ freed then
          some (aspathMerge as1 (aspathDeleteConfedSeq as2))
        else none
      else if seg1.type ≠ seg2.type then some (aspathMerge as1 as2)
      else if seg1.type = .sequence then
        some (joinSequences as1 seg1 seg2 next)
      else some (aspathMerge as1 as2)

/-! ## Excluding ASNs -/

def aspathFilterExclude : List Assegment → List Assegment → List Assegment
  | [], _ => []
  | srcseg :: next, excludeList =>
    let as := srcseg.as.filter fun asn => !(asns excludeList).contains asn
    if as.length = 0 then aspathFilterExclude next excludeList
    else .ofAsns srcseg.type as :: aspathFilterExclude next excludeList

/-! ## Reading text -/

/-- `enum as_token`. -/
inductive AsToken where
  | asval (asno : UInt32)
  | setStart
  | setEnd
  | confedSeqStart
  | confedSeqEnd
  | confedSetStart
  | confedSetEnd
  | unknown
deriving DecidableEq

def isSeparator (c : Char) : Bool :=
  c = ' ' || c = '\t' || c = '\n' || c = '\x0b' || c = '\x0c' || c = '\r' || c = ','

/-- The value of a run of digits, as an `as_t`. -/
def asvalOf (digits : List Char) : UInt32 :=
  digits.foldl (fun asval c => asval * 10 + UInt32.ofNat (c.toNat - 48)) 0

/-- The switch of `aspath_gettoken`; the token of a bracket. -/
def bracketToken (c : Char) : Option AsToken :=
  if c = '\x7b' then some .setStart
  else if c = '\x7d' then some .setEnd
  else if c = '(' then some .confedSeqStart
  else if c = ')' then some .confedSeqEnd
  else if c = '[' then some .confedSetStart
  else if c = ']' then some .confedSetEnd
  else none

/-- `aspath_gettoken`: the token and the rest of the text. -/
def aspathGettoken (buf : List Char) : Option (AsToken × List Char) :=
  match buf.dropWhile isSeparator with
  | [] => none
  | c :: p =>
    match bracketToken c with
    | some token => some (token, p)
    | none =>
      if c.isDigit then
        some (.asval (asvalOf (c :: p.takeWhile Char.isDigit)), p.dropWhile Char.isDigit)
      else some (.unknown, c :: p)

variable {token : AsToken} {st : StrState} {done : List WrittenSegment}
  {cur : Option WrittenSegment}

/-- A token that is known takes something of the text. -/
theorem aspathGettoken_length {buf rest : List Char}
    (h : aspathGettoken buf = some (token, rest)) (hkn : token ≠ .unknown) :
    rest.length < buf.length := by
  have hdr := (dropWhile_suffix (l := buf) isSeparator).length_le
  unfold aspathGettoken at h
  split at h
  · cases h
  next c p hbuf =>
    rw [hbuf, length_cons] at hdr
    split at h
    · cases h
      omega
    · split at h
      · cases h
        have := (dropWhile_suffix (l := p) Char.isDigit).length_le
        omega
      · cases h
        exact absurd rfl hkn

/-- The variables of `aspath_str2aspath`. -/
structure StrState where
  segments : List Assegment
  asType : SegType
  needtype : Bool

variable (segs : List Assegment)

def aspathSegmentAdd (type : SegType) : List Assegment :=
  segs ++ [.ofAsns type []]

def aspathAsAdd (asno : UInt32) : List Assegment :=
  match segs.getLast? with
  | none => segs
  | some seg => segs.dropLast ++ [assegmentAppendAsns seg [asno]]

variable (st)

def StrState.segmentStart (type : SegType) : StrState :=
  ⟨aspathSegmentAdd st.segments type, type, false⟩

def StrState.segmentEnd : StrState :=
  { st with asType := .sequence, needtype := true }

/-- The switch of `aspath_str2aspath`. -/
def strStep : AsToken → Option StrState
  | .asval asno =>
    let segs := if st.needtype then aspathSegmentAdd st.segments st.asType
      else st.segments
    some { st with segments := aspathAsAdd segs asno, needtype := false }
  | .setStart => some (st.segmentStart .set)
  | .setEnd => some st.segmentEnd
  | .confedSeqStart => some (st.segmentStart .confedSequence)
  | .confedSeqEnd => some st.segmentEnd
  | .confedSetStart => some (st.segmentStart .confedSet)
  | .confedSetEnd => some st.segmentEnd
  | .unknown => none

variable {st}

theorem strStep_known {st' : StrState} (h : strStep st token = some st') : token ≠ .unknown := by
  rintro rfl
  exact absurd h (by simp [strStep])

/-- The loop of `aspath_str2aspath`. -/
def strLoop (st : StrState) (str : List Char) : Option StrState :=
  match _htoken : aspathGettoken str with
  | none => some st
  | some (token, rest) =>
    match _hstep : strStep st token with
    | none => none
    | some st' => strLoop st' rest
termination_by str.length
decreasing_by exact aspathGettoken_length _htoken (strStep_known _hstep)

def aspathStr2aspath (str : List Char) : Option (List Assegment) :=
  (strLoop ⟨[], .sequence, true⟩ str).map StrState.segments

/-! ## What prepending keeps -/

variable {xs ys : List Assegment}

theorem NormalForm.append (hx : NormalForm xs) (hy : NormalForm ys)
    (hjn : ∀ x ∈ xs.getLast?, ∀ y ∈ ys.head?,
      ¬ (x.type = .sequence ∧ y.type = .sequence)) : NormalForm (xs ++ ys) where
  nonempty := fun seg hg => (mem_append.mp hg).elim (hx.nonempty seg) (hy.nonempty seg)
  separated := isChain_append.mpr ⟨hx.separated, hy.separated, hjn⟩
  ascending := fun seg hg => (mem_append.mp hg).elim (hx.ascending seg) (hy.ascending seg)

theorem mem_replace {seg new x : Assegment} (hx : x ∈ xs ++ new :: ys) :
    x = new ∨ x ∈ xs ++ seg :: ys := by
  simp only [mem_append, mem_cons] at hx ⊢
  tauto

theorem NormalForm.replace {seg : Assegment} (h : NormalForm (xs ++ seg :: ys)) {new : Assegment}
    (hty : new.type = seg.type) (hp : 0 < new.length)
    (hasc : new.type.isSet → new.as.Pairwise (· < ·)) : NormalForm (xs ++ new :: ys) where
  nonempty := by
    intro x hx
    rcases mem_replace hx with rfl | hold
    · exact hp
    · exact h.nonempty x hold
  separated := by
    obtain ⟨hxs, hys, hjn⟩ := isChain_append.mp h.separated
    refine isChain_append.mpr ⟨hxs, ?_, ?_⟩
    · rw [isChain_cons] at hys ⊢
      rwa [hty]
    · rintro x hx _ ⟨⟩
      rw [hty]
      exact hjn x hx seg rfl
  ascending := by
    intro x hx
    rcases mem_replace hx with rfl | hold
    · exact hasc
    · exact h.ascending x hold

variable {seg1 seg2 : Assegment}

/-- Two sequences joined: the length wraps, and is zero for 65536 ASNs. -/
theorem assegmentAppendAsns_pos (h1 : 0 < seg1.length) :
    0 < (assegmentAppendAsns seg1 seg2.as).length ↔ seg1.length + seg2.length ≠ 65536 := by
  have hlt1 := seg1.length_lt
  have hlt2 := seg2.length_lt
  simp only [assegmentAppendAsns, ofAsns, Assegment.length, length_take, length_append] at h1 ⊢
  omega

/-- What `aspath_prepend` needs: the first path does not end with an
`AS_SEQUENCE` where the second starts with an `AS_CONFED_SEQUENCE`, and two
sequences that meet do not have 65536 ASNs together. -/
def PrependFits (as1 as2 : List Assegment) : Prop :=
  ∀ seg1 ∈ as1.getLast?, ∀ seg2 ∈ as2.head?, seg1.type = .sequence → seg2.type ≠ .confedSequence
      ∧ (seg2.type = .sequence → seg1.length + seg2.length ≠ 65536)

/-- Two sequences that meet are joined. -/
theorem joinSequences_normalForm_iff {init next : List Assegment} (h1 : NormalForm (init ++ [seg1]))
    (h2 : NormalForm (seg2 :: next)) (hsq1 : seg1.type = .sequence) (hsq2 : seg2.type = .sequence) :
    NormalForm (joinSequences (init ++ [seg1]) seg1 seg2 next)
      ↔ seg1.length + seg2.length ≠ 65536 := by
  have hp := h1.nonempty seg1 (by simp)
  have hnx : ∀ y ∈ next.head?, y.type ≠ .sequence := by
    intro y hy hyseq
    exact (isChain_cons.mp h2.separated).1 y hy ⟨hsq2, hyseq⟩
  have hpln : NormalForm (init ++ seg1 :: next) := by
    have hap := h1.append h2.tail (fun x _ y hy hbo => hnx y hy hbo.2)
    rwa [append_assoc, singleton_append] at hap
  rw [joinSequences, dropLast_concat, ← assegmentAppendAsns_pos hp]
  constructor
  · intro h
    exact h.nonempty _ (by simp)
  · intro hlen
    have hty : (assegmentAppendAsns seg1 seg2.as).type = seg1.type := rfl
    refine hpln.replace hty hlen fun hset => ?_
    rw [hty, hsq1] at hset
    exact absurd hset (by decide)

theorem aspathPrepend_normalForm_iff {as1 as2 : List Assegment}
    (h1 : NormalForm as1) (h2 : NormalForm as2) :
    (∀ freed, ∃ segs, aspathPrepend freed as1 as2 = some segs ∧ NormalForm segs)
      ↔ PrependFits as1 as2 := by
  cases as2 with
  | nil => exact iff_of_true (fun freed => ⟨as1, rfl, h1⟩) (by simp [PrependFits])
  | cons seg2 next =>
    cases hla : as1.getLast? with
    | none =>
      refine iff_of_true (fun freed => ⟨seg2 :: next, ?_, h2⟩) ?_
      · rw [aspathPrepend, hla]
      · simp [PrependFits, hla]
    | some seg1 =>
      obtain ⟨init, rfl⟩ := getLast?_eq_some_iff.mp hla
      have hft : PrependFits (init ++ [seg1]) (seg2 :: next)
          ↔ (seg1.type = .sequence → seg2.type ≠ .confedSequence
            ∧ (seg2.type = .sequence → seg1.length + seg2.length ≠ 65536)) := by simp [PrependFits]
      have hmrg : ¬ (seg1.type = .sequence ∧ seg2.type = .sequence) →
          NormalForm (aspathMerge (init ++ [seg1]) (seg2 :: next)) := by
        intro hnt
        refine h1.append h2 ?_
        rintro x hx _ ⟨⟩
        cases hla.symm.trans hx
        exact hnt
      rw [hft]
      simp only [aspathPrepend, hla]
      by_cases hsq : seg1.type = .sequence
      · cases hty : seg2.type with
        | confedSequence =>
          refine iff_of_false (fun h => ?_) (fun h => (h hsq).1 rfl)
          obtain ⟨segs, hr, -⟩ := h .sequence
          simp [hsq] at hr
        | sequence =>
          have hjn := joinSequences_normalForm_iff h1 h2 hsq hty
          constructor
          · intro h _
            obtain ⟨segs, hr, hnm⟩ := h .set
            obtain rfl : joinSequences (init ++ [seg1]) seg1 seg2 next = segs := by
              simpa [hsq] using hr
            exact ⟨by simp, fun _ => hjn.mp hnm⟩
          · intro h freed
            exact ⟨_, by simp [hsq], hjn.mpr ((h hsq).2 rfl)⟩
        | set | confedSet =>
          refine iff_of_true (fun freed => ⟨_, ?_, hmrg ?_⟩) ?_
          · simp [hsq]
          · simp [hty]
          · simp
      · refine iff_of_true (fun freed => ⟨_, ?_, hmrg ?_⟩) ?_
        · simp [hsq]
        · simp [hsq]
        · simp [hsq]

/-! ## What excluding keeps -/

variable (excludeList : List Assegment) (seg : Assegment)

/-- The segment keeps an ASN. -/
def Assegment.survives : Bool :=
  seg.as.any fun asn => !(asns excludeList).contains asn

def Assegment.excluding :
    Assegment :=
  .ofAsns seg.type (seg.as.filter fun asn => !(asns excludeList).contains asn)

theorem aspathFilterExclude_eq (source excludeList : List Assegment) :
    aspathFilterExclude source excludeList = (source.filter (Assegment.survives excludeList)).map
        (Assegment.excluding excludeList) := by
  induction source with
  | nil => rfl
  | cons seg next ih =>
    have hz : (seg.as.filter fun asn => !(asns excludeList).contains asn).length
        = 0 ↔ seg.survives excludeList = false := by
      rw [length_eq_zero_iff, filter_eq_nil_iff, Assegment.survives, any_eq_false]
    rw [aspathFilterExclude, ih]
    by_cases hs : seg.survives excludeList
    · have hp := mt hz.mp (by simp [hs])
      rw [if_neg hp, filter_cons_of_pos hs, map_cons]
      rfl
    · rw [if_pos (hz.mpr (by simpa using hs)), filter_cons_of_neg hs]

theorem Assegment.excluding_as :
    (seg.excluding excludeList).as = seg.as.filter fun asn => !(asns excludeList).contains asn := by
  rw [Assegment.excluding, ofAsns_eq ((length_filter_le _ _).trans_lt seg.length_lt)]

theorem aspathFilterExclude_normalForm_iff {source : List Assegment}
    (h : NormalForm source) (excludeList : List Assegment) :
    NormalForm (aspathFilterExclude source excludeList)
      ↔ Separated (source.filter (Assegment.survives excludeList)) := by
  have hsep : Separated (aspathFilterExclude source excludeList)
      ↔ Separated (source.filter (Assegment.survives excludeList)) := by
    rw [aspathFilterExclude_eq]
    exact isChain_map _
  constructor
  · exact fun hnm => hsep.mp hnm.separated
  · intro hkp
    refine ⟨?_, hsep.mpr hkp, ?_⟩
    · intro seg hg
      rw [aspathFilterExclude_eq] at hg
      obtain ⟨old, hold, rfl⟩ := mem_map.mp hg
      obtain ⟨asn, hasn, hnt⟩ := any_eq_true.mp (mem_filter.mp hold).2
      rw [Assegment.length, Assegment.excluding_as]
      exact length_pos_of_mem (mem_filter.mpr ⟨hasn, hnt⟩)
    · intro seg hg hset
      rw [aspathFilterExclude_eq] at hg
      obtain ⟨old, hold, rfl⟩ := mem_map.mp hg
      rw [Assegment.excluding_as]
      exact (h.ascending old (mem_filter.mp hold).1 hset).filter _

/-! ## The segments of a text -/

/-- The tokens of a text, up to the first that is not known. -/
def aspathTokens (str : List Char) : List AsToken :=
  match _htoken : aspathGettoken str with
  | none => []
  | some (token, rest) =>
    if _hknown : token = .unknown then [.unknown]
    else token :: aspathTokens rest
termination_by str.length
decreasing_by exact aspathGettoken_length _htoken _hknown

/-- A segment as it is written: its type and its numbers. -/
abbrev WrittenSegment := SegType × List UInt32

/-- What a token does to the segment that is open: the segment that it closes,
and the one that is open behind it. A number outside of brackets opens a
sequence. -/
def writeToken (cur : Option WrittenSegment) :
    AsToken → List WrittenSegment × Option WrittenSegment
  | .asval n =>
    match cur with
    | none => ([], some (.sequence, [n]))
    | some (type, ns) => ([], some (type, ns ++ [n]))
  | .setStart => (cur.toList, some (.set, []))
  | .confedSeqStart => (cur.toList, some (.confedSequence, []))
  | .confedSetStart => (cur.toList, some (.confedSet, []))
  | .setEnd | .confedSeqEnd | .confedSetEnd | .unknown => (cur.toList, none)

def writtenSegments (cur : Option WrittenSegment) : List AsToken → List WrittenSegment
  | [] => cur.toList
  | token :: tokens =>
    (writeToken cur token).1 ++ writtenSegments (writeToken cur token).2 tokens

/-- What is stored of a written segment: its length wraps. -/
def WrittenSegment.stored (seg : WrittenSegment) : Assegment where
  type := seg.1
  as := seg.2.drop (65536 * (seg.2.length / 65536))
  length_lt := by
    rw [length_drop]
    omega

theorem WrittenSegment.stored_nil (type : SegType) :
    ofAsns type [] = WrittenSegment.stored (type, []) := by
  simp [ofAsns, WrittenSegment.stored]

theorem WrittenSegment.stored_append (type : SegType) (ns : List UInt32) (n : UInt32) :
    assegmentAppendAsns (WrittenSegment.stored (type, ns)) [n]
      = WrittenSegment.stored (type, ns ++ [n]) := by
  have hmod := Nat.div_add_mod ns.length 65536
  have hlen : (ns.drop (65536 * (ns.length / 65536)) ++ [n]).length = ns.length % 65536 + 1 := by
    rw [length_append, length_drop, length_singleton]
    omega
  by_cases hfu : ns.length % 65536 + 1 = 65536
  -- The length wraps to zero.
  · have hdiv : 65536 * ((ns ++ [n]).length / 65536) = (ns ++ [n]).length := by
      rw [length_append, length_singleton]
      omega
    simp only [assegmentAppendAsns, WrittenSegment.stored, ofAsns, hlen,
      hfu, Nat.mod_self, take_zero, hdiv, drop_length]
  · have hdiv : (ns ++ [n]).length / 65536 = ns.length / 65536 := by
      rw [length_append, length_singleton]
      omega
    have hlt : (ns.drop (65536 * (ns.length / 65536)) ++ [n]).length < 65536 := by omega
    have hdr : (ns ++ [n]).drop (65536 * (ns.length / 65536))
        = ns.drop (65536 * (ns.length / 65536)) ++ [n] :=
      drop_append_of_le_length (by omega)
    simp only [assegmentAppendAsns, WrittenSegment.stored]
    rw [ofAsns_eq hlt]
    simp only [hdiv, hdr]

/-- The state of the loop with `cur` open. -/
structure StandsAt (st : StrState) (done : List WrittenSegment)
    (cur : Option WrittenSegment) : Prop where
  segments : st.segments = (done ++ cur.toList).map WrittenSegment.stored
  needtype : st.needtype = cur.isNone
  asType : cur = none → st.asType = .sequence

theorem aspathAsAdd_concat (segs : List Assegment) (seg : Assegment) (asno : UInt32) :
    aspathAsAdd (segs ++ [seg]) asno = segs ++ [assegmentAppendAsns seg [asno]] := by
  rw [aspathAsAdd, getLast?_concat]
  simp only [dropLast_concat]

section

variable (h : StandsAt st done cur)
include h

theorem StandsAt.segmentStart (type : SegType) :
    StandsAt (st.segmentStart type) (done ++ cur.toList) (some (type, [])) where
  segments := by
    rw [StrState.segmentStart, aspathSegmentAdd, h.segments, WrittenSegment.stored_nil]
    simp
  needtype := rfl
  asType := by simp

theorem StandsAt.segmentEnd : StandsAt st.segmentEnd (done ++ cur.toList) none where
  segments := by
    rw [StrState.segmentEnd, h.segments]
    simp
  needtype := rfl
  asType := fun _ => rfl

/-- One token: the loop stands where the text does. -/
theorem strStep_standsAt (hkn : token ≠ .unknown) :
    ∃ st', strStep st token = some st'
      ∧ StandsAt st' (done ++ (writeToken cur token).1) (writeToken cur token).2 := by
  cases token with
  | unknown => exact absurd rfl hkn
  | setStart => exact ⟨_, rfl, h.segmentStart .set⟩
  | confedSeqStart => exact ⟨_, rfl, h.segmentStart .confedSequence⟩
  | confedSetStart => exact ⟨_, rfl, h.segmentStart .confedSet⟩
  | setEnd | confedSeqEnd | confedSetEnd => exact ⟨_, rfl, h.segmentEnd⟩
  | asval n =>
    obtain ⟨hsg, hneed, hty⟩ := h
    refine ⟨_, rfl, ?_⟩
    cases cur with
    | none =>
      refine ⟨?_, rfl, by simp [writeToken]⟩
      rw [Option.isNone_none] at hneed
      simp only [hneed, if_true]
      rw [aspathSegmentAdd, hty rfl, aspathAsAdd_concat, WrittenSegment.stored_nil,
        WrittenSegment.stored_append, hsg]
      simp [writeToken]
    | some seg =>
      obtain ⟨type, ns⟩ := seg
      refine ⟨?_, rfl, by simp [writeToken]⟩
      rw [Option.isNone_some] at hneed
      simp only [hneed, Bool.false_eq_true, if_false]
      rw [hsg, Option.toList_some, map_append, map_singleton, aspathAsAdd_concat,
        WrittenSegment.stored_append]
      simp [writeToken]

end

section

variable {str rest : List Char} {token : AsToken}

theorem aspathTokens_end (h : aspathGettoken str = none) : aspathTokens str = [] := by
  rw [aspathTokens]
  split
  · rfl
  next token rest htok => cases h.symm.trans htok

theorem aspathTokens_next (h : aspathGettoken str = some (token, rest)) :
    aspathTokens str = if token = .unknown then [.unknown] else token :: aspathTokens rest := by
  rw [aspathTokens]
  split
  next hno => cases h.symm.trans hno
  next token' rest' htok =>
    cases h.symm.trans htok
    simp only [dite_eq_ite]

theorem strLoop_end (st : StrState) (h : aspathGettoken str = none) : strLoop st str = some st := by
  rw [strLoop]
  split
  · rfl
  next token rest htok => cases h.symm.trans htok

theorem strLoop_next (st : StrState) (h : aspathGettoken str = some (token, rest)) :
    strLoop st str = (strStep st token).bind fun st => strLoop st rest := by
  rw [strLoop]
  split
  next hno => cases h.symm.trans hno
  next token' rest' htok =>
    cases h.symm.trans htok
    split
    next hste => rw [hste, Option.bind_none]
    next st' hste => rw [hste, Option.bind_some]

end

variable (str : List Char)

/-- The loop ends with the segments that are written. -/
theorem strLoop_spec : ∀ {st done cur},
    StandsAt st done cur → (AsToken.unknown ∈ aspathTokens str → strLoop st str = none)
    ∧ (AsToken.unknown ∉ aspathTokens str → ∃ st', strLoop st str = some st' ∧ st'.segments
        = (done ++ writtenSegments cur (aspathTokens str)).map WrittenSegment.stored) := by
  induction hlen : str.length using Nat.strong_induction_on generalizing str with
  | _ len ih =>
    subst hlen
    intro st done cur h
    cases htok : aspathGettoken str with
    | none =>
      rw [aspathTokens_end htok, strLoop_end st htok]
      exact ⟨by simp, fun _ => ⟨st, rfl, h.segments⟩⟩
    | some next =>
      obtain ⟨token, rest⟩ := next
      rw [aspathTokens_next htok, strLoop_next st htok]
      by_cases hkn : token = .unknown
      · subst hkn
        exact ⟨fun _ => rfl, by simp⟩
      · obtain ⟨st', hste, hstands⟩ := strStep_standsAt h hkn
        have hrs := ih rest.length (aspathGettoken_length htok hkn) rest
          rfl hstands
        rwa [if_neg hkn, hste, Option.bind_some, mem_cons,
          or_iff_right (Ne.symm hkn), writtenSegments, ← append_assoc]

/-! ## What reading keeps -/

/-- No segment is written empty or with a multiple of 65536 numbers, no two
sequences are adjacent, and the numbers of a set, as far as they are stored,
ascend. -/
structure WellWritten (segs : List WrittenSegment) : Prop where
  nonempty : ∀ seg ∈ segs, seg.2.length % 65536 ≠ 0
  separated : segs.IsChain fun x y => ¬ (x.1 = .sequence ∧ y.1 = .sequence)
  ascending : ∀ seg ∈ segs, seg.1.isSet →
    (seg.2.drop (65536 * (seg.2.length / 65536))).Pairwise (· < ·)

theorem wellWritten_iff (segs : List WrittenSegment) :
    NormalForm (segs.map WrittenSegment.stored) ↔ WellWritten segs := by
  have hlen : ∀ seg : WrittenSegment, 0 < seg.stored.length ↔ seg.2.length % 65536 ≠ 0 := by
    intro seg
    rw [Assegment.length, WrittenSegment.stored, length_drop]
    omega
  constructor
  · rintro ⟨hp, hsep, hasc⟩
    refine ⟨fun seg hg => ?_, (isChain_map _).mp hsep, fun seg hg => ?_⟩
    · exact (hlen seg).mp (hp _ (mem_map_of_mem hg))
    · exact hasc _ (mem_map_of_mem hg)
  · rintro ⟨hp, hsep, hasc⟩
    refine ⟨fun seg hg => ?_, (isChain_map _).mpr hsep, fun seg hg => ?_⟩
    · obtain ⟨old, hold, rfl⟩ := mem_map.mp hg
      exact (hlen old).mpr (hp old hold)
    · obtain ⟨old, hold, rfl⟩ := mem_map.mp hg
      exact hasc old hold

/-- A text is read to a normalised path just when it is written as one. -/
theorem aspathStr2aspath_normalForm_iff :
    (∀ segs, aspathStr2aspath str = some segs → NormalForm segs) ↔ .unknown ∈ aspathTokens str
        ∨ WellWritten (writtenSegments none (aspathTokens str)) := by
  have hst : StandsAt ⟨[], .sequence, true⟩ [] none := ⟨rfl, rfl, fun _ => rfl⟩
  obtain ⟨hb, hgo⟩ := strLoop_spec str hst
  rw [aspathStr2aspath]
  by_cases hunk : .unknown ∈ aspathTokens str
  · rw [hb hunk]
    exact iff_of_true (by simp) (Or.inl hunk)
  · obtain ⟨st', hr, hsg⟩ := hgo hunk
    rw [hr, or_iff_right hunk, ← wellWritten_iff, Option.map_some, hsg, nil_append]
    exact ⟨fun h => h _ rfl, fun h _ hso => Option.some.inj hso ▸ h⟩

end SdnQuagga
