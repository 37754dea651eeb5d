import SdnQuagga.BgpAspathWire
import SdnQuagga.BgpAttr

/-!
# AS path editing keeps the normal form

The path of an outgoing UPDATE is the stored one with ASNs prepended and
confederation segments removed. It is again in normal form, and a segment
of at most 255 ASNs grows by two at most, so that it takes two wire
segments at most. Only sequences are merged again by the receiver, which
matters for a confederation sequence that grows past 255.
-/

namespace SdnQuagga

open List

/-! ## Segment lengths -/

/-- Segment lengths, by segment type. -/
def Bounded (bound : SegType → Nat) (segs : List Assegment) : Prop :=
  ∀ seg ∈ segs, seg.length ≤ bound seg.type

theorem Bounded.mono {b c : SegType → Nat} {segs : List Assegment}
    (h : Bounded b segs) (hbc : ∀ t, b t ≤ c t) : Bounded c segs :=
  fun seg hg => (h seg hg).trans (hbc seg.type)

/-- One more ASN for segments of one type. -/
def oneMore (type : SegType) (b : SegType → Nat) : SegType → Nat :=
  fun t => if t = type then b t + 1 else b t

theorem le_oneMore (type : SegType) (b : SegType → Nat) (t : SegType) : b t ≤ oneMore type b t := by
  rw [oneMore]
  split
  · exact Nat.le_succ _
  · exact le_rfl

theorem prepend_one {seg : Assegment} (asno : UInt32) (h : seg.length < 65535) :
    ∃ hlt, assegmentPrependAsns seg asno 1 = ⟨seg.type, asno :: seg.as, hlt⟩ := by
  have hlt : (asno :: seg.as).length < 65536 := by
    rw [length_cons]
    exact Nat.succ_lt_succ h
  refine ⟨hlt, ?_⟩
  rw [assegmentPrependAsns, if_neg (by decide)]
  exact Assegment.ofAsns_eq hlt

/-! ## Prepending -/

section

variable {type : SegType} {segs : List Assegment}

/-- `aspath_add_one_as` makes a new segment or extends the first one. -/
theorem aspathAddOneAs_cases (type : SegType) (asno : UInt32)
    (h : NormalForm segs) (hlen : ∀ seg ∈ segs, seg.length < 65535) :
    (aspathAddOneAs type asno segs = ⟨type, [asno], by simp⟩ :: segs
        ∧ ∀ seg ∈ segs.head?, seg.type ≠ type)
      ∨ ∃ seg next hlt, segs = seg :: next ∧ seg.type = type ∧ aspathAddOneAs type asno segs
          = ⟨seg.type, asno :: seg.as, hlt⟩ :: next := by
  have hsng : Assegment.ofAsns type [asno] = ⟨type, [asno], by simp⟩ :=
    Assegment.ofAsns_eq (by simp)
  cases segs with
  | nil =>
    left
    exact ⟨by rw [aspathAddOneAs, hsng], by simp⟩
  | cons seg next =>
    have hp := h.nonempty seg mem_cons_self
    rw [aspathAddOneAs, if_neg (by omega)]
    by_cases hty : seg.type = type
    · right
      obtain ⟨hlt, heq⟩ := prepend_one asno (hlen seg mem_cons_self)
      exact ⟨seg, next, hlt, rfl, hty, by rw [if_pos hty, heq]⟩
    · left
      refine ⟨by rw [if_neg hty, hsng], ?_⟩
      intro x hx
      obtain rfl : seg = x := by simpa using hx
      exact hty

theorem normalForm_addOneAs (asno : UInt32) (hset : type.isSet = false)
    (h : NormalForm segs) (hlen : ∀ seg ∈ segs, seg.length < 65535) :
    NormalForm (aspathAddOneAs type asno segs) := by
  rcases aspathAddOneAs_cases type asno h hlen with
    ⟨heq, hhe⟩ | ⟨seg, next, hlt, rfl, hty, heq⟩
  · rw [heq]
    refine ⟨?_, ?_, ?_⟩
    · exact forall_mem_cons.mpr ⟨Nat.one_pos, h.nonempty⟩
    · refine isChain_cons.mpr ⟨fun x hx hbo => ?_, h.separated⟩
      exact hhe x hx (hbo.2.trans hbo.1.symm)
    · refine forall_mem_cons.mpr ⟨fun hs => ?_, h.ascending⟩
      exact absurd hs (by simp [hset])
  · obtain ⟨hp, hsep, hasc⟩ := h
    rw [heq]
    refine ⟨?_, ?_, ?_⟩
    · exact forall_mem_cons.mpr ⟨Nat.succ_pos _, (forall_mem_cons.mp hp).2⟩
    · exact isChain_cons.mpr (isChain_cons.mp hsep)
    · refine forall_mem_cons.mpr ⟨fun hs => ?_, (forall_mem_cons.mp hasc).2⟩
      exact absurd hs (by simp [hty, hset])

theorem bounded_addOneAs {b : SegType → Nat} (asno : UInt32)
    (h : NormalForm segs) (hlen : ∀ seg ∈ segs, seg.length < 65535) (hb : Bounded b segs) :
    Bounded (oneMore type b) (aspathAddOneAs type asno segs) := by
  have hmo := hb.mono (le_oneMore type b)
  rcases aspathAddOneAs_cases type asno h hlen with
    ⟨heq, -⟩ | ⟨seg, next, hlt, rfl, hty, heq⟩
  · rw [heq]
    refine forall_mem_cons.mpr ⟨?_, hmo⟩
    rw [oneMore, if_pos rfl]
    exact Nat.succ_le_succ (Nat.zero_le _)
  · rw [heq]
    refine forall_mem_cons.mpr ⟨?_, (forall_mem_cons.mp hmo).2⟩
    rw [oneMore, if_pos hty]
    exact Nat.succ_le_succ ((forall_mem_cons.mp hb).1)

end

/-! ## Removing confederation segments -/

theorem NormalForm.suffix {segs tail : List Assegment} (h : NormalForm segs)
    (htl : tail <:+ segs) : NormalForm tail where
  nonempty := fun seg hg => h.nonempty seg (htl.subset hg)
  separated := .suffix h.separated htl
  ascending := fun seg hg => h.ascending seg (htl.subset hg)

theorem deleteConfedSeq_suffix (segs : List Assegment) : aspathDeleteConfedSeq segs <:+ segs := by
  cases segs with
  | nil => exact suffix_rfl
  | cons seg next =>
    rw [aspathDeleteConfedSeq]
    split
    · exact suffix_rfl
    · exact dropWhile_suffix _

/-! ## The path that is sent -/

/-- The segment lengths of a path before it is sent. -/
def storedBound : SegType → Nat := fun _ => asSegmentMax

/-- Two more for sequences. -/
def sentBound : SegType → Nat :=
  oneMore .sequence (oneMore .sequence storedBound)

theorem lt_of_bounded {segs : List Assegment} {b : SegType → Nat}
    (h : Bounded b segs) (hb : ∀ t, b t < 65535) : ∀ seg ∈ segs, seg.length < 65535 :=
  fun seg hg => (h seg hg).trans_lt (hb seg.type)

theorem storedBound_lt (t : SegType) : storedBound t < 65535 := by
  cases t <;> decide

theorem oneMore_storedBound_lt (s t : SegType) : oneMore s storedBound t < 65535 := by
  cases s <;> cases t <;> decide

theorem oneMore_le_sentBound (t : SegType) : oneMore .sequence storedBound t ≤ sentBound t :=
  le_oneMore _ _ t

variable {bgp : Bgp} {peer : Peer} {af : PeerAfFlags}
  {aspath : List Assegment} (asno : UInt32)

theorem aspathAddSeq_stored (h : NormalForm aspath) (hb : Bounded storedBound aspath) :
    NormalForm (aspathAddSeq asno aspath)
      ∧ Bounded (oneMore .sequence storedBound) (aspathAddSeq asno aspath) :=
  have hlen := lt_of_bounded hb storedBound_lt
  ⟨normalForm_addOneAs asno rfl h hlen, bounded_addOneAs asno h hlen hb⟩

/-- Outside the confederation the path grows at a sequence. -/
theorem packetAspath_sent (bgp : Bgp) (af : PeerAfFlags) (hst : peerSort peer ≠ .confed)
    (h : NormalForm aspath) (hb : Bounded storedBound aspath) :
    NormalForm (packetAspath bgp peer af aspath)
      ∧ Bounded sentBound (packetAspath bgp peer af aspath) := by
  have hsto : Bounded sentBound aspath :=
    (hb.mono (le_oneMore .sequence _)).mono oneMore_le_sentBound
  rw [packetAspath, if_neg hst]
  split
  · split
    · have htl := deleteConfedSeq_suffix aspath
      obtain ⟨hn, hs⟩ := aspathAddSeq_stored bgp.confedId (h.suffix htl)
        fun seg hg => hb seg (htl.subset hg)
      exact ⟨hn, hs.mono oneMore_le_sentBound⟩
    · obtain ⟨hn, hs⟩ := aspathAddSeq_stored peer.localAs h hb
      have hlen := lt_of_bounded hs (oneMore_storedBound_lt .sequence)
      simp only
      split
      · exact ⟨normalForm_addOneAs _ rfl hn hlen, bounded_addOneAs _ hn hlen hs⟩
      · exact ⟨hn, hs.mono oneMore_le_sentBound⟩
  · exact ⟨h, hsto⟩

/-- Inside it grows at a confederation sequence. -/
theorem packetAspath_confed (hst : peerSort peer = .confed) :
    packetAspath bgp peer af aspath = aspathAddConfedSeq peer.localAs aspath := by
  rw [packetAspath, hst, if_neg (by simp), if_pos rfl]

theorem aspathAddConfedSeq_stored (h : NormalForm aspath) (hb : Bounded storedBound aspath) :
    NormalForm (aspathAddConfedSeq asno aspath) ∧ Bounded (oneMore .confedSequence storedBound)
        (aspathAddConfedSeq asno aspath) :=
  have hlen := lt_of_bounded hb storedBound_lt
  ⟨normalForm_addOneAs asno rfl h hlen, bounded_addOneAs asno h hlen hb⟩

variable {seg : Assegment}

theorem splitCount_le_one (h : seg.length ≤ 2 * asSegmentMax) : splitCount seg ≤ 1 := by
  simp only [splitCount, asSegmentMax] at *
  omega

theorem normalForm_packetAspath (h : NormalForm aspath) (hb : Bounded storedBound aspath) :
    NormalForm (packetAspath bgp peer af aspath)
      ∧ ∀ seg ∈ packetAspath bgp peer af aspath, splitCount seg ≤ 1 := by
  by_cases hst : peerSort peer = .confed
  · obtain ⟨hn, hs⟩ := aspathAddConfedSeq_stored peer.localAs h hb
    rw [packetAspath_confed hst]
    refine ⟨hn, fun seg hg => splitCount_le_one ((hs seg hg).trans ?_)⟩
    cases seg.type <;> decide
  · obtain ⟨hn, hs⟩ := packetAspath_sent bgp af hst h hb
    refine ⟨hn, fun seg hg => splitCount_le_one ((hs seg hg).trans ?_)⟩
    cases seg.type <;> decide

/-! ## The path that is received -/

theorem wirePath_of_bounded {segs : List Assegment} {b : SegType → Nat}
    (h : NormalForm segs) (hb : Bounded b segs) (hsq : b .sequence ≤ 2 * asSegmentMax)
    (ho : ∀ t, t ≠ .sequence → b t ≤ asSegmentMax) : wirePath segs = segs := by
  refine wirePath_eq h (fun seg hg => ?_) fun seg hg hne => (hb seg hg).trans (ho _ hne)
  have hle := hb seg hg
  by_cases hty : seg.type = .sequence
  · exact splitCount_le_one (hle.trans (hty ▸ hsq))
  · exact splitCount_le_one ((hle.trans (ho _ hty)).trans (by decide))

/-- The path starts with a confederation sequence that has no room for
another ASN. -/
def FullConfedHead (aspath : List Assegment) : Prop :=
  ∃ seg ∈ aspath.head?, seg.type = .confedSequence ∧ seg.length = asSegmentMax

/-- A full confederation sequence is split, and stays split. -/
theorem wirePath_long_confed (next : List Assegment)
    (hty : seg.type = .confedSequence) (hlen : seg.length = asSegmentMax + 1) :
    ∃ tail, wirePath (seg :: next) = firstChunk seg :: tail := by
  have hsp : splitCount seg = 1 := by
    rw [splitCount, hlen]
    decide
  have hnorm tail :
      assegmentNormalise (firstChunk seg :: tail) = firstChunk seg :: assegmentNormalise tail :=
    assegmentNormalise_single (by simp [firstChunk, hty])
      (by simp [firstChunk, hty, SegType.isSet])
  rw [wirePath, flatMap_cons, putChunks, hsp, replicate_one, append_assoc, singleton_append]
  exact ⟨_, hnorm _⟩

/-- What happens to a path with a full confederation sequence in front. -/
theorem fullConfedHead_split (h : NormalForm aspath)
    (hb : Bounded storedBound aspath) (hfu : FullConfedHead aspath) :
    ∃ sent next got tail, aspathAddConfedSeq asno aspath = sent :: next
        ∧ sent.type = .confedSequence ∧ sent.length = asSegmentMax + 1
        ∧ wirePath (aspathAddConfedSeq asno aspath) = got :: tail
        ∧ got.type = .confedSequence ∧ got.length = asSegmentMax := by
  obtain ⟨seg, hg, hty, hlen⟩ := hfu
  rcases aspathAddOneAs_cases .confedSequence asno h (lt_of_bounded hb storedBound_lt) with
    ⟨-, hhe⟩ | ⟨x, next, hlt, rfl, hxtype, heq⟩
  · exact absurd hty (hhe seg hg)
  · obtain rfl : x = seg := by simpa using hg
    rw [aspathAddConfedSeq, heq]
    generalize hsn : Assegment.mk x.type (asno :: x.as) hlt = sent
    have hstype : sent.type = .confedSequence := hsn ▸ hxtype
    have hslen : sent.length = asSegmentMax + 1 := hsn ▸ congrArg Nat.succ hlen
    obtain ⟨tail, htl⟩ := wirePath_long_confed next hstype hslen
    exact ⟨sent, next, firstChunk sent, tail, rfl, hstype, hslen, htl,
      hstype, firstChunk_length (by omega)⟩

theorem bounded_addConfedSeq (h : NormalForm aspath)
    (hb : Bounded storedBound aspath) (hrm : ¬ FullConfedHead aspath) :
    Bounded storedBound (aspathAddConfedSeq asno aspath) := by
  rcases aspathAddOneAs_cases .confedSequence asno h (lt_of_bounded hb storedBound_lt) with
    ⟨heq, -⟩ | ⟨seg, next, hlt, rfl, hty, heq⟩
  · rw [aspathAddConfedSeq, heq]
    refine forall_mem_cons.mpr ⟨?_, hb⟩
    exact (by decide : 1 ≤ asSegmentMax)
  · rw [aspathAddConfedSeq, heq]
    obtain ⟨hg, hnx⟩ := forall_mem_cons.mp hb
    have hne : seg.length ≠ asSegmentMax := fun hfu =>
      hrm ⟨seg, rfl, hty, hfu⟩
    exact forall_mem_cons.mpr ⟨Nat.lt_of_le_of_ne hg hne, hnx⟩

/-- The peer reads the path that was sent, unless it is a confederation
peer and the first segment was full. -/
theorem wirePath_packetAspath (bgp : Bgp) (af : PeerAfFlags)
    (h : NormalForm aspath) (hb : Bounded storedBound aspath)
    (hrm : peerSort peer = .confed → ¬ FullConfedHead aspath) :
    wirePath (packetAspath bgp peer af aspath) = packetAspath bgp peer af aspath := by
  by_cases hst : peerSort peer = .confed
  · rw [packetAspath_confed hst]
    exact wirePath_of_bounded (aspathAddConfedSeq_stored peer.localAs h hb).1
      (bounded_addConfedSeq peer.localAs h hb (hrm hst)) (by decide)
      fun t _ => le_rfl
  · obtain ⟨hn, hs⟩ := packetAspath_sent bgp af hst h hb
    refine wirePath_of_bounded hn hs (by decide) fun t ht => ?_
    cases t with
    | sequence => exact absurd rfl ht
    | set => decide
    | confedSequence => decide
    | confedSet => decide

end SdnQuagga
