import SdnQuagga.BgpAspath

/-!
# The AS_PATH wire round trip

What `aspath_put` really stores for a path of any segment lengths
(`putChunks`) and what it returns for it (`putCount`), and what
`assegments_parse` makes of a chain of wire segments. The two agree as
long as no segment needs more than two wire segments: from the third
chunk on the split loop stores the first 255 ASNs again and counts the
chunks before it once more.
-/

namespace SdnQuagga

open FaultM SdnQuagga.Stream List
open Assegment (ofAsns_eq ofAsns_self ofAsns)

/-! ## Wire segments -/

variable (as : List UInt32)

def asnsWire : List UInt8 := as.flatMap be32

variable (seg : Assegment)

def segWire : List UInt8 :=
  seg.type.code :: UInt8.ofNat seg.length :: asnsWire seg.as

variable (segs : List Assegment)

def segsWire : List UInt8 := segs.flatMap segWire

@[simp] theorem asnsWire_length : (asnsWire as).length = 4 * as.length := by
  induction as with
  | nil => rfl
  | cons a as ih =>
    simp only [asnsWire, flatMap_cons, length_append, be32_length, length_cons] at *
    omega

theorem assegmentSize_true (n : Nat) : assegmentSize n true = 2 + n * 4 := rfl

@[simp] theorem segWire_length : (segWire seg).length = assegmentSize seg.length true := by
  simp only [segWire, length_cons, asnsWire_length, assegmentSize_true, Assegment.length]
  omega

@[simp] theorem segsWire_cons : segsWire (seg :: segs) = segWire seg ++ segsWire segs := rfl

@[simp] theorem segsWire_append (xs ys : List Assegment) :
    segsWire (xs ++ ys) = segsWire xs ++ segsWire ys := flatMap_append

/-! ## What the writer stores -/

theorem emits_asnsPut : Emits (asnsPut true as) (asnsWire as) () := by
  induction as with
  | nil => exact .pure ()
  | cons a as ih => exact (emits_putl a).bind ih

variable {as : List UInt32} {seg : Assegment} {segs : List Assegment}

theorem emits_assegmentDataPut (h : as.length ≤ asSegmentMax) :
    Emits (assegmentDataPut as true) (asnsWire as) () := by
  rw [assegmentDataPut, if_pos h]
  exact emits_asnsPut as

theorem assegmentHeaderPut_ok {type : SegType} {n : Nat} (h : n ≤ asSegmentMax) (s : Stream)
    (hs : [type.code, UInt8.ofNat n].length ≤ s.writeable) :
    ∃ lenp, assegmentHeaderPut type n s = .ok (lenp, s.append [type.code, UInt8.ofNat n]) := by
  have hs1 : [type.code].length ≤ s.writeable := by
    simp only [length_cons, length_nil] at *
    omega
  have hs2 : [UInt8.ofNat n].length ≤ (s.append [type.code]).writeable := by
    rw [append_writeable hs1]
    simp only [length_cons, length_nil] at *
    omega
  refine ⟨(s.append [type.code]).endp, ?_⟩
  rw [assegmentHeaderPut, if_pos h, bind_ok (emits_putc _ s hs1)]
  show (putc (UInt8.ofNat n) >>= fun _ => pure _) (s.append [type.code]) = _
  rw [bind_ok (emits_putc _ _ hs2), append_append]
  rfl

theorem emits_segment {β : Type} (type : SegType) {bs : List UInt8} {b : β} {f : Nat → StreamM β}
    (h : as.length ≤ asSegmentMax) (hf : ∀ lenp, Emits (f lenp) bs b) :
    Emits (do
      let lenp ← assegmentHeaderPut type as.length
      assegmentDataPut as true
      f lenp) (segWire (.ofAsns type as) ++ bs) b := by
  have hg : segWire (.ofAsns type as) = [type.code, UInt8.ofNat as.length] ++ asnsWire as := by
    rw [ofAsns_eq (by simp only [asSegmentMax] at h; omega)]
    rfl
  rw [hg, append_assoc]
  exact .bind_any (assegmentHeaderPut_ok h) fun lenp => (emits_assegmentDataPut h).bind (hf lenp)

/-- The chunk the split loop stores over and over. -/
def firstChunk (seg : Assegment) : Assegment :=
  .ofAsns seg.type (seg.as.take asSegmentMax)

/-- What `k` turns of the split loop add to `bytes`. -/
def splitBytes (written : Nat) : Nat → Nat
  | 0 => 0
  | k + 1 =>
    assegmentSize (written + asSegmentMax) true + splitBytes (written + asSegmentMax) k

variable (seg)

theorem emits_splitLoop {k : Nat} (written bytes : Nat)
    (hlow : k = 0 ∨ asSegmentMax * k < seg.length - written)
    (hhigh : seg.length - written ≤ asSegmentMax * (k + 1)) :
    Emits (splitLoop seg true written bytes) (segsWire (replicate k (firstChunk seg)))
      (written + asSegmentMax * k, bytes + splitBytes written k) := by
  induction k generalizing written bytes with
  | zero =>
    rw [splitLoop, if_neg (by omega)]
    exact .pure _
  | succ k ih =>
    have hlen : (seg.as.take asSegmentMax).length = asSegmentMax := by
      simp only [Assegment.length, asSegmentMax, length_take] at *
      omega
    rw [splitLoop, if_pos (by simp only [asSegmentMax] at *; omega), replicate_succ, segsWire_cons]
    have hlow' : k = 0 ∨ asSegmentMax * k < seg.length - (written + asSegmentMax) := by
      simp only [asSegmentMax] at *
      omega
    have hhigh' : seg.length - (written + asSegmentMax) ≤ asSegmentMax * (k + 1) := by
      simp only [asSegmentMax] at *
      omega
    have hrec := ih (written + asSegmentMax)
      (bytes + assegmentSize (written + asSegmentMax) true) hlow' hhigh'
    have hbd := emits_segment seg.type hlen.le fun _ => hrec
    rw [hlen] at hbd
    have hv : (written + asSegmentMax + asSegmentMax * k,
        bytes + assegmentSize (written + asSegmentMax) true
          + splitBytes (written + asSegmentMax) k) = (written + asSegmentMax * (k + 1),
          bytes + splitBytes written (k + 1)) := by
      simp only [splitBytes, Prod.mk.injEq]
      constructor
      · simp only [asSegmentMax]; omega
      · omega
    rwa [hv] at hbd

/-- How often the split loop runs for a segment. -/
def splitCount : Nat := (seg.length - 1) / asSegmentMax

/-- The wire segments `aspath_put` stores for one segment. -/
def putChunks : List Assegment :=
  replicate (splitCount seg) (firstChunk seg)
    ++ [.ofAsns seg.type (seg.as.drop (asSegmentMax * splitCount seg))]

/-- What `aspath_put` adds to its result for one segment. -/
def putCount : Nat :=
  splitBytes 0 (splitCount seg) + assegmentSize (seg.length - asSegmentMax * splitCount seg) true

variable {seg}

/-- No two adjacent `AS_SEQUENCE` segments. -/
def Separated (segs : List Assegment) : Prop :=
  segs.IsChain fun x y => ¬ (x.type = .sequence ∧ y.type = .sequence)

theorem takeWhile_eq_nil_of_separated {next : List Assegment} {p : Assegment → Assegment → Bool}
    (hp : ∀ x y, p x y → x.type = .sequence ∧ y.type = .sequence) (h : Separated (seg :: next)) :
    next.takeWhile (p seg) = [] ∧ next.dropWhile (p seg) = next := by
  cases next with
  | nil => exact ⟨rfl, rfl⟩
  | cons y ys =>
    have hy : p seg y = false := by
      have hsep := (isChain_cons_cons.mp h).1
      by_contra hne
      exact hsep (hp seg y (by simpa using hne))
    simp [takeWhile, dropWhile, hy]

variable {x y : Assegment}

theorem assegmentTypesPackable_sequence (h : assegmentTypesPackable x y) :
    x.type = .sequence ∧ y.type = .sequence := by
  simp only [assegmentTypesPackable, Bool.and_eq_true, decide_eq_true_eq] at h
  exact ⟨h.2, h.1 ▸ h.2⟩

theorem assegmentsPackable_sequence
    (h : assegmentsPackable x y) : x.type = .sequence ∧ y.type = .sequence := by
  rw [assegmentsPackable, Bool.and_eq_true] at h
  exact assegmentTypesPackable_sequence h.1

theorem splitCount_bounds (seg : Assegment) :
    (splitCount seg = 0 ∨ asSegmentMax * splitCount seg < seg.length)
      ∧ seg.length ≤ asSegmentMax * (splitCount seg + 1) := by
  simp only [splitCount, asSegmentMax]
  omega

theorem long_of_splitCount_ne_zero (h : splitCount seg ≠ 0) : asSegmentMax < seg.length := by
  simp only [splitCount, asSegmentMax] at *
  omega

theorem firstChunk_length (h : asSegmentMax < seg.length) :
    (firstChunk seg).length = asSegmentMax := by
  have hlen : (seg.as.take asSegmentMax).length = asSegmentMax := by
    rw [length_take]
    exact Nat.min_eq_left h.le
  have hlt : (seg.as.take asSegmentMax).length < 65536 := by
    rw [hlen]
    decide
  rw [firstChunk, ofAsns_eq hlt, Assegment.length, hlen]

theorem lastChunk_length (seg : Assegment) (n : Nat) :
    (ofAsns seg.type (seg.as.drop n)).length = seg.length - n := by
  have hlt : (seg.as.drop n).length < 65536 := by
    have := seg.length_lt
    rw [length_drop]
    omega
  rw [ofAsns_eq hlt, Assegment.length, length_drop, Assegment.length]

theorem segsWire_replicate_length (k : Nat) (seg : Assegment) :
    (segsWire (replicate k seg)).length = k * assegmentSize seg.length true := by
  induction k with
  | zero => simp [segsWire]
  | succ k ih =>
    rw [replicate_succ, segsWire_cons, length_append, ih, segWire_length, Nat.succ_mul]
    omega

/-- The bytes one segment takes on the wire: four for each ASN and two
for each wire segment. -/
theorem segsWire_putChunks_length (seg : Assegment) :
    (segsWire (putChunks seg)).length = asHeaderSize * (splitCount seg + 1) + 4 * seg.length := by
  obtain ⟨hlow, hhigh⟩ := splitCount_bounds seg
  rw [putChunks, segsWire_append, length_append,
    segsWire_replicate_length, segsWire_cons, length_append, segWire_length, lastChunk_length]
  by_cases hk : splitCount seg = 0
  · simp only [hk, assegmentSize_true, asHeaderSize, segsWire, flatMap_nil, length_nil]
    omega
  · rw [firstChunk_length (long_of_splitCount_ne_zero hk)]
    simp only [assegmentSize_true, asHeaderSize, asSegmentMax, segsWire, flatMap_nil,
      length_nil] at *
    omega

/-- The whole of `aspath_put`'s loop on a path whose sequences are not
adjacent: nothing is packed, so each segment contributes its chunks. -/
theorem emits_aspathPutLoop (bytes : Nat) (h : Separated segs) :
    Emits (aspathPutLoop true segs bytes) (segsWire (segs.flatMap putChunks))
      (bytes + (segs.map putCount).sum) := by
  induction segs generalizing bytes with
  | nil =>
    rw [aspathPutLoop]
    exact .pure bytes
  | cons seg next ih =>
    obtain ⟨hpacked, hrs⟩ := takeWhile_eq_nil_of_separated
      (fun _ _ => assegmentsPackable_sequence) h
    have hnx : Separated next := .tail h
    obtain ⟨hlow, hhigh⟩ := splitCount_bounds seg
    have hsp := emits_splitLoop seg 0 bytes hlow hhigh
    have hla : (seg.as.drop (asSegmentMax * splitCount seg)).length
        = seg.length - asSegmentMax * splitCount seg := length_drop
    have hlastle : (seg.as.drop (asSegmentMax * splitCount seg)).length ≤ asSegmentMax := by
      rw [hla]
      simp only [asSegmentMax] at *
      omega
    have htl := emits_segment seg.type (f := fun _ => aspathPutLoop true next
        (bytes + splitBytes 0 (splitCount seg) + assegmentSize
            (seg.length - asSegmentMax * splitCount seg + 0) true)) hlastle fun _ => ih _ hnx
    rw [hla] at htl
    have hal := hsp.bind (f := fun r => do
      let lenp ← assegmentHeaderPut seg.type (seg.length - r.1)
      assegmentDataPut (seg.as.drop r.1) true
      packLoop seg true r.1 lenp []
      aspathPutLoop true next (r.2 + assegmentSize (seg.length - r.1 + 0) true))
      (by simpa [packLoop] using htl)
    have hwire : segsWire (replicate (splitCount seg) (firstChunk seg))
        ++ (segWire (.ofAsns seg.type (seg.as.drop (asSegmentMax * splitCount seg)))
          ++ segsWire (next.flatMap putChunks)) = segsWire ((seg :: next).flatMap putChunks) := by
      simp [putChunks, segsWire]
    have hct : bytes + splitBytes 0 (splitCount seg) + assegmentSize
          (seg.length - asSegmentMax * splitCount seg) true + (next.map putCount).sum
        = bytes + ((seg :: next).map putCount).sum := by
      simp only [map_cons, sum_cons, putCount]
      omega
    rw [hwire, hct] at hal
    intro s hs
    have hrm : assegmentSize seg.length true ≤ s.writeable := by
      have := segsWire_putChunks_length seg
      rw [flatMap_cons, segsWire_append, length_append] at hs
      simp only [assegmentSize_true, asHeaderSize] at *
      omega
    rw [aspathPutLoop, get_bind, if_pos hrm, ← hal s hs, hpacked, hrs]
    rfl

/-! ## What the reader makes of wire segments -/

theorem reads_asnsGet (as : List UInt32) : Reads (asnsGet true as.length) (asnsWire as) as := by
  induction as with
  | nil => exact .pure []
  | cons a as ih =>
    have htl := ih.map fun as => a :: as
    exact .bind (f := fun a => do
      let as ← asnsGet true as.length
      return a :: as) (reads_getl a) htl

/-- A wire segment that `assegments_parse` accepts. -/
def WireOk (seg : Assegment) : Prop :=
  0 < seg.length ∧ seg.length ≤ asSegmentMax

theorem WireOk.toNat_length (h : WireOk seg) : (UInt8.ofNat seg.length).toNat = seg.length := by
  obtain ⟨-, hle⟩ := h
  simp only [asSegmentMax] at hle
  simp only [UInt8.toNat_ofNat']
  omega

/-- The segment loop reads back a chain of wire segments, as they lie. -/
theorem reads_assegmentsParseLoop {length bytes : Nat} (head : List Assegment)
    (hsg : ∀ seg ∈ segs, WireOk seg) (hlen : length = bytes + (segsWire segs).length) :
    Reads (assegmentsParseLoop true length bytes head) (segsWire segs) (some (head ++ segs)) := by
  induction segs generalizing bytes head with
  | nil =>
    rw [assegmentsParseLoop, if_neg (by simp [hlen, segsWire]), List.append_nil]
    exact .pure _
  | cons seg segs ih =>
    have hg := hsg seg mem_cons_self
    have hnat := hg.toNat_length
    obtain ⟨hps, hle⟩ := hg
    rw [segsWire_cons, length_append, segWire_length] at hlen
    have hrec := ih (head ++ [seg]) (fun x hx => hsg x (mem_cons_of_mem _ hx))
      (show length = bytes + assegmentSize seg.length true + (segsWire segs).length by omega)
    rw [append_assoc, singleton_append] at hrec
    have has : Reads (do
        let as ← asnsGet true seg.length
        assegmentsParseLoop true length (bytes + assegmentSize seg.length true)
          (head ++ [.ofAsns seg.type as]))
        (asnsWire seg.as ++ segsWire segs) (some (head ++ seg :: segs)) :=
      (reads_asnsGet seg.as).bind (by rwa [ofAsns_self])
    have hz : UInt8.ofNat seg.length ≠ 0 := by
      intro h0
      rw [h0] at hnat
      simp at hnat
      omega
    have hsize := assegmentSize_true seg.length
    rw [assegmentsParseLoop, if_pos (by omega), if_neg (by simp only [asHeaderSize]; omega)]
    refine (reads_getc seg.type.code).bind ((reads_getc (UInt8.ofNat seg.length)).bind ?_)
    simp only [hnat, SegType.ofCode_code]
    rwa [if_neg (by simp only [hz, or_false]; omega)]

theorem segsWire_length_even (segs : List Assegment) : (segsWire segs).length % 2 = 0 := by
  induction segs with
  | nil => rfl
  | cons seg segs ih =>
    rw [segsWire_cons, length_append, segWire_length, assegmentSize_true]
    omega

theorem reads_assegmentsParse (result : List Assegment) (hne : segs ≠ [])
    (hsg : ∀ seg ∈ segs, WireOk seg) :
    Reads (assegmentsParse (segsWire segs).length result true) (segsWire segs)
      (some (assegmentNormalise segs)) := by
  have hps : asHeaderSize < (segsWire segs).length := by
    obtain ⟨seg, rest, rfl⟩ := exists_cons_of_ne_nil hne
    have hg := (hsg seg mem_cons_self).1
    rw [segsWire_cons, length_append, segWire_length, assegmentSize_true, asHeaderSize]
    omega
  have heven := segsWire_length_even segs
  have hlp := (reads_assegmentsParseLoop [] hsg (Nat.zero_add (segsWire segs).length).symm).map
      (Option.map assegmentNormalise)
  intro s hs
  have hrd := hs.length_le
  rw [unread_length] at hrd
  rw [assegmentsParse, if_neg (by simp only [asHeaderSize] at hps; omega),
    get_bind, if_neg (by omega)]
  exact hlp s hs

/-! ## Normal form -/

/-- The paths `assegment_normalise` leaves alone. -/
structure NormalForm (segs : List Assegment) : Prop where
  nonempty : ∀ seg ∈ segs, 0 < seg.length
  separated : Separated segs
  ascending : ∀ seg ∈ segs, seg.type.isSet → seg.as.Pairwise (· < ·)

theorem NormalForm.tail (h : NormalForm (seg :: segs)) : NormalForm segs where
  nonempty := fun x hx => h.nonempty x (mem_cons_of_mem _ hx)
  separated := .tail h.separated
  ascending := fun x hx => h.ascending x (mem_cons_of_mem _ hx)

theorem weedDupes_of_ascending {a : UInt32}
    (h : (a :: as).Pairwise (· < ·)) : weedDupes a as = as := by
  induction as generalizing a with
  | nil => rfl
  | cons b bs ih =>
    obtain ⟨ha, hbs⟩ := pairwise_cons.mp h
    have hab : a ≠ b := UInt32.ne_of_lt (ha b mem_cons_self)
    rw [weedDupes, if_neg hab, ih hbs]

theorem sortSet_of_ascending (h : as.Pairwise (· < ·)) : sortSet as = as := by
  have hsrt : as.insertionSort (· ≤ ·) = as :=
    (h.imp fun hlt => UInt32.le_of_lt hlt).insertionSort_eq
  rw [sortSet, hsrt]
  cases as with
  | nil => rfl
  | cons a as => exact congrArg (a :: ·) (weedDupes_of_ascending h)

theorem assegmentSorted_of_normal (h : seg.type.isSet → seg.as.Pairwise (· < ·)) :
    assegmentSorted seg = seg := by
  rw [assegmentSorted]
  split
  next hset => rw [sortSet_of_ascending (h hset), ofAsns_self]
  · rfl

/-- `cs` are wire segments for `seg`: same type, the ASNs in order, and
more than one only for a sequence. -/
structure ChunksOf (cs : List Assegment) (seg : Assegment) : Prop where
  nonempty : cs ≠ []
  asns : cs.flatMap Assegment.as = seg.as
  types : ∀ c ∈ cs, c.type = seg.type
  single : seg.type ≠ .sequence → cs.length = 1

theorem foldl_assegmentAppendAsns (pin : Assegment) (cs : List Assegment)
    (h : (pin.as ++ cs.flatMap Assegment.as).length < 65536) :
    cs.foldl (fun pin seg => assegmentAppendAsns pin seg.as) pin
      = .ofAsns pin.type (pin.as ++ cs.flatMap Assegment.as) := by
  induction cs generalizing pin with
  | nil => simp
  | cons c cs ih =>
    rw [flatMap_cons, ← append_assoc] at h
    have hpin : (pin.as ++ c.as).length < 65536 := by
      rw [length_append] at h
      omega
    have hap : assegmentAppendAsns pin c.as = ⟨pin.type, pin.as ++ c.as, hpin⟩ := ofAsns_eq hpin
    rw [foldl_cons, hap, ih _ h, flatMap_cons, append_assoc]

theorem takeWhile_packable_append {pin : Assegment}
    {cs tail : List Assegment} (hpin : pin.type = .sequence) (hcs : ∀ c ∈ cs, c.type = .sequence)
    (htl : ∀ c ∈ tail.head?, c.type ≠ .sequence) :
    (cs ++ tail).takeWhile (assegmentTypesPackable pin) = cs
      ∧ (cs ++ tail).dropWhile (assegmentTypesPackable pin) = tail := by
  have hal : ∀ c ∈ cs, assegmentTypesPackable pin c = true := by
    intro c hc
    simp [assegmentTypesPackable, hpin, hcs c hc]
  rw [takeWhile_append_of_pos hal, dropWhile_append_of_pos hal]
  cases tail with
  | nil => simp
  | cons t ts =>
    have ht : assegmentTypesPackable pin t = false := by
      by_contra hne
      exact htl t rfl (assegmentTypesPackable_sequence (by simpa using hne)).2
    simp [takeWhile, dropWhile, ht]

/-- A run of sequences becomes one segment. -/
theorem assegmentNormalise_sequences {c : Assegment}
    {cs tail : List Assegment} (hsq : seg.type = .sequence)
    (htys : ∀ x ∈ c :: cs, x.type = seg.type) (has : c.as ++ cs.flatMap Assegment.as = seg.as)
    (htl : ∀ x ∈ tail.head?, x.type ≠ .sequence) :
    assegmentNormalise (c :: (cs ++ tail)) = seg :: assegmentNormalise tail := by
  have hc := htys c mem_cons_self
  have hpin : assegmentSorted c = c := by
    rw [assegmentSorted, hc, hsq]
    rfl
  obtain ⟨htk, hdr⟩ := takeWhile_packable_append (hc.trans hsq)
    (fun x hx => (htys x (mem_cons_of_mem _ hx)).trans hsq) htl
  have hlt := seg.length_lt
  rw [assegmentNormalise]
  simp only [hpin, htk, hdr]
  rw [foldl_assegmentAppendAsns _ _ (by rwa [has]), has, hc, ofAsns_self]

theorem assegmentNormalise_single {tail : List Assegment}
    (hsq : seg.type ≠ .sequence) (hset : seg.type.isSet → seg.as.Pairwise (· < ·)) :
    assegmentNormalise (seg :: tail) = seg :: assegmentNormalise tail := by
  have hpack : assegmentTypesPackable seg = fun _ => false := by
    funext y
    by_contra hne
    exact hsq (assegmentTypesPackable_sequence (by simpa using hne)).1
  rw [assegmentNormalise]
  simp only [assegmentSorted_of_normal hset, hpack]
  cases tail with
  | nil => rfl
  | cons t ts => rfl

variable {chunks : Assegment → List Assegment}

theorem head_chunks_not_sequence (hsep : Separated (seg :: segs)) (hsq : seg.type = .sequence)
    (hchk : ∀ x ∈ segs, ChunksOf (chunks x) x) :
    ∀ x ∈ (segs.flatMap chunks).head?, x.type ≠ .sequence := by
  cases segs with
  | nil => simp
  | cons y ys =>
    have hy := hchk y mem_cons_self
    obtain ⟨d, ds, hds⟩ := exists_cons_of_ne_nil hy.nonempty
    have hd : d.type = y.type := hy.types d (by simp [hds])
    intro x hx hxs
    rw [flatMap_cons, hds] at hx
    obtain rfl : d = x := by simpa using hx
    exact (isChain_cons_cons.mp hsep).1 ⟨hsq, hd ▸ hxs⟩

/-- The reader's normalisation undoes any split into wire segments. -/
theorem assegmentNormalise_flatMap (hsg : NormalForm segs)
    (hchk : ∀ seg ∈ segs, ChunksOf (chunks seg) seg) :
    assegmentNormalise (segs.flatMap chunks) = segs := by
  induction segs with
  | nil => rw [flatMap_nil, assegmentNormalise]
  | cons seg segs ih =>
    have hg := hchk seg mem_cons_self
    have htl : ∀ x ∈ segs, ChunksOf (chunks x) x := fun x hx => hchk x (mem_cons_of_mem _ hx)
    obtain ⟨c, cs, hcs⟩ := exists_cons_of_ne_nil hg.nonempty
    obtain ⟨-, has, htys, hsng⟩ := hg
    rw [hcs] at has htys hsng
    rw [flatMap_cons, hcs, cons_append]
    by_cases hsq : seg.type = .sequence
    · rw [assegmentNormalise_sequences hsq htys has
        (head_chunks_not_sequence hsg.separated hsq htl), ih hsg.tail htl]
    · obtain rfl : cs = [] := by simpa using hsng hsq
      have hceq : c = seg := by
        have hc := htys c mem_cons_self
        rw [flatMap_cons, flatMap_nil, List.append_nil] at has
        cases c
        cases seg
        simp_all
      rw [hceq, nil_append, assegmentNormalise_single hsq
        (hsg.ascending seg mem_cons_self), ih hsg.tail htl]

/-! ## The round trip -/

/-- Two wire segments at most: the chunks are the segment. -/
theorem chunksOf_putChunks (hsq : splitCount seg ≤ 1)
    (ho : seg.type ≠ .sequence → seg.length ≤ asSegmentMax) : ChunksOf (putChunks seg) seg := by
  by_cases hk : splitCount seg = 0
  · have hsf : putChunks seg = [seg] := by simp [putChunks, hk]
    rw [hsf]
    exact ⟨by simp, by simp, by simp, fun _ => rfl⟩
  · have hlg := long_of_splitCount_ne_zero hk
    have htwo : putChunks seg = [.ofAsns seg.type (seg.as.take asSegmentMax),
        .ofAsns seg.type (seg.as.drop asSegmentMax)] := by
      rw [putChunks, show splitCount seg = 1 by omega]
      rfl
    have hlt := seg.length_lt
    rw [htwo, ofAsns_eq (by rw [length_take]; omega), ofAsns_eq (by rw [length_drop]; omega)]
    refine ⟨by simp, by simp [take_append_drop], by simp, ?_⟩
    intro hne
    have := ho hne
    omega

theorem wireOk_putChunks (h : 0 < seg.length) : ∀ c ∈ putChunks seg, WireOk c := by
  obtain ⟨hlow, hhigh⟩ := splitCount_bounds seg
  intro c hc
  rw [putChunks, mem_append, mem_replicate, mem_singleton] at hc
  rcases hc with ⟨hk, rfl⟩ | rfl
  · rw [WireOk, firstChunk_length (long_of_splitCount_ne_zero hk)]
    decide
  · rw [WireOk, lastChunk_length]
    simp only [asSegmentMax] at *
    omega

theorem le_splitBytes (written k : Nat) :
    k * assegmentSize asSegmentMax true ≤ splitBytes written k := by
  induction k generalizing written with
  | zero => simp
  | succ k ih =>
    have hsize : assegmentSize asSegmentMax true ≤ assegmentSize (written + asSegmentMax) true := by
      rw [assegmentSize_true, assegmentSize_true]
      omega
    have htl := ih (written + asSegmentMax)
    rw [splitBytes, Nat.succ_mul]
    omega

/-- The third chunk is where the count goes wrong. -/
theorem lt_splitBytes {k : Nat} (h : 2 ≤ k) :
    k * assegmentSize asSegmentMax true < splitBytes 0 k := by
  obtain ⟨j, rfl⟩ : ∃ j, k = j + 2 := ⟨k - 2, by omega⟩
  have hsize : assegmentSize asSegmentMax true
      < assegmentSize (0 + asSegmentMax + asSegmentMax) true := by decide
  have htl := le_splitBytes (0 + asSegmentMax + asSegmentMax) j
  rw [splitBytes, splitBytes, Nat.add_mul, Nat.zero_add] at *
  omega

theorem putCount_spec (seg : Assegment) :
    (splitCount seg ≤ 1 → putCount seg = (segsWire (putChunks seg)).length) ∧ (2 ≤ splitCount seg →
        (segsWire (putChunks seg)).length < putCount seg) := by
  obtain ⟨hlow, hhigh⟩ := splitCount_bounds seg
  rw [segsWire_putChunks_length, putCount]
  constructor
  · intro hk
    have h1 : splitBytes 0 1 = assegmentSize asSegmentMax true := rfl
    have hcas : splitCount seg = 0 ∨ splitCount seg = 1 := by omega
    rcases hcas with h | h
    · simp only [h, splitBytes, assegmentSize_true, asHeaderSize]
      omega
    · rw [h] at hlow ⊢
      rw [h1]
      simp only [assegmentSize_true, asHeaderSize, asSegmentMax] at hlow ⊢
      omega
  · intro hk
    have := lt_splitBytes hk
    simp only [assegmentSize_true, asHeaderSize, asSegmentMax] at *
    omega

/-- The returned count is never too small, and it is right exactly when
no segment needs a third chunk. -/
theorem putCount_sum_spec (segs : List Assegment) :
    (segsWire (segs.flatMap putChunks)).length ≤ (segs.map putCount).sum
      ∧ ((segs.map putCount).sum = (segsWire (segs.flatMap putChunks)).length
        ↔ ∀ seg ∈ segs, splitCount seg ≤ 1) := by
  induction segs with
  | nil => simp [segsWire]
  | cons seg segs ih =>
    obtain ⟨hle, hiff⟩ := ih
    obtain ⟨hsm, hlrg⟩ := putCount_spec seg
    rw [flatMap_cons, segsWire_append, length_append, map_cons, sum_cons, forall_mem_cons, ← hiff]
    by_cases hk : splitCount seg ≤ 1
    · have := hsm hk
      omega
    · have := hlrg (by omega)
      omega

theorem emits_aspathPut (h : NormalForm segs) :
    Emits (aspathPut segs true) (segsWire (segs.flatMap putChunks)) (segs.map putCount).sum := by
  cases segs with
  | nil => exact .pure 0
  | cons seg next =>
    have hps := h.nonempty seg mem_cons_self
    rw [aspathPut, if_neg (by omega), ← Nat.zero_add (sum _)]
    exact emits_aspathPutLoop 0 h.separated

/-- The path that reads back from what the writer stores for `segs`. -/
def wirePath (segs : List Assegment) : List Assegment :=
  assegmentNormalise (segs.flatMap putChunks)

theorem reads_wirePath (h : NormalForm segs) :
    Reads (assegmentsParse (segsWire (segs.flatMap putChunks)).length [] true)
      (segsWire (segs.flatMap putChunks)) (some (wirePath segs)) := by
  cases segs with
  | nil =>
    rw [wirePath, flatMap_nil, assegmentNormalise]
    exact .pure _
  | cons seg next =>
    have hne : (seg :: next).flatMap putChunks ≠ [] := by simp [putChunks]
    have hok : ∀ c ∈ (seg :: next).flatMap putChunks, WireOk c := by
      intro c hc
      obtain ⟨x, hx, hcx⟩ := mem_flatMap.mp hc
      exact wireOk_putChunks (h.nonempty x hx) c hcx
    exact reads_assegmentsParse [] hne hok

/-- Paths of at most two chunks a sequence and one chunk any other
segment read back as they are. -/
theorem wirePath_eq (h : NormalForm segs)
    (hsp : ∀ seg ∈ segs, splitCount seg ≤ 1) (ho : ∀ seg ∈ segs, seg.type ≠ .sequence →
      seg.length ≤ asSegmentMax) : wirePath segs = segs :=
  assegmentNormalise_flatMap h fun seg hg =>
    chunksOf_putChunks (hsp seg hg) (ho seg hg)

/-- The size of a path's wire form: four bytes an ASN, two for each of
the segments of at most 255 ASNs it takes. -/
def aspathWireSize (segs : List Assegment) : Nat :=
  (segs.map fun seg => 4 * seg.length
    + asHeaderSize * ((seg.length + (asSegmentMax - 1)) / asSegmentMax)).sum

theorem aspathWireSize_eq (h : NormalForm segs) :
    aspathWireSize segs = (segsWire (segs.flatMap putChunks)).length := by
  induction segs with
  | nil => rfl
  | cons seg segs ih =>
    have hps := h.nonempty seg mem_cons_self
    rw [flatMap_cons, segsWire_append, length_append, ← ih h.tail, segsWire_putChunks_length]
    simp only [aspathWireSize, map_cons, sum_cons, splitCount, asSegmentMax, asHeaderSize]
    omega

/-- Writing `segs` to `s` returns the number of bytes appended, and from
any stream that goes on with these bytes they read back as `segs`. -/
def AspathRoundTrip (segs : List Assegment) (s : Stream) : Prop :=
  ∃ bs, aspathPut segs true s = .ok (bs.length, s.append bs) ∧ ∀ r : Stream, bs <+: r.unread →
      assegmentsParse bs.length [] true r = .ok (some segs, r.advance bs.length)

theorem aspathRoundTrip_iff_splitCount {s : Stream} (hnm : NormalForm segs)
    (ho : ∀ seg ∈ segs, seg.type ≠ .sequence → seg.length ≤ asSegmentMax)
    (hrm : aspathWireSize segs ≤ s.writeable) :
    AspathRoundTrip segs s ↔ ∀ seg ∈ segs, splitCount seg ≤ 1 := by
  rw [← (putCount_sum_spec segs).2]
  rw [aspathWireSize_eq hnm] at hrm
  have hput := emits_aspathPut hnm s hrm
  constructor
  · rintro ⟨bs, hbs, -⟩
    rw [hput, Except.ok.injEq, Prod.mk.injEq] at hbs
    have he := congrArg Stream.endp hbs.2
    simp only [append_endp] at he
    omega
  · intro hct
    have hrd := reads_wirePath hnm
    rw [wirePath_eq hnm ((putCount_sum_spec segs).2.mp hct) ho] at hrd
    exact ⟨segsWire (segs.flatMap putChunks), by rw [hput, hct], hrd⟩

/-- The AS path round trip holds exactly for paths whose sequences fit in
two wire segments. -/
theorem aspath_put_parse_roundTrip_iff {segs : List Assegment} {s : Stream}
    (hnormal : NormalForm segs)
    (hother : ∀ seg ∈ segs, seg.type ≠ .sequence → seg.length ≤ asSegmentMax)
    (hroom : aspathWireSize segs ≤ s.writeable) :
    AspathRoundTrip segs s ↔ ∀ seg ∈ segs, seg.type = .sequence →
        seg.length ≤ 2 * asSegmentMax := by
  rw [aspathRoundTrip_iff_splitCount hnormal hother hroom]
  refine forall₂_congr fun seg hseg => ?_
  have hshort := hother seg hseg
  simp only [splitCount, asSegmentMax] at *
  constructor
  · intro h _
    omega
  · intro h
    by_cases hseq : seg.type = .sequence
    · have := h hseq
      omega
    · have := hshort hseq
      omega

theorem normalForm_singleton (hps : 0 < seg.length)
    (hset : seg.type.isSet → seg.as.Pairwise (· < ·)) : NormalForm [seg] where
  nonempty := by simpa using hps
  separated := List.IsChain.singleton seg
  ascending := by simpa using hset

theorem aspath_put_parse_roundTrip_single :
    AspathRoundTrip [.ofAsns .sequence [64512, 23456]] (Stream.new 4096) := by
  refine (aspath_put_parse_roundTrip_iff
    (normalForm_singleton (by decide) fun h => absurd h (by decide))
    (by decide) (by rw [new_writeable]; decide)).mpr ?_
  decide

/-- A sequence of 511 ASNs, the shortest that takes three chunks. -/
def longSequence : Assegment := .ofAsns .sequence (replicate 511 1)

theorem longSequence_length : longSequence.length = 511 := by
  have hlt : (replicate 511 (1 : UInt32)).length < 65536 := by
    rw [length_replicate]
    decide
  rw [longSequence, ofAsns_eq hlt, Assegment.length, length_replicate]

theorem longSequence_not_roundTrip :
    NormalForm [longSequence] ∧ aspathWireSize [longSequence] ≤ (Stream.new 4096).writeable
      ∧ ¬ AspathRoundTrip [longSequence] (Stream.new 4096) := by
  have hnormal : NormalForm [longSequence] :=
    normalForm_singleton (by rw [longSequence_length]; decide)
      fun h => absurd h (by decide)
  have hroom : aspathWireSize [longSequence] ≤ (Stream.new 4096).writeable := by
    rw [new_writeable]
    simp [aspathWireSize, longSequence_length, asSegmentMax, asHeaderSize]
  refine ⟨hnormal, hroom, ?_⟩
  rw [aspathRoundTrip_iff_splitCount hnormal (by decide) hroom]
  simp [splitCount, longSequence_length, asSegmentMax]

end SdnQuagga
