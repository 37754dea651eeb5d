import Mathlib.Data.List.Chain
import Mathlib.Data.List.Sort
import SdnQuagga.Stream

/-!
# AS paths: segments, normalisation, wire form

`bgpd/bgp_aspath.c`. An AS path is a chain of segments; here the chain is
a list. Inside the daemon a segment may be longer than the 255 ASNs a
wire segment holds, so `aspath_put` splits long segments and
`assegment_normalise` merges runs of `AS_SEQUENCE` back together after
`assegments_parse` has read them.

The loops keep the counters of the source: `bytes` is what `aspath_put`
returns and the attribute writer stores as the length.
-/

namespace SdnQuagga

open SdnQuagga.Stream List

/-! ## Segments -/

/-- The segment types of the wire, `AS_SET` to `AS_CONFED_SET`. -/
inductive SegType where
  | set
  | sequence
  | confedSequence
  | confedSet
deriving DecidableEq, Repr

namespace SegType

def code : SegType → UInt8
  | set => 1
  | sequence => 2
  | confedSequence => 3
  | confedSet => 4

def ofCode (c : UInt8) : Option SegType :=
  if c = 1 then some set
  else if c = 2 then some sequence
  else if c = 3 then some confedSequence
  else if c = 4 then some confedSet
  else none

def isSet : SegType → Bool
  | set | confedSet => true
  | sequence | confedSequence => false

@[simp] theorem ofCode_code (t : SegType) : ofCode t.code = some t := by
  cases t <;> rfl

end SegType

/-- `struct assegment`. The length field is a `u_short`, so a segment
never shows more than 65535 ASNs. -/
structure Assegment where
  type : SegType
  as : List UInt32
  length_lt : as.length < 65536
deriving DecidableEq, Repr

namespace Assegment

variable (seg : Assegment)

def length : Nat := seg.as.length

/-- A segment whose length field was assigned `as.length`: the store
keeps the low 16 bits and the ASNs past them are out of sight. -/
def ofAsns (type : SegType) (as : List UInt32) : Assegment where
  type := type
  as := as.take (as.length % 65536)
  length_lt := by
    have : as.length % 65536 < 65536 := Nat.mod_lt _ (by decide)
    rw [length_take]
    omega

theorem ofAsns_eq {type : SegType} {as : List UInt32}
    (h : as.length < 65536) : ofAsns type as = ⟨type, as, h⟩ := by
  simp [ofAsns, Nat.mod_eq_of_lt h]

@[simp] theorem ofAsns_type (type : SegType) (as : List UInt32) :
    (ofAsns type as).type = type := rfl

@[simp] theorem ofAsns_self : ofAsns seg.type seg.as = seg := ofAsns_eq seg.length_lt

end Assegment

def asSegmentMax : Nat := 255

def asHeaderSize : Nat := 2

def bgpAsMax : UInt32 := 65535

def bgpAsTrans : UInt32 := 23456

def assegmentDataSize (n : Nat) (use32bit : Bool) : Nat :=
  n * (if use32bit then 4 else 2)

def assegmentSize (n : Nat) (use32bit : Bool) : Nat :=
  asHeaderSize + assegmentDataSize n use32bit

variable (x y : Assegment)

def assegmentTypesPackable : Bool :=
  x.type = y.type && x.type = .sequence

def assegmentsPackable : Bool :=
  assegmentTypesPackable x y && x.length + y.length ≤ asSegmentMax

/-! ## Normalisation -/

/-- The loop that weeds duplicates out of a sorted set; `last` is the
ASN at `tail`. -/
def weedDupes (last : UInt32) : List UInt32 → List UInt32
  | [] => []
  | a :: as =>
    if last = a then weedDupes last as else a :: weedDupes a as

/-- Sort and dedup one set segment. `qsort` may be any sorting routine:
the sorted arrangement of ASNs is unique. -/
def sortSet (as : List UInt32) : List UInt32 :=
  match as.insertionSort (· ≤ ·) with
  | [] => []
  | a :: as => a :: weedDupes a as

variable (seg : Assegment)

def assegmentAppendAsns (asnos : List UInt32) : Assegment :=
  .ofAsns seg.type (seg.as ++ asnos)

def assegmentPrependAsns (asnum : UInt32) (num : Nat) :
    Assegment :=
  if num = 0 ∨ num ≥ asSegmentMax then seg
  else .ofAsns seg.type (replicate num asnum ++ seg.as)

/-- What `assegment_normalise` does to the pinned segment before it reads
ahead. -/
def assegmentSorted : Assegment :=
  if seg.type.isSet then .ofAsns seg.type (sortSet seg.as) else seg

/-- `assegment_normalise`: pin a segment, append the sequences that
follow it, go on behind them. -/
def assegmentNormalise : List Assegment → List Assegment
  | [] => []
  | seg :: next =>
    let pin := assegmentSorted seg
    let merged := next.takeWhile (assegmentTypesPackable pin)
    merged.foldl (fun pin seg => assegmentAppendAsns pin seg.as) pin
      :: assegmentNormalise (next.dropWhile (assegmentTypesPackable pin))
termination_by segs => segs.length
decreasing_by
  simp only [length_cons]
  have := (dropWhile_suffix (l := next) (assegmentTypesPackable (assegmentSorted seg))).length_le
  omega

/-! ## Writing -/

variable (use32bit : Bool)

/-- One ASN of `assegment_data_put`. -/
def asnPut (asn : UInt32) : StreamM Unit :=
  if use32bit then putl asn
  else if asn ≤ bgpAsMax then putw asn.toUInt16
  else putw bgpAsTrans.toUInt16

def asnsPut : List UInt32 → StreamM Unit
  | [] => pure ()
  | asn :: as => do
    asnPut use32bit asn
    asnsPut as

/-- `assegment_data_put` of the ASNs `as`. -/
def assegmentDataPut (as : List UInt32) (use32bit : Bool) : StreamM Unit :=
  if as.length ≤ asSegmentMax then asnsPut use32bit as
  else throw .assertion

/-- `assegment_header_put`; returns the position of the length byte. -/
def assegmentHeaderPut (type : SegType) (length : Nat) : StreamM Nat :=
  if length ≤ asSegmentMax then do
    putc type.code
    let lenp := (← get).endp
    putc (UInt8.ofNat length)
    return lenp
  else throw .assertion

/-- The loop that splits an overlength segment. Every chunk is taken from
the start of the segment, and `bytes` grows by the size of all ASNs
written so far. Returns `written` and `bytes`. -/
def splitLoop (seg : Assegment) (use32bit : Bool) (written bytes : Nat) :
    StreamM (Nat × Nat) :=
  if seg.length - written > asSegmentMax then do
    let _ ← assegmentHeaderPut seg.type asSegmentMax
    assegmentDataPut (seg.as.take asSegmentMax) use32bit
    splitLoop seg use32bit (written + asSegmentMax)
      (bytes + assegmentSize (written + asSegmentMax) use32bit)
  else return (written, bytes)
termination_by seg.length - written
decreasing_by simp only [asSegmentMax] at *; omega

/-- The loop that packs the following sequences into the segment just
written, over the segments it runs through. The length byte is set to the
segment plus the last packed one. -/
def packLoop (seg : Assegment) (use32bit : Bool) (written lenp : Nat) :
    List Assegment → StreamM Unit
  | [] => pure ()
  | next :: rest => do
    assegmentDataPut next.as use32bit
    putcAt lenp (UInt8.ofNat (seg.length - written + next.length))
    packLoop seg use32bit written lenp rest

/-- The outer loop of `aspath_put`. -/
def aspathPutLoop (segs : List Assegment) (bytes : Nat) :
    StreamM Nat :=
  match segs with
  | [] => return bytes
  | seg :: next => do
    if assegmentSize seg.length use32bit ≤ (← get).writeable then
      let (written, bytes) ← splitLoop seg use32bit 0 bytes
      let lenp ← assegmentHeaderPut seg.type (seg.length - written)
      assegmentDataPut (seg.as.drop written) use32bit
      let packed := next.takeWhile (assegmentsPackable seg)
      packLoop seg use32bit written lenp packed
      let asnsPacked := (packed.map Assegment.length).sum
      aspathPutLoop (next.dropWhile (assegmentsPackable seg))
        (bytes + assegmentSize (seg.length - written + asnsPacked) use32bit)
    else return bytes
termination_by segs.length
decreasing_by
  simp only [length_cons]
  have := (dropWhile_suffix (l := next) (assegmentsPackable seg)).length_le
  omega

def aspathPut (segs : List Assegment) (use32bit : Bool) : StreamM Nat :=
  match segs with
  | [] => return 0
  | seg :: next =>
    if seg.length = 0 then return 0
    else aspathPutLoop use32bit (seg :: next) 0

/-! ## Reading -/

def asnGet : StreamM UInt32 :=
  if use32bit then getl else do return (← getw).toUInt32

def asnsGet : Nat → StreamM (List UInt32)
  | 0 => return []
  | n + 1 => do
    let asn ← asnGet use32bit
    let as ← asnsGet n
    return asn :: as

/-- The segment loop of `assegments_parse`, with the segments read so far
in `head`. The comparison of the length byte with `AS_SEGMENT_MAX` is
compiled out in the source, as the byte cannot exceed it. -/
def assegmentsParseLoop (length bytes : Nat)
    (head : List Assegment) : StreamM (Option (List Assegment)) :=
  if bytes < length then
    if length - bytes ≤ asHeaderSize then return none
    else do
      let type ← getc
      let seglen ← getc
      let segSize := assegmentSize seglen.toNat use32bit
      if length < bytes + segSize ∨ seglen = 0 then return none
      else match SegType.ofCode type with
        | none => return none
        | some type => do
          let as ← asnsGet use32bit seglen.toNat
          assegmentsParseLoop length (bytes + segSize) (head ++ [.ofAsns type as])
  else return some head
termination_by length - bytes
decreasing_by
  simp only [segSize, assegmentSize, asHeaderSize] at *
  omega

/-- `assegments_parse`: `none` is the return value -1, `some` is 0 with
what `*result` then holds. An empty path leaves `*result` alone. -/
def assegmentsParse (length : Nat) (result : List Assegment)
    (use32bit : Bool) : StreamM (Option (List Assegment)) :=
  if length = 0 then return some result
  else do
    let s ← get
    if s.readable < length ∨ s.readable < asHeaderSize ∨ length % 2 ≠ 0 then
      return none
    else
      let head ← assegmentsParseLoop use32bit length 0 []
      return head.map assegmentNormalise

end SdnQuagga
