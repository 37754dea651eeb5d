import SdnQuagga.Prefix

/-!
# The packet buffer, as it lies in memory

`lib/stream.c` with its positions as they are: words of type `size_t` that nothing
keeps in order but the checks of the functions. A check that fails ends in `assert (0)`.
`Sane` is the invariant that the functions assert on entry, and `StreamOp.Orderly` is what
the caller has to see to where a function does not check enough to keep it:

- `stream_put_prefix` tests for the bytes of the prefix and not for the byte with its
  length before them;
- `stream_set_endp` tests its argument against `endp` and not against `getp`;
- `stream_forward_endp` and the `stream_put*_at` test a sum that may wrap.
-/

namespace SdnQuagga

/-- `struct stream`. `data` are the bytes from the data pointer on, also those beyond
the buffer. `overrun` is not in the source: a byte outside the buffer was written. -/
structure RawStream where
  data : Nat → UInt8
  size : UInt64
  getp : UInt64
  endp : UInt64
  overrun : Bool

abbrev RawM := FaultM RawStream

namespace RawStream

open FaultM (Yields)

/-- `getp ≤ endp ≤ size`, and no byte was written outside the buffer. -/
structure Sane (s : RawStream) : Prop where
  getp_le : s.getp ≤ s.endp
  endp_le : s.endp ≤ s.size
  inside : s.overrun = false

/-- Bytes are written from an offset on. -/
@[simps]
def store (s : RawStream) (pos : Nat) (bs : List UInt8) : RawStream :=
  { s with
    data := fun i => if pos ≤ i ∧ i < pos + bs.length then bs.getD (i - pos) 0 else s.data i
    overrun := s.overrun || decide (bs ≠ [] ∧ s.size.toNat < pos + bs.length) }

/-- The bytes of a buffer from an offset on. -/
def fetch (data : Nat → UInt8) (pos n : Nat) : List UInt8 :=
  (List.range n).map fun i => data (pos + i)

/-- `STREAM_VERIFY_SANE`. -/
def verifySane : RawM Unit := do
  let s ← get
  FaultM.check (s.getp ≤ s.endp ∧ s.endp ≤ s.size)

/-! ## Gets -/

/-- The common body of the gets, also `stream_get`. -/
def getBytes (n : UInt64) : RawM (List UInt8) := do
  verifySane
  let s ← get
  FaultM.check (n ≤ s.endp - s.getp)
  modify fun s => { s with getp := s.getp + n }
  return fetch s.data s.getp.toNat n.toNat

/-- The common body of the gets from an offset. -/
def getBytesFrom (pos n : UInt64) : RawM (List UInt8) := do
  verifySane
  let s ← get
  FaultM.check (pos + n ≤ s.endp)
  return fetch s.data pos.toNat n.toNat

def getc : RawM UInt8 := do return .ofNat (ofBE (← getBytes 1))
def getw : RawM UInt16 := do return .ofNat (ofBE (← getBytes 2))
def getl : RawM UInt32 := do return .ofNat (ofBE (← getBytes 4))
def getq : RawM UInt64 := do return .ofNat (ofBE (← getBytes 8))
def getIpv4 : RawM UInt32 := do return .ofNat (ofBE (← getBytes 4))
variable (pos : UInt64)

def getcFrom : RawM UInt8 := do return .ofNat (ofBE (← getBytesFrom pos 1))
def getwFrom : RawM UInt16 := do return .ofNat (ofBE (← getBytesFrom pos 2))
def getlFrom : RawM UInt32 := do return .ofNat (ofBE (← getBytesFrom pos 4))
def getqFrom : RawM UInt64 := do return .ofNat (ofBE (← getBytesFrom pos 8))

/-! ## Puts -/

/-- Bytes are written at `endp`. -/
def append (s : RawStream) (bs : List UInt8) : RawStream :=
  { s.store s.endp.toNat bs with endp := s.endp + .ofNat bs.length }

/-- The common body of the puts. -/
def putBytes (bs : List UInt8) : RawM Unit := do
  verifySane
  let s ← get
  FaultM.check (.ofNat bs.length ≤ s.size - s.endp)
  modify (·.append bs)

def putc (c : UInt8) : RawM Unit := putBytes [c]
def putw (w : UInt16) : RawM Unit := putBytes (toBE 2 w.toNat)
def putl (l : UInt32) : RawM Unit := putBytes (toBE 4 l.toNat)
def putq (q : UInt64) : RawM Unit := putBytes (toBE 8 q.toNat)
def putIpv4 (l : UInt32) : RawM Unit := putBytes (toBE 4 l.toNat)
def putInAddr (addr : UInt32) : RawM Unit := putBytes (toBE 4 addr.toNat)

/-- `CHECK_SIZE`: what is left of the requested size. -/
def checkSize (s : RawStream) (size : UInt64) : UInt64 :=
  if s.endp + size > s.size then s.size - s.endp else size

/-- `stream_put`, which writes zeros without a source. -/
def put (src : Option (Nat → UInt8)) (size : UInt64) : RawM Unit := do
  let s ← get
  putBytes (fetch (src.getD fun _ => 0) 0 (s.checkSize size).toNat)

/-- `stream_write`. -/
def write (ptr : Nat → UInt8) (size : UInt64) : RawM UInt64 := do
  let s ← get
  putBytes (fetch ptr 0 (s.checkSize size).toNat)
  return s.checkSize size

variable (putp : UInt64)

/-- The common body of the puts at an offset. -/
def putBytesAt (bs : List UInt8) : RawM Unit := do
  verifySane
  let s ← get
  FaultM.check (putp + .ofNat bs.length ≤ s.endp)
  modify (·.store putp.toNat bs)

def putcAt (c : UInt8) : RawM Unit := putBytesAt putp [c]
def putwAt (w : UInt16) : RawM Unit := putBytesAt putp (toBE 2 w.toNat)
def putlAt (l : UInt32) : RawM Unit := putBytesAt putp (toBE 4 l.toNat)
def putqAt (q : UInt64) : RawM Unit := putBytesAt putp (toBE 8 q.toNat)

/-- `stream_put_prefix`; the second write is not checked again. -/
def putPrefix (prefixlen : UInt8) (u : Nat → UInt8) : RawM Nat := do
  verifySane
  let s ← get
  FaultM.check (.ofNat (psize prefixlen.toNat) ≤ s.size - s.endp)
  putc prefixlen
  modify (·.append (fetch u 0 (psize prefixlen.toNat)))
  return psize prefixlen.toNat

/-! ## Positions -/

def setGetp : RawM Unit := do
  verifySane
  let s ← get
  FaultM.check (pos ≤ s.endp)
  modify fun s => { s with getp := pos }

def setEndp : RawM Unit := do
  verifySane
  let s ← get
  FaultM.check (pos ≤ s.endp)
  modify fun s => { s with endp := pos }

def forwardGetp (size : UInt64) : RawM Unit := do
  verifySane
  let s ← get
  FaultM.check (s.getp + size ≤ s.endp)
  modify fun s => { s with getp := s.getp + size }

def forwardEndp (size : UInt64) : RawM Unit := do
  verifySane
  let s ← get
  FaultM.check (s.endp + size ≤ s.size)
  modify fun s => { s with endp := s.endp + size }

/-- `stream_resize`: both positions are cut to the new size. -/
def resize (newsize : UInt64) : RawM Unit := do
  verifySane
  modify fun s =>
    let endp := if s.endp > newsize then newsize else s.endp
    { s with
      size := newsize, endp := endp, getp := if s.getp > endp then endp else s.getp }
  verifySane

def reset : RawM Unit := do
  verifySane
  modify fun s => { s with getp := 0, endp := 0 }

/-- `stream_copy` into this stream. -/
def copy (src : RawStream) : RawM Unit := do
  FaultM.check (src.getp ≤ src.endp ∧ src.endp ≤ src.size)
  let s ← get
  FaultM.check (src.endp ≤ s.size)
  modify fun s =>
    { s with endp := src.endp, getp := src.getp }.store 0 (fetch src.data 0 src.endp.toNat)

end RawStream

end SdnQuagga
