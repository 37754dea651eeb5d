import SdnQuagga.BigEndian
import SdnQuagga.FaultM

/-!
# The packet buffer

`lib/stream.c`: a fixed-size byte buffer with a read position `getp` and
a fill level `endp`. The invariant `getp ≤ endp ≤ size` that every
stream function asserts on entry is a field of the structure.

An access outside the buffer ends in `STREAM_BOUND_WARN`, that is in
`assert (0)`: the model returns `Fault.assertion` there. Only
`stream_put` and `stream_write` first cut the requested size down to the
room left (`CHECK_SIZE`) and never fail.

Everything above this file reasons about two lists, not about offsets:
`written` (the bytes below `endp`) and `unread` (those of them not yet
consumed). A put is `append`, a get is `advance`, and the two rules
`Emits` and `Reads` say what a whole encoder or decoder does to these
lists; they compose along `>>=`.
-/

namespace SdnQuagga

open FaultM List

/-- `struct stream`: the buffer (its length is `size`) and the two
positions, with `getp ≤ endp ≤ size`. -/
@[ext] structure Stream where
  data : List UInt8
  getp : Nat
  endp : Nat
  getp_le_endp : getp ≤ endp
  endp_le_size : endp ≤ data.length
deriving DecidableEq, Repr

/-- Stream functions change a stream or abort. -/
abbrev StreamM := FaultM Stream

namespace Stream

/-! ## The two lists a stream stands for -/

variable (s : Stream)

/-- `STREAM_SIZE`. -/
def size : Nat := s.data.length

/-- `STREAM_WRITEABLE`. -/
def writeable : Nat := s.size - s.endp

/-- `STREAM_READABLE`. -/
def readable : Nat := s.endp - s.getp

/-- The valid bytes, below `endp`. -/
def written : List UInt8 := s.data.take s.endp

/-- The valid bytes not yet read. -/
def unread : List UInt8 := s.written.drop s.getp

@[simp] theorem written_length : s.written.length = s.endp := by
  have := s.endp_le_size
  simp only [written, length_take]
  omega

@[simp] theorem unread_length : s.unread.length = s.readable := by
  simp [unread, readable]

variable (bs : List UInt8)

/-- A stream that has received `bs` and not read any of it. -/
def ofBytes : Stream where
  data := bs
  getp := 0
  endp := bs.length
  getp_le_endp := Nat.zero_le _
  endp_le_size := Nat.le_refl _

@[simp] theorem ofBytes_unread : (ofBytes bs).unread = bs := by
  simp [ofBytes, unread, written]

/-- `s` with `bs` stored at `endp` and the fill level moved past them. -/
def append : Stream where
  data := s.written ++ bs ++ s.data.drop (s.endp + bs.length)
  getp := s.getp
  endp := s.endp + bs.length
  getp_le_endp := Nat.le_trans s.getp_le_endp (Nat.le_add_right ..)
  endp_le_size := by simp

/-- `s` with the read position moved by `n`, at most to `endp`. -/
def advance (n : Nat) : Stream where
  data := s.data
  getp := min (s.getp + n) s.endp
  endp := s.endp
  getp_le_endp := Nat.min_le_right ..
  endp_le_size := s.endp_le_size

variable (pos : Nat)

/-- `s` with the valid bytes from `pos` on replaced by `bs`. -/
def overwrite (bs : List UInt8) (h : pos + bs.length ≤ s.endp) : Stream where
  data := s.data.take pos ++ bs ++ s.data.drop (pos + bs.length)
  getp := s.getp
  endp := s.endp
  getp_le_endp := s.getp_le_endp
  endp_le_size := by
    have := s.endp_le_size
    simp only [length_append, length_take, length_drop]
    omega

theorem append_data : (s.append bs).data = s.written ++ bs ++ s.data.drop (s.endp + bs.length) :=
  rfl

@[simp] theorem append_getp : (s.append bs).getp = s.getp := rfl

@[simp] theorem append_endp : (s.append bs).endp = s.endp + bs.length := rfl

@[simp] theorem append_written : (s.append bs).written = s.written ++ bs := by
  have h := s.written_length
  rw [written, append_endp, append, take_append_of_le_length (by simp)]
  exact take_of_length_le (by simp)

variable {s : Stream} {bs as cs : List UInt8}

theorem append_size (h : bs.length ≤ s.writeable) : (s.append bs).size = s.size := by
  have := s.endp_le_size
  simp only [writeable, size] at h
  simp only [size, append, length_append, length_drop, written_length]
  omega

theorem append_writeable (h : bs.length ≤ s.writeable) :
    (s.append bs).writeable = s.writeable - bs.length := by
  rw [writeable, append_size h, append_endp, writeable]
  omega

variable (s)

@[simp] theorem append_nil : s.append [] = s := by
  cases s
  simp [append, written, take_append_drop]

@[simp] theorem append_append (as bs : List UInt8) :
    (s.append as).append bs = s.append (as ++ bs) := by
  have hdr : (s.append as).data.drop (s.endp + as.length + bs.length)
      = s.data.drop (s.endp + (as.length + bs.length)) := by
    have hlen : (s.written ++ as).length = s.endp + as.length := by simp
    rw [append, drop_append, drop_eq_nil_of_le (by omega), hlen, drop_drop, nil_append]
    congr 1
    omega
  refine Stream.ext ?_ rfl (by simp [Nat.add_assoc])
  have hda := append_data (s.append as) bs
  rw [append_endp, append_written, hdr] at hda
  rw [hda, append_data, length_append, append_assoc s.written]

@[simp] theorem advance_endp (n : Nat) : (s.advance n).endp = s.endp := rfl

@[simp] theorem advance_written (n : Nat) : (s.advance n).written = s.written := rfl

@[simp] theorem advance_zero : s.advance 0 = s := by
  have := s.getp_le_endp
  simp [advance, this]

@[simp] theorem advance_advance (m n : Nat) : (s.advance m).advance n = s.advance (m + n) := by
  simp only [advance, Stream.mk.injEq, true_and, and_true]
  omega

variable {s}

theorem advance_getp {n : Nat} (h : n ≤ s.readable) : (s.advance n).getp = s.getp + n := by
  have := s.getp_le_endp
  simp only [advance, readable] at *
  omega

@[simp] theorem advance_unread (s : Stream) (n : Nat) : (s.advance n).unread = s.unread.drop n := by
  have := s.getp_le_endp
  rw [unread, unread, advance_written, drop_drop]
  show s.written.drop (min (s.getp + n) s.endp) = s.written.drop (s.getp + n)
  by_cases h : s.getp + n ≤ s.endp
  · rw [Nat.min_eq_left h]
  · rw [Nat.min_eq_right (by omega), drop_eq_nil_of_le (by simp),
      drop_eq_nil_of_le (by simp; omega)]

theorem advance_readable (s : Stream) (n : Nat) : (s.advance n).readable = s.readable - n := by
  rw [← unread_length, advance_unread, length_drop, unread_length]

/-- `s` with the bytes of its memory from `pos` on replaced by `bs`, valid or not. -/
def splice (s : Stream) (pos : Nat) (bs : List UInt8) (h : pos + bs.length ≤ s.size) : Stream where
  data := s.data.take pos ++ bs ++ s.data.drop (pos + bs.length)
  getp := s.getp
  endp := s.endp
  getp_le_endp := s.getp_le_endp
  endp_le_size := by
    have := s.endp_le_size
    simp only [size] at h
    simp only [length_append, length_take, length_drop]
    omega

@[simp] theorem splice_endp (s : Stream) (pos : Nat) (bs : List UInt8)
    (h : pos + bs.length ≤ s.size) : (s.splice pos bs h).endp = s.endp := rfl

@[simp] theorem splice_size (s : Stream) (pos : Nat) (bs : List UInt8)
    (h : pos + bs.length ≤ s.size) : (s.splice pos bs h).size = s.size := by
  simp only [size] at h ⊢
  simp only [splice, length_append, length_take, length_drop]
  omega

theorem splice_drop_written (s : Stream) {pos k : Nat}
    (h : pos + bs.length ≤ s.size) (hk : pos + bs.length ≤ k) :
    (s.splice pos bs h).written.drop k = s.written.drop k := by
  have hda : (s.splice pos bs h).data.drop k = s.data.drop k := by
    have hlen : (s.data.take pos ++ bs).length = pos + bs.length := by
      simp only [size] at h
      rw [length_append, length_take, Nat.min_eq_left (by omega)]
    show (s.data.take pos ++ bs ++ s.data.drop (pos + bs.length)).drop k = _
    rw [drop_append, drop_eq_nil_of_le (by omega), hlen, drop_drop, nil_append]
    congr 1
    omega
  rw [written, written, splice_endp, drop_take, drop_take, hda]

/-- Rewriting the first of the bytes just appended. -/
theorem overwrite_append (hlen : bs.length = as.length)
    (h : s.endp + bs.length ≤ (s.append (as ++ cs)).endp) :
    (s.append (as ++ cs)).overwrite s.endp bs h = s.append (bs ++ cs) := by
  have hw := s.written_length
  refine Stream.ext ?_ rfl (by simp [overwrite, hlen])
  show (s.append (as ++ cs)).data.take s.endp ++ bs
    ++ (s.append (as ++ cs)).data.drop (s.endp + bs.length) = _
  rw [append_data, append_data, append_assoc s.written,
    take_append_of_le_length hw.ge, take_of_length_le hw.le,
    drop_append, drop_eq_nil_of_le (by omega), hw, hlen,
    append_assoc as, Nat.add_sub_cancel_left, drop_left]
  simp [hlen]

/-- The valid bytes are the old ones around the new. -/
theorem overwrite_written {pos : Nat}
    (h : pos + bs.length ≤ s.endp) : (s.overwrite pos bs h).written
      = s.written.take pos ++ bs ++ s.written.drop (pos + bs.length) := by
  have he := s.endp_le_size
  have hp : (s.data.take pos).length = pos := by
    rw [length_take]
    omega
  show (s.data.take pos ++ bs ++ s.data.drop (pos + bs.length)).take s.endp = _
  rw [take_append, take_append, take_of_length_le (by omega), hp,
    take_of_length_le (by omega : bs.length ≤ s.endp - pos), length_append, hp,
    written, take_take, Nat.min_eq_left (by omega), drop_take]

/-! ## Puts and gets -/

/-- The common body of the bounded puts: abort unless there is room. -/
def putBytes (bs : List UInt8) : StreamM Unit := fun s =>
  if s.writeable < bs.length then .error .assertion else .ok ((), s.append bs)

variable (n : Nat)

/-- The common body of the bounded gets. -/
def getBytes : StreamM (List UInt8) := fun s =>
  if s.readable < n then .error .assertion
  else .ok (s.unread.take n, s.advance n)

/-- The common body of `stream_put*_at`. -/
def putBytesAt (bs : List UInt8) : StreamM Unit := fun s =>
  if h : pos + bs.length ≤ s.endp then .ok ((), s.overwrite pos bs h)
  else .error .assertion

theorem putBytesAt_ok {ds : List UInt8}
    (hwr : s.written = as ++ (bs ++ cs)) (hlen : ds.length = bs.length) :
    ∃ s', putBytesAt as.length ds s = .ok ((), s') ∧ s'.written = as ++ (ds ++ cs)
      ∧ s'.size = s.size := by
  have he : s.endp = as.length + (bs.length + cs.length) := by
    rw [← written_length, hwr, length_append, length_append]
  have hvld : as.length + ds.length ≤ s.endp := by omega
  refine ⟨s.overwrite as.length ds hvld, dif_pos hvld, ?_, ?_⟩
  · rw [overwrite_written, hwr, take_left, hlen, ← append_assoc as bs cs,
      drop_left' (by rw [length_append]), append_assoc]
  · have hle := s.endp_le_size
    simp only [size, overwrite, length_append, length_take, length_drop]
    omega

/-- `stream_putc`. -/
def putc (c : UInt8) : StreamM Unit := putBytes [c]

/-- `stream_putw`. -/
def putw (w : UInt16) : StreamM Unit := putBytes (be16 w)

/-- `stream_putl`. -/
def putl (l : UInt32) : StreamM Unit := putBytes (be32 l)

/-- `stream_put_ipv4` and `stream_put_in_addr`: the address is copied as
it lies in memory, in network byte order. -/
def putIpv4 (a : UInt32) : StreamM Unit := putBytes (be32 a)

variable (src : List UInt8)

/-- `stream_put` with a source: `CHECK_SIZE` cuts the source down to the
room left before the copy. -/
def put : StreamM Unit := fun s =>
  putBytes (src.take s.writeable) s

/-- `stream_putc_at`. -/
def putcAt (c : UInt8) : StreamM Unit := putBytesAt pos [c]

/-- `stream_putw_at`. -/
def putwAt (w : UInt16) : StreamM Unit := putBytesAt pos (be16 w)

/-- `stream_putl_at`. -/
def putlAt (l : UInt32) : StreamM Unit := putBytesAt pos (be32 l)

/-- `stream_forward_endp`. The bytes stepped over are valid as they lie there. -/
def forwardEndp : StreamM Unit := fun s =>
  if h : s.endp + n ≤ s.size then
    .ok ((), { s with
      endp := s.endp + n,
      getp_le_endp := Nat.le_trans s.getp_le_endp (Nat.le_add_right ..),
      endp_le_size := h })
  else .error .assertion

theorem forwardEndp_ok {n : Nat} (h : s.endp + n ≤ s.size) :
    ∃ s', forwardEndp n s = .ok ((), s') ∧ s'.data = s.data ∧ s'.endp = s.endp + n :=
  ⟨_, dif_pos h, rfl, rfl⟩

/-- An assignment through a pointer into `STREAM_DATA`. -/
def poke (bs : List UInt8) : StreamM Unit := fun s =>
  if h : pos + bs.length ≤ s.size then .ok ((), s.splice pos bs h)
  else .error .outOfBounds

theorem poke_append (hlen : bs.length = as.length) :
    poke s.endp bs (s.append (as ++ cs)) = .ok ((), s.append (bs ++ cs)) := by
  have hvld : s.endp + bs.length ≤ (s.append (as ++ cs)).endp := by
    rw [append_endp, length_append, hlen]
    omega
  rw [← overwrite_append hlen hvld]
  exact dif_pos (Nat.le_trans hvld (s.append (as ++ cs)).endp_le_size)

/-- `stream_getc`. -/
def getc : StreamM UInt8 := do return UInt8.ofNat (ofBE (← getBytes 1))

/-- `stream_getw`. -/
def getw : StreamM UInt16 := do return UInt16.ofNat (ofBE (← getBytes 2))

/-- `stream_getl`. -/
def getl : StreamM UInt32 := do return UInt32.ofNat (ofBE (← getBytes 4))

/-- `stream_get_ipv4`. -/
def getIpv4 : StreamM UInt32 := do return UInt32.ofNat (ofBE (← getBytes 4))

/-- `stream_forward_getp`. -/
def forwardGetp : StreamM Unit := fun s =>
  if s.getp + n ≤ s.endp then .ok ((), s.advance n) else .error .assertion

/-- `stream_set_getp`. -/
def setGetp : StreamM Unit := fun s =>
  if h : pos ≤ s.endp then
    .ok ((), { s with getp := pos, getp_le_endp := h })
  else .error .assertion

/-- `stream_new`: an empty buffer of the given size. The bytes
`XMALLOC` leaves in it are never visible below `endp`. -/
def new (size : Nat) : Stream where
  data := replicate size 0
  getp := 0
  endp := 0
  getp_le_endp := Nat.le_refl 0
  endp_le_size := Nat.zero_le _

@[simp] theorem new_size : (new n).size = n := by
  simp [new, size]

@[simp] theorem new_writeable : (new n).writeable = n := by
  simp [writeable, size, new]

/-! ## Rules for encoders and decoders -/

/-- The encoder `m` stores exactly `bs` and returns `a`, on every stream
with room for `bs`. -/
def Emits {α : Type} (m : StreamM α) (bs : List UInt8) (a : α) : Prop :=
  ∀ s : Stream, bs.length ≤ s.writeable → m s = .ok (a, s.append bs)

/-- The decoder `m` consumes exactly `bs` and returns `a`, on every
stream whose unread part begins with `bs`. -/
def Reads {α : Type} (m : StreamM α) (bs : List UInt8) (a : α) : Prop :=
  ∀ s : Stream, bs <+: s.unread → m s = .ok (a, s.advance bs.length)

section

variable {α β : Type}

theorem Emits.pure (a : α) : Emits (pure a : StreamM α) [] a := by
  intro s _
  rw [append_nil]
  rfl

variable {f : α → StreamM β} {as bs : List UInt8} {a : α} {b : β} {m : StreamM α}

theorem Emits.bind (hm : Emits m as a) (hf : Emits (f a) bs b) : Emits (m >>= f) (as ++ bs) b := by
  intro s hs
  rw [length_append] at hs
  have has : as.length ≤ s.writeable := by omega
  rw [bind_ok (hm s has), hf _ (by rw [append_writeable has]; omega), append_append]

theorem Emits.seq {m : StreamM Unit} {n : StreamM β} (hm : Emits m as ()) (hn : Emits n bs b) :
    Emits (do m; n) (as ++ bs) b :=
  hm.bind hn

theorem Reads.pure (a : α) : Reads (pure a : StreamM α) [] a := by
  intro s _
  rw [length_nil, advance_zero]
  rfl

theorem Reads.bind (hm : Reads m as a) (hf : Reads (f a) bs b) : Reads (m >>= f) (as ++ bs) b := by
  intro s ⟨rest, hs⟩
  rw [append_assoc] at hs
  rw [bind_ok (hm s ⟨_, hs⟩), hf _ ?_, advance_advance, length_append]
  rw [advance_unread, ← hs, drop_left]
  exact prefix_append ..

/-- An encoder whose result may depend on the stream, such as one that
remembers a position. -/
theorem Emits.bind_any
    (hm : ∀ s : Stream, as.length ≤ s.writeable → ∃ a, m s = .ok (a, s.append as))
    (hf : ∀ a, Emits (f a) bs b) : Emits (m >>= f) (as ++ bs) b := by
  intro s hs
  rw [length_append] at hs
  have has : as.length ≤ s.writeable := by omega
  obtain ⟨a, ha⟩ := hm s has
  rw [bind_ok ha, hf a _ (by rw [append_writeable has]; omega), append_append]

/-- A length field written as a placeholder and filled in when the body
behind it is there. -/
theorem emits_putwAt {m : StreamM Nat} {n : Nat} (hm : Emits m bs n) :
    Emits (do
      let sizep := (← get).endp
      putw 0
      let size ← m
      putwAt sizep (UInt16.ofNat size)) (be16 (UInt16.ofNat n) ++ bs) () := by
  intro s hs
  have hw : Emits (putw 0) (be16 0) () := fun s hs => if_neg (Nat.not_lt.mpr hs)
  have hbd : Emits (do putw 0; m) (be16 0 ++ bs) n := hw.bind hm
  have hlen : (be16 (UInt16.ofNat n)).length = (be16 0).length := by simp
  have hs0 : (be16 0 ++ bs).length ≤ s.writeable := by simpa only [length_append, hlen] using hs
  have he : s.endp + (be16 (UInt16.ofNat n)).length ≤ (s.append (be16 0 ++ bs)).endp := by
    rw [append_endp, length_append, hlen]
    omega
  rw [get_bind, ← bind_assoc, bind_ok (hbd s hs0), putwAt, putBytesAt, dif_pos he,
    overwrite_append hlen]

theorem emits_putBytes (bs : List UInt8) : Emits (putBytes bs) bs () :=
  fun _ hs => if_neg (Nat.not_lt.mpr hs)

theorem emits_putc (c : UInt8) : Emits (putc c) [c] () := emits_putBytes _

theorem emits_putw (w : UInt16) : Emits (putw w) (be16 w) () := emits_putBytes _

theorem emits_putl (l : UInt32) : Emits (putl l) (be32 l) () := emits_putBytes _

theorem emits_putIpv4 (a : UInt32) : Emits (putIpv4 a) (be32 a) () := emits_putBytes _

theorem emits_put (src : List UInt8) : Emits (put src) src () := by
  intro s hs
  rw [put, take_of_length_le hs]
  exact emits_putBytes src s hs

theorem reads_getBytes (bs : List UInt8) : Reads (getBytes bs.length) bs bs := by
  intro s hs
  have hlen := hs.length_le
  rw [unread_length] at hlen
  rw [getBytes, if_neg (by omega), (prefix_iff_eq_take.mp hs).symm]

theorem Reads.map (h : Reads m bs a) (f : α → β) : Reads (do return f (← m)) bs (f a) := by
  have hpure : Reads (Pure.pure (f a) : StreamM β) [] (f a) := Reads.pure (f a)
  have hbind := Reads.bind (f := fun a => Pure.pure (f a)) h hpure
  rwa [List.append_nil] at hbind

theorem reads_getc (c : UInt8) : Reads getc [c] c := by
  have h := (reads_getBytes [c]).map fun bs => UInt8.ofNat (ofBE bs)
  have hc : UInt8.ofNat (ofBE [c]) = c := by simp [ofBE]
  rwa [hc] at h

theorem reads_getw (w : UInt16) : Reads getw (be16 w) w := by
  have h := (reads_getBytes (be16 w)).map fun bs => UInt16.ofNat (ofBE bs)
  rwa [ofNat_ofBE_be16] at h

theorem reads_getl (l : UInt32) : Reads getl (be32 l) l := by
  have h := (reads_getBytes (be32 l)).map fun bs => UInt32.ofNat (ofBE bs)
  rwa [ofNat_ofBE_be32] at h

theorem reads_getIpv4 (a : UInt32) : Reads getIpv4 (be32 a) a := reads_getl a

theorem reads_forwardGetp (bs : List UInt8) : Reads (forwardGetp bs.length) bs () := by
  intro s hs
  have hlen := hs.length_le
  have := s.getp_le_endp
  rw [unread_length, readable] at hlen
  rw [forwardGetp, if_pos (by omega)]

theorem setGetp_advance {s : Stream} {pos n : Nat} (hp : pos = s.getp + n)
    (h : pos ≤ s.endp) : setGetp pos s = .ok ((), s.advance n) := by
  rw [setGetp, dif_pos h]
  refine congrArg (fun s => Except.ok ((), s)) (Stream.ext rfl ?_ rfl)
  show pos = min (s.getp + n) s.endp
  omega

end

end Stream

end SdnQuagga
