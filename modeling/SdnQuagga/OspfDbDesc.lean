import SdnQuagga.OspfLsUpdList
import SdnQuagga.OspfLsUpdQueue

/-!
# Database descriptions

`ospf_make_db_desc`, `ospf_db_desc_send` and `ospf_packet_dup` of `ospfd/ospf_packet.c`. The
summary that is still to be described has a table for each type of LSA. A table is left when
the packet is full, and then the next one is tried. What has been described, and what is not to
be described at all, is taken out.

A copy of the packet is kept, without the digest that the packet gets when it is written.
-/

namespace SdnQuagga

open FaultM List
open SdnQuagga.Stream (poke put putc putw putl putcAt written_length append_endp writeable
  append_writeable emits_putc append_size)

/-! ## The code -/

def ospfMsgDbDesc : UInt8 := 2

def ospfOptionO : UInt8 := 0x40
def ospfDdFlagM : UInt8 := 0x02
def ospfDdFlagI : UInt8 := 0x04

/-- A neighbor that the database is described to, with a table of the summary for each type.
Before the exchange it announces more. -/
structure DdNbr where
  address : UInt32
  options : UInt8
  ddFlags : UInt8
  ddSeqnum : UInt32
  state : NsmState
  dbSum : List (List Nat)
  more : state.exchanging = false → ddFlags &&& ospfDdFlagM ≠ 0

/-- The options of a description: `OSPF_OPTION_O` if the instance is capable of opaque LSAs. -/
def ddOptions (opaqueCapable : Bool) (options : UInt8) (nbr : DdNbr) : UInt8 :=
  if opaqueCapable = true ∧ (nbr.ddFlags &&& ospfDdFlagI ≠ 0 ∨ nbr.options &&& ospfOptionO ≠ 0) then
    options ||| ospfOptionO
  else options

variable (mem : Nat → LsaData) (oi : OspfIf) (now : Int) (options : UInt8)

/-- The loop of `ospf_make_db_desc` over one table: what is left in it, the length of the body
and the packet. -/
def makeDbDescTable :
    List Nat → UInt16 → Stream → OspfIfM (List Nat × UInt16 × Stream)
  | [], length, s => return ([], length, s)
  | lsa :: table, length, s =>
    if isOpaqueLsa ((mem lsa).data.getD 3 0) = true ∧ options &&& ospfOptionO = 0 then do
      ospfLsaUnlock mem lsa
      makeDbDescTable table length s
    else if (mem lsa).discard = true then do
      ospfLsaUnlock mem lsa
      makeDbDescTable table length s
    else if (ospfPacketMax oi).toNat < length.toNat + ospfLsaHeaderSize then
      return (lsa :: table, length, s)
    else do
      let copied ← on (put (mem lsa).header) s
      let aged ← on (poke s.endp (be16 (.ofInt ((mem lsa).age now)))) copied.2
      ospfLsaUnlock mem lsa
      makeDbDescTable table (length + .ofNat ospfLsaHeaderSize) aged.2

def makeDbDescTables :
    List (List Nat) → UInt16 → Stream → OspfIfM (List (List Nat) × UInt16 × Stream)
  | [], length, s => return ([], length, s)
  | table :: tables, length, s => do
    let r ← makeDbDescTable mem oi now options table length s
    let rs ← makeDbDescTables tables r.2.1 r.2.2
    return (r.1 :: rs.1, rs.2)

/-- `ospf_db_summary_isempty`. -/
def dbSummaryIsempty (dbSum : List (List Nat)) : Bool := dbSum.all isEmpty

variable (opaqueCapable : Bool) (oiOptions : UInt8)

/-- `ospf_make_db_desc`: the summary that is left, the flags, the length and the packet. -/
def ospfMakeDbDesc (nbr : DdNbr) (s : Stream) :
    OspfIfM (List (List Nat) × UInt8 × UInt16 × Stream) := do
  let options := ddOptions opaqueCapable oiOptions nbr
  let opened ← on (do
    putw (if oi.type = .virtuallink then 0 else .ofNat oi.mtu.toNat)
    putc options
    let pp := (← get).endp
    putc nbr.ddFlags
    putl nbr.ddSeqnum
    return pp) s
  let made ← makeDbDescTables mem oi now options nbr.dbSum 8 opened.2
  if dbSummaryIsempty made.1 = true then
    if nbr.state.exchanging = true then
      let ddFlags := nbr.ddFlags &&& ~~~ ospfDdFlagM
      let flagged ← on (putcAt opened.1 ddFlags) made.2.2
      return (made.1, ddFlags, made.2.1, flagged.2)
    else
      check (nbr.ddFlags &&& ospfDdFlagM ≠ 0)
      return (made.1, nbr.ddFlags, made.2)
  else return (made.1, nbr.ddFlags, made.2)

/-- `ospf_packet_dup`, with room for a digest. -/
def ospfPacketDup (op : OspfPacket) : OspfPacket :=
  { op with s := {
      data := op.s.written ++ replicate ospfAuthMd5Size 0
      getp := op.s.getp
      endp := op.s.endp
      getp_le_endp := op.s.getp_le_endp
      endp_le_size := by rw [length_append, written_length]; omega } }

/-- `ospf_db_desc_send`, with the copy that is kept as `last_send`. -/
def ospfDbDescSend (nbr : DdNbr) : OspfIfM OspfPacket := do
  let new ← on (ospfMakeHeader ospfMsgDbDesc oi) (Stream.new oi.mtu.toNat)
  let made ← ospfMakeDbDesc mem oi now opaqueCapable oiOptions nbr new.2
  let length := .ofNat ospfHeaderSize + made.2.2.1
  let filled ← on (ospfFillHeader oi length) made.2.2.2
  let op : OspfPacket :=
    ⟨filled.2, if oi.type = .pointopoint then ospfAllspfrouters else nbr.address, length⟩
  ospfPacketAdd op
  return ospfPacketDup op

/-! ## What a description takes -/

variable {mem : Nat → LsaData} {oi : OspfIf} {now : Int} {options : UInt8}

/-- A header as it is described, with its age. -/
def ddHeader (now : Int) (lsa : LsaData) : List UInt8 :=
  be16 (.ofInt (lsa.age now)) ++ lsa.header.drop 2

@[simp] theorem length_ddHeader (lsa : LsaData) : (ddHeader now lsa).length = 20 := by
  rw [ddHeader, length_append, be16_length, length_drop, LsaData.length_header]

theorem copy_header {s : Stream} (lsa : LsaData) (hrm : s.endp + 20 ≤ s.size) :
    put lsa.header s = .ok ((), s.append lsa.header)
      ∧ poke s.endp (be16 (.ofInt (lsa.age now))) (s.append lsa.header)
        = .ok ((), s.append (ddHeader now lsa)) := by
  have hlen := lsa.length_header
  exact copy_aged (by omega) (by omega) _

/-- How far a packet has been filled with headers: `n` more were asked for. -/
structure DdBatch (mem : Nat → LsaData) (oi : OspfIf) (now : Int) (n : Nat) (length : UInt16)
    (s : Stream) (batch : List Nat) (length' : UInt16) (s' : Stream) : Prop where
  written : s'.written = s.written ++ batch.flatMap fun r => ddHeader now (mem r)
  size : s'.size = s.size
  endp : length'.toNat + 24 = s'.endp
  asked : length'.toNat ≤ length.toNat + 20 * n
  room : length'.toNat ≤ max length.toNat (ospfPacketMax oi).toNat

variable {s : Stream} {length : UInt16}

theorem DdBatch.nil (n : Nat) (he : length.toNat + 24 = s.endp) :
    DdBatch mem oi now n length s [] length s :=
  ⟨by rw [flatMap_nil, append_nil], rfl, he, Nat.le_add_right _ _, Nat.le_max_left _ _⟩

theorem DdBatch.append {n n' : Nat} {length length' length'' : UInt16} {s s' s'' : Stream}
    {batch batch' : List Nat} (h : DdBatch mem oi now n length s batch length' s')
    (h' : DdBatch mem oi now n' length' s' batch' length'' s'') :
    DdBatch mem oi now (n + n') length s (batch ++ batch') length'' s'' := by
  have hask := h.asked
  have hask' := h'.asked
  have hrm := h.room
  have hrm' := h'.room
  refine ⟨?_, h'.size.trans h.size, h'.endp, by omega, by omega⟩
  rw [h'.written, h.written, append_assoc, flatMap_append]

theorem DdBatch.single (lsa : Nat) (he : length.toNat + 24 = s.endp)
    (hmx : length.toNat + 20 ≤ (ospfPacketMax oi).toNat) (hsh : length.toNat + 20 < 65536)
    (hrm : s.endp + 20 ≤ s.size) :
    DdBatch mem oi now 1 length s [lsa] (length + .ofNat ospfLsaHeaderSize)
      (s.append (ddHeader now (mem lsa))) := by
  have hlen : (length + .ofNat ospfLsaHeaderSize).toNat = length.toNat + 20 := by
    rw [UInt16.toNat_add]
    exact Nat.mod_eq_of_lt hsh
  refine ⟨?_, append_size ?_, ?_, by omega, by omega⟩
  · rw [Stream.append_written, flatMap_singleton]
  · rw [length_ddHeader, writeable]
    omega
  · rw [append_endp, length_ddHeader]
    omega

theorem makeDbDescTable_batch (table : List Nat) (length : UInt16) (s : Stream) (st : OspfIfState)
    (hhl : LsaHeld mem st.lock table) (he : length.toNat + 24 = s.endp)
    (hsize : (ospfPacketMax oi).toNat + 24 ≤ s.size)
    (hsh : min (length.toNat + 20 * table.length) (ospfPacketMax oi).toNat < 65536) :
    ∃ taken rest batch length' s', table = taken ++ rest
      ∧ makeDbDescTable mem oi now options table length s st
        = .ok ((rest, length', s'), st.release taken)
      ∧ DdBatch mem oi now table.length length s batch length' s' := by
  induction table generalizing length s st with
  | nil =>
    refine ⟨[], [], [], length, s, rfl, ?_, .nil 0 he⟩
    rw [release_nil]
    rfl
  | cons lsa table ih =>
    rw [length_cons] at hsh
    -- An LSA that is not described is taken from the table all the same.
    have hsk : ∃ taken rest batch length' s', lsa :: table = taken ++ rest ∧ (do
          ospfLsaUnlock mem lsa
          makeDbDescTable mem oi now options table length s) st
          = .ok ((rest, length', s'), st.release taken)
        ∧ DdBatch mem oi now (lsa :: table).length length s batch length' s' := by
      obtain ⟨taken, rest, batch, length', s', rfl, hr, hb⟩ :=
        ih length s (st.release [lsa]) (hhl.drop [lsa]) he hsize (by omega)
      refine ⟨lsa :: taken, rest, batch, length', s', rfl, ?_, ?_⟩
      · rw [bind_ok (unlock_held hhl), hr, release_release]
        rfl
      · have hask := hb.asked
        exact { hb with asked := by rw [length_cons]; omega }
    rw [makeDbDescTable]
    split
    · exact hsk
    · split
      · exact hsk
      · split
        next hov =>
          refine ⟨[], lsa :: table, [], length, s, rfl, ?_, .nil _ he⟩
          rw [release_nil]
          rfl
        next hrm =>
          have hmx : length.toNat + 20 ≤ (ospfPacketMax oi).toNat := Nat.not_lt.mp hrm
          have hf : DdBatch mem oi now 1 length s [lsa] _ _ :=
            .single lsa he hmx (by omega) (by omega)
          have hlen : (length + .ofNat ospfLsaHeaderSize).toNat = length.toNat + 20 := by
            have he' := hf.endp
            rw [append_endp, length_ddHeader] at he'
            omega
          obtain ⟨hput, hpoke⟩ := @copy_header now s (mem lsa) (by omega)
          obtain ⟨taken, rest, batch, length', s', rfl, hr, hb⟩ :=
            ih _ _ (st.release [lsa]) (hhl.drop [lsa]) hf.endp
              (by rw [hf.size]; exact hsize) (by omega)
          refine ⟨lsa :: taken, rest, [lsa] ++ batch, length', s', rfl, ?_, ?_⟩
          · rw [on_bind_ok hput]
            dsimp only
            rw [on_bind_ok hpoke, bind_ok (unlock_held hhl), hr, release_release]
            rfl
          · have hbo := hf.append hb
            rwa [Nat.add_comm] at hbo

theorem makeDbDescTables_batch (tables : List (List Nat)) (length : UInt16) (s : Stream)
    (st : OspfIfState) (hhl : LsaHeld mem st.lock tables.flatten)
    (he : length.toNat + 24 = s.endp) (hsize : (ospfPacketMax oi).toNat + 24 ≤ s.size)
    (hsh : min (length.toNat + 20 * tables.flatten.length) (ospfPacketMax oi).toNat < 65536) :
    ∃ left taken batch length' s', makeDbDescTables mem oi now options tables length s st
        = .ok ((left, length', s'), st.release taken) ∧ LsaHeld mem (st.release taken).lock []
      ∧ DdBatch mem oi now tables.flatten.length length s batch length' s' := by
  induction tables generalizing length s st with
  | nil =>
    refine ⟨[], [], [], length, s, ?_, ?_, .nil 0 he⟩
    · rw [release_nil]
      rfl
    · rwa [release_nil]
  | cons table tables ih =>
    rw [flatten_cons, length_append] at hsh
    rw [flatten_cons] at hhl
    obtain ⟨taken, rest, batch, length', s', rfl, hr, hb⟩ :=
      @makeDbDescTable_batch mem oi now options table length s st
        (hhl.mono fun r => by rw [count_append]; omega) he hsize (by omega)
    have hask := hb.asked
    have hrm := hb.room
    have hhl' : LsaHeld mem (st.release taken).lock tables.flatten := by
      rw [append_assoc] at hhl
      exact (hhl.drop taken).mono fun r => by rw [count_append]; omega
    obtain ⟨left, taken', batch', length'', s'', hr', hfe, hb'⟩ :=
      ih length' s' (st.release taken) hhl' hb.endp (by rw [hb.size]; exact hsize)
        (by omega)
    refine ⟨rest :: left, taken ++ taken', batch ++ batch', length'', s'', ?_, ?_, ?_⟩
    · rw [makeDbDescTables, bind_ok hr, bind_ok hr', release_release]
      rfl
    · rwa [← release_release]
    · rw [flatten_cons, length_append]
      exact hb.append hb'

/-- The body of a description: a head of eight bytes, and headers. -/
def ddBody (mem : Nat → LsaData) (now : Int) (head : List UInt8) (batch : List Nat) : List UInt8 :=
  head ++ batch.flatMap fun r => ddHeader now (mem r)

theorem dbDescHead_run (mtu : UInt16) (options ddFlags : UInt8) (ddSeqnum : UInt32)
    (hrm : 8 ≤ s.writeable) :
    (do
      putw mtu
      putc options
      let pp := (← get).endp
      putc ddFlags
      putl ddSeqnum
      return pp : StreamM Nat) s
      = .ok (s.endp + 3, s.append ((be16 mtu ++ [options]) ++ ([ddFlags] ++ be32 ddSeqnum))) := by
  have hmt : (be16 mtu).length ≤ s.writeable := by
    rw [be16_length]
    omega
  have hoptions : [options].length ≤ (s.append (be16 mtu)).writeable := by
    rw [append_writeable hmt, be16_length, length_singleton]
    omega
  have htl (pp : Nat) : Stream.Emits (do putc ddFlags; putl ddSeqnum; return pp)
      ([ddFlags] ++ (be32 ddSeqnum ++ [])) pp :=
    (emits_putc ddFlags).seq ((Stream.emits_putl ddSeqnum).seq (.pure pp))
  have hrs : ([ddFlags] ++ (be32 ddSeqnum ++ [])).length
      ≤ ((s.append (be16 mtu)).append [options]).writeable := by
    rw [append_writeable hoptions, append_writeable hmt]
    simp only [length_append, be16_length, be32_length, length_singleton, length_nil]
    omega
  rw [bind_ok (Stream.emits_putw mtu s hmt), bind_ok (emits_putc options _ hoptions),
    get_bind, htl _ _ hrs, Stream.append_append, Stream.append_append, append_nil,
    append_endp, length_append, be16_length]
  rfl

theorem makeDbDesc_body (hmt : 68 ≤ oi.mtu.toNat) (opaqueCapable : Bool) (oiOptions : UInt8)
    (nbr : DdNbr) {s : Stream} {st : OspfIfState} (hhl : LsaHeld mem st.lock nbr.dbSum.flatten)
    (he : s.endp = 24) (hsize : s.size = oi.mtu.toNat)
    (hft : ListFits oi (8 + 20 * nbr.dbSum.flatten.length)) :
    ∃ left ddFlags length s' head batch taken,
      ospfMakeDbDesc mem oi now opaqueCapable oiOptions nbr s st
        = .ok ((left, ddFlags, length, s'), st.release taken)
      ∧ LsaHeld mem (st.release taken).lock [] ∧ head.length = 8
      ∧ s'.written = s.written ++ ddBody mem now head batch
      ∧ s'.size = s.size ∧ length.toNat + 24 = s'.endp
      ∧ length.toNat ≤ min (8 + 20 * nbr.dbSum.flatten.length) (ospfPacketMax oi).toNat := by
  have hmx := toNat_ospfPacketMax hmt
  have hau := authspace_le oi
  have height : (8 : UInt16).toNat = 8 := rfl
  unfold ListFits ospfMaxPacketSize at hft
  unfold ospfMakeDbDesc
  dsimp only
  generalize (if oi.type = .virtuallink then 0 else .ofNat oi.mtu.toNat : UInt16) = mtu
  generalize ddOptions opaqueCapable oiOptions nbr = options
  have hrm : 8 ≤ s.writeable := by
    rw [writeable]
    omega
  have hopn := dbDescHead_run mtu options nbr.ddFlags nbr.ddSeqnum hrm
  have hhe ddFlags :
      ((be16 mtu ++ [options]) ++ ([ddFlags] ++ be32 nbr.ddSeqnum)).length = 8 := by
    simp only [length_append, be16_length, be32_length, length_singleton]
  have hsz1 := append_size ((hhe nbr.ddFlags).trans_le hrm)
  obtain ⟨left, taken, batch, length, s2, hr, hfe, hb⟩ :=
    @makeDbDescTables_batch mem oi now options nbr.dbSum 8
      (s.append ((be16 mtu ++ [options]) ++ ([nbr.ddFlags] ++ be32 nbr.ddSeqnum))) st hhl
      (by rw [append_endp, hhe, he]; rfl) (by rw [hsz1]; omega) (by omega)
  have hask := hb.asked
  have hmost := hb.room
  have hwr : s2.written = s.written ++ ddBody mem now
      ((be16 mtu ++ [options]) ++ ([nbr.ddFlags] ++ be32 nbr.ddSeqnum)) batch := by
    rw [hb.written, Stream.append_written, append_assoc, ddBody]
  have hln : length.toNat
      ≤ min (8 + 20 * nbr.dbSum.flatten.length) (ospfPacketMax oi).toNat := by omega
  rw [on_bind_ok hopn, bind_ok hr]
  dsimp only
  split
  · split
    next hexchanging =>
      have hsp ddFlags : s.written ++ ddBody mem now
          ((be16 mtu ++ [options]) ++ ([ddFlags] ++ be32 nbr.ddSeqnum)) batch
          = (s.written ++ (be16 mtu ++ [options])) ++ ([ddFlags]
            ++ (be32 nbr.ddSeqnum ++ batch.flatMap fun r => ddHeader now (mem r))) := by
        simp only [ddBody, append_assoc]
      have hpp : (s.written ++ (be16 mtu ++ [options])).length = s.endp + 3 := by
        rw [length_append, written_length, length_append, be16_length]
        rfl
      obtain ⟨s3, hfl, hwr3, hsz3⟩ :=
        @Stream.putBytesAt_ok s2 _ _ _ [nbr.ddFlags &&& ~~~ ospfDdFlagM] (hwr.trans (hsp _)) rfl
      have he3 : s3.endp = s2.endp := by
        rw [← written_length, ← written_length, hwr3, hwr.trans (hsp _)]
        simp only [length_append, length_singleton]
      rw [hpp] at hfl
      refine ⟨left, nbr.ddFlags &&& ~~~ ospfDdFlagM, length, s3, _, batch, taken, ?_, hfe,
        hhe _, hwr3.trans (hsp _).symm, hsz3.trans (hb.size.trans hsz1), he3 ▸ hb.endp, hln⟩
      rw [putcAt, on_bind_ok hfl]
      rfl
    next hear =>
      refine ⟨left, nbr.ddFlags, length, s2, _, batch, taken, ?_, hfe, hhe _, hwr,
        hb.size.trans hsz1, hb.endp, hln⟩
      rw [check, if_pos (nbr.more (Bool.eq_false_of_not_eq_true hear))]
      rfl
  · exact ⟨left, nbr.ddFlags, length, s2, _, batch, taken, rfl, hfe, hhe _, hwr,
      hb.size.trans hsz1, hb.endp, hln⟩

theorem dbDescSend_built (hmt : 68 ≤ oi.mtu.toNat) (opaqueCapable : Bool) (oiOptions : UInt8)
    (nbr : DdNbr) {st : OspfIfState} (hhl : LsaHeld mem st.lock nbr.dbSum.flatten)
    (hft : ListFits oi (8 + 20 * nbr.dbSum.flatten.length)) :
    ∃ op head batch taken, ospfDbDescSend mem oi now opaqueCapable oiOptions nbr st
        = .ok (ospfPacketDup op, st.sent taken [op]) ∧ LsaHeld mem (st.release taken).lock []
      ∧ head.length = 8 ∧ Built oi ospfMsgDbDesc (ddBody mem now head batch) op := by
  have hmx := toNat_ospfPacketMax hmt
  have hau := authspace_le oi
  obtain ⟨s, hh, hsize, he, hopn⟩ :=
    @makeHeader_opened oi ospfMsgDbDesc oi.mtu.toNat (by omega)
  obtain ⟨left, ddFlags, length, s', head, batch, taken, hmake, hfe, hhe, hwr, hsz', he', hle⟩ :=
    @makeDbDesc_body mem oi now hmt opaqueCapable oiOptions nbr s st hhl he hsize hft
  have hbd : s'.written = (openedHeader oi ospfMsgDbDesc).onto (ddBody mem now head batch) := by
    rw [hwr, hopn, onto_append, nil_append]
  have hlen : s'.endp = 24 + (ddBody mem now head batch).length := by
    rw [← written_length, hbd, length_onto]
  unfold ListFits at hft
  have hby : length.toNat = (ddBody mem now head batch).length := by omega
  obtain ⟨s'', hfil, hblt⟩ := fill_built hbd hby (by rw [hsz', hsize]; omega) (by omega)
  refine ⟨⟨s'', if oi.type = .pointopoint then ospfAllspfrouters else nbr.address,
    .ofNat ospfHeaderSize + length⟩, head, batch, taken, ?_, hfe, hhe, hblt _⟩
  rw [ospfDbDescSend, on_bind_ok hh, bind_ok hmake]
  dsimp only
  rw [on_bind_ok hfil]
  rfl

end SdnQuagga
