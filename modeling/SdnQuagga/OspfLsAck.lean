import SdnQuagga.OspfAuth

/-!
# Link state acknowledgements

`ospf_ls_ack_send`, `ospf_ls_ack_send_event` and `ospf_ls_ack_send_delayed` of
`ospfd/ospf_packet.c`. Acknowledgements wait in two lists of the interface, and both are sent
by `while (listcount (ack))` with one packet in each turn.

The test for room counts the header of the packet twice, so with a small MTU no turn takes
anything from the list, and the loop does not end. With a large one a packet can take more
headers than its length, of 16 bits, can tell. `AckRoom` excludes both: exactly with it the
loop ends and its packets acknowledge the list (`sendAll_room`, `sendAll_ok`).
-/

namespace SdnQuagga

open FaultM List
open SdnQuagga.Stream (put)

/-! ## The code -/

def ospfMsgLsAck : UInt8 := 5

/-- The loop of `ospf_make_ls_ack`. It returns the list that is left, the length of the body
and the packet. -/
def ospfMakeLsAck (mem : Nat → LsaData) (oi : OspfIf) (delta : Nat) :
    List Nat → UInt16 → Stream → OspfIfM (List Nat × UInt16 × Stream)
  | [], length, s => return ([], length, s)
  | lsa :: ack, length, s => do
    if (ospfPacketMax oi).toNat < length.toNat + delta then return (lsa :: ack, length, s)
    else
      let r ← on (put (mem lsa).header) s
      ospfLsaUnlock mem lsa
      ospfMakeLsAck mem oi delta ack (length + .ofNat ospfLsaHeaderSize) r.2

variable (mem : Nat → LsaData) (oi : OspfIf)

def ospfLsAckSendList (ack : List Nat) (dst : UInt32) :
    OspfIfM (List Nat) := do
  let new ← on (ospfMakeHeader ospfMsgLsAck oi) (Stream.new oi.mtu.toNat)
  let made ← ospfMakeLsAck mem oi (new.2.endp + 24) ack 0 new.2
  let length := .ofNat ospfHeaderSize + made.2.1
  let filled ← on (ospfFillHeader oi length) made.2.2
  ospfPacketAdd ⟨filled.2, dst, length⟩
  return made.1

/-- `while (listcount (ack)) ospf_ls_ack_send_list (oi, ack, dst)`. -/
def ospfLsAckSendAll (mem : Nat → LsaData) (oi : OspfIf) (dst : UInt32) :
    Nat → List Nat → OspfIfM (List Nat)
  | _, [] => return []
  | 0, _ :: _ => throw .loopBound
  | bound + 1, lsa :: ack => do
    let rest ← ospfLsAckSendList mem oi (lsa :: ack) dst
    ospfLsAckSendAll mem oi dst bound rest

def ospfLsAckSend (nbr : OspfNbr) (lsa : Nat) : OspfIfM Unit := do
  let st ← get
  when (st.lsAckDirect = []) (modify fun st => { st with lsAckDirectDst := nbr.address })
  ospfLsaLock lsa
  modify fun st => { st with lsAckDirect := st.lsAckDirect ++ [lsa] }

variable (bound : Nat)

def ospfLsAckSendEvent : OspfIfM Unit := do
  let st ← get
  let rest ← ospfLsAckSendAll mem oi st.lsAckDirectDst bound st.lsAckDirect
  modify fun st => { st with lsAckDirect := rest }

/-- The destination of `ospf_ls_ack_send_delayed` where it does not send to each neighbor. -/
def delayedDst : UInt32 :=
  if oi.type = .virtuallink then oi.peerAddr
  else if oi.state = .dr ∨ oi.state = .backup then ospfAllspfrouters
  else if oi.type = .pointopoint then ospfAllspfrouters
  else if oi.type = .pointomultipoint then ospfAllspfrouters
  else ospfAlldrouters

/-- `nbr != oi->nbr_self && nbr->state >= NSM_Exchange`. -/
def OspfNbr.adjacent (nbr : OspfNbr) : Bool := !nbr.self && nbr.state.exchanging

/-- `while (listcount (oi->ls_ack)) ospf_ls_ack_send_list (oi, oi->ls_ack, dst)`. -/
def sendDelayedTo (dst : UInt32) :
    OspfIfM Unit := do
  let st ← get
  let rest ← ospfLsAckSendAll mem oi dst bound st.lsAck
  modify fun st => { st with lsAck := rest }

def ospfLsAckSendDelayed : OspfIfM Unit :=
  if oi.type = .nbma then
    oi.nbrs.forM fun nbr =>
      when (nbr.adjacent = true) (sendDelayedTo mem oi bound nbr.address)
  else sendDelayedTo mem oi bound (delayedDst oi)

/-! ## The headers in a packet -/

/-- The LSA headers that a body is made of. -/
def lsaHeaders (bs : List UInt8) : List (List UInt8) :=
  if 20 ≤ bs.length then bs.take 20 :: lsaHeaders (bs.drop 20) else []
termination_by bs.length
decreasing_by
  rw [length_drop]
  omega

theorem length_lsaHeaders (bs : List UInt8) : (lsaHeaders bs).length = bs.length / 20 := by
  induction bs using lsaHeaders.induct with
  | case1 bs h ih =>
    rw [lsaHeaders, if_pos h, length_cons, ih, length_drop]
    omega
  | case2 bs h =>
    rw [lsaHeaders, if_neg h, length_nil]
    omega

variable (refs : List Nat)

theorem lsaHeaders_flatMap :
    lsaHeaders (refs.flatMap fun r => (mem r).header) = refs.map fun r => (mem r).header := by
  induction refs with
  | nil =>
    rw [lsaHeaders]
    rfl
  | cons r refs ih =>
    have hlen := (mem r).length_header
    rw [flatMap_cons, lsaHeaders, if_pos (by rw [length_append]; omega),
      take_left' hlen, drop_left' hlen, ih, map_cons]

theorem length_flatMap_headers :
    (refs.flatMap fun r => (mem r).header).length = 20 * refs.length := by
  induction refs with
  | nil => rfl
  | cons r refs ih =>
    rw [flatMap_cons, length_append, ih, LsaData.length_header, length_cons]
    omega

/-- What a packet acknowledges, in as many bytes as it says. -/
def OspfPacket.acks (op : OspfPacket) : List (List UInt8) :=
  lsaHeaders ((op.s.written.take op.length.toNat).drop ospfHeaderSize)

/-! ## One packet -/

variable {mem : Nat → LsaData} {oi : OspfIf}

/-- The length of the body after so many headers. -/
def bodyLength (n : Nat) : UInt16 := .ofNat (20 * n)

theorem bodyLength_succ (n : Nat) :
    bodyLength (n + 1) = .ofNat ospfLsaHeaderSize + bodyLength n := by
  apply UInt16.toNat_inj.mp
  simp only [bodyLength, ospfLsaHeaderSize, UInt16.toNat_add, UInt16.toNat_ofNat']
  omega

theorem toNat_bodyLength {n : Nat} (h : n ≤ 3275) : (bodyLength n).toNat = 20 * n :=
  UInt16.toNat_ofNat_of_lt' (show _ < 65536 by omega)

/-- One packet has taken the front of the list. -/
structure AckBatch (mem : Nat → LsaData) (oi : OspfIf) (delta : Nat) (length : UInt16)
    (s : Stream) (batch rest : List Nat) (s' : Stream) : Prop where
  size : s'.size = s.size
  endp : s'.endp ≤ s.endp + 20 * batch.length
  checked : ∀ j < batch.length, (length + bodyLength j).toNat + delta ≤ (ospfPacketMax oi).toNat
  full : rest = [] ∨ (ospfPacketMax oi).toNat < (length + bodyLength batch.length).toNat + delta
  written : length.toNat + 20 * batch.length < 65536 → s.endp = length.toNat + 24 →
    s'.written = s.written ++ batch.flatMap fun r => (mem r).header

theorem put_header (lsa : LsaData) (s : Stream) :
    ∃ s', put lsa.header s = .ok ((), s') ∧ s'.size = s.size ∧ s'.endp ≤ s.endp + 20
      ∧ (s.endp + 20 ≤ s.size → s' = s.append lsa.header) := by
  have hlen := lsa.length_header
  have hfit : (lsa.header.take s.writeable).length ≤ s.writeable := length_take_le _ _
  refine ⟨s.append (lsa.header.take s.writeable),
    if_neg (Nat.not_lt.mpr hfit), Stream.append_size hfit, ?_, ?_⟩
  · rw [Stream.append_endp, length_take]
    omega
  · intro hrm
    rw [take_of_length_le]
    rw [Stream.writeable]
    omega

theorem makeLsAck_batch (ack : List Nat) (length : UInt16) (s : Stream) (st : OspfIfState)
    (hhl : LsaHeld mem st.lock ack) (hsize : (ospfPacketMax oi).toNat ≤ s.size) :
    ∃ batch rest s', ack = batch ++ rest ∧ ospfMakeLsAck mem oi 48 ack length s st
        = .ok ((rest, length + bodyLength batch.length, s'), st.release batch)
      ∧ AckBatch mem oi 48 length s batch rest s' := by
  have hz : length + bodyLength 0 = length := UInt16.add_zero length
  induction ack generalizing length s st with
  | nil =>
    refine ⟨[], [], s, rfl, ?_, rfl, Nat.le_add_right _ _, nofun, .inl rfl, ?_⟩
    · rw [length_nil, hz, release_nil]
      rfl
    · intro _ _
      rw [flatMap_nil, append_nil]
  | cons lsa ack ih =>
    rw [ospfMakeLsAck]
    split
    next hov =>
      refine ⟨[], lsa :: ack, s, rfl, ?_, rfl, Nat.le_add_right _ _, nofun, .inr ?_, ?_⟩
      · rw [length_nil, hz, release_nil]
        rfl
      · rwa [length_nil, hz]
      · intro _ _
        rw [flatMap_nil, append_nil]
    next hrm =>
      obtain ⟨s1, hput, hsz1, he1, happend⟩ := put_header (mem lsa) s
      obtain ⟨batch, rest, s', rfl, hr, hb⟩ :=
        ih (length + .ofNat ospfLsaHeaderSize) s1 (st.release [lsa]) (hhl.drop [lsa])
          (by rwa [hsz1]) (UInt16.add_zero _)
      have hnx n : length + .ofNat ospfLsaHeaderSize + bodyLength n
          = length + bodyLength (n + 1) := by rw [bodyLength_succ, UInt16.add_assoc]
      refine ⟨lsa :: batch, rest, s', rfl, ?_, hb.size.trans hsz1, ?_, ?_, ?_, ?_⟩
      · rw [on_bind_ok hput, bind_ok (unlock_held hhl), hr, release_release, hnx]
        rfl
      · have := hb.endp
        rw [length_cons]
        omega
      · intro j hj
        cases j with
        | zero =>
          rw [hz]
          omega
        | succ j =>
          rw [← hnx]
          exact hb.checked j (Nat.lt_of_succ_lt_succ hj)
      · rw [length_cons, ← hnx]
        exact hb.full
      · intro hlt he
        rw [length_cons] at hlt
        have hmx : s.endp + 20 ≤ s.size := by omega
        have hlen : (length + .ofNat ospfLsaHeaderSize).toNat = length.toNat + 20 := by
          rw [UInt16.toNat_add]
          exact Nat.mod_eq_of_lt (show length.toNat + 20 < 65536 by omega)
        have hwr := hb.written (by omega) (by
          rw [happend hmx, Stream.append_endp, LsaData.length_header]
          omega)
        rw [hwr, happend hmx, Stream.append_written, append_assoc, flatMap_cons]

/-- A packet to `dst` that has taken `batch` from the list and left `rest`. -/
structure AckPacket (mem : Nat → LsaData) (oi : OspfIf) (dst : UInt32)
    (batch rest : List Nat) (op : OspfPacket) : Prop where
  dst : op.dst = dst
  checked : ∀ j < batch.length, (bodyLength j).toNat + 48 ≤ (ospfPacketMax oi).toNat
  full : rest = [] ∨ (ospfPacketMax oi).toNat < (bodyLength batch.length).toNat + 48
  length_acks : op.acks.length ≤ min batch.length 3275
  acks : batch.length ≤ 3275 → op.acks = batch.map fun r => (mem r).header

theorem sendList_packet (hmt : 68 ≤ oi.mtu.toNat) (ack : List Nat) (dst : UInt32)
    (st : OspfIfState) (hhl : LsaHeld mem st.lock ack) :
    ∃ batch rest op, ack = batch ++ rest ∧ ospfLsAckSendList mem oi ack dst st
        = .ok (rest, st.sent batch [op]) ∧ AckPacket mem oi dst batch rest op
      ∧ (24 + 20 * batch.length + ospfPacketAuthspace oi ≤ ospfMaxPacketSize →
        Built oi ospfMsgLsAck (batch.flatMap fun r => (mem r).header) op) := by
  have hmx := toNat_ospfPacketMax hmt
  have hau := authspace_le oi
  have hlrg : ospfHeaderSize ≤ oi.mtu.toNat := by
    rw [ospfHeaderSize]
    omega
  obtain ⟨s, hh, hsize, (he : _ = ospfHeaderSize), hopn⟩ :=
    makeHeader_opened oi ospfMsgLsAck hlrg
  have hsm : (ospfPacketMax oi).toNat ≤ s.size := by omega
  obtain ⟨batch, rest, s', rfl, hmake, hb⟩ := makeLsAck_batch ack 0 s st hhl hsm
  have hdelta : ospfHeaderSize + 24 = 48 := rfl
  have hlen n : (0 : UInt16) + bodyLength n = bodyLength n := UInt16.zero_add _
  obtain ⟨s'', hfl, hsam⟩ :=
    headerStep_fillHeader oi (.ofNat ospfHeaderSize + bodyLength batch.length) s' (by
      rwa [hb.size, hsize])
  have he' : s''.endp ≤ 24 + 20 * batch.length := by
    have := hb.endp
    rw [hsam.endp]
    rw [he, ospfHeaderSize] at this
    exact this
  refine ⟨batch, rest, ⟨s'', dst, .ofNat ospfHeaderSize + bodyLength batch.length⟩, rfl, ?_,
    ⟨rfl, ?_, ?_, ?_, ?_⟩, ?_⟩
  · rw [ospfLsAckSendList, on_bind_ok hh]
    dsimp only
    rw [he, hdelta, bind_ok hmake, hlen, on_bind_ok hfl]
    rfl
  · simpa only [hlen] using hb.checked
  · simpa only [hlen] using hb.full
  · have hsh := (UInt16.ofNat ospfHeaderSize + bodyLength batch.length).toNat_lt
    rw [OspfPacket.acks, length_lsaHeaders, length_drop, length_take, Stream.written_length]
    dsimp only [ospfHeaderSize] at hsh ⊢
    omega
  · intro hft
    have hbod := hb.written (show 0 + 20 * batch.length < 65536 by omega) he
    have hln : (UInt16.ofNat ospfHeaderSize + bodyLength batch.length).toNat
        = 24 + 20 * batch.length := by
      rw [UInt16.toNat_add, toNat_bodyLength hft]
      exact Nat.mod_eq_of_lt (show 24 + 20 * batch.length < 65536 by omega)
    have hdr : s''.written.drop ospfHeaderSize = batch.flatMap fun r => (mem r).header := by
      rw [hsam.body, hbod, drop_left' ((Stream.written_length s).trans he)]
    rw [OspfPacket.acks]
    dsimp only
    rw [take_of_length_le (by rw [Stream.written_length, hln]; exact he'), hdr, lsaHeaders_flatMap]
  · intro hsh
    have hfew : batch.length ≤ 3275 := by
      unfold ospfMaxPacketSize at hsh
      omega
    have hhds := length_flatMap_headers mem batch
    have hbod : s'.written
        = (openedHeader oi ospfMsgLsAck).onto (batch.flatMap fun r => (mem r).header) := by
      rw [hb.written (show 0 + 20 * batch.length < 65536 by omega) he, hopn, onto_append,
        nil_append]
    have hrm : s'.endp + ospfPacketAuthspace oi ≤ s'.size := by
      rw [← Stream.written_length, hbod, length_onto, hhds, hb.size, hsize]
      cases hla : batch.length with
      | zero => omega
      | succ j =>
        have hckd := hb.checked j (by omega)
        rw [hlen, toNat_bodyLength (by omega)] at hckd
        omega
    obtain ⟨s3, hfl', hblt⟩ := fill_built hbod
      (by rw [toNat_bodyLength hfew, hhds]) hrm (by rw [hhds]; exact hsh)
    rw [hfl] at hfl'
    cases hfl'
    exact hblt dst

/-! ## The loop -/

/-- A packet has room for a header, and does not take more than its length can tell. -/
def AckRoom (oi : OspfIf) (n : Nat) : Prop :=
  92 + ospfPacketAuthspace oi ≤ oi.mtu.toNat
    ∧ (oi.mtu.toNat < 65592 + ospfPacketAuthspace oi ∨ n ≤ 3275)

section

variable {dst : UInt32} {batch rest : List Nat} {op : OspfPacket}

theorem AckPacket.progress (h : AckPacket mem oi dst batch rest op) (hmt : 68 ≤ oi.mtu.toNat)
    (hrm : AckRoom oi (batch ++ rest).length) (hne : batch ++ rest ≠ []) :
    batch ≠ [] ∧ batch.length ≤ 3275 := by
  have hmx := toNat_ospfPacketMax hmt
  obtain ⟨hlrg, hsm⟩ := hrm
  constructor
  · rintro rfl
    rcases h.full with rfl | hfu
    · exact hne rfl
    · rw [length_nil, toNat_bodyLength (Nat.zero_le _)] at hfu
      omega
  · rcases hsm with hsm | hsm
    · by_contra hov
      have hck := h.checked 3275 (by omega)
      rw [toNat_bodyLength (Nat.le_refl _)] at hck
      omega
    · rw [length_append] at hsm
      omega

/-- A packet that acknowledges all that it took had room for it. -/
theorem AckPacket.room (h : AckPacket mem oi dst batch rest op) (hmt : 68 ≤ oi.mtu.toNat)
    (hne : batch ≠ []) (hal : op.acks.length = batch.length) :
    AckRoom oi (batch ++ rest).length := by
  have hmx := toNat_ospfPacketMax hmt
  have hsh := h.length_acks
  have hf := h.checked 0 (length_pos_iff.mpr hne)
  rw [toNat_bodyLength (Nat.zero_le _)] at hf
  refine ⟨by omega, ?_⟩
  rcases h.full with rfl | hfu
  · exact .inr (by rw [append_nil]; omega)
  · rw [toNat_bodyLength (by omega)] at hfu
    exact .inl (by omega)

end

theorem sendAll_room (hmt : 68 ≤ oi.mtu.toNat) (dst : UInt32) {bound : Nat} {ack : List Nat}
    {st : OspfIfState} (hbd : ack.length ≤ bound) (hrm : ack ≠ [] → AckRoom oi ack.length)
    (hhl : LsaHeld mem st.lock ack) :
    ∃ pkts, ospfLsAckSendAll mem oi dst bound ack st = .ok ([], st.sent ack pkts)
      ∧ (∀ op ∈ pkts, op.dst = dst)
      ∧ pkts.flatMap OspfPacket.acks = ack.map fun r => (mem r).header := by
  induction bound generalizing ack st with
  | zero =>
    obtain rfl := length_eq_zero_iff.mp (Nat.le_zero.mp hbd)
    refine ⟨[], ?_, nofun, rfl⟩
    simp [ospfLsAckSendAll, OspfIfState.sent]
    rfl
  | succ bound ih =>
    cases ack with
    | nil =>
      refine ⟨[], ?_, nofun, rfl⟩
      simp [ospfLsAckSendAll, OspfIfState.sent]
      rfl
    | cons lsa ack =>
      obtain ⟨batch, rest, op, hap, hr, hop, -⟩ :=
        sendList_packet hmt (lsa :: ack) dst st hhl
      have hsp := hrm (cons_ne_nil _ _)
      rw [hap] at hsp hhl hbd
      have hlen : (batch ++ rest).length = batch.length + rest.length := length_append
      obtain ⟨hne, hft⟩ := hop.progress hmt hsp (hap ▸ cons_ne_nil _ _)
      have hp := length_pos_iff.mpr hne
      have hrs : AckRoom oi rest.length := ⟨hsp.1, hsp.2.imp_right (by omega)⟩
      obtain ⟨pkts, hruns, hdst, hak⟩ :=
        @ih rest (st.sent batch [op]) (by omega) (fun _ => hrs) (hhl.drop batch)
      refine ⟨op :: pkts, ?_, ?_, ?_⟩
      · rw [ospfLsAckSendAll, bind_ok hr, hruns, sent_sent, hap]
        rfl
      · exact forall_mem_cons.mpr ⟨hop.dst, hdst⟩
      · rw [flatMap_cons, hop.acks hft, hak, hap, map_append]

theorem sendAll_ok (hmt : 68 ≤ oi.mtu.toNat) {dst : UInt32} {bound : Nat} {ack rest : List Nat}
    {st st' : OspfIfState} (hhl : LsaHeld mem st.lock ack)
    (hr : ospfLsAckSendAll mem oi dst bound ack st = .ok (rest, st')) :
    rest = [] ∧ ∃ pkts, st' = st.sent ack pkts ∧ (∀ op ∈ pkts, op.dst = dst)
      ∧ (pkts.flatMap OspfPacket.acks).length ≤ ack.length
      ∧ (ack ≠ [] → (pkts.flatMap OspfPacket.acks).length = ack.length →
        AckRoom oi ack.length) := by
  induction bound generalizing ack st with
  | zero =>
    cases ack with
    | nil =>
      cases hr
      exact ⟨rfl, [], by simp [OspfIfState.sent], nofun, Nat.le_refl 0, fun h => (h rfl).elim⟩
    | cons lsa ack => cases hr
  | succ bound ih =>
    cases ack with
    | nil =>
      cases hr
      exact ⟨rfl, [], by simp [OspfIfState.sent], nofun, Nat.le_refl 0, fun h => (h rfl).elim⟩
    | cons lsa ack =>
      obtain ⟨batch, left, op, hap, hf, hop, -⟩ :=
        sendList_packet hmt (lsa :: ack) dst st hhl
      rw [ospfLsAckSendAll, bind_ok hf] at hr
      rw [hap] at hhl ⊢
      obtain ⟨rfl, pkts, rfl, hdst, hle, hrm⟩ :=
        @ih left (st.sent batch [op]) (hhl.drop batch) hr
      have hsh := hop.length_acks
      refine ⟨rfl, op :: pkts, sent_sent .., forall_mem_cons.mpr ⟨hop.dst, hdst⟩, ?_, ?_⟩
      · rw [flatMap_cons, length_append, length_append]
        omega
      · intro hne hal
        rw [flatMap_cons, length_append, length_append] at hal
        by_cases hb : batch = []
        · subst hb
          refine hrm hne ?_
          rw [length_nil] at hal hsh
          omega
        · exact hop.room hmt hb (by omega)

end SdnQuagga
