import SdnQuagga.OspfAuth

/-!
# The queue of link state updates

`ospf_ls_upd_packet_new`, `ospf_make_ls_upd` and `ospf_ls_upd_queue_send` of
`ospfd/ospf_packet.c`. An interface has a list of LSAs for each address that updates go to.
Each run of the event makes a packet from the front of each list.

The size of the packet is computed from the first LSA, and with it the LSA fits exactly. If
the size is beyond what a packet can have there is no packet. The LSA is then taken from
the list, but its reference is not given back, and the caller goes on with a packet that is
not there.
-/

namespace SdnQuagga

open FaultM List
open SdnQuagga.Stream (poke forwardEndp put putlAt written_length writeable append_endp)

/-! ## The code -/

def ospfMsgLsUpd : UInt8 := 4

/-- `LS_AGE`. -/
def LsaData.age (now : Int) (lsa : LsaData) : Int :=
  min ospfLsaMaxage (ofBE (lsa.data.take 2) + (now - lsa.tvRecv) / 1000000)

def lsAgeIncrement (now : Int) (lsa : LsaData) (delay : Int) : Int :=
  let age : Int := if lsa.age now = ospfLsaMaxage then ospfLsaMaxage else lsa.age now + delay
  if age > ospfLsaMaxage then ospfLsaMaxage else age

/-- The size that `ospf_ls_upd_packet_new` computes for a packet that starts with an LSA of
this length, with the header of IP. -/
def lsUpdPacketSize (oi : OspfIf) (length : Nat) : Nat :=
  if (ospfPacketMax oi).toNat < 4 + length then
    length + (oi.mtu - ospfPacketMax oi).toNat + 4
  else oi.mtu.toNat

variable (mem : Nat → LsaData) (oi : OspfIf)

/-- `ospf_ls_upd_packet_new`: the list that is left, and the packet. -/
def ospfLsUpdPacketNew :
    List Nat → OspfIfM (List Nat × Option Stream)
  | [] => throw .nullDeref
  | lsa :: update =>
    let size := lsUpdPacketSize oi (mem lsa).data.length
    if ospfMaxPacketSize < size then return (update, none)
    else return (lsa :: update, some (.new (size - ipHeaderSize)))

/-- The loop of `ospf_make_ls_upd`. It returns the list that is left, the length of the
body, the number of LSAs and the packet. -/
def makeLsUpdLoop (mem : Nat → LsaData) (oi : OspfIf) (now : Int) (sizeNoauth delta : Nat) :
    List Nat → UInt16 → Nat → Stream → OspfIfM (List Nat × UInt16 × Nat × Stream)
  | [], length, count, s => return ([], length, count, s)
  | lsa :: update, length, count, s => do
    if sizeNoauth < length.toNat + delta + (mem lsa).data.length then
      return (lsa :: update, length, count, s)
    else
      let copied ← on (put (mem lsa).data) s
      let lsAge := UInt16.ofInt (lsAgeIncrement now (mem lsa) oi.transmitDelay.toNat)
      let aged ← on (poke s.endp (be16 lsAge)) copied.2
      ospfLsaUnlock mem lsa
      makeLsUpdLoop mem oi now sizeNoauth delta update
        (length + .ofNat (mem lsa).data.length) (count + 1) aged.2

variable (now : Int) (update : List Nat)

def ospfMakeLsUpd (s : Stream) : OspfIfM (List Nat × UInt16 × Stream) := do
  let opened ← on (forwardEndp 4) s
  let made ← makeLsUpdLoop mem oi now (s.size - ospfPacketAuthspace oi) s.endp update 4 0 opened.2
  let counted ← on (putlAt s.endp (.ofNat made.2.2.1)) made.2.2.2
  return (made.1, made.2.1, counted.2)

def lsUpdDst (addr : UInt32) : UInt32 :=
  if oi.type = .pointopoint then ospfAllspfrouters else addr

/-- `ospf_ls_upd_queue_send`, with the list that is left. -/
def ospfLsUpdQueueSend (addr : UInt32) : OspfIfM (List Nat) := do
  let new ← ospfLsUpdPacketNew mem oi update
  match new.2 with
  | none => throw .nullDeref
  | some s =>
    let opened ← on (ospfMakeHeader ospfMsgLsUpd oi) s
    let made ← ospfMakeLsUpd mem oi now new.1 opened.2
    let length := .ofNat ospfHeaderSize + made.2.1
    let filled ← on (ospfFillHeader oi length) made.2.2
    ospfPacketAdd ⟨filled.2, lsUpdDst oi addr, length⟩
    return made.1

/-! ## What an update carries -/

/-- An LSA as it is sent: older by the transmit delay, up to `MaxAge`. -/
def sentLsa (lsa : LsaData) : List UInt8 :=
  be16 (.ofInt (min (ospfLsaMaxage : Int) (lsa.age now + oi.transmitDelay.toNat)))
    ++ lsa.data.drop 2

/-- The packet carries these LSAs, in this order, and counts them. -/
structure CarriesUpdate (mem : Nat → LsaData) (oi : OspfIf) (now : Int) (lsas : List Nat)
    (op : OspfPacket) : Prop where
  length : op.length.toNat = op.s.endp
  body : ∃ count : UInt32, count.toNat = lsas.length ∧ op.s.written.drop ospfHeaderSize
      = be32 count ++ lsas.flatMap fun r => sentLsa oi now (mem r)

variable (lsa : LsaData)

/-- An update with this LSA alone is not too large. -/
def UpdFits : Prop :=
  lsa.data.length + 48 + ospfPacketAuthspace oi ≤ ospfMaxPacketSize

instance (oi : OspfIf) (lsa : LsaData) : Decidable (UpdFits oi lsa) :=
  inferInstanceAs (Decidable (_ ≤ _))

variable {mem : Nat → LsaData} {oi : OspfIf} {now : Int}

@[simp] theorem length_sentLsa : (sentLsa oi now lsa).length = lsa.data.length := by
  have := lsa.header_le
  rw [sentLsa, length_append, be16_length, length_drop]
  omega

theorem length_le_flatMap_sent (refs : List Nat) :
    refs.length ≤ (refs.flatMap fun r => sentLsa oi now (mem r)).length := by
  induction refs with
  | nil => exact Nat.le_refl 0
  | cons r refs ih =>
    have := (mem r).header_le
    rw [flatMap_cons, length_append, length_sentLsa, length_cons]
    omega

theorem lsAgeIncrement_eq (delay : Nat) :
    lsAgeIncrement now lsa delay = min (ospfLsaMaxage : Int) (lsa.age now + delay) := by
  unfold lsAgeIncrement LsaData.age
  dsimp only
  split <;> split <;> omega

section

variable (hmt : 68 ≤ oi.mtu.toNat)
include hmt

theorem lsUpdPacketSize_large (length : Nat) :
    length + 48 + ospfPacketAuthspace oi ≤ lsUpdPacketSize oi length := by
  have hmx := toNat_ospfPacketMax hmt
  have hau := authspace_le oi
  have hle : ospfPacketMax oi ≤ oi.mtu := by
    rw [UInt32.le_iff_toNat_le]
    omega
  unfold lsUpdPacketSize
  rw [UInt32.toNat_sub_of_le _ _ hle]
  split <;> omega

theorem lsUpdPacketSize_le {lsa : LsaData} (hft : UpdFits oi lsa)
    (hsm : oi.mtu.toNat ≤ ospfMaxPacketSize) :
    lsUpdPacketSize oi lsa.data.length ≤ ospfMaxPacketSize := by
  have hmx := toNat_ospfPacketMax hmt
  have hau := authspace_le oi
  have hle : ospfPacketMax oi ≤ oi.mtu := by
    rw [UInt32.le_iff_toNat_le]
    omega
  unfold lsUpdPacketSize
  unfold UpdFits at hft
  rw [UInt32.toNat_sub_of_le _ _ hle]
  split
  · omega
  · exact hsm

theorem mtu_le_of_packetSize {length : Nat}
    (h : lsUpdPacketSize oi length ≤ ospfMaxPacketSize) : oi.mtu.toNat ≤ ospfMaxPacketSize := by
  have hmx := toNat_ospfPacketMax hmt
  have hlrg := lsUpdPacketSize_large hmt length
  by_cases hov : (ospfPacketMax oi).toNat < 4 + length
  · omega
  · rwa [lsUpdPacketSize, if_neg hov] at h

end

/-! ## One packet -/

theorem copy_aged {s : Stream} {bs : List UInt8} (htwo : 2 ≤ bs.length)
    (hrm : s.endp + bs.length ≤ s.size) (age : UInt16) : put bs s = .ok ((), s.append bs)
      ∧ poke s.endp (be16 age) (s.append bs) = .ok ((), s.append (be16 age ++ bs.drop 2)) := by
  have hwrt : bs.length ≤ s.writeable := by
    rw [writeable]
    omega
  have hage : poke s.endp (be16 age) (s.append (bs.take 2 ++ bs.drop 2))
      = .ok ((), s.append (be16 age ++ bs.drop 2)) :=
    Stream.poke_append (by rw [be16_length, length_take_of_le htwo])
  rw [take_append_drop] at hage
  exact ⟨Stream.emits_put _ s hwrt, hage⟩

theorem copy_lsa {s : Stream} (lsa : LsaData) (hrm : s.endp + lsa.data.length ≤ s.size) :
    ∃ s1, put lsa.data s = .ok ((), s1)
      ∧ poke s.endp (be16 (.ofInt (lsAgeIncrement now lsa oi.transmitDelay.toNat))) s1
        = .ok ((), s.append (sentLsa oi now lsa)) := by
  have hlen := lsa.header_le
  rw [lsAgeIncrement_eq]
  exact ⟨_, copy_aged (by omega) hrm _⟩

/-- How far a packet has been filled. -/
structure UpdBatch (mem : Nat → LsaData) (oi : OspfIf) (now : Int) (sizeNoauth : Nat)
    (length : UInt16) (s : Stream) (batch rest : List Nat) (length' : UInt16) (s' : Stream) :
    Prop where
  written : s'.written = s.written ++ batch.flatMap fun r => sentLsa oi now (mem r)
  size : s'.size = s.size
  endp : length'.toNat + 24 = s'.endp
  room : s'.endp ≤ max s.endp sizeNoauth
  fits : ∀ r ∈ batch, length.toNat + 24 + (mem r).data.length ≤ sizeNoauth
  full : ∀ r ∈ rest.head?, sizeNoauth < length'.toNat + 24 + (mem r).data.length

theorem makeLsUpdLoop_batch {sizeNoauth : Nat} (hsh : sizeNoauth < 65536) (update : List Nat)
    (length : UInt16) (count : Nat) (s : Stream) (st : OspfIfState)
    (hhl : LsaHeld mem st.lock update) (hsize : sizeNoauth ≤ s.size)
    (he : length.toNat + 24 = s.endp) :
    ∃ batch rest length' s', update = batch ++ rest
      ∧ makeLsUpdLoop mem oi now sizeNoauth 24 update length count s st
        = .ok ((rest, length', count + batch.length, s'), st.release batch)
      ∧ UpdBatch mem oi now sizeNoauth length s batch rest length' s' := by
  induction update generalizing length count s st with
  | nil =>
    refine ⟨[], [], length, s, rfl, ?_, ?_, rfl, he, Nat.le_max_left _ _, nofun, nofun⟩
    · rw [release_nil]
      rfl
    · rw [flatMap_nil, append_nil]
  | cons lsa update ih =>
    rw [makeLsUpdLoop]
    split
    next hov =>
      refine ⟨[], lsa :: update, length, s, rfl, ?_, ?_, rfl, he, Nat.le_max_left _ _, nofun, ?_⟩
      · rw [release_nil]
        rfl
      · rw [flatMap_nil, append_nil]
      · intro r hr
        cases hr
        exact hov
    next hrm =>
      have hfit : s.endp + (mem lsa).data.length ≤ s.size := by omega
      obtain ⟨s1, hput, hpoke⟩ := @copy_lsa oi now s (mem lsa) hfit
      have hwrt : (sentLsa oi now (mem lsa)).length ≤ s.writeable := by
        rw [length_sentLsa, writeable]
        omega
      have hsz2 : (s.append (sentLsa oi now (mem lsa))).size = s.size := Stream.append_size hwrt
      have hlen : (length + .ofNat (mem lsa).data.length).toNat
          = length.toNat + (mem lsa).data.length := by
        rw [UInt16.toNat_add, UInt16.toNat_ofNat_of_lt' (mem lsa).length_lt]
        exact Nat.mod_eq_of_lt (show _ < 65536 by omega)
      obtain ⟨batch, rest, length', s', rfl, hrn, hb⟩ :=
        ih (length + .ofNat (mem lsa).data.length) (count + 1)
          (s.append (sentLsa oi now (mem lsa))) (st.release [lsa]) (hhl.drop [lsa])
          (by omega) (by rw [hlen, append_endp, length_sentLsa]; omega)
      refine ⟨lsa :: batch, rest, length', s', rfl, ?_, ?_, hb.size.trans hsz2,
        hb.endp, ?_, ?_, hb.full⟩
      · rw [on_bind_ok hput]
        dsimp only
        rw [on_bind_ok hpoke, bind_ok (unlock_held hhl), hrn, release_release,
          length_cons, Nat.add_right_comm, Nat.add_assoc]
        rfl
      · rw [hb.written, Stream.append_written, append_assoc, flatMap_cons]
      · have hrm' := hb.room
        rw [append_endp, length_sentLsa] at hrm'
        omega
      · intro r hr
        rcases mem_cons.mp hr with rfl | hr
        · omega
        · have := hb.fits r hr
          omega

theorem queueSend_missing {lsa : Nat} {update : List Nat} (addr : UInt32) (st : OspfIfState)
    (h : ospfMaxPacketSize < lsUpdPacketSize oi (mem lsa).data.length) :
    ospfLsUpdQueueSend mem oi now (lsa :: update) addr st = .error .nullDeref := by
  have hn : ospfLsUpdPacketNew mem oi (lsa :: update) st = .ok ((update, none), st) := by
    rw [ospfLsUpdPacketNew, if_pos h]
    rfl
  rw [ospfLsUpdQueueSend, bind_ok hn]
  rfl

theorem makeLsUpd_body {s : Stream} {lsa : Nat} {update : List Nat} {st : OspfIfState}
    (hhl : LsaHeld mem st.lock (lsa :: update)) (he : s.endp = 24) (hsh : s.size < 65536)
    (hrm : 28 + (mem lsa).data.length + ospfPacketAuthspace oi ≤ s.size) :
    ∃ batch rest length s', lsa :: update = batch ++ rest ∧ batch ≠ []
      ∧ ospfMakeLsUpd mem oi now (lsa :: update) s st = .ok ((rest, length, s'), st.release batch)
      ∧ length.toNat + 24 = s'.endp ∧ s'.size = s.size ∧ s'.endp + ospfPacketAuthspace oi ≤ s.size
      ∧ s'.written = s.written
        ++ (be32 (.ofNat batch.length) ++ (batch.flatMap fun r => sentLsa oi now (mem r)))
      ∧ ∀ r ∈ batch, 28 + (mem r).data.length + ospfPacketAuthspace oi ≤ s.size := by
  have hlsa := (mem lsa).header_le
  have hfo : (4 : UInt16).toNat = 4 := rfl
  obtain ⟨s1, hfwd, hda, he1⟩ :=
    Stream.forwardEndp_ok (show s.endp + 4 ≤ s.size by omega)
  have hsz1 : s1.size = s.size := congrArg List.length hda
  have hsm : s.size - ospfPacketAuthspace oi < 65536 := by omega
  have hst : (4 : UInt16).toNat + 24 = s1.endp := by omega
  obtain ⟨batch, rest, length, s2, hap, hlp, hb⟩ := makeLsUpdLoop_batch
    hsm (lsa :: update) 4 0 s1 st hhl (by omega) hst
  have hl1 : s1.written.length = 28 := by rw [written_length, he1, he]
  have he2 : s2.endp = 28 + (batch.flatMap fun r => sentLsa oi now (mem r)).length := by
    rw [← written_length, hb.written, length_append, hl1]
  have hctr : s1.written = s.written ++ s1.written.drop 24 := by
    have hkp : s.written = s1.written.take 24 := by
      rw [Stream.written, Stream.written, hda, take_take, he1, he]
      rfl
    rw [hkp, take_append_drop]
  have hwr2 : s2.written = s.written
      ++ (s1.written.drop 24 ++ batch.flatMap fun r => sentLsa oi now (mem r)) := by
    rw [hb.written, ← append_assoc, ← hctr]
  obtain ⟨s3, hct, hwr3, hsz3⟩ :=
    @Stream.putBytesAt_ok s2 _ _ _ (be32 (.ofNat (0 + batch.length))) hwr2
      (by rw [be32_length, length_drop, hl1])
  have he3 : s3.endp = s2.endp := by
    rw [← written_length, ← written_length, hwr2, hwr3]
    simp only [length_append, length_drop, hl1, be32_length]
  rw [written_length] at hct
  rw [Nat.zero_add] at hwr3
  refine ⟨batch, rest, length, s3, hap, ?_, ?_, he3 ▸ hb.endp,
    hsz3.trans (hb.size.trans hsz1), ?_, hwr3, ?_⟩
  · rintro rfl
    obtain rfl : rest = lsa :: update := hap.symm
    have hfu := hb.full lsa rfl
    have hln := hb.endp
    rw [flatMap_nil, length_nil] at he2
    omega
  · rw [← he] at hlp
    rw [ospfMakeLsUpd, on_bind_ok hfwd, bind_ok hlp]
    dsimp only
    rw [putlAt, on_bind_ok hct]
    rfl
  · have hrm' := hb.room
    omega
  · intro r hr
    have hft := hb.fits r hr
    omega

def updBody (mem : Nat → LsaData) (oi : OspfIf) (now : Int) (lsas : List Nat) : List UInt8 :=
  be32 (.ofNat lsas.length) ++ lsas.flatMap fun r => sentLsa oi now (mem r)

theorem queueSend_built (hmt : 68 ≤ oi.mtu.toNat) {lsa : Nat} {update : List Nat}
    (addr : UInt32) {st : OspfIfState} (hhl : LsaHeld mem st.lock (lsa :: update))
    (h : lsUpdPacketSize oi (mem lsa).data.length ≤ ospfMaxPacketSize) :
    ∃ batch rest op, lsa :: update = batch ++ rest ∧ batch ≠ []
      ∧ ospfLsUpdQueueSend mem oi now (lsa :: update) addr st = .ok (rest, st.sent batch [op])
      ∧ op.dst = lsUpdDst oi addr
      ∧ Built oi ospfMsgLsUpd (updBody mem oi now batch) op ∧ ∀ r ∈ batch, UpdFits oi (mem r) := by
  have hlrg := lsUpdPacketSize_large hmt (mem lsa).data.length
  have hn : ospfLsUpdPacketNew mem oi (lsa :: update) st = .ok ((lsa :: update,
      some (.new (lsUpdPacketSize oi (mem lsa).data.length - ipHeaderSize))), st) := by
    rw [ospfLsUpdPacketNew, if_neg (Nat.not_lt.mpr h)]
    rfl
  generalize lsUpdPacketSize oi (mem lsa).data.length = size at h hlrg hn
  unfold ospfMaxPacketSize at h
  unfold ipHeaderSize at hn
  obtain ⟨s, hh, hsize, he, hopn⟩ :=
    @makeHeader_opened oi ospfMsgLsUpd (size - 20) (by omega)
  obtain ⟨batch, rest, length, s1, hap, hne, hmake, hln, hsz1, hrm1, hwr, hft⟩ :=
    @makeLsUpd_body mem oi now s lsa update st hhl he (by omega) (by omega)
  have hbd : s1.written = (openedHeader oi ospfMsgLsUpd).onto (updBody mem oi now batch) := by
    rw [hwr, hopn, onto_append, nil_append, updBody]
  have he1 : s1.endp = 24 + (updBody mem oi now batch).length := by
    rw [← written_length, hbd, length_onto]
  have hby : length.toNat = (updBody mem oi now batch).length := by omega
  obtain ⟨s2, hfl, hblt⟩ := fill_built hbd hby (by rw [hsz1]; exact hrm1)
    (by unfold ospfMaxPacketSize; omega)
  refine ⟨batch, rest, ⟨s2, lsUpdDst oi addr, .ofNat ospfHeaderSize + length⟩, hap, hne, ?_, rfl,
    hblt _, ?_⟩
  · rw [ospfLsUpdQueueSend, bind_ok hn]
    dsimp only
    rw [on_bind_ok hh, bind_ok hmake, on_bind_ok hfl]
    rfl
  · intro r hr
    have hr' := hft r hr
    unfold UpdFits ospfMaxPacketSize
    omega

theorem Built.carriesUpdate {batch : List Nat} {op : OspfPacket}
    (h : Built oi ospfMsgLsUpd (updBody mem oi now batch) op) :
    CarriesUpdate mem oi now batch op := by
  refine ⟨h.length.trans h.endp.symm, .ofNat batch.length, ?_, ?_⟩
  · have hmy := @length_le_flatMap_sent mem oi now batch
    have hsh := h.short
    unfold updBody ospfMaxPacketSize at hsh
    rw [length_append] at hsh
    exact UInt32.toNat_ofNat_of_lt' (show batch.length < 2 ^ 32 by omega)
  · rw [h.written]
    exact drop_onto _ _ 0

end SdnQuagga
