import SdnQuagga.OspfDbDesc
import SdnQuagga.OspfHello
import SdnQuagga.OspfLsAck
import SdnQuagga.OspfLsReq

/-!
# What an interface sends, its peers accept

All the packets of `ospfd/ospf_packet.c` together, from the functions that build them to the
bytes that `ospf_write` sends. An event builds a packet, or writes the first one of the output
queue (`TxEvent`). Every packet in the queue, and every description that is kept to be sent
again, is built with a sound body (`TxReady`), and such a packet is accepted when it is written
(`txStep_ready`).

What an event needs for that is `EventFits`. It always holds for an MTU up to 65535, but for
Hello packets with too many neighbors, LSAs that are too large for a packet, keys with the same
number, and the last sequence number.
-/

namespace SdnQuagga

open FaultM

variable (md5 : List UInt8 → Vector UInt8 16)

open List (drop_left' length_append mem_map take_left')

/-! ## Bodies made of LSAs -/

/-- The LSA passes `ospf_lsa_examin`, as it must before it gets into the database. -/
def LsaSound (lsa : LsaData) : Prop :=
  (ospfLsaExamin 0 lsa.data lsa.data.length false).ok = true

/-- A header that passes on its own, whatever follows it. -/
structure HeaderSound (h : List UInt8) : Prop where
  size : h.length = 20
  lsalen : 20 ≤ wordAt h 18
  examin : ∀ behind rest, (ospfLsaExamin behind (h ++ rest) (wordAt h 18) true).ok = true

section

variable {oi : OspfIf} {now : Int} {lsa : LsaData} (age : UInt16) (data : List UInt8)

/-- Two bytes in front of an LSA, for another age. -/
theorem drop_aged (n : Nat) : (be16 age ++ data.drop 2).drop (n + 2) = data.drop (n + 2) := by
  rw [List.drop_append, List.drop_eq_nil_of_le (by rw [be16_length]; omega), be16_length,
    List.drop_drop, List.nil_append]
  congr 1
  omega

theorem getD_aged : (be16 age ++ data.drop 2).getD 3 0 = data.getD 3 0 := by
  have hdr (l : List UInt8) : l.getD 3 0 = (l.drop 3).headD 0 := by
    rw [List.getD_eq_getElem?_getD, ← List.head?_drop, List.headD_eq_head?_getD]
  rw [hdr, hdr, drop_aged age data 1]

theorem header_sound {data h : List UInt8} (hsize : h.length = 20)
    (hty : h.getD 3 0 = data.getD 3 0) (hlen : wordAt h 18 = data.length)
    (hlg : 20 ≤ data.length) (hok : (ospfLsaExamin 0 data data.length false).ok = true) :
    HeaderSound h := by
  refine ⟨hsize, by omega, fun behind rest => ?_⟩
  rw [hlen]
  refine lsaExamin_headeronly ?_ hok
  rw [List.getD_append _ _ _ _ (by omega), hty]

theorem LsaData.header_type (lsa : LsaData) : lsa.header.getD 3 0 = lsa.data.getD 3 0 := by
  have hle := lsa.header_le
  rw [header, List.getD_eq_getElem _ _ (by rw [List.length_take, ospfLsaHeaderSize]; omega),
    List.getD_eq_getElem _ _ (by omega), List.getElem_take]

theorem LsaData.header_length (lsa : LsaData) : wordAt lsa.header 18 = lsa.data.length := by
  rw [wordAt, header, List.drop_take, List.take_take]
  exact lsa.length_eq

theorem LsaSound.header (h : LsaSound lsa) : HeaderSound lsa.header :=
  header_sound lsa.length_header lsa.header_type lsa.header_length lsa.header_le h

theorem LsaSound.ddHeader (h : LsaSound lsa) : HeaderSound (ddHeader now lsa) := by
  refine header_sound (length_ddHeader lsa) ?_ ?_ lsa.header_le h
  · exact (getD_aged _ _).trans lsa.header_type
  · rw [wordAt, SdnQuagga.ddHeader, drop_aged _ _ 16]
    exact lsa.header_length

theorem lsaseqExamin_headers (behind : UInt8) {hs : List (List UInt8)}
    (h : ∀ x ∈ hs, HeaderSound x) (counted : Nat) :
    (ospfLsaseqExamin behind hs.flatten true 0 counted).ok = true := by
  induction hs generalizing counted with
  | nil =>
    unfold ospfLsaseqExamin
    rfl
  | cons x hs ih =>
    obtain ⟨hx, hrs⟩ := List.forall_mem_cons.mp h
    have hsize := hx.size
    have hwo : wordAt (x ++ hs.flatten) 18 = wordAt x 18 := by
      rw [wordAt, wordAt, List.drop_append_of_le_length (by omega),
        List.take_append_of_le_length (by rw [List.length_drop]; omega)]
    unfold ospfLsaseqExamin
    rw [List.flatten_cons, length_append, if_neg (by omega), if_neg (by omega)]
    dsimp only
    rw [hwo, if_neg (Nat.not_lt.mpr hx.lsalen), if_pos rfl, if_pos (hx.examin behind _),
      drop_left' hsize]
    exact ih hrs (counted + 1)

theorem lsaExamin_aged (lsalen : Nat) :
    ospfLsaExamin 0 (be16 age ++ data.drop 2) lsalen false = ospfLsaExamin 0 data lsalen false := by
  have hty := getD_aged age data
  by_cases hrt : data.getD 3 0 = 1
  · have hlinks : wordAt (be16 age ++ data.drop 2) 22 = wordAt data 22 := by
      rw [wordAt, wordAt, drop_aged age data 20]
    rw [lsaExamin_router hrt, lsaExamin_router (hty.trans hrt), hlinks, drop_aged age data 22]
  · exact lsaExamin_not_router hty hrt 0 0 lsalen false false

theorem lsasSound_sent {mem : Nat → LsaData} (hsound : ∀ r, LsaSound (mem r)) (refs : List Nat) :
    LsasSound (refs.flatMap fun r => sentLsa oi now (mem r))
      ∧ (lsasOf (refs.flatMap fun r => sentLsa oi now (mem r))).length = refs.length := by
  induction refs with
  | nil => exact ⟨.nil, by rw [List.flatMap_nil, lsasOf_nil]; rfl⟩
  | cons r refs ih =>
    obtain ⟨hrs, hct⟩ := ih
    have hlg := (mem r).header_le
    have hlen : (sentLsa oi now (mem r)).length = (mem r).data.length := length_sentLsa (mem r)
    rw [List.flatMap_cons]
    generalize (refs.flatMap fun r => sentLsa oi now (mem r)) = rest at hrs hct
    have hwo : wordAt (sentLsa oi now (mem r) ++ rest) 18 = (mem r).data.length := by
      rw [wordAt, List.drop_append_of_le_length (by omega),
        List.take_append_of_le_length (by rw [List.length_drop]; omega), sentLsa,
        drop_aged _ _ 16]
      exact (mem r).length_eq
    have hle : wordAt (sentLsa oi now (mem r) ++ rest) 18
        ≤ (sentLsa oi now (mem r) ++ rest).length := by
      rw [hwo, length_append]
      omega
    have hh : 20 ≤ wordAt (sentLsa oi now (mem r) ++ rest) 18 := by
      rwa [hwo]
    have hdr : (sentLsa oi now (mem r) ++ rest).drop
        (wordAt (sentLsa oi now (mem r) ++ rest) 18) = rest := by rw [hwo, drop_left' hlen]
    constructor
    · refine .cons hh hle ?_ (by rw [hdr]; exact hrs)
      rw [lsaExamin_ok_take hh hle, hwo, take_left' hlen, sentLsa, lsaExamin_aged]
      exact hsound r
    · rw [lsasOf_cons hh hle, hdr, List.length_cons, hct, List.length_cons]

end

/-! ## All bodies are sound -/

section

variable {mem : Nat → LsaData} {oi : OspfIf} {now : Int}

section

variable (hsound : ∀ r, LsaSound (mem r))
include hsound

theorem ddBody_sound {head : List UInt8} (hhe : head.length = 8)
    (batch : List Nat) (behind : UInt8) :
    (bodyExamin behind ospfMsgDbDesc (ddBody mem now head batch)).ok = true := by
  have hmi : ¬ (ddBody mem now head batch).length < ospfPacketMinlen ospfMsgDbDesc := by
    show ¬ (ddBody mem now head batch).length < 8
    rw [ddBody, length_append]
    omega
  unfold bodyExamin
  rw [if_neg hmi]
  show (ospfLsaseqExamin behind ((ddBody mem now head batch).drop 8) true 0 0).ok = true
  rw [ddBody, drop_left' hhe, List.flatMap_def]
  refine lsaseqExamin_headers behind ?_ 0
  intro x hx
  obtain ⟨r, -, rfl⟩ := mem_map.mp hx
  exact (hsound r).ddHeader

theorem ackBody_sound (batch : List Nat) (behind : UInt8) :
    (bodyExamin behind ospfMsgLsAck (batch.flatMap fun r => (mem r).header)).ok = true := by
  have hmi : ¬ (batch.flatMap fun r => (mem r).header).length < ospfPacketMinlen ospfMsgLsAck :=
    Nat.not_lt_zero _
  unfold bodyExamin
  rw [if_neg hmi]
  show (ospfLsaseqExamin behind (batch.flatMap fun r => (mem r).header) true 0 0).ok = true
  rw [List.flatMap_def]
  refine lsaseqExamin_headers behind ?_ 0
  intro x hx
  obtain ⟨r, -, rfl⟩ := mem_map.mp hx
  exact (hsound r).header

theorem updBody_sound {batch : List Nat} (hfew : batch.length < 2 ^ 32) (behind : UInt8) :
    (bodyExamin behind ospfMsgLsUpd (updBody mem oi now batch)).ok = true := by
  obtain ⟨hlsas, hct⟩ := @lsasSound_sent oi now mem hsound batch
  have hmi : ¬ (updBody mem oi now batch).length < ospfPacketMinlen ospfMsgLsUpd := by
    show ¬ (updBody mem oi now batch).length < 4
    rw [updBody, length_append, be32_length]
    omega
  have hlg : longAt (updBody mem oi now batch) 0 = batch.length := by
    rw [longAt, List.drop_zero, updBody, take_left' (be32_length _), ofBE_be32]
    exact UInt32.toNat_ofNat_of_lt' hfew
  unfold bodyExamin
  rw [if_neg hmi]
  show (ospfLsaseqExamin behind ((updBody mem oi now batch).drop 4) false
    (longAt (updBody mem oi now batch) 0) 0).ok = true
  rw [hlg, updBody, drop_left' (be32_length _), lsaseqExamin_ok_iff]
  exact ⟨hlsas, .inr (by rw [hct, Nat.zero_add])⟩

end

end

/-! ## Events -/

/-- An interface that sends. `lastSend` are the descriptions kept for the neighbors. -/
structure OspfTx where
  queues : OspfIfState
  cryptSeqnum : UInt32
  lastSend : Nat → Option OspfPacket

/-- What makes an interface send. The lists come with a reference to each of their LSAs. -/
inductive TxEvent where
  | hello (conf : HelloConf) (nbrs : List OspfNbr) (addr : UInt32)
  | dbDesc (id : Nat) (nbr : DdNbr) (opaqueCapable : Bool) (oiOptions : UInt8) (now : Int)
  | dbDescResend (id : Nat)
  | lsReq (nbr : ReqNbr)
  | lsUpd (update : List Nat) (addr : UInt32) (now : Int)
  | lsAck (ack : List Nat) (dst : UInt32)
  | write (time : Nat)

abbrev OspfTxM := FaultM OspfTx

def onQueues {α : Type} (m : OspfIfM α) : OspfTxM α := fun tx =>
  match m tx.queues with
  | .ok (a, queues) => .ok (a, { tx with queues := queues })
  | .error e => .error e

/-- `ospf_write` on the queue of this interface. -/
def ospfWrite (oi : OspfIf) (time : Nat) :
    OspfTxM (List UInt8) := do
  let tx ← get
  match tx.queues.obuf with
  | [] => throw .assertion
  | op :: obuf =>
    check (ospfHeaderSize ≤ op.length.toNat)
    let sent ← on (ospfMakeMd5Digest md5 oi time op >>= sentBytes) tx.cryptSeqnum
    modify fun tx =>
      { tx with queues := { tx.queues with obuf := obuf }, cryptSeqnum := sent.2 }
    return sent.1

variable (mem : Nat → LsaData) (oi : OspfIf)

/-- One event, with the packets that it writes. The queue is only written while there is
something in it. -/
def txStep :
    TxEvent → OspfTxM (List (List UInt8))
  | .hello conf nbrs addr => do
    onQueues (ospfHelloSendSub oi conf nbrs addr)
    return []
  | .dbDesc id nbr opaqueCapable oiOptions now => do
    onQueues (nbr.dbSum.flatten.forM ospfLsaLock)
    let last ← onQueues (ospfDbDescSend mem oi now opaqueCapable oiOptions nbr)
    modify fun tx => { tx with lastSend := Function.update tx.lastSend id (some last) }
    return []
  | .dbDescResend id => do
    let tx ← get
    match tx.lastSend id with
    | none => throw .nullDeref
    | some op =>
      onQueues (ospfPacketAdd (ospfPacketDup op))
      return []
  | .lsReq nbr => do
    onQueues (nbr.lsReqLast.toList.forM ospfLsaLock)
    let _ ← onQueues (ospfLsReqSend mem oi nbr)
    return []
  | .lsUpd update addr now => do
    onQueues (update.forM ospfLsaLock)
    let _ ← onQueues (ospfLsUpdQueueSend mem oi now update addr)
    return []
  | .lsAck ack dst => do
    onQueues (ack.forM ospfLsaLock)
    let _ ← onQueues (ospfLsAckSendList mem oi ack dst)
    return []
  | .write time => do
    let tx ← get
    if tx.queues.obuf = [] then return []
    else
      let wire ← ospfWrite md5 oi time
      return [wire]

def txRun :
    List TxEvent → OspfTxM (List (List UInt8))
  | [] => return []
  | e :: events => do
    let wires ← txStep md5 mem oi e
    let rest ← txRun events
    return wires ++ rest

/-! ## What is said about them -/

/-- A packet that only waits to be written. -/
def ReadyToSend (op : OspfPacket) : Prop :=
  ∃ type body, Built oi type body op ∧ ∀ behind, (bodyExamin behind type body).ok = true

structure TxReady (mem : Nat → LsaData) (oi : OspfIf) (tx : OspfTx) : Prop where
  held : LsaHeld mem tx.queues.lock []
  queued : ∀ op ∈ tx.queues.obuf, ReadyToSend oi op
  kept : ∀ id, ∀ op ∈ tx.lastSend id, ReadyToSend oi op

/-- What an event needs to send what the peers accept. -/
def EventFits (tx : OspfTx) : TxEvent → Prop
  | .hello _ nbrs _ => HelloFits oi nbrs
  | .dbDesc _ nbr _ _ _ => ListFits oi (8 + 20 * nbr.dbSum.flatten.length)
  | .dbDescResend id => tx.lastSend id ≠ none
  | .lsReq nbr => ListFits oi (12 * nbr.lsReq.flatten.length)
  | .lsUpd update _ _ => oi.mtu.toNat ≤ ospfMaxPacketSize
      ∧ ∃ lsa rest, update = lsa :: rest ∧ UpdFits oi (mem lsa)
  | .lsAck ack _ => ListFits oi (20 * ack.length)
  | .write _ => ospfAuthType oi = .cryptographic → tx.queues.obuf ≠ [] →
      KeysAgree oi.authCrypt ∧ tx.cryptSeqnum.toNat + 1 < 2 ^ 32

def TxFits :
    List TxEvent → OspfTx → Prop
  | [], _ => True
  | e :: events, tx => EventFits mem oi tx e
      ∧ ∀ wires tx', txStep md5 mem oi e tx = .ok (wires, tx') → TxFits events tx'

/-- The sequence number of the last packet, after this one. -/
def seqnumAfter (cryptSeqnum : UInt32) (wire : List UInt8) : UInt32 :=
  if ospfAuthType oi = .cryptographic then .ofNat (longAt wire 20) else cryptSeqnum

/-- Each packet is accepted by a peer that has seen no later number than that of the packet
before, and has a larger number itself. -/
def AcceptedFrom (oi peer : OspfIf) :
    UInt32 → List (List UInt8) → Prop
  | _, [] => True
  | cryptSeqnum, wire :: wires =>
    (∀ stored : Option UInt32, (∀ v ∈ stored, v ≤ cryptSeqnum) → PeerAccepts md5 peer stored wire)
    ∧ (ospfAuthType oi = .cryptographic → cryptSeqnum.toNat < longAt wire 20)
    ∧ AcceptedFrom oi peer (seqnumAfter oi cryptSeqnum wire) wires

/-! ## One event -/

variable {md5} {mem : Nat → LsaData} {oi peer : OspfIf}
  {tx : OspfTx}

theorem onQueues_bind_ok {α β : Type} {m : OspfIfM α} {f : α → OspfTxM β} {a : α}
    {queues : OspfIfState} (h : m tx.queues = .ok (a, queues)) :
    (onQueues m >>= f) tx = f a { tx with queues := queues } :=
  bind_ok (by rw [onQueues, h])

/-- The lists that an event brings hold their LSAs. -/
theorem handOver {β : Type} (h : LsaHeld mem tx.queues.lock []) (refs : List Nat) (f : OspfTxM β) :
    ∃ lock', LsaHeld mem lock' refs ∧ (do onQueues (refs.forM ospfLsaLock); f) tx
        = f { tx with queues := { tx.queues with lock := lock' } } :=
  ⟨_, h.queued fun _ => rfl, onQueues_bind_ok (forM_ospfLsaLock refs tx.queues)⟩

theorem ReadyToSend.dup {op : OspfPacket} (h : ReadyToSend oi op) :
    ReadyToSend oi (ospfPacketDup op) := by
  obtain ⟨type, body, hblt, hbd⟩ := h
  have hau := authspace_le oi
  have hwr : (ospfPacketDup op).s.written = op.s.written := take_left' (Stream.written_length op.s)
  refine ⟨type, body, ⟨hwr.trans hblt.written, hblt.length, ?_, hblt.short⟩, hbd⟩
  show op.s.endp + ospfPacketAuthspace oi ≤ (op.s.written ++ List.replicate 16 0).length
  rw [length_append, Stream.written_length, List.length_replicate]
  omega

variable (md5) in
/-- The event succeeds, and what it writes is accepted. -/
def StepAccepted (mem : Nat → LsaData) (oi peer : OspfIf)
    (tx : OspfTx) (m : OspfTxM (List (List UInt8))) : Prop :=
  ∃ wires tx', m tx = .ok (wires, tx') ∧ TxReady mem oi tx'
    ∧ AcceptedFrom md5 oi peer tx.cryptSeqnum wires
    ∧ tx'.cryptSeqnum = wires.foldl (seqnumAfter oi) tx.cryptSeqnum

theorem stepAccepted_quiet {m : OspfTxM (List (List UInt8))} (tx' : OspfTx)
    (hr : m tx = .ok ([], tx')) (hrdy : TxReady mem oi tx')
    (hsq : tx'.cryptSeqnum = tx.cryptSeqnum) : StepAccepted md5 mem oi peer tx m :=
  ⟨[], tx', hr, hrdy, trivial, hsq⟩

theorem TxReady.queue (h : TxReady mem oi tx) {lock' : Nat → Int} {pkts : List OspfPacket}
    (hhl : LsaHeld mem lock' []) (hpkts : ∀ op ∈ pkts, ReadyToSend oi op) :
    TxReady mem oi { tx with
      queues := { tx.queues with lock := lock', obuf := tx.queues.obuf ++ pkts } } := by
  refine ⟨hhl, fun op hop => ?_, h.kept⟩
  rcases List.mem_append.mp hop with hold | hn
  · exact h.queued op hold
  · exact hpkts op hn

variable {nbrs : List OspfNbr} {conf : HelloConf}

theorem hello_step (h : TxReady mem oi tx) (hft : HelloFits oi nbrs) (addr : UInt32) :
    StepAccepted md5 mem oi peer tx (txStep md5 mem oi (.hello conf nbrs addr)) := by
  obtain ⟨op, body, hsd, hblt, hbd⟩ :=
    @helloSend_built oi conf nbrs hft addr tx.queues
  refine stepAccepted_quiet _ (onQueues_bind_ok hsd) ⟨h.held, ?_, h.kept⟩ rfl
  exact List.forall_mem_cons.mpr ⟨⟨_, body, hblt, hbd⟩, h.queued⟩

theorem dbDesc_step (hmtu : 68 ≤ oi.mtu.toNat) (hsound : ∀ r, LsaSound (mem r))
    (h : TxReady mem oi tx) (id : Nat) {nbr : DdNbr} (opaqueCapable : Bool) (oiOptions : UInt8)
    (now : Int) (hft : ListFits oi (8 + 20 * nbr.dbSum.flatten.length)) :
    StepAccepted md5 mem oi peer tx
      (txStep md5 mem oi (.dbDesc id nbr opaqueCapable oiOptions now)) := by
  obtain ⟨lock', hhl, hlo⟩ := handOver h.held nbr.dbSum.flatten (do
    let last ← onQueues (ospfDbDescSend mem oi now opaqueCapable oiOptions nbr)
    modify fun tx => { tx with lastSend := Function.update tx.lastSend id (some last) }
    return [])
  obtain ⟨op, head, batch, taken, hsd, hfe, hhe, hblt⟩ :=
    @dbDescSend_built mem oi now hmtu opaqueCapable oiOptions nbr
      { tx.queues with lock := lock' } hhl hft
  have hop : ReadyToSend oi op := ⟨_, _, hblt, ddBody_sound hsound hhe batch⟩
  have hqu := h.queue hfe (List.forall_mem_singleton.mpr hop)
  refine stepAccepted_quiet { tx with
    queues := { tx.queues with lock := _, obuf := tx.queues.obuf ++ [op] }
    lastSend := Function.update tx.lastSend id (some (ospfPacketDup op)) }
    ?_ ⟨hqu.held, hqu.queued, ?_⟩ rfl
  · rw [txStep, hlo, onQueues_bind_ok hsd]
    rfl
  · intro id' op' hop'
    dsimp only at hop'
    by_cases hid : id' = id
    · rw [hid, Function.update_self] at hop'
      obtain rfl := Option.some.inj hop'
      exact hop.dup
    · rw [Function.update_of_ne hid] at hop'
      exact h.kept id' op' hop'

theorem resend_step (h : TxReady mem oi tx) {id : Nat} (hkp : tx.lastSend id ≠ none) :
    StepAccepted md5 mem oi peer tx (txStep md5 mem oi (.dbDescResend id)) := by
  obtain ⟨op, hop⟩ := Option.ne_none_iff_exists'.mp hkp
  refine stepAccepted_quiet _ ?_ (h.queue h.held
    (List.forall_mem_singleton.mpr (h.kept id op hop).dup)) rfl
  rw [txStep, get_bind, hop]
  rfl

section

variable (hmtu : 68 ≤ oi.mtu.toNat)
include hmtu

theorem lsReq_step (h : TxReady mem oi tx) {nbr : ReqNbr}
    (hft : ListFits oi (12 * nbr.lsReq.flatten.length)) :
    StepAccepted md5 mem oi peer tx (txStep md5 mem oi (.lsReq nbr)) := by
  obtain ⟨lock', hhl, hlo⟩ := handOver h.held nbr.lsReqLast.toList (do
    let _ ← onQueues (ospfLsReqSend mem oi nbr)
    return ([] : List (List UInt8)))
  obtain ⟨last, pkts, lock'', hsd, hfe, hpkts⟩ :=
    @lsReqSend_built mem oi hmtu nbr { tx.queues with lock := lock' } hhl hft
  refine stepAccepted_quiet _ ?_ (h.queue hfe fun op hop => ⟨_, hpkts op hop⟩) rfl
  rw [txStep, hlo, onQueues_bind_ok hsd]
  rfl

theorem lsUpd_step (hsound : ∀ r, LsaSound (mem r))
    (h : TxReady mem oi tx) {lsa : Nat} {rest : List Nat} (addr : UInt32) (now : Int)
    (hsm : oi.mtu.toNat ≤ ospfMaxPacketSize) (hft : UpdFits oi (mem lsa)) :
    StepAccepted md5 mem oi peer tx (txStep md5 mem oi (.lsUpd (lsa :: rest) addr now)) := by
  obtain ⟨lock', hhl, hlo⟩ := handOver h.held (lsa :: rest) (do
    let _ ← onQueues (ospfLsUpdQueueSend mem oi now (lsa :: rest) addr)
    return ([] : List (List UInt8)))
  obtain ⟨batch, left, op, hap, -, hsd, -, hblt, -⟩ :=
    @queueSend_built mem oi now hmtu lsa rest addr { tx.queues with lock := lock' } hhl
      (lsUpdPacketSize_le hmtu hft hsm)
  have hfe : LsaHeld mem (OspfIfState.release { tx.queues with lock := lock' } batch).lock [] := by
    rw [hap] at hhl
    exact (hhl.drop batch).nil
  have hfew : batch.length < 2 ^ 32 := by
    have hmy := @length_le_flatMap_sent mem oi now batch
    have hsh := hblt.short
    rw [updBody, length_append, ospfMaxPacketSize] at hsh
    omega
  refine stepAccepted_quiet _ ?_ (h.queue hfe (List.forall_mem_singleton.mpr
    ⟨_, _, hblt, updBody_sound hsound hfew⟩)) rfl
  rw [txStep, hlo, onQueues_bind_ok hsd]
  rfl

theorem lsAck_step (hsound : ∀ r, LsaSound (mem r))
    (h : TxReady mem oi tx) {ack : List Nat} (dst : UInt32) (hft : ListFits oi (20 * ack.length)) :
    StepAccepted md5 mem oi peer tx (txStep md5 mem oi (.lsAck ack dst)) := by
  obtain ⟨lock', hhl, hlo⟩ := handOver h.held ack (do
    let _ ← onQueues (ospfLsAckSendList mem oi ack dst)
    return ([] : List (List UInt8)))
  obtain ⟨batch, left, op, hap, hsd, hpkt, hblt⟩ :=
    sendList_packet hmtu ack dst { tx.queues with lock := lock' } hhl
  have hfe : LsaHeld mem (OspfIfState.release { tx.queues with lock := lock' } batch).lock [] := by
    rw [hap] at hhl
    exact (hhl.drop batch).nil
  have hsh : 24 + 20 * batch.length + ospfPacketAuthspace oi ≤ ospfMaxPacketSize := by
    have hlen : ack.length = batch.length + left.length := by rw [hap, length_append]
    unfold ListFits ospfMaxPacketSize at hft
    unfold ospfMaxPacketSize
    by_cases hmy : 3275 < batch.length
    · have hckd := hpkt.checked 3275 hmy
      rw [toNat_bodyLength (Nat.le_refl _)] at hckd
      omega
    · cases hla : batch.length with
      | zero => omega
      | succ j =>
        have hckd := hpkt.checked j (by omega)
        rw [toNat_bodyLength (by omega)] at hckd
        omega
  refine stepAccepted_quiet _ ?_ (h.queue hfe (List.forall_mem_singleton.mpr
    ⟨_, _, hblt hsh, ackBody_sound hsound batch⟩)) rfl
  rw [txStep, hlo, onQueues_bind_ok hsd]
  rfl

end

variable {cryptSeqnum : UInt32}

theorem lt_nextSeqnum (time : UInt32) (h : cryptSeqnum.toNat + 1 < 2 ^ 32) :
    cryptSeqnum.toNat < (nextSeqnum time cryptSeqnum).toNat := by
  unfold nextSeqnum
  split
  next hlt => exact UInt32.lt_iff_toNat_lt.mp hlt
  next hge =>
    rw [UInt32.toNat_add, UInt32.toNat_one, Nat.mod_eq_of_lt h]
    exact Nat.lt_succ_self _

theorem ospfWrite_ok {op : OspfPacket} {obuf : List OspfPacket} {time : Nat} {wire : List UInt8}
    {seqnum : UInt32} (hob : tx.queues.obuf = op :: obuf)
    (hln : ospfHeaderSize ≤ op.length.toNat)
    (hsen : (ospfMakeMd5Digest md5 oi time op >>= sentBytes) tx.cryptSeqnum = .ok (wire, seqnum)) :
    txStep md5 mem oi (.write time) tx = .ok ([wire],
      { tx with queues := { tx.queues with obuf := obuf }, cryptSeqnum := seqnum }) := by
  have hwrt : ospfWrite md5 oi time tx = .ok (wire,
      { tx with queues := { tx.queues with obuf := obuf }, cryptSeqnum := seqnum }) := by
    rw [ospfWrite, get_bind, hob]
    dsimp only
    rw [check, if_pos hln, pure_bind, on_bind_ok hsen]
    rfl
  rw [txStep, get_bind, hob, if_neg (List.cons_ne_nil _ _), bind_ok hwrt]
  rfl

theorem write_step (hsam : SameAuth oi peer) (h : TxReady mem oi tx) (time : Nat)
    (hft : EventFits mem oi tx (.write time)) :
    StepAccepted md5 mem oi peer tx (txStep md5 mem oi (.write time)) := by
  cases hob : tx.queues.obuf with
  | nil =>
    refine stepAccepted_quiet tx ?_ h rfl
    rw [txStep, get_bind, hob]
    rfl
  | cons op obuf =>
    have hrdy := h.queued
    rw [hob] at hrdy
    obtain ⟨⟨type, body, hblt, hbd⟩, hoths⟩ := List.forall_mem_cons.mp hrdy
    have hln : ospfHeaderSize ≤ op.length.toNat := by
      rw [hblt.length]
      exact Nat.le_add_right 24 _
    by_cases hcy : ospfAuthType oi = .cryptographic
    · have hne : tx.queues.obuf ≠ [] := by
        rw [hob]
        exact List.cons_ne_nil _ _
      obtain ⟨hks, hsn⟩ := hft hcy hne
      obtain ⟨ck, hla⟩ := exists_last_key hcy
      have hsen := @Built.sent_signed md5 oi type body op hblt hcy ck hla time tx.cryptSeqnum
      have hnx := lt_nextSeqnum (.ofNat time) hsn
      have hnum n : longAt (signedWire md5 oi type body ck n) 20 = n.toNat := ofBE_be32 n
      refine ⟨_, _, ospfWrite_ok hob hln hsen, ⟨h.held, hoths, h.kept⟩,
        ⟨fun stored hsto => ?_, fun _ => ?_, trivial⟩, ?_⟩
      · refine signed_accepted hblt hcy hla hks hsam hbd fun v hv => ?_
        exact UInt32.le_trans (hsto v hv) (UInt32.le_of_lt (UInt32.lt_iff_toNat_lt.mpr hnx))
      · rwa [hnum]
      · rw [List.foldl_cons, List.foldl_nil, seqnumAfter, if_pos hcy, hnum, UInt32.ofNat_toNat]
    · have hsen := @Built.sent_plain md5 oi type body op hblt hcy time tx.cryptSeqnum
      refine ⟨_, _, ospfWrite_ok hob hln hsen, ⟨h.held, hoths, h.kept⟩,
        ⟨fun stored _ => plain_accepted hblt hcy hsam hbd stored,
          fun h => (hcy h).elim, trivial⟩, ?_⟩
      rw [List.foldl_cons, List.foldl_nil, seqnumAfter, if_neg hcy]

theorem txStep_ready (hmtu : 68 ≤ oi.mtu.toNat) (hsound : ∀ r, LsaSound (mem r))
    (hsam : SameAuth oi peer) (h : TxReady mem oi tx) {e : TxEvent} (hft : EventFits mem oi tx e) :
    StepAccepted md5 mem oi peer tx (txStep md5 mem oi e) := by
  cases e with
  | hello conf nbrs addr => exact hello_step h hft addr
  | dbDesc id nbr opaqueCapable oiOptions now =>
    exact dbDesc_step hmtu hsound h id opaqueCapable oiOptions now hft
  | dbDescResend id => exact resend_step h hft
  | lsReq nbr => exact lsReq_step hmtu h hft
  | lsUpd update addr now =>
    obtain ⟨hsm, lsa, rest, rfl, hlsa⟩ := hft
    exact lsUpd_step hmtu hsound h addr now hsm hlsa
  | lsAck ack dst => exact lsAck_step hmtu hsound h dst hft
  | write time => exact write_step hsam h time hft

/-! ## Runs -/

theorem AcceptedFrom.append {wires wires' : List (List UInt8)}
    (h : AcceptedFrom md5 oi peer cryptSeqnum wires)
    (h' : AcceptedFrom md5 oi peer (wires.foldl (seqnumAfter oi) cryptSeqnum) wires') :
    AcceptedFrom md5 oi peer cryptSeqnum (wires ++ wires') := by
  induction wires generalizing cryptSeqnum with
  | nil => exact h'
  | cons wire wires ih =>
    obtain ⟨haccepts, hnum, hrs⟩ := h
    exact ⟨haccepts, hnum, ih hrs h'⟩

/-- From an interface whose packets are ready, every run of events that fit sends only what a
peer with the same authentication accepts, with larger and larger numbers. -/
theorem sent_packets_accepted (hmtu : 68 ≤ oi.mtu.toNat) (hsound : ∀ r, LsaSound (mem r))
    (hsame : SameAuth oi peer) {tx : OspfTx} (hready : TxReady mem oi tx)
    {events : List TxEvent} (hfits : TxFits md5 mem oi events tx) :
    ∃ wires tx', txRun md5 mem oi events tx = .ok (wires, tx')
      ∧ AcceptedFrom md5 oi peer tx.cryptSeqnum wires := by
  induction events generalizing tx with
  | nil => exact ⟨[], tx, rfl, trivial⟩
  | cons e events ih =>
    obtain ⟨hevent, hrest⟩ := hfits
    obtain ⟨wires, tx1, hstep, hready1, haccepted, hseqnum⟩ :=
      @txStep_ready md5 mem oi peer tx hmtu hsound hsame hready e hevent
    obtain ⟨wires', tx2, hrun, haccepted'⟩ := ih hready1 (hrest wires tx1 hstep)
    refine ⟨wires ++ wires', tx2, ?_, haccepted.append (hseqnum ▸ haccepted')⟩
    rw [txRun, bind_ok hstep, bind_ok hrun]
    rfl

/-- An interface with one key, and a database of one LSA. -/
def keyedIf : OspfIf :=
  { twoNbrs 1500 .broadcast with
    authType := some .cryptographic
    authCrypt := [⟨1, .replicate 16 7⟩] }

def linklessData : LsaData := ⟨linklessLsa, 0, false, by decide, by decide⟩

def idleTx : OspfTx :=
  ⟨⟨fun _ => 1, [], [], 0, [], []⟩, 41, fun _ => none⟩

theorem linklessData_sound : LsaSound linklessData := by
  unfold LsaSound
  rw [lsaExamin_router rfl, if_neg (by decide)]
  unfold ospfRouterLsaLinksExamin
  decide

theorem idleTx_ready {mem : Nat → LsaData} {oi : OspfIf} : TxReady mem oi idleTx where
  held _ := ⟨Int.one_nonneg, fun h => absurd h Int.one_ne_zero⟩
  queued _ h := absurd h List.not_mem_nil
  kept _ _ h := nomatch h

theorem exstart_more : NsmState.exStart.exchanging = false → (7 : UInt8) &&& ospfDdFlagM ≠ 0 := by
  decide

/-- A neighbor to which the first description goes. -/
def exstartNbr : DdNbr := ⟨2, 0, 7, 100, .exStart, [[0]], exstart_more⟩

/-- A Hello with two neighbors and its digest, and a description. -/
theorem keyedIf_accepted :
    HelloFits keyedIf keyedIf.nbrs ∧ ∃ wires tx',
      txRun (fun _ => .replicate 16 0) (fun _ => linklessData) keyedIf
        [.hello ⟨24, 10, 0, 40, 2, 1, 0, 0⟩ keyedIf.nbrs ospfAllspfrouters, .write 50,
          .dbDesc 0 exstartNbr false 2 60] idleTx
        = .ok (wires, tx') ∧ AcceptedFrom (fun _ => .replicate 16 0) keyedIf keyedIf 41 wires := by
  have hfits : HelloFits keyedIf keyedIf.nbrs := by
    unfold HelloFits
    decide
  have hlist : ListFits keyedIf 28 := by
    unfold ListFits
    decide
  have hkeys : KeysAgree keyedIf.authCrypt := by
    intro ck hck
    cases hck
    rfl
  refine ⟨hfits, sent_packets_accepted (by decide) (fun _ => linklessData_sound)
    ⟨rfl, rfl, rfl, rfl⟩ idleTx_ready ⟨hfits, fun wires tx' hstep => ⟨fun _ _ => ⟨hkeys, ?_⟩,
      fun _ _ _ => ⟨hlist, fun _ _ _ => trivial⟩⟩⟩⟩
  obtain ⟨op, body, hsend, -⟩ := @helloSend_built keyedIf ⟨24, 10, 0, 40, 2, 1, 0, 0⟩
    keyedIf.nbrs hfits ospfAllspfrouters idleTx.queues
  have hrun := (onQueues_bind_ok hsend).symm.trans hstep
  cases hrun
  show (41 : UInt32).toNat + 1 < 2 ^ 32
  decide

theorem hello_fails {tx : OspfTx} (hmtu : 44 ≤ oi.mtu.toNat)
    (hmy : oi.mtu.toNat < 44 + 4 * seenCount oi nbrs) (addr : UInt32) :
    txStep md5 mem oi (.hello conf nbrs addr) tx = .error .assertion :=
  bind_error (by rw [onQueues, helloSend_fault hmtu hmy])

/-- With an MTU of 576, a Hello with 134 neighbors ends the program. -/
theorem many_neighbors_not_sent :
    txRun (fun _ => .replicate 16 0) (fun _ => linklessData) (twoNbrs 576 .broadcast)
      [.hello ⟨24, 10, 0, 40, 2, 1, 0, 0⟩ ((List.range 134).map fun i => fullNbr (.ofNat (i + 2)))
        ospfAllspfrouters, .write 50] idleTx = .error .assertion :=
  bind_error (hello_fails (by decide) (by decide +kernel) _)

end SdnQuagga
