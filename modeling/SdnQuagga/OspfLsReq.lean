import SdnQuagga.OspfAuth

/-!
# Link state requests

`ospf_make_ls_req` and `ospf_ls_req_send` of `ospfd/ospf_packet.c`. The LSAs to be requested
stay in their tables, one for each type, and the neighbor keeps a reference to the last one
that the packet asks for.
-/

namespace SdnQuagga

open FaultM List
open SdnQuagga.Stream (putl putIpv4)

/-! ## The code -/

def ospfMsgLsReq : UInt8 := 3

/-- A neighbor that LSAs are requested from, with a table for each type. -/
structure ReqNbr where
  address : UInt32
  lsReq : List (List Nat)
  lsReqLast : Option Nat

variable (mem : Nat → LsaData)

/-- `ospf_lsa_unlock (&nbr->ls_req_last)`. -/
def unlockLast : Option Nat → OspfIfM Unit
  | none => return
  | some lsa => ospfLsaUnlock mem lsa

variable (oi : OspfIf)

/-- The loop of `ospf_make_ls_req` over one table, with `ospf_make_ls_req_func`: the length of
the body, the last LSA requested and the packet. -/
def makeLsReqTable (delta : Nat) :
    List Nat → UInt16 → Option Nat → Stream → OspfIfM (UInt16 × Option Nat × Stream)
  | [], length, last, s => return (length, last, s)
  | lsa :: table, length, last, s =>
    if (ospfPacketMax oi).toNat < length.toNat + delta then return (length, last, s)
    else do
      let made ← on (do
        putl (.ofNat ((mem lsa).data.getD 3 0).toNat)
        putIpv4 (.ofNat (longAt (mem lsa).data 4))
        putIpv4 (.ofNat (longAt (mem lsa).data 8))) s
      unlockLast mem last
      ospfLsaLock lsa
      makeLsReqTable delta table (length + 12) (some lsa) made.2

def makeLsReqTables (delta : Nat) :
    List (List Nat) → UInt16 → Option Nat → Stream → OspfIfM (UInt16 × Option Nat × Stream)
  | [], length, last, s => return (length, last, s)
  | table :: tables, length, last, s => do
    let r ← makeLsReqTable mem oi delta table length last s
    makeLsReqTables delta tables r.1 r.2.1 r.2.2

/-- `ospf_ls_req_send`, with the last LSA requested. -/
def ospfLsReqSend (nbr : ReqNbr) : OspfIfM (Option Nat) := do
  let new ← on (ospfMakeHeader ospfMsgLsReq oi) (Stream.new oi.mtu.toNat)
  let made ← makeLsReqTables mem oi (new.2.endp + 12) nbr.lsReq 0 nbr.lsReqLast new.2
  let length := .ofNat ospfHeaderSize + made.1
  if length = .ofNat ospfHeaderSize then return made.2.1
  else
    let filled ← on (ospfFillHeader oi length) made.2.2
    ospfPacketAdd
      ⟨filled.2, if oi.type = .pointopoint then ospfAllspfrouters else nbr.address, length⟩
    return made.2.1

/-! ## What a request takes -/

variable {mem : Nat → LsaData} {oi : OspfIf}

/-- How far a packet has been filled with requests: `n` more were asked for. -/
structure ReqBatch (mem : Nat → LsaData) (oi : OspfIf) (n : Nat) (length : UInt16) (s : Stream)
    (length' : UInt16) (last' : Option Nat) (s' : Stream) (lock' : Nat → Int) : Prop where
  written : ∃ body, s'.written = s.written ++ body
  entries : length'.toNat % 12 = length.toNat % 12
  size : s'.size = s.size
  endp : length'.toNat + 24 = s'.endp
  asked : length'.toNat ≤ length.toNat + 12 * n
  room : length'.toNat ≤ max length.toNat (ospfPacketMax oi).toNat
  held : LsaHeld mem lock' last'.toList

variable {last : Option Nat}

theorem ReqBatch.nil {length : UInt16} {s : Stream} {lock : Nat → Int}
    (n : Nat) (he : length.toNat + 24 = s.endp) (hhl : LsaHeld mem lock last.toList) :
    ReqBatch mem oi n length s length last s lock :=
  ⟨⟨[], (append_nil _).symm⟩, rfl, rfl, he, Nat.le_add_right _ _, Nat.le_max_left _ _, hhl⟩

theorem ReqBatch.append {n n' : Nat} {length length' length'' : UInt16} {s s' s'' : Stream}
    {last' last'' : Option Nat} {lock' lock'' : Nat → Int}
    (h : ReqBatch mem oi n length s length' last' s' lock')
    (h' : ReqBatch mem oi n' length' s' length'' last'' s'' lock'') :
    ReqBatch mem oi (n + n') length s length'' last'' s'' lock'' := by
  have hask := h.asked
  have hask' := h'.asked
  have hrm := h.room
  have hrm' := h'.room
  obtain ⟨body, hbd⟩ := h.written
  obtain ⟨body', hbd'⟩ := h'.written
  refine ⟨⟨body ++ body', ?_⟩, h'.entries.trans h.entries, h'.size.trans h.size, h'.endp, by omega,
    by omega, h'.held⟩
  rw [hbd', hbd, append_assoc]

/-- The reference to the last LSA requested is exchanged for one to this LSA. -/
theorem exchangeLast {st : OspfIfState} (lsa : Nat) (hhl : LsaHeld mem st.lock last.toList) :
    ∃ lock', LsaHeld mem lock' [lsa] ∧ ∀ {β : Type} (f : OspfIfM β),
      (do unlockLast mem last; ospfLsaLock lsa; f) st = f { st with lock := lock' } := by
  have hunlock : unlockLast mem last st = .ok ((), st.release last.toList) := by
    cases last with
    | none =>
      rw [Option.toList_none, release_nil]
      rfl
    | some r => exact unlock_held hhl
  have hfe : LsaHeld mem (st.release last.toList).lock [] := by
    rw [← append_nil last.toList] at hhl
    exact hhl.drop last.toList
  refine ⟨fun r => if r = lsa then (st.release last.toList).lock r + 1
    else (st.release last.toList).lock r, hfe.queued fun r => ?_, fun f => ?_⟩
  · by_cases h : r = lsa
    · simp [h]
    · simp [h, Ne.symm h]
  · rw [bind_ok hunlock, ospfLsaLock, modify_bind]
    rfl

theorem makeLsReqTable_batch (table : List Nat) (length : UInt16) (last : Option Nat) (s : Stream)
    (st : OspfIfState) (hhl : LsaHeld mem st.lock last.toList)
    (he : length.toNat + 24 = s.endp) (hsize : (ospfPacketMax oi).toNat ≤ s.size)
    (hsh : min (length.toNat + 12 * table.length) (ospfPacketMax oi).toNat < 65536) :
    ∃ length' last' s' lock', makeLsReqTable mem oi 36 table length last s st
        = .ok ((length', last', s'), { st with lock := lock' })
      ∧ ReqBatch mem oi table.length length s length' last' s' lock' := by
  induction table generalizing length last s st with
  | nil => exact ⟨length, last, s, st.lock, rfl, .nil 0 he hhl⟩
  | cons lsa table ih =>
    rw [length_cons] at hsh
    rw [makeLsReqTable]
    split
    · exact ⟨length, last, s, st.lock, rfl, .nil _ he hhl⟩
    next hrm =>
      have hem := (Stream.emits_putl (.ofNat ((mem lsa).data.getD 3 0).toNat)).seq
        ((Stream.emits_putIpv4 (.ofNat (longAt (mem lsa).data 4))).seq
          (Stream.emits_putIpv4 (.ofNat (longAt (mem lsa).data 8))))
      generalize hen : be32 (.ofNat ((mem lsa).data.getD 3 0).toNat)
        ++ (be32 (.ofNat (longAt (mem lsa).data 4)) ++ be32 (.ofNat (longAt (mem lsa).data 8)))
        = entry at hem
      have hlen : entry.length = 12 := by simp only [← hen, length_append, be32_length]
      have hwrt : entry.length ≤ s.writeable := by
        rw [Stream.writeable]
        omega
      have hnx : (length + 12).toNat = length.toNat + 12 := by
        rw [UInt16.toNat_add]
        exact Nat.mod_eq_of_lt (show length.toNat + 12 < 65536 by omega)
      obtain ⟨lock1, hhl1, hexchange⟩ := exchangeLast lsa hhl
      have hf : ReqBatch mem oi 1 length s (length + 12) (some lsa) (s.append entry)
          lock1 := by
        refine ⟨⟨entry, Stream.append_written s entry⟩, by omega, Stream.append_size hwrt, ?_,
          by omega, by omega, hhl1⟩
        rw [Stream.append_endp]
        omega
      obtain ⟨length', last', s', lock', hr, hb⟩ :=
        ih (length + 12) (some lsa) (s.append entry) { st with lock := lock1 } hhl1
          hf.endp (by rw [hf.size]; exact hsize) (by omega)
      refine ⟨length', last', s', lock', ?_, ?_⟩
      · rw [on_bind_ok (hem s hwrt), hexchange, hr]
      · rw [length_cons, Nat.add_comm]
        exact hf.append hb

theorem makeLsReqTables_batch (tables : List (List Nat)) (length : UInt16) (last : Option Nat)
    (s : Stream) (st : OspfIfState) (hhl : LsaHeld mem st.lock last.toList)
    (he : length.toNat + 24 = s.endp) (hsize : (ospfPacketMax oi).toNat ≤ s.size)
    (hsh : min (length.toNat + 12 * tables.flatten.length) (ospfPacketMax oi).toNat < 65536) :
    ∃ length' last' s' lock', makeLsReqTables mem oi 36 tables length last s st
        = .ok ((length', last', s'), { st with lock := lock' })
      ∧ ReqBatch mem oi tables.flatten.length length s length' last' s' lock' := by
  induction tables generalizing length last s st with
  | nil => exact ⟨length, last, s, st.lock, rfl, .nil 0 he hhl⟩
  | cons table tables ih =>
    rw [flatten_cons, length_append] at hsh ⊢
    obtain ⟨length1, last1, s1, lock1, hr1, hb1⟩ :=
      makeLsReqTable_batch table length last s st hhl he hsize (by omega)
    have hask := hb1.asked
    have hrm := hb1.room
    obtain ⟨length', last', s', lock', hr, hb⟩ :=
      ih length1 last1 s1 { st with lock := lock1 } hb1.held hb1.endp
        (by rw [hb1.size]; exact hsize) (by omega)
    refine ⟨length', last', s', lock', ?_, hb1.append hb⟩
    rwa [makeLsReqTables, bind_ok hr1]

theorem lsReqSend_built (hmt : 68 ≤ oi.mtu.toNat) (nbr : ReqNbr) {st : OspfIfState}
    (hhl : LsaHeld mem st.lock nbr.lsReqLast.toList)
    (hft : ListFits oi (12 * nbr.lsReq.flatten.length)) :
    ∃ last pkts lock', ospfLsReqSend mem oi nbr st
        = .ok (last, { st with lock := lock', obuf := st.obuf ++ pkts })
      ∧ LsaHeld mem lock' [] ∧ ∀ op ∈ pkts, ∃ body, Built oi ospfMsgLsReq body op
        ∧ ∀ behind, (bodyExamin behind ospfMsgLsReq body).ok = true := by
  have hmx := toNat_ospfPacketMax hmt
  have hau := authspace_le oi
  unfold ListFits at hft
  obtain ⟨s, hh, hsize, he, hopn⟩ :=
    @makeHeader_opened oi ospfMsgLsReq oi.mtu.toNat (by omega)
  have hz : (0 : UInt16).toNat = 0 := rfl
  obtain ⟨length, last, s', lock', hr, hb⟩ :=
    @makeLsReqTables_batch mem oi nbr.lsReq 0 nbr.lsReqLast s st hhl (by omega) (by omega)
      (by unfold ospfMaxPacketSize at hft; omega)
  have hask := hb.asked
  have hrm := hb.room
  have he' := hb.endp
  obtain ⟨body, hwr⟩ := hb.written
  have hbd : s'.written = (openedHeader oi ospfMsgLsReq).onto body := by
    rw [hwr, hopn, onto_append, nil_append]
  have hlen : s'.endp = 24 + body.length := by rw [← Stream.written_length, hbd, length_onto]
  have hby : length.toNat = body.length := by omega
  have hdelta : s.endp + 12 = 36 := by rw [he]
  rw [ospfLsReqSend, on_bind_ok hh]
  dsimp only
  rw [hdelta, bind_ok hr]
  dsimp only
  split
  · refine ⟨last, [], lock', ?_, hb.held.nil, nofun⟩
    rw [append_nil]
    rfl
  · obtain ⟨s'', hfl, hblt⟩ := fill_built hbd hby (by rw [hb.size, hsize]; omega) (by omega)
    refine ⟨last, [_], lock', by rw [on_bind_ok hfl]; rfl, hb.held.nil, ?_⟩
    intro op hop
    obtain rfl := mem_singleton.mp hop
    refine ⟨body, hblt _, fun behind => ?_⟩
    have hents := hb.entries
    have hmi : ¬ body.length < ospfPacketMinlen ospfMsgLsReq := Nat.not_lt_zero _
    unfold bodyExamin
    rw [if_neg hmi]
    show decide (body.length % 12 = 0) = true
    exact decide_eq_true (by omega)

end SdnQuagga
