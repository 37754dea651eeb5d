import SdnQuagga.BabelCodec

/-!
# Babel updates arrive as they were sent

The TLVs that `really_send_update` writes are compressed against what the buffer has told so
far, and `parse_packet` keeps what the packet has told so far. `InStep` relates the two: each
TLV that is written keeps it, and a flush starts both anew. So a packet that is flushed is
parsed to the updates that were put in it, in their order.

The prefix that the sender remembers is not masked while the one of the receiver is, so the
host bits of a prefix must be zero.
-/

namespace SdnQuagga

open FaultM List

/-! ## What is received -/

variable (peer : BabelPeer)

/-- The update as the receiver's `update_route` is to be called. -/
def SentUpdate.seenBy (u : SentUpdate) : BabelUpdateCall :=
  ⟨u.id, u.pfx, .ofNat u.plen, u.seqno, u.metric, u.interval,
    (u.nexthop.map (v4pfx ++ ·)).getD peer.address, seenChannels peer u.metric u.channels⟩

/-- The arguments of a call of `update_route`. -/
def BabelCall.update? : BabelCall → Option BabelUpdateCall
  | .updateRoute u => some u
  | _ => none

/-- The calls of `update_route`, in their order. -/
def BabelParser.updates (st : BabelParser) : List BabelUpdateCall := st.calls.filterMap (·.update?)

/-- A neighbor that packets of the sender come to, on an interface with an IPv4 address. -/
structure BabelPeer.Listens (peer : BabelPeer) : Prop where
  linklocal : peer.linklocal = true
  known : peer.known = true
  ipv4 : peer.ipv4 = true

/-! ## Sender and receiver in step -/

/-- What the sender remembers of its buffer is what the receiver knows after it. -/
structure InStep (peer : BabelPeer) (s : BabelSender) (st : BabelParser) : Prop where
  id : ∀ id ∈ s.bufferedId, st.routerId = some id
  nh : ∀ a ∈ s.bufferedNh, st.v4Nh = some (v4pfx ++ a)
  pfx : ∀ p ∈ s.bufferedPrefix, st.haveV6Prefix = true ∧ st.v6Prefix = p ∧ ¬ v4mapped p
  v6Nh : st.v6Nh = none
  updates : st.updates = s.updates.map (·.seenBy peer)

/-- A flushed packet is parsed to its updates, whatever the parser's variables hold before. -/
def BabelFlush.Received (f : BabelFlush) : Prop :=
  ∀ v4Prefix v6Prefix, ∃ st, parsePacket peer f.packet (.start v4Prefix v6Prefix) = .ok ((), st)
    ∧ st.updates = f.updates.map (·.seenBy peer)

/-- The buffer is within its bounds and is read to a state that is in step with it. -/
structure Faithful (peer : BabelPeer) (s : BabelSender) : Prop where
  space : 64 ≤ s.bufsize
  datagram : s.bufsize < 65536
  fits : s.sendbuf.length ≤ s.bufsize
  reads : ∀ v4Prefix v6Prefix, ∃ st, Hears peer s.sendbuf (.start v4Prefix v6Prefix) st
    ∧ InStep peer s st
  received : ∀ f ∈ s.flushed, f.Received peer

section

variable {peer : BabelPeer} {s s' : BabelSender}

theorem faithful_start {bufsize : Nat} (hspc : 64 ≤ bufsize) (hdgm : bufsize < 65536) :
    Faithful peer (.start bufsize) where
  space := hspc
  datagram := hdgm
  fits := Nat.zero_le _
  reads := fun v4Prefix v6Prefix =>
    ⟨.start v4Prefix v6Prefix, .nil, by constructor <;> simp [BabelSender.start,
      BabelParser.start, BabelParser.updates]⟩
  received := by simp [BabelSender.start]

/-- TLVs that keep the two in step. -/
theorem Faithful.extend {bytes : List UInt8} (h : Faithful peer s)
    (hbuf : s'.sendbuf = s.sendbuf ++ bytes) (hsize : s'.bufsize = s.bufsize)
    (hflushed : s'.flushed = s.flushed) (hft : s.sendbuf.length + bytes.length ≤ s.bufsize)
    (hste : ∀ st, InStep peer s st → ∃ st', Hears peer bytes st st' ∧ InStep peer s' st') :
    Faithful peer s' where
  space := hsize ▸ h.space
  datagram := hsize ▸ h.datagram
  fits := by
    rw [hsize, hbuf, length_append]
    exact hft
  reads := by
    intro v4Prefix v6Prefix
    obtain ⟨st, hrds, hin⟩ := h.reads v4Prefix v6Prefix
    obtain ⟨st', hmo, hin'⟩ := hste st hin
    exact ⟨st', hbuf ▸ hrds.append hmo, hin'⟩
  received := hflushed ▸ h.received

theorem Faithful.updates_nil (h : Faithful peer s) (hemp : s.sendbuf = []) : s.updates = [] := by
  obtain ⟨st, hrds, hin⟩ := h.reads [] []
  have hal := hrds.all
  rw [hemp, length_nil, parseBody_nil] at hal
  cases hal
  have hups := hin.updates
  exact map_eq_nil_iff.mp hups.symm

/-- The buffer's packet is parsed to its updates. -/
theorem Faithful.packet_received (hpe : peer.Listens) (h : Faithful peer s) (bucket : Bool) :
    (BabelFlush.mk (packetHeader s.sendbuf.length ++ s.sendbuf) s.updates bucket).Received
      peer := by
  intro v4Prefix v6Prefix
  obtain ⟨st, hrds, hin⟩ := h.reads v4Prefix v6Prefix
  refine ⟨st, ?_, hin.updates⟩
  have hln : (packetHeader s.sendbuf.length ++ s.sendbuf).length = s.sendbuf.length + 4 := by
    rw [length_append]
    exact Nat.add_comm _ _
  have hbd : shortAt (packetHeader s.sendbuf.length ++ s.sendbuf) 2
      = UInt16.ofNat s.sendbuf.length :=
    shortAt_be16 [42, 2] s.sendbuf _
  have hbodyLen : (UInt16.ofNat s.sendbuf.length).toNat = s.sendbuf.length := by
    rw [UInt16.toNat_ofNat']
    exact Nat.mod_eq_of_lt (Nat.lt_of_le_of_lt h.fits h.datagram)
  have hmagic : (packetHeader s.sendbuf.length ++ s.sendbuf).getD 0 0 = 42 := rfl
  have hvers : (packetHeader s.sendbuf.length ++ s.sendbuf).getD 1 0 = 2 := rfl
  dsimp only
  unfold parsePacket
  rw [when, if_pos hpe.linklocal, bind_ok (readByte_ok (by omega)), when, if_pos hmagic,
    bind_ok (readByte_ok (by omega)), when, if_pos ⟨hvers, hpe.known⟩,
    bind_ok (readShort_ok (by omega)), hbd, hbodyLen, hln, Nat.add_sub_cancel, Nat.min_self]
  exact hrds.all

def BabelSender.allUpdates (s : BabelSender) : List SentUpdate :=
  s.flushed.flatMap (·.updates) ++ s.updates

theorem Faithful.emptied (hpe : peer.Listens) (h : Faithful peer s) (bucket : Bool) :
    Faithful peer (s.emptied bucket) where
  space := h.space
  datagram := h.datagram
  fits := Nat.zero_le _
  reads := fun v4Prefix v6Prefix =>
    ⟨.start v4Prefix v6Prefix, .nil, by constructor <;> simp [BabelSender.emptied,
      BabelParser.start, BabelParser.updates]⟩
  received := by
    intro f hf
    unfold BabelSender.emptied at hf
    dsimp only at hf
    split_ifs at hf with hemp
    · exact h.received f hf
    · rw [mem_append, mem_singleton] at hf
      rcases hf with hf | rfl
      · exact h.received f hf
      · exact h.packet_received hpe bucket

theorem Faithful.emptied_allUpdates (h : Faithful peer s) (bucket : Bool) :
    (s.emptied bucket).allUpdates = s.allUpdates := by
  unfold BabelSender.allUpdates BabelSender.emptied
  dsimp only
  split_ifs with hemp
  · rw [h.updates_nil hemp]
  · rw [flatMap_append, flatMap_singleton, append_nil]

theorem flushbuf_ok (h : Faithful peer s) (bucket : Bool) :
    flushbuf bucket s = .ok ((), s.emptied bucket) := by
  unfold flushbuf
  rw [get_bind, check, if_pos h.fits]
  rfl

/-- `ensure_space` leaves the space that it is asked for. -/
theorem ensureSpace_ok (hpe : peer.Listens) (h : Faithful peer s) (bucket : Bool) {space : Nat}
    (hspc : space ≤ 64) :
    ∃ s', ensureSpace bucket space s = .ok ((), s') ∧ Faithful peer s'
      ∧ s'.sendbuf.length + space ≤ s'.bufsize ∧ s'.allUpdates = s.allUpdates := by
  have hft := h.fits
  have hmi := h.space
  unfold ensureSpace
  rw [get_bind, when]
  split_ifs with hfu
  · refine ⟨_, flushbuf_ok h bucket, h.emptied hpe bucket, ?_, h.emptied_allUpdates bucket⟩
    show 0 + space ≤ s.bufsize
    omega
  · exact ⟨s, rfl, h, by omega, rfl⟩

/-! ## Next hop and router id -/

/-- What `announceNexthop` and `announceId` leave alone. -/
structure SameBut (s s' : BabelSender) : Prop where
  bufsize : s'.bufsize = s.bufsize
  bufferedPrefix : s'.bufferedPrefix = s.bufferedPrefix
  updates : s'.updates = s.updates
  flushed : s'.flushed = s.flushed

variable (env : BabelSendEnv)

theorem announceNexthop_ok {ipv4 : List UInt8} (h : Faithful peer s)
    (hlen : ipv4.length = 4) (hspc : s.sendbuf.length + 8 ≤ s.bufsize) :
    ∃ s', announceNexthop env ipv4 s = .ok ((), s') ∧ Faithful peer s' ∧ SameBut s s'
      ∧ s'.bufferedNh = some ipv4 ∧ s'.sendbuf.length ≤ s.sendbuf.length + 8 := by
  unfold announceNexthop
  rw [get_bind, when]
  by_cases hnh : s.bufferedNh ≠ some ipv4
  · have hbd : ([1, 0] ++ ipv4).length = 6 := by
      rw [length_append, hlen]
      rfl
    have hwrs : Writes (sendMessage env.bucket 7 6 do
        accumulateByte 1
        accumulateByte 0
        accumulateBytes ipv4) (tlv 7 ([1, 0] ++ ipv4)) :=
      writes_message ((writes_bytes [1]).bind ((writes_bytes [0]).bind (writes_bytes ipv4))) hbd
        (by decide)
    have htlv : (tlv 7 ([1, 0] ++ ipv4)).length = 8 := by rw [tlv, length_cons, length_cons, hbd]
    rw [if_pos hnh, bind_ok (hwrs s (by omega))]
    refine ⟨{ s.wrote (tlv 7 ([1, 0] ++ ipv4)) with bufferedNh := some ipv4 }, rfl, ?_,
      ⟨rfl, rfl, rfl, rfl⟩, rfl, ?_⟩
    · refine h.extend rfl rfl rfl (by omega) fun st hin => ⟨_, reads_nh hlen, ?_⟩
      refine ⟨hin.id, ?_, hin.pfx, hin.v6Nh, hin.updates⟩
      intro a ha
      cases ha
      rfl
    · show (s.sendbuf ++ _).length ≤ _
      rw [length_append]
      omega
  · rw [if_neg hnh]
    exact ⟨s, rfl, h, ⟨rfl, rfl, rfl, rfl⟩, not_not.mp hnh, by omega⟩

variable (adv : BabelAdvert)

/-- The router id is told by a TLV, or it is left to a flag of an update that has it as the last
bytes of its prefix. -/
theorem announceId_ok (h : Faithful peer s)
    (realPrefix : List UInt8) (realPlen : Nat) (hspc : s.sendbuf.length + 12 ≤ s.bufsize) :
    (∃ s', announceId env adv realPrefix realPlen s = .ok (0, s') ∧ Faithful peer s'
        ∧ SameBut s s' ∧ s'.bufferedNh = s.bufferedNh ∧ s'.bufferedId = some adv.id
        ∧ s'.sendbuf.length ≤ s.sendbuf.length + 12)
      ∨ announceId env adv realPrefix realPlen s = .ok (0x40, { s with bufferedId := some adv.id })
        ∧ realPlen = 128 ∧ (realPrefix.drop 8).take 8 = adv.id := by
  unfold announceId
  rw [get_bind]
  by_cases hid : s.bufferedId = some adv.id
  · rw [if_pos hid]
    exact .inl ⟨s, rfl, h, ⟨rfl, rfl, rfl, rfl⟩, rfl, hid, by omega⟩
  rw [if_neg hid]
  by_cases hfg : realPlen = 128 ∧ (realPrefix.drop 8).take 8 = adv.id
  · rw [if_pos hfg]
    exact .inr ⟨rfl, hfg⟩
  refine .inl ?_
  have hbd : (be16 0 ++ adv.id).length = 10 := by rw [length_append, be16_length, adv.id_length]
  have hwrs : Writes (sendMessage env.bucket 6 10 do
      accumulateShort 0
      accumulateBytes adv.id) (tlv 6 (be16 0 ++ adv.id)) :=
    writes_message ((writes_bytes (be16 0)).bind (writes_bytes adv.id)) hbd (by decide)
  have htlv : (tlv 6 (be16 0 ++ adv.id)).length = 12 := by rw [tlv, length_cons, length_cons, hbd]
  rw [if_neg hfg, bind_ok (hwrs s (by omega))]
  refine ⟨{ s.wrote (tlv 6 (be16 0 ++ adv.id)) with bufferedId := some adv.id }, rfl, ?_,
    ⟨rfl, rfl, rfl, rfl⟩, rfl, rfl, ?_⟩
  · refine h.extend rfl rfl rfl (by omega) fun st hin => ⟨_, reads_routerId adv.id_length, ?_⟩
    refine ⟨?_, hin.nh, hin.pfx, hin.v6Nh, hin.updates⟩
    intro id hso
    cases hso
    rfl
  · show (s.sendbuf ++ _).length ≤ _
    rw [length_append]
    omega

/-! ## Updates -/

theorem sentChannels_wf : ∀ c ∈ sentChannels env adv, c.length ≤ diversityHops ∧ 0 ∉ c := by
  intro c hc
  unfold sentChannels at hc
  split_ifs at hc with hdiversity
  · exact ⟨adv.channels_length c hc, adv.channels_nonzero c hc⟩
  · cases hc

theorem writes_update (ae flags : UInt8) {realPrefix : List UInt8} {realPlen : Nat} (omitted : Nat)
    (hlen : (realPlen + 7) / 8 ≤ realPrefix.length) (hsh : (realPlen + 7) / 8 ≤ 16) :
    Writes (accumulateUpdate env adv ae flags realPrefix realPlen omitted)
      (tlv 8 (updateBody ae flags (.ofNat realPlen) (.ofNat omitted) (sentInterval env) adv.seqno
        (sentMetric env adv) ((realPrefix.drop omitted).take ((realPlen + 7) / 8 - omitted))
        (sentChannels env adv))) := by
  have hatts := channelsTlv_length_le (sentChannels_wf env adv)
  have hct : ((realPrefix.drop omitted).take ((realPlen + 7) / 8 - omitted)).length
      = (realPlen + 7) / 8 - omitted := by
    rw [length_take, length_drop]
    omega
  have hch : (channelsTlv (sentChannels env adv)).length = channelsSize (sentChannels env adv) := by
    cases sentChannels env adv with
    | none => rfl
    | some c => rfl
  have hsize : (updateBody ae flags (.ofNat realPlen) (.ofNat omitted) (sentInterval env)
      adv.seqno (sentMetric env adv) ((realPrefix.drop omitted).take ((realPlen + 7) / 8 - omitted))
      (sentChannels env adv)).length = 10 + ((realPlen + 7) / 8 - omitted)
        + channelsSize (sentChannels env adv) := by rw [updateBody_length, hct, hch]
  unfold accumulateUpdate
  refine writes_message ?_ hsize (by rw [← hch]; omega)
  exact (writes_bytes [ae]).bind <| (writes_bytes [flags]).bind <|
    (writes_bytes [.ofNat realPlen]).bind <| (writes_bytes [.ofNat omitted]).bind <|
    (writes_bytes (be16 _)).bind <| (writes_bytes (be16 _)).bind <|
    (writes_bytes (be16 _)).bind <| (writes_bytes _).bind <| writes_channels _

variable (s) (bytes : List UInt8)

/-- The buffer after the `Update` TLV. -/
def BabelSender.updated (u : SentUpdate) : BabelSender :=
  { s with sendbuf := s.sendbuf ++ bytes, updates := s.updates ++ [u] }

theorem BabelSender.updated_allUpdates (u : SentUpdate) :
    (s.updated bytes u).allUpdates = s.allUpdates ++ [u] :=
  (append_assoc _ _ _).symm

variable {s}

theorem SameBut.allUpdates (h : SameBut s s') : s'.allUpdates = s.allUpdates := by
  rw [BabelSender.allUpdates, BabelSender.allUpdates, h.updates, h.flushed]

section

variable {adv : BabelAdvert}

theorem updates_accepted (st : BabelParser) (u : BabelUpdateCall) :
    ({ st with calls := st.calls ++ [.updateRoute u] } : BabelParser).updates = st.updates ++ [u] :=
  filterMap_append

theorem send_v4_ok (env : BabelSendEnv) (hpe : peer.Listens) (h : Faithful peer s)
    (hspc : s.sendbuf.length + 60 ≤ s.bufsize) (hv4 : adv.V4)
    (hz : HostBitsZero adv.pfx adv.plen) {ipv4 : List UInt8} (hip : env.ipv4 = some ipv4) :
    ∃ s', (do
        announceNexthop env ipv4
        let idFlag ← announceId env adv (adv.pfx.drop 12) (adv.plen - 96)
        accumulateUpdate env adv 1 idFlag (adv.pfx.drop 12) (adv.plen - 96) 0
        noteUpdate env adv (some ipv4) : BabelSendM Unit) s = .ok ((), s') ∧ Faithful peer s'
      ∧ s'.allUpdates = s.allUpdates ++ [sentUpdate env adv (some ipv4)] := by
  have hpn := adv.plen_le
  have hpfx := adv.pfx_length
  obtain ⟨hlow, hmp⟩ := hv4
  obtain ⟨s1, hnh, hf1, hsm1, hip1, hl1⟩ :=
    announceNexthop_ok env h (env.ipv4_length ipv4 hip) (by omega)
  have hsz1 := hsm1.bufsize
  rcases announceId_ok env adv hf1 (adv.pfx.drop 12) (adv.plen - 96)
    (by omega) with ⟨s2, hid, hf2, hsm2, hnh2, hid2, hl2⟩ | ⟨-, hfu, -⟩
  · have hsz2 := hsm2.bufsize
    have hct : (adv.plen - 96 + 7) / 8 ≤ (adv.pfx.drop 12).length := by
      rw [length_drop]
      omega
    have hatts := channelsTlv_length_le (sentChannels_wf env adv)
    have hwrs := writes_update env adv 1 0 0 hct (by omega)
    rw [drop_zero, Nat.sub_zero] at hwrs
    set bytes := tlv 8 (updateBody 1 0 (.ofNat (adv.plen - 96)) (.ofNat 0) (sentInterval env)
      adv.seqno (sentMetric env adv) ((adv.pfx.drop 12).take ((adv.plen - 96 + 7) / 8))
      (sentChannels env adv)) with hby
    have hln : bytes.length ≤ 26 := by
      rw [hby, tlv, length_cons, length_cons, updateBody_length, length_take]
      omega
    refine ⟨s2.updated bytes (sentUpdate env adv (some ipv4)), ?_, ?_, ?_⟩
    · rw [bind_ok hnh, bind_ok hid, bind_ok (hwrs s2 (by omega))]
      rfl
    · refine hf2.extend rfl rfl rfl (by omega) fun st hin => ⟨_, reads_update_v4 hpfx hmp hlow
        hpn (sentChannels_wf env adv) (hin.id _ hid2) (hin.nh _ (hnh2.trans hip1)) hpe.ipv4, ?_⟩
      refine ⟨hin.id, hin.nh, hin.pfx, hin.v6Nh, ?_⟩
      show _ = (s2.updates ++ [sentUpdate env adv (some ipv4)]).map (·.seenBy peer)
      rw [updates_accepted, hz, hin.updates, map_append]
      rfl
    · rw [BabelSender.updated_allUpdates, hsm2.allUpdates, hsm1.allUpdates]
  · omega

theorem flags_ne_one {a b : UInt8} (ha : a = 0x80 ∨ a = 0) (hb : b = 0x40 ∨ b = 0) :
    a ||| b ≠ 1 := by
  rcases ha with rfl | rfl
  · rcases hb with rfl | rfl <;> decide
  · rcases hb with rfl | rfl <;> decide

/-- What the receiver knows after an IPv6 update. -/
theorem InStep.updated {st : BabelParser} {base : BabelSender} {pfxFlag idFlag : UInt8}
    (hin : InStep peer base st) (env : BabelSendEnv) (bytes : List UInt8)
    (hz : HostBitsZero adv.pfx adv.plen) (hmp : ¬ v4mapped adv.pfx)
    (hpfx : pfxFlag = 0x80 ∨ pfxFlag = 0) (hid : idFlag = 0x40 ∧ (adv.pfx.drop 8).take 8 = adv.id
      ∨ idFlag = 0 ∧ base.bufferedId = some adv.id) :
    (rememberUpdate 2 (pfxFlag ||| idFlag) (maskPrefix adv.pfx adv.plen) st).routerId = some adv.id
      ∧ (rememberUpdate 2 (pfxFlag ||| idFlag) (maskPrefix adv.pfx adv.plen) st).v6Nh = none
      ∧ InStep peer { base.updated bytes (sentUpdate env adv none) with
          bufferedId := some adv.id
          bufferedPrefix := if pfxFlag ≠ 0 then some adv.pfx else base.bufferedPrefix }
        { rememberUpdate 2 (pfxFlag ||| idFlag) (maskPrefix adv.pfx adv.plen) st with
          calls := (rememberUpdate 2 (pfxFlag ||| idFlag) (maskPrefix adv.pfx adv.plen) st).calls
            ++ [.updateRoute (acceptedUpdate peer adv.id (maskPrefix adv.pfx adv.plen)
              peer.address adv.plen (sentInterval env) adv.seqno (sentMetric env adv)
              (sentChannels env adv))] } := by
  rw [show maskPrefix adv.pfx adv.plen = adv.pfx from hz]
  have hfg : idFlag = 0x40 ∨ idFlag = 0 := hid.imp And.left And.left
  have hrt : (rememberUpdate 2 (pfxFlag ||| idFlag) adv.pfx st).routerId = some adv.id := by
    rcases hid with ⟨rfl, hid⟩ | ⟨rfl, hid⟩
    · rcases hpfx with rfl | rfl <;> exact congrArg some hid
    · rcases hpfx with rfl | rfl <;> exact hin.id _ hid
  obtain ⟨hv6, hv4, hups⟩ : (rememberUpdate 2 (pfxFlag ||| idFlag) adv.pfx st).v6Nh = st.v6Nh
      ∧ (rememberUpdate 2 (pfxFlag ||| idFlag) adv.pfx st).v4Nh = st.v4Nh
      ∧ (rememberUpdate 2 (pfxFlag ||| idFlag) adv.pfx st).updates = st.updates := by
    rcases hpfx with rfl | rfl <;> rcases hfg with rfl | rfl <;> exact ⟨rfl, rfl, rfl⟩
  refine ⟨hrt, hv6.trans hin.v6Nh, ?_, fun a ha => hv4.trans (hin.nh a ha), ?_,
    hv6.trans hin.v6Nh, ?_⟩
  · rintro id ⟨⟩
    exact hrt
  · rcases hpfx with rfl | rfl
    · rintro p ⟨⟩
      rcases hfg with rfl | rfl <;> exact ⟨rfl, rfl, hmp⟩
    · rcases hfg with rfl | rfl <;> exact hin.pfx
  · refine (updates_accepted _ _).trans ?_
    show _ = (base.updates ++ [sentUpdate env adv none]).map (·.seenBy peer)
    rw [hups, hin.updates, map_append]
    rfl

theorem send_v6_ok (env : BabelSendEnv) (h : Faithful peer s)
    (hspc : s.sendbuf.length + 60 ≤ s.bufsize) (hv6 : ¬ adv.V4)
    (hz : HostBitsZero adv.pfx adv.plen) (pfxFlag : UInt8) (omitted : Nat)
    (hfg : pfxFlag = 0x80 ∨ pfxFlag = 0) (homitted : omitted ≤ adv.plen / 8)
    (hcommon : omitted = 0 ∨ ∃ p ∈ s.bufferedPrefix, p.take omitted = adv.pfx.take omitted) :
    ∃ s', (do
        let idFlag ← announceId env adv adv.pfx adv.plen
        accumulateUpdate env adv 2 (pfxFlag ||| idFlag) adv.pfx adv.plen omitted
        noteUpdate env adv none
        when (pfxFlag ≠ 0) (modify fun s => { s with bufferedPrefix := some adv.pfx }) :
          BabelSendM Unit) s = .ok ((), s') ∧ Faithful peer s'
      ∧ s'.allUpdates = s.allUpdates ++ [sentUpdate env adv none] := by
  have hpn := adv.plen_le
  have hpfx := adv.pfx_length
  have hmp : ¬ v4mapped adv.pfx := by
    intro hmp
    have hsh : adv.plen < 96 := Nat.not_le.mp fun hlow => hv6 ⟨hlow, hmp⟩
    exact not_v4mapped_of_short hpfx hz hsh hmp
  have hatts := channelsTlv_length_le (sentChannels_wf env adv)
  -- The state that the update is written in, and its flag for the router id.
  obtain ⟨base, idFlag, hid, hf, hsm, hlen, hkn⟩ : ∃ base idFlag,
      announceId env adv adv.pfx adv.plen s = .ok (idFlag, { base with bufferedId := some adv.id })
      ∧ Faithful peer base ∧ SameBut s base ∧ base.sendbuf.length ≤ s.sendbuf.length + 12
      ∧ (idFlag = 0x40 ∧ (adv.pfx.drop 8).take 8 = adv.id
        ∨ idFlag = 0 ∧ base.bufferedId = some adv.id) := by
    rcases announceId_ok env adv h adv.pfx adv.plen (by omega) with
      ⟨s1, hid, hf, hsm, -, hid1, hlen⟩ | ⟨hid, -, htl⟩
    · have hsm1 : { s1 with bufferedId := some adv.id } = s1 := by rw [← hid1]
      exact ⟨s1, 0, by rw [hid, hsm1], hf, hsm, hlen, .inr ⟨rfl, hid1⟩⟩
    · exact ⟨s, 0x40, hid, h, ⟨rfl, rfl, rfl, rfl⟩, by omega, .inl ⟨rfl, htl⟩⟩
  have hsize := hsm.bufsize
  have hwrs := writes_update env adv 2 (pfxFlag ||| idFlag) omitted
    (show (adv.plen + 7) / 8 ≤ adv.pfx.length by omega) (by omega)
  set bytes := tlv 8 (updateBody 2 (pfxFlag ||| idFlag) (.ofNat adv.plen) (.ofNat omitted)
    (sentInterval env) adv.seqno (sentMetric env adv)
    ((adv.pfx.drop omitted).take ((adv.plen + 7) / 8 - omitted)) (sentChannels env adv)) with hby
  have hln : bytes.length ≤ 38 := by
    rw [hby, tlv, length_cons, length_cons, updateBody_length, length_take]
    omega
  refine ⟨{ base.updated bytes (sentUpdate env adv none) with
      bufferedId := some adv.id
      bufferedPrefix := if pfxFlag ≠ 0 then some adv.pfx else base.bufferedPrefix }, ?_, ?_, ?_⟩
  · have hupd := hwrs { base with bufferedId := some adv.id }
      (show base.sendbuf.length + _ ≤ base.bufsize by omega)
    rw [bind_ok hid, bind_ok hupd]
    rcases hfg with rfl | rfl
    · rfl
    · rfl
  · refine hf.extend rfl rfl rfl (by omega) fun st hin => ?_
    obtain ⟨hrt, hnh, hste⟩ := hin.updated env bytes hz hmp hfg hkn
    refine ⟨_, reads_update_v6 hpfx hpn homitted ?_ ?_ (sentChannels_wf env adv) hrt hnh, hste⟩
    · rcases hcommon with h0 | ⟨p, hp, htk⟩
      · exact .inl h0
      · obtain ⟨hhave, rfl, hp4⟩ := hin.pfx p (hsm.bufferedPrefix ▸ hp)
        exact .inr ⟨hhave, hp4, htk⟩
    · exact flags_ne_one hfg (hkn.imp And.left And.left)
  · show (base.updated bytes (sentUpdate env adv none)).allUpdates = _
    rw [BabelSender.updated_allUpdates, hsm.allUpdates]

end

/-! ## Runs -/

/-- The prefix of an update has no host bits. -/
def BabelSendOp.HostBitsZero : BabelSendOp → Prop
  | .update _ adv => SdnQuagga.HostBitsZero adv.pfx adv.plen
  | _ => True

theorem reallySendUpdate_ok (hpe : peer.Listens) (h : Faithful peer s) (env : BabelSendEnv)
    (adv : BabelAdvert) (hz : HostBitsZero adv.pfx adv.plen) :
    ∃ s', reallySendUpdate env adv s = .ok ((), s') ∧ Faithful peer s'
      ∧ s'.allUpdates = s.allUpdates ++ (BabelSendOp.update env adv).sent.toList := by
  unfold reallySendUpdate BabelSendOp.sent
  dsimp only
  by_cases hup : env.up = true ∧ env.addMetric < babelInfinity
  · obtain ⟨s1, hspc, hf1, hrm, hal1⟩ := ensureSpace_ok hpe h env.bucket
      (show 20 + 12 + 28 ≤ 64 by decide)
    rw [when, if_pos hup, if_pos hup, bind_ok hspc]
    split_ifs with hv4
    · cases hip : env.ipv4 with
      | none => exact ⟨s1, rfl, hf1, by simpa using hal1⟩
      | some ipv4 =>
        obtain ⟨s', hr, hf', hal'⟩ := send_v4_ok env hpe hf1 hrm hv4 hz hip
        exact ⟨s', hr, hf', by rw [hal', hal1]; rfl⟩
    · rw [get_bind]
      have hfg : (if s1.bufferedPrefix = none ∨ 48 ≤ adv.plen then (0x80 : UInt8) else 0) = 0x80
          ∨ (if s1.bufferedPrefix = none ∨ 48 ≤ adv.plen then (0x80 : UInt8) else 0) = 0 := by
        split_ifs <;> simp
      cases hpfx : s1.bufferedPrefix with
      | none =>
        rw [hpfx] at hfg
        obtain ⟨s', hr, hf', hal'⟩ := send_v6_ok env hf1 hrm hv4 hz _ 0 hfg
          (Nat.zero_le _) (Or.inl rfl)
        exact ⟨s', hr, hf', by rw [hal', hal1]; rfl⟩
      | some buffered =>
        rw [hpfx] at hfg
        obtain ⟨s', hr, hf', hal'⟩ := send_v6_ok env hf1 hrm hv4 hz _
          (omittedBytes (adv.plen / 8) buffered adv.pfx) hfg (omittedBytes_le _ _ _)
          (Or.inr ⟨buffered, hpfx, take_omittedBytes _ _ _⟩)
        exact ⟨s', hr, hf', by rw [hal', hal1]; rfl⟩
  · rw [when, if_neg hup, if_neg hup]
    exact ⟨s, rfl, h, (append_nil _).symm⟩

/-- `start_message` asks for space on its own. -/
theorem sendMessage_ensures {bucket : Bool} {type : UInt8} {len : Nat} {m : BabelSendM Unit}
    (hspc : ensureSpace bucket (len + 2) s = .ok ((), s'))
    (hrm : s'.sendbuf.length + (len + 2) ≤ s'.bufsize) :
    sendMessage bucket type len m s = sendMessage bucket type len m s' := by
  have hst : startMessage bucket type len s = startMessage bucket type len s' := by
    unfold startMessage
    rw [bind_ok hspc, bind_ok (ensureSpace_enough (by omega))]
  show (startMessage bucket type len s >>= _) = (startMessage bucket type len s' >>= _)
  rw [hst]

theorem sendWildcardRetraction_ok (hpe : peer.Listens) (h : Faithful peer s) (up bucket : Bool)
    (myseqno : UInt16) :
    ∃ s', sendWildcardRetraction up bucket myseqno s = .ok ((), s') ∧ Faithful peer s'
      ∧ s'.allUpdates = s.allUpdates := by
  unfold sendWildcardRetraction
  rw [when]
  by_cases hup : up = true
  · obtain ⟨s1, hspc, hf1, hrm, hal1⟩ := ensureSpace_ok hpe h bucket (show 10 + 2 ≤ 64 by decide)
    set bytes := tlv 8 (updateBody 0 0x40 0 0 0xffff myseqno 0xffff [] none) with hby
    have hwrs : Writes (sendMessage bucket 8 10 do
        accumulateByte 0
        accumulateByte 0x40
        accumulateByte 0
        accumulateByte 0
        accumulateShort 0xffff
        accumulateShort myseqno
        accumulateShort 0xffff) bytes :=
      writes_message ((writes_bytes [0]).bind <| (writes_bytes [0x40]).bind <|
        (writes_bytes [0]).bind <| (writes_bytes [0]).bind <| (writes_bytes (be16 0xffff)).bind <|
        (writes_bytes (be16 myseqno)).bind <| writes_bytes (be16 0xffff)) rfl (by decide)
    have hwrt : sendMessage bucket 8 10 _ s = .ok ((), s1.wrote bytes) :=
      (sendMessage_ensures hspc hrm).trans (hwrs s1 hrm)
    rw [if_pos hup, bind_ok hwrt]
    refine ⟨{ s1.wrote bytes with bufferedId := none }, rfl, ?_, hal1⟩
    refine hf1.extend rfl rfl rfl hrm fun st hin => ⟨_, reads_retraction, ?_⟩
    refine ⟨?_, hin.nh, hin.pfx, hin.v6Nh, ?_⟩
    · rintro id ⟨⟩
    · exact (filterMap_append.trans (append_nil _)).trans hin.updates
  · rw [if_neg hup]
    exact ⟨s, rfl, h, rfl⟩

theorem BabelSendOp.run_ok (hpe : peer.Listens) (h : Faithful peer s) (op : BabelSendOp)
    (hz : op.HostBitsZero) :
    ∃ s', op.run s = .ok ((), s') ∧ Faithful peer s'
      ∧ s'.allUpdates = s.allUpdates ++ op.sent.toList := by
  cases op with
  | update env adv => exact reallySendUpdate_ok hpe h env adv hz
  | retraction up bucket myseqno =>
    obtain ⟨s', hr, hf, hal⟩ := sendWildcardRetraction_ok hpe h up bucket myseqno
    exact ⟨s', hr, hf, hal.trans (append_nil _).symm⟩
  | flush bucket =>
    exact ⟨_, flushbuf_ok h bucket, h.emptied hpe bucket,
      (h.emptied_allUpdates bucket).trans (append_nil _).symm⟩

theorem runSends_ok (hpe : peer.Listens) (h : Faithful peer s) (ops : List BabelSendOp)
    (hz : ∀ op ∈ ops, op.HostBitsZero) :
    ∃ s', runSends ops s = .ok ((), s') ∧ Faithful peer s'
      ∧ s'.allUpdates = s.allUpdates ++ ops.filterMap (·.sent) := by
  induction ops generalizing s with
  | nil => exact ⟨s, rfl, h, (append_nil _).symm⟩
  | cons op ops ih =>
    obtain ⟨s1, hr, hf, hal⟩ := op.run_ok hpe h (hz op mem_cons_self)
    obtain ⟨s', hruns, hf', hal'⟩ := ih hf fun o ho => hz o (mem_cons_of_mem op ho)
    refine ⟨s', (forM_cons_ok hr).trans hruns, hf', ?_⟩
    rw [hal', hal, filterMap_cons, append_assoc]
    cases op.sent with
    | none => rfl
    | some u => rfl

end

/-- Over every run of updates, wildcard retractions and flushes, a flushed packet is parsed to the
updates in it, with their metrics, and the packets and the buffer have all updates in their
order. -/
theorem updates_received (peer : BabelPeer) (hpeer : peer.Listens) (bufsize : Nat)
    (hspace : 64 ≤ bufsize) (hdatagram : bufsize < 65536) (ops : List BabelSendOp)
    (hzero : ∀ op ∈ ops, op.HostBitsZero) :
    ∃ s, runSends ops (.start bufsize) = .ok ((), s)
      ∧ s.flushed.flatMap (·.updates) ++ s.updates = ops.filterMap (·.sent)
      ∧ ∀ f ∈ s.flushed, ∀ v4Prefix v6Prefix, ∃ st,
          parsePacket peer f.packet (.start v4Prefix v6Prefix) = .ok ((), st)
          ∧ st.updates = f.updates.map (·.seenBy peer) := by
  obtain ⟨s, hrun, hf, hall⟩ := runSends_ok hpeer (faithful_start hspace hdatagram) ops hzero
  exact ⟨s, hrun, hall, hf.received⟩

/-- An interface without IPv4, and updates without channels. -/
def plainSend : BabelSendEnv := ⟨true, 0, false, none, 4000, true, by simp⟩

/-- An update for 2001:db8::1 with a length. -/
def hostUpdate (plen : Nat) (hplen : plen ≤ 128) : BabelAdvert where
  id := [1, 2, 3, 4, 5, 6, 7, 8]
  pfx := [0x20, 0x01, 0x0d, 0xb8, 0, 0, 0, 0, 0, 0, 0, 0, 0, 0, 0, 1]
  plen := plen
  seqno := 1
  metric := 256
  channels := none
  id_length := rfl
  pfx_length := rfl
  plen_le := hplen
  channels_length := by simp
  channels_nonzero := by simp

/-- The prefix of the second update is omitted, since the sender remembers it from the first. -/
theorem updates_received_host :
    let ops := [.update plainSend (hostUpdate 128 (by decide)),
      .update plainSend (hostUpdate 128 (by decide)), .flush true]
    nearPeer.Listens ∧ ∃ s, runSends ops (.start 1436) = .ok ((), s)
      ∧ s.flushed.flatMap (·.updates) ++ s.updates
        = .replicate 2 (sentUpdate plainSend (hostUpdate 128 (by decide)) none)
      ∧ ∀ f ∈ s.flushed, ∀ v4Prefix v6Prefix, ∃ st,
          parsePacket nearPeer f.packet (.start v4Prefix v6Prefix) = .ok ((), st)
          ∧ st.updates = f.updates.map (·.seenBy nearPeer) :=
  ⟨⟨rfl, rfl, rfl⟩, updates_received nearPeer ⟨rfl, rfl, rfl⟩ 1436 (by decide) (by decide) _
    (by simp [BabelSendOp.HostBitsZero, HostBitsZero, hostUpdate, maskPrefix])⟩

/-- The TLVs for 2001:db8::1/64 and then 2001:db8::1/128. All bytes of the second prefix are
omitted, since the sender remembers them from the first. -/
def hostTlvs : List UInt8 :=
  tlv 6 (be16 0 ++ [1, 2, 3, 4, 5, 6, 7, 8])
    ++ tlv 8 (updateBody 2 0x80 64 0 400 1 256 [0x20, 0x01, 0x0d, 0xb8, 0, 0, 0, 0] none)
    ++ tlv 8 (updateBody 2 0x80 128 16 400 1 256 [] none)

theorem hostTlvs_sent :
    runSends [.update plainSend (hostUpdate 64 (by decide)),
      .update plainSend (hostUpdate 128 (by decide)), .flush true] (.start 1436)
    = .ok ((), { BabelSender.start 1436 with
        flushed := [⟨packetHeader 44 ++ hostTlvs,
          [sentUpdate plainSend (hostUpdate 64 (by decide)) none,
            sentUpdate plainSend (hostUpdate 128 (by decide)) none], true⟩] }) := by
  decide +kernel

/-- The receiver after the first update. -/
def hostParser : BabelParser :=
  { BabelParser.start [] [] with
    routerId := some [1, 2, 3, 4, 5, 6, 7, 8]
    haveV6Prefix := true
    v6Prefix := [0x20, 0x01, 0x0d, 0xb8, 0, 0, 0, 0, 0, 0, 0, 0, 0, 0, 0, 0]
    calls := [.updateRoute (acceptedUpdate nearPeer [1, 2, 3, 4, 5, 6, 7, 8]
      [0x20, 0x01, 0x0d, 0xb8, 0, 0, 0, 0, 0, 0, 0, 0, 0, 0, 0, 0] (replicate 16 1) 64
      400 1 256 none)] }

theorem hostTlvs_read :
    Hears nearPeer hostTlvs (.start [] []) { hostParser with
        calls := hostParser.calls ++ [.updateRoute (acceptedUpdate nearPeer
          [1, 2, 3, 4, 5, 6, 7, 8] [0x20, 0x01, 0x0d, 0xb8, 0, 0, 0, 0, 0, 0, 0, 0, 0, 0, 0, 0]
          (replicate 16 1) 128 400 1 256 none)] } := by
  have hfst : Hears nearPeer (tlv 6 (be16 0 ++ [1, 2, 3, 4, 5, 6, 7, 8])) (.start [] [])
      { BabelParser.start [] [] with routerId := some [1, 2, 3, 4, 5, 6, 7, 8] } :=
    reads_routerId rfl
  have hsnd : Hears nearPeer
      (tlv 8 (updateBody 2 0x80 64 0 400 1 256 [0x20, 0x01, 0x0d, 0xb8, 0, 0, 0, 0] none))
      { BabelParser.start [] [] with routerId := some [1, 2, 3, 4, 5, 6, 7, 8] } hostParser :=
    reads_update (by decide) (Or.inl rfl) (by decide) rfl (by simp) rfl rfl
  have hthird : Hears nearPeer (tlv 8 (updateBody 2 0x80 128 16 400 1 256 [] none)) hostParser
      { hostParser with
        calls := hostParser.calls ++ [.updateRoute (acceptedUpdate nearPeer
          [1, 2, 3, 4, 5, 6, 7, 8] [0x20, 0x01, 0x0d, 0xb8, 0, 0, 0, 0, 0, 0, 0, 0, 0, 0, 0, 0]
          (replicate 16 1) 128 400 1 256 none)] } :=
    reads_update (by decide) (.inr ⟨by decide, rfl⟩) (by decide) rfl (by simp) rfl rfl
  exact (hfst.append hsnd).append hthird

/-- The receiver has masked the first prefix, and takes the second one for 2001:db8::/128. -/
theorem host_bits_confuse :
    ∃ s st, runSends [.update plainSend (hostUpdate 64 (by decide)),
        .update plainSend (hostUpdate 128 (by decide)), .flush true] (.start 1436) = .ok ((), s)
      ∧ s.flushed = [⟨packetHeader 44 ++ hostTlvs,
        [sentUpdate plainSend (hostUpdate 64 (by decide)) none,
          sentUpdate plainSend (hostUpdate 128 (by decide)) none], true⟩]
      ∧ parsePacket nearPeer (packetHeader 44 ++ hostTlvs) (.start [] []) = .ok ((), st)
      ∧ (hostUpdate 128 (by decide)).pfx
        = [0x20, 0x01, 0x0d, 0xb8, 0, 0, 0, 0, 0, 0, 0, 0, 0, 0, 0, 1]
      ∧ st.updates.map (fun u => (u.pfx, u.plen))
        = [([0x20, 0x01, 0x0d, 0xb8, 0, 0, 0, 0, 0, 0, 0, 0, 0, 0, 0, 0], 64),
          ([0x20, 0x01, 0x0d, 0xb8, 0, 0, 0, 0, 0, 0, 0, 0, 0, 0, 0, 0], 128)] := by
  have hparsed := hostTlvs_read.all
  exact ⟨_, _, hostTlvs_sent, rfl, hparsed, rfl, rfl⟩

end SdnQuagga
