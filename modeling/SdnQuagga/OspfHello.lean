import SdnQuagga.OspfAuth

/-!
# Hello packets

`ospf_make_hello` and `ospf_hello_send_sub` of `ospfd/ospf_packet.c`. The packet has the size
of the MTU, and takes every neighbor without asking whether there is room for it. With few
neighbors it is a packet like the others. With too many the stream fails its assertion, and
in between there is no room for the digest.
-/

namespace SdnQuagga

open FaultM List
open SdnQuagga.Stream (putc putw putl putIpv4 putlAt emits_putIpv4 append_writeable emits_putc
  writeable emits_putw emits_putl append_endp)

/-! ## The code -/

def ospfMsgHello : UInt8 := 1

/-- What a Hello tells about the interface; `options`, `priority` and the designated routers
are those of `nbr_self`. -/
structure HelloConf where
  prefixlen : Fin 33
  vHello : UInt32
  fastHello : UInt8
  vWait : UInt32
  options : UInt8
  priority : UInt8
  dr : UInt32
  bdr : UInt32

def masklen2ip (masklen : Fin 33) : UInt32 := .ofNat (0xffffffff <<< (32 - masklen.val))

variable (oi : OspfIf)

/-- The neighbors that a Hello lists. -/
def OspfNbr.seen (nbr : OspfNbr) : Prop :=
  nbr.routerId ≠ 0 ∧ nbr.state ≠ .attempt ∧ nbr.state ≠ .down ∧ nbr.routerId ≠ oi.routerId

instance (oi : OspfIf) (nbr : OspfNbr) : Decidable (nbr.seen oi) :=
  inferInstanceAs (Decidable (_ ∧ _ ∧ _ ∧ _))

/-- The loop of `ospf_make_hello` over the neighbors. -/
def makeHelloLoop (oi : OspfIf) : List OspfNbr → UInt16 → Bool → StreamM (UInt16 × Bool)
  | [], length, flag => return (length, flag)
  | nbr :: nbrs, length, flag =>
    if nbr.seen oi then do
      putIpv4 nbr.routerId
      makeHelloLoop oi nbrs (length + 4)
        (flag || (nbr.dRouter ≠ 0 ∧ nbr.dRouter = oi.address ∧ nbr.bdRouter = oi.address))
    else makeHelloLoop oi nbrs length flag

variable (conf : HelloConf) (nbrs : List OspfNbr)

def ospfMakeHello : StreamM UInt16 := do
  putIpv4 (if oi.type ≠ .pointopoint ∧ oi.type ≠ .virtuallink then masklen2ip conf.prefixlen
    else 0)
  putw (if conf.fastHello = 0 then .ofNat conf.vHello.toNat else 0)
  putc conf.options
  putc conf.priority
  putl conf.vWait
  putIpv4 conf.dr
  let p := (← get).endp
  putIpv4 conf.bdr
  let r ← makeHelloLoop oi nbrs 20 false
  when (r.2 = true) (putlAt p 0)
  return r.1

def ospfPacketAddTop (op : OspfPacket) : OspfIfM Unit :=
  modify fun st => { st with obuf := op :: st.obuf }

def ospfHelloSendSub (addr : UInt32) :
    OspfIfM Unit := do
  let new ← on (ospfMakeHeader ospfMsgHello oi) (Stream.new oi.mtu.toNat)
  let made ← on (ospfMakeHello oi conf nbrs) new.2
  let length := .ofNat ospfHeaderSize + made.1
  let filled ← on (ospfFillHeader oi length) made.2
  ospfPacketAddTop ⟨filled.2, addr, length⟩

/-! ## What a Hello takes -/

def seenCount : Nat := (nbrs.filter (·.seen oi)).length

variable {oi : OspfIf} {conf : HelloConf}

theorem seenCount_cons (nbr : OspfNbr) (nbrs : List OspfNbr) :
    seenCount oi (nbr :: nbrs) = (if nbr.seen oi then 1 else 0) + seenCount oi nbrs := by
  unfold seenCount
  by_cases h : nbr.seen oi
  · simp [h, Nat.add_comm]
  · simp [h]

theorem makeHelloLoop_emits (nbrs : List OspfNbr) (length : UInt16) (flag : Bool) :
    ∃ ids flag', ids.length = 4 * seenCount oi nbrs
      ∧ Stream.Emits (makeHelloLoop oi nbrs length flag) ids
        (length + .ofNat (4 * seenCount oi nbrs), flag') := by
  induction nbrs generalizing length flag with
  | nil =>
    refine ⟨[], flag, rfl, ?_⟩
    have hz : length + .ofNat (4 * seenCount oi []) = length := UInt16.add_zero length
    rw [hz]
    exact Stream.Emits.pure (length, flag)
  | cons nbr nbrs ih =>
    rw [seenCount_cons]
    unfold makeHelloLoop
    split_ifs with h
    · obtain ⟨ids, flag', hlen, hem⟩ := ih (length + 4)
        (flag || (nbr.dRouter ≠ 0 ∧ nbr.dRouter = oi.address ∧ nbr.bdRouter = oi.address))
      have hsu : length + .ofNat (4 * (1 + seenCount oi nbrs))
          = length + 4 + .ofNat (4 * seenCount oi nbrs) := by
        rw [Nat.mul_add, UInt16.ofNat_add, UInt16.add_assoc]
        rfl
      refine ⟨be32 nbr.routerId ++ ids, flag', ?_, ?_⟩
      · rw [length_append, be32_length, hlen, Nat.mul_add]
      · rw [hsu]
        exact (emits_putIpv4 _).seq hem
    · rw [Nat.zero_add]
      exact ih length flag

theorem makeHelloLoop_fault (nbrs : List OspfNbr) (length : UInt16) (flag : Bool) {s : Stream}
    (h : s.writeable < 4 * seenCount oi nbrs) :
    makeHelloLoop oi nbrs length flag s = .error .assertion := by
  induction nbrs generalizing length flag s with
  | nil => exact absurd h (Nat.not_lt_zero _)
  | cons nbr nbrs ih =>
    rw [seenCount_cons] at h
    unfold makeHelloLoop
    split_ifs at h ⊢ with hse
    · by_cases hrm : s.writeable < 4
      · exact bind_error (if_pos hrm)
      · have hput := emits_putIpv4 nbr.routerId s (Nat.not_lt.mp hrm)
        rw [bind_ok hput]
        refine ih _ _ ?_
        rw [append_writeable (Nat.not_lt.mp hrm), be32_length]
        omega
    · exact ih _ _ (by omega)

/-- The backup and the neighbors; the backup may be cleared afterwards. -/
theorem makeHello_tail (nbrs : List OspfNbr) (bdr : UInt32) :
    ∃ tail, tail.length = 4 + 4 * seenCount oi nbrs ∧ Stream.Emits (do
        let p := (← get).endp
        putIpv4 bdr
        let r ← makeHelloLoop oi nbrs 20 false
        when (r.2 = true) (putlAt p 0)
        return r.1) tail (20 + .ofNat (4 * seenCount oi nbrs)) := by
  obtain ⟨ids, flag, hlen, hem⟩ := @makeHelloLoop_emits oi nbrs 20 false
  refine ⟨be32 (if flag = true then 0 else bdr) ++ ids, ?_, ?_⟩
  · rw [length_append, be32_length, hlen]
  · intro s hs
    rw [length_append, be32_length] at hs
    have hrm : (be32 bdr).length ≤ s.writeable := by rw [be32_length]; omega
    have hlp := hem (s.append (be32 bdr)) (by
      rw [append_writeable hrm, be32_length]
      omega)
    rw [get_bind, bind_ok (emits_putIpv4 bdr s hrm), bind_ok hlp, Stream.append_append]
    cases flag with
    | false => rfl
    | true =>
      have hvld : s.endp + (be32 0).length ≤ (s.append (be32 bdr ++ ids)).endp := by
        rw [append_endp, length_append, be32_length, be32_length]
        omega
      have hclr : putlAt s.endp 0 (s.append (be32 bdr ++ ids))
          = .ok ((), s.append (be32 0 ++ ids)) := by
        rw [← Stream.overwrite_append (by rw [be32_length, be32_length]) hvld]
        exact dif_pos hvld
      dsimp only
      rw [when, if_pos rfl, bind_ok hclr]
      rfl

theorem makeHello_emits (nbrs : List OspfNbr) :
    ∃ body, body.length = 20 + 4 * seenCount oi nbrs
      ∧ Stream.Emits (ospfMakeHello oi conf nbrs) body (20 + .ofNat (4 * seenCount oi nbrs)) := by
  obtain ⟨tail, hlen, htl⟩ := @makeHello_tail oi nbrs conf.bdr
  refine ⟨_, ?_, (emits_putIpv4 _).seq <| (emits_putw _).seq <|
    (emits_putc _).seq <| (emits_putc _).seq <| (emits_putl _).seq <|
    (emits_putIpv4 _).seq htl⟩
  simp only [length_append, be32_length, be16_length, length_singleton, hlen]
  omega

/-- With a room of `k` bytes or more, but less than `j`, the encoder fails. -/
def FaultsBetween {β : Type} (n : StreamM β) (k j : Nat) : Prop :=
  ∀ s : Stream, k ≤ s.writeable → s.writeable < j → n s = .error .assertion

theorem FaultsBetween.after {β : Type} {m : StreamM Unit} {n : StreamM β} {as : List UInt8}
    {k j : Nat} (hn : FaultsBetween n k j) (hm : Stream.Emits m as ()) :
    FaultsBetween (do m; n) (as.length + k) (as.length + j) := by
  intro s hk hj
  rw [bind_ok (hm s (by omega))]
  refine hn _ ?_ ?_
  · rw [append_writeable (by omega)]
    omega
  · rw [append_writeable (by omega)]
    omega

/-- The room is not checked before the neighbors are put. -/
theorem makeHello_fault (nbrs : List OspfNbr) :
    FaultsBetween (ospfMakeHello oi conf nbrs) 20 (20 + 4 * seenCount oi nbrs) := by
  have htl : FaultsBetween (do
      let p := (← get).endp
      putIpv4 conf.bdr
      let r ← makeHelloLoop oi nbrs 20 false
      when (r.2 = true) (putlAt p 0)
      return r.1) 4 (4 + 4 * seenCount oi nbrs) := by
    intro s hk hj
    have hrm : (be32 conf.bdr).length ≤ s.writeable := hk
    rw [get_bind, bind_ok (emits_putIpv4 conf.bdr s hrm)]
    refine bind_error (makeHelloLoop_fault nbrs 20 false ?_)
    rw [append_writeable hrm, be32_length]
    omega
  have hal := (((((htl.after (emits_putIpv4 conf.dr)).after
    (emits_putl conf.vWait)).after (emits_putc conf.priority)).after
    (emits_putc conf.options)).after (emits_putw
      (if conf.fastHello = 0 then .ofNat conf.vHello.toNat else 0))).after (emits_putIpv4
      (if oi.type ≠ .pointopoint ∧ oi.type ≠ .virtuallink then masklen2ip conf.prefixlen else 0))
  simp only [be32_length, be16_length, length_singleton] at hal
  intro s hk hj
  exact hal s hk (by omega)

/-- A Hello with its neighbors fits into a packet, with the authentication. -/
def HelloFits (oi : OspfIf) (nbrs : List OspfNbr) : Prop :=
  44 + 4 * seenCount oi nbrs + ospfPacketAuthspace oi ≤ min oi.mtu.toNat ospfMaxPacketSize

theorem helloSend_built {nbrs : List OspfNbr} (hft : HelloFits oi nbrs) (addr : UInt32)
    (st : OspfIfState) :
    ∃ op body, ospfHelloSendSub oi conf nbrs addr st = .ok ((), { st with obuf := op :: st.obuf })
      ∧ Built oi ospfMsgHello body op
      ∧ ∀ behind, (bodyExamin behind ospfMsgHello body).ok = true := by
  have hmt := Nat.le_trans hft (Nat.min_le_left _ _)
  have hmx := Nat.le_trans hft (Nat.min_le_right _ _)
  unfold ospfMaxPacketSize at hmx
  obtain ⟨body, hlen, hem⟩ := @makeHello_emits oi conf nbrs
  obtain ⟨s, hh, hsize, he, hopn⟩ :=
    @makeHeader_opened oi ospfMsgHello oi.mtu.toNat (by omega)
  have hwrt : body.length ≤ s.writeable := by
    rw [writeable, hsize, he]
    omega
  have hbd : (s.append body).written = (openedHeader oi ospfMsgHello).onto body := by
    rw [Stream.append_written, hopn, onto_append, nil_append]
  have hln : (20 + UInt16.ofNat (4 * seenCount oi nbrs)).toNat = body.length := by
    rw [UInt16.toNat_add, UInt16.toNat_ofNat_of_lt' (show _ < 65536 by omega), hlen]
    exact Nat.mod_eq_of_lt (show 20 + 4 * seenCount oi nbrs < 65536 by omega)
  obtain ⟨s', hfl, hblt⟩ := fill_built hbd hln
    (by rw [Stream.append_size hwrt, append_endp, hsize, he]; omega)
    (by unfold ospfMaxPacketSize; omega)
  refine ⟨_, body, ?_, hblt addr, fun behind => ?_⟩
  · rw [ospfHelloSendSub, on_bind_ok hh, on_bind_ok (hem s hwrt)]
    dsimp only
    rw [on_bind_ok hfl]
    rfl
  · have hmi : ¬ body.length < ospfPacketMinlen ospfMsgHello := by
      show ¬ body.length < 20
      omega
    unfold bodyExamin
    rw [if_neg hmi]
    show decide ((body.length - 20) % 4 = 0) = true
    exact decide_eq_true (by omega)

/-- With more neighbors than the MTU has room for, nothing is sent, and the program ends. -/
theorem helloSend_fault {nbrs : List OspfNbr} (hmt : 44 ≤ oi.mtu.toNat)
    (hmy : oi.mtu.toNat < 44 + 4 * seenCount oi nbrs) (addr : UInt32) (st : OspfIfState) :
    ospfHelloSendSub oi conf nbrs addr st = .error .assertion := by
  obtain ⟨s, hh, hsize, he, hopn⟩ :=
    @makeHeader_opened oi ospfMsgHello oi.mtu.toNat (by omega)
  have hrm : s.writeable = oi.mtu.toNat - 24 := by rw [writeable, hsize, he]
  have hfau := @makeHello_fault oi conf nbrs s (by omega) (by omega)
  rw [ospfHelloSendSub, on_bind_ok hh]
  exact bind_error (by rw [on, hfau])

end SdnQuagga
