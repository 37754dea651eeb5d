import SdnQuagga.BabelMetric
import SdnQuagga.BabelPacket

/-!
# Sending Babel updates

`really_send_update` and `send_wildcard_retraction` of `babeld/message.c`, with the buffer of an
interface that they write to. An update is written against what is remembered of the ones before
it, and `flushbuf` forgets all of it.

The updates that `flushbuf` sends first are calls of `really_send_update` that come before the
flush. They are never in the middle of another call's TLVs, since it asks for all its space at
once (`20 + 12 + 28`) and the buffer has at least 64 bytes.
-/

namespace SdnQuagga

open FaultM

/-! ## Updates -/

/-- The arguments of `really_send_update`. -/
structure BabelAdvert where
  id : List UInt8
  pfx : List UInt8
  plen : Nat
  seqno : UInt16
  metric : UInt16
  /-- none for a negative `channels_len` -/
  channels : Option (List UInt8)
  id_length : id.length = 8
  pfx_length : pfx.length = 16
  plen_le : plen ≤ 128
  channels_length : ∀ c ∈ channels, c.length ≤ diversityHops
  /-- `channels_len` counts up to the first 0 -/
  channels_nonzero : ∀ c ∈ channels, 0 ∉ c

/-- What a call reads of the interface and of the configuration. -/
structure BabelSendEnv where
  up : Bool
  /-- the answer of `output_filter` -/
  addMetric : Nat
  /-- `diversity_kind` is `DIVERSITY_CHANNEL` -/
  diversity : Bool
  ipv4 : Option (List UInt8)
  updateInterval : Nat
  /-- the answer of `check_bucket` -/
  bucket : Bool
  ipv4_length : ∀ a ∈ ipv4, a.length = 4

/-- An update as it is meant to arrive. -/
structure SentUpdate where
  id : List UInt8
  pfx : List UInt8
  plen : Nat
  seqno : UInt16
  metric : UInt16
  interval : UInt16
  /-- the IPv4 address of the interface, for an IPv4 prefix -/
  nexthop : Option (List UInt8)
  channels : Option (List UInt8)
deriving DecidableEq, Repr

/-- A packet, with the updates in it, that is sent unless the bucket is empty. -/
structure BabelFlush where
  packet : List UInt8
  updates : List SentUpdate
  sent : Bool
deriving DecidableEq, Repr

/-- The buffer of an interface. A `have_buffered` flag and its value are an option. The updates
in the buffer are only there to be compared with what is received. -/
structure BabelSender where
  bufsize : Nat
  sendbuf : List UInt8
  bufferedId : Option (List UInt8)
  bufferedNh : Option (List UInt8)
  bufferedPrefix : Option (List UInt8)
  updates : List SentUpdate
  flushed : List BabelFlush
deriving DecidableEq, Repr

abbrev BabelSendM := FaultM BabelSender

/-! ## The buffer -/

/-- `packet_header`, with the length of the body. -/
def packetHeader (buffered : Nat) : List UInt8 := [42, 2] ++ be16 (.ofNat buffered)

/-- What `flushbuf` leaves. -/
def BabelSender.emptied (s : BabelSender) (bucket : Bool) : BabelSender :=
  { s with
    sendbuf := []
    bufferedId := none
    bufferedNh := none
    bufferedPrefix := none
    updates := []
    flushed :=
      if s.sendbuf = [] then s.flushed
      else s.flushed ++ [⟨packetHeader s.sendbuf.length ++ s.sendbuf, s.updates, bucket⟩] }

variable (bucket : Bool)

def flushbuf : BabelSendM Unit := do
  let s ← get
  check (s.sendbuf.length ≤ s.bufsize)
  modify fun s => s.emptied bucket

def ensureSpace (space : Nat) : BabelSendM Unit := do
  let s ← get
  when (s.bufsize - s.sendbuf.length < space) (flushbuf bucket)

def accumulateBytes (bytes : List UInt8) : BabelSendM Unit := do
  let s ← get
  if s.sendbuf.length + bytes.length ≤ s.bufsize then
    modify fun s => { s with sendbuf := s.sendbuf ++ bytes }
  else throw .outOfBounds

def accumulateByte (value : UInt8) : BabelSendM Unit := accumulateBytes [value]

def accumulateShort (value : UInt16) : BabelSendM Unit := accumulateBytes (be16 value)

variable (type : UInt8)

def startMessage (len : Nat) : BabelSendM Unit := do
  ensureSpace bucket (len + 2)
  accumulateByte type
  accumulateByte (.ofNat len)

def endMessage (bytes : Nat) : BabelSendM Unit := do
  let s ← get
  let buffered := s.sendbuf.length
  check (buffered ≥ bytes + 2 ∧ s.sendbuf[buffered - bytes - 2]? = some type
    ∧ (s.sendbuf[buffered - bytes - 1]?).map UInt8.toNat = some bytes)

/-- What stands between `start_message` and `end_message` is the body of a TLV. -/
def sendMessage (len : Nat) (body : BabelSendM Unit) :
    BabelSendM Unit := do
  startMessage bucket type len
  body
  endMessage type len

/-! ## Updates -/

section

variable (env : BabelSendEnv) (adv : BabelAdvert)

def sentChannels : Option (List UInt8) := if env.diversity = true then adv.channels else none

def sentMetric : UInt16 := .ofNat (min (adv.metric.toNat + env.addMetric) babelInfinity)

def sentInterval : UInt16 := .ofNat ((env.updateInterval + 5) / 10)

/-- The `NH` TLV, unless the buffer has it already. -/
def announceNexthop (ipv4 : List UInt8) : BabelSendM Unit := do
  let s ← get
  when (s.bufferedNh ≠ some ipv4) do
    sendMessage env.bucket 7 6 do
      accumulateByte 1
      accumulateByte 0
      accumulateBytes ipv4
    modify fun s => { s with bufferedNh := some ipv4 }

/-- The router id, unless the buffer has it already: a TLV, or a flag of the update. -/
def announceId (realPrefix : List UInt8) (realPlen : Nat) : BabelSendM UInt8 := do
  let s ← get
  if s.bufferedId = some adv.id then return 0
  else
    let flag ←
      if realPlen = 128 ∧ (realPrefix.drop 8).take 8 = adv.id then pure 0x40
      else do
        sendMessage env.bucket 6 10 do
          accumulateShort 0
          accumulateBytes adv.id
        pure 0
    modify fun s => { s with bufferedId := some adv.id }
    return flag

/-- The channels of an update, as an attribute. An empty list is not the same as none. -/
def accumulateChannels : Option (List UInt8) → BabelSendM Unit
  | none => pure ()
  | some channels => do
    accumulateByte 2
    accumulateByte (.ofNat channels.length)
    accumulateBytes channels

def channelsSize : Option (List UInt8) → Nat
  | none => 0
  | some channels => channels.length + 2

/-- The `Update` TLV. -/
def accumulateUpdate (ae flags : UInt8) (realPrefix : List UInt8) (realPlen omitted : Nat) :
    BabelSendM Unit :=
  let bytes := (realPlen + 7) / 8 - omitted
  let channels := sentChannels env adv
  sendMessage env.bucket 8 (10 + bytes + channelsSize channels) do
    accumulateByte ae
    accumulateByte flags
    accumulateByte (.ofNat realPlen)
    accumulateByte (.ofNat omitted)
    accumulateShort (sentInterval env)
    accumulateShort adv.seqno
    accumulateShort (sentMetric env adv)
    accumulateBytes ((realPrefix.drop omitted).take bytes)
    accumulateChannels channels

/-- How many of the first `n` bytes are the same, up to the first that is not. -/
def omittedBytes : Nat → List UInt8 → List UInt8 → Nat
  | n + 1, a :: as, b :: bs => if a = b then omittedBytes n as bs + 1 else 0
  | _, _, _ => 0

variable (nexthop : Option (List UInt8))

def sentUpdate : SentUpdate :=
  ⟨adv.id, adv.pfx, adv.plen, adv.seqno, sentMetric env adv, sentInterval env, nexthop,
    sentChannels env adv⟩

/-- Nothing of the source: the update is in the buffer. -/
def noteUpdate : BabelSendM Unit :=
  modify fun s => { s with updates := s.updates ++ [sentUpdate env adv nexthop] }

/-- The prefix is one of IPv4. -/
def BabelAdvert.V4 : Prop := 96 ≤ adv.plen ∧ v4mapped adv.pfx

instance : Decidable adv.V4 := inferInstanceAs (Decidable (_ ∧ _))

def reallySendUpdate : BabelSendM Unit :=
  when (env.up = true ∧ env.addMetric < babelInfinity) do
    ensureSpace env.bucket (20 + 12 + 28)
    if adv.V4 then
      match env.ipv4 with
      | none => return
      | some ipv4 =>
        announceNexthop env ipv4
        let idFlag ← announceId env adv (adv.pfx.drop 12) (adv.plen - 96)
        accumulateUpdate env adv 1 idFlag (adv.pfx.drop 12) (adv.plen - 96) 0
        noteUpdate env adv (some ipv4)
    else
      let s ← get
      let omitted := match s.bufferedPrefix with
        | none => 0
        | some buffered => omittedBytes (adv.plen / 8) buffered adv.pfx
      let pfxFlag : UInt8 := if s.bufferedPrefix = none ∨ 48 ≤ adv.plen then 0x80 else 0
      let idFlag ← announceId env adv adv.pfx adv.plen
      accumulateUpdate env adv 2 (pfxFlag ||| idFlag) adv.pfx adv.plen omitted
      noteUpdate env adv none
      when (pfxFlag ≠ 0) (modify fun s => { s with bufferedPrefix := some adv.pfx })

end

def sendWildcardRetraction (up bucket : Bool) (myseqno : UInt16) : BabelSendM Unit :=
  when (up = true) do
    sendMessage bucket 8 10 do
      accumulateByte 0
      accumulateByte 0x40
      accumulateByte 0
      accumulateByte 0
      accumulateShort 0xffff
      accumulateShort myseqno
      accumulateShort 0xffff
    modify fun s => { s with bufferedId := none }

/-! ## Runs -/

/-- What happens to the buffer of an interface. -/
inductive BabelSendOp where
  | update (env : BabelSendEnv) (adv : BabelAdvert)
  | retraction (up bucket : Bool) (myseqno : UInt16)
  | flush (bucket : Bool)

def BabelSendOp.run : BabelSendOp → BabelSendM Unit
  | .update env adv => reallySendUpdate env adv
  | .retraction up bucket myseqno => sendWildcardRetraction up bucket myseqno
  | .flush bucket => flushbuf bucket

def BabelSender.start (bufsize : Nat) : BabelSender := ⟨bufsize, [], none, none, none, [], []⟩

/-- The update that is put in the buffer. -/
def BabelSendOp.sent : BabelSendOp → Option SentUpdate
  | .update env adv =>
    if env.up = true ∧ env.addMetric < babelInfinity then
      if adv.V4 then env.ipv4.map fun ipv4 => sentUpdate env adv (some ipv4)
      else some (sentUpdate env adv none)
    else none
  | _ => none

def runSends (ops : List BabelSendOp) : BabelSendM Unit := ops.forM BabelSendOp.run

end SdnQuagga
