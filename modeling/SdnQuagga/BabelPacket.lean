import SdnQuagga.BigEndian
import SdnQuagga.FaultM

/-!
# Reading Babel packets

`parse_packet` of `babeld/message.c`, with `network_prefix`, `network_address` and
`parse_route_attributes`. A packet is the list of the bytes that were received, and every read
at or beyond its end is a fault. What the rest of the daemon is told is recorded as a list of
calls.

A message is the list of the bytes from its first one to the end of the packet, so that
`message[i]` is a read at `i`.
-/

namespace SdnQuagga

open FaultM

/-! ## Bytes -/

section

variable {σ : Type} (p : List UInt8)

def readByte (i : Nat) : FaultM σ UInt8 :=
  match p[i]? with
  | some b => pure b
  | none => throw .outOfBounds

/-- `DO_NTOHS`. -/
def readShort (i : Nat) : FaultM σ UInt16 := do
  let hi ← readByte p i
  let lo ← readByte p (i + 1)
  return .ofNat (hi.toNat * 256 + lo.toNat)

/-- `memcpy` from a packet. -/
def readBytes (i n : Nat) : FaultM σ (List UInt8) :=
  if n = 0 ∨ i + n ≤ p.length then pure ((p.drop i).take n) else throw .outOfBounds

end

/-- The first 12 bytes of a mapped IPv4 address. -/
def v4pfx : List UInt8 := [0, 0, 0, 0, 0, 0, 0, 0, 0, 0, 0xff, 0xff]

def v4mapped (address : List UInt8) : Prop := address.take 12 = v4pfx

instance (address : List UInt8) : Decidable (v4mapped address) :=
  inferInstanceAs (Decidable (_ = _))

def maskPrefix (p : List UInt8) (plen : Nat) : List UInt8 :=
  if 128 ≤ plen then p
  else if plen % 8 = 0 then p.take (plen / 8) ++ List.replicate (16 - plen / 8) 0
  else
    p.take (plen / 8) ++ [p.getD (plen / 8) 0 &&& .ofNat (0xff <<< (8 - plen % 8))]
      ++ List.replicate (15 - plen / 8) 0

/-- A buffer of 16 bytes with some bytes at its start. -/
def padded (bytes : List UInt8) : List UInt8 := bytes ++ List.replicate (16 - bytes.length) 0

/-! ## The state of the parser -/

/-- What the parser reads of the interface and of the neighbor. -/
structure BabelPeer where
  /-- the sender has a link-local address -/
  linklocal : Bool
  /-- `find_neighbour` gives one -/
  known : Bool
  address : List UInt8
  isLlAddress : List UInt8 → Bool
  ipv4 : Bool
  /-- `BABEL_IF_FARAWAY` -/
  faraway : Bool

/-- The arguments of `update_route`. -/
structure BabelUpdateCall where
  routerId : List UInt8
  pfx : List UInt8
  plen : UInt8
  seqno : UInt16
  metric : UInt16
  interval : UInt16
  nexthop : List UInt8
  channels : List UInt8
deriving DecidableEq, Repr

/-- What the rest of the daemon is told. -/
inductive BabelCall where
  | sendAck (nonce interval : UInt16)
  | hello (seqno interval : UInt16)
  | ihu (txcost interval : UInt16)
  | retractNeighbourRoutes
  | updateRoute (call : BabelUpdateCall)
  | requestAny
  | request (pfx : List UInt8) (plen : UInt8)
  | handleRequest (pfx : List UInt8) (plen hopCount : UInt8) (seqno : UInt16)
      (routerId : List UInt8)
deriving DecidableEq, Repr

/-- The local variables of `parse_packet`. The prefixes have a value before the first one is
read. -/
structure BabelParser where
  routerId : Option (List UInt8)
  haveV4Prefix : Bool
  haveV6Prefix : Bool
  v4Prefix : List UInt8
  v6Prefix : List UInt8
  v4Nh : Option (List UInt8)
  v6Nh : Option (List UInt8)
  calls : List BabelCall
deriving DecidableEq, Repr

abbrev BabelM := FaultM BabelParser

def call (c : BabelCall) : BabelM Unit := modify fun st => { st with calls := st.calls ++ [c] }

def forgetPrefixes : BabelM Unit :=
  modify fun st => { st with haveV4Prefix := false, haveV6Prefix := false }

def forgetNexthops : BabelM Unit := modify fun st => { st with v4Nh := none, v6Nh := none }

/-! ## Prefixes and attributes -/

variable (ae : UInt8) (plen : Option UInt8)

/-- How many bytes a prefix has; `plen` is none for an address. -/
def prefixBytes : Nat :=
  match plen with
  | some plen => (plen.toNat + 7) / 8
  | none => if ae = 1 then 4 else 16

def maskLength : Nat :=
  match plen with
  | some plen => if ae = 1 then plen.toNat + 96 else plen.toNat
  | none => 128

/-- `network_prefix`, of which the answer is none if it is negative. The bytes are at `i`, and
`dp` is the prefix that the omitted ones are taken from. -/
def networkPrefix {σ : Type} (omitted : Nat) (p : List UInt8)
    (i : Nat) (dp : Option (List UInt8)) (len : Nat) :
    FaultM σ (Option (Nat × List UInt8)) := do
  let pb := prefixBytes ae plen
  let masked (bytes : List UInt8) := maskPrefix (padded bytes) (maskLength ae plen)
  if pb > 16 then return none
  else if ae = 0 then return some (0, masked [])
  else if ae = 1 then
    if omitted > 4 ∨ pb > 4 ∨ (pb > omitted ∧ len < pb - omitted) then return none
    else if omitted ≠ 0 ∧ dp.all (fun dp => decide (¬ v4mapped dp)) then return none
    else
      let bytes ← readBytes p i (pb - omitted)
      if pb < omitted then return none
      else return some (pb - omitted,
        masked ((if omitted = 0 then v4pfx else (dp.getD []).take (12 + omitted)) ++ bytes))
  else if ae = 2 then
    if omitted > 16 ∨ (pb > omitted ∧ len < pb - omitted) then return none
    else if omitted ≠ 0 ∧ dp.all (fun dp => decide (v4mapped dp)) then return none
    else
      let bytes ← readBytes p i (pb - omitted)
      if pb < omitted then return none
      else return some (pb - omitted, masked ((dp.getD []).take omitted ++ bytes))
  else if ae = 3 then
    if pb > 8 ∧ len < pb - 8 then return none
    else
      let bytes ← readBytes p i (pb - 8)
      if pb < 8 then return none
      else return some (pb - 8, masked ([0xfe, 0x80, 0, 0, 0, 0, 0, 0] ++ bytes))
  else return none

def networkAddress {σ : Type} (p : List UInt8) (i len : Nat) :
    FaultM σ (Option (Nat × List UInt8)) :=
  networkPrefix ae none 0 p i none len

def diversityHops : Nat := 8

/-- The bytes up to the first 0, which `memchr` reads; none if there is one among the `n`. -/
def readNonzero {σ : Type} (p : List UInt8) : Nat → FaultM σ (Option (List UInt8))
  | 0 => return some []
  | n + 1 => do
    let b ← readByte p 0
    if b = 0 then return none
    else
      let bs ← readNonzero (p.drop 1) n
      return bs.map (b :: ·)

/-- `parse_route_attributes`, with `alen` bytes left. A list of channels that is too long is
cut, and then what follows is read from its middle. -/
def parseRouteAttributes {σ : Type} (a : List UInt8) (alen : Nat) (channels : List UInt8) :
    FaultM σ (List UInt8) :=
  if alen = 0 then pure channels
  else do
    let type ← readByte a 0
    if type = 0 then parseRouteAttributes (a.drop 1) (alen - 1) channels
    else
      let len ← readByte a 1
      if alen < len.toNat then return channels
      else if type = 2 then
        let len := min len.toNat diversityHops
        match ← readNonzero (a.drop 2) len with
        | none => return channels
        | some chans => parseRouteAttributes (a.drop (len + 2)) (alen - (len + 2)) chans
      else parseRouteAttributes (a.drop (len.toNat + 2)) (alen - (len.toNat + 2)) channels
termination_by alen

/-! ## Messages -/

section

variable (peer : BabelPeer) (message : List UInt8) (len : Nat)

def parseAckReq : BabelM Unit :=
  when (¬ len < 6) do
    let nonce ← readShort message 4
    let interval ← readShort message 6
    call (.sendAck nonce interval)

def parseHello : BabelM Unit :=
  when (¬ len < 6) do
    let seqno ← readShort message 4
    let interval ← readShort message 6
    call (.hello seqno interval)

def parseIhu : BabelM Unit :=
  when (¬ len < 6) do
    let txcost ← readShort message 4
    let interval ← readShort message 6
    let ae ← readByte message 2
    match ← networkAddress ae message 8 (len - 6) with
    | none => return
    | some (_, address) =>
      when (ae = 0 ∨ peer.isLlAddress address = true) (call (.ihu txcost interval))

def parseRouterId : BabelM Unit :=
  if len < 10 then modify fun st => { st with routerId := none }
  else do
    let id ← readBytes message 4 8
    modify fun st => { st with routerId := some id }

def parseNh : BabelM Unit :=
  if len < 2 then forgetNexthops
  else do
    let ae ← readByte message 2
    match ← networkAddress ae message 4 (len - 2) with
    | none => forgetNexthops
    | some (_, nh) =>
      if ae = 1 then modify fun st => { st with v4Nh := some nh }
      else modify fun st => { st with v6Nh := some nh }

/-- The channels that an update has, and `update_route`. -/
def finishUpdate (parsedLen : Nat) (nh : List UInt8) (u : BabelUpdateCall) : BabelM Unit := do
  let assumed := if peer.faraway = true ∨ u.metric < 256 then [] else [255]
  let channels ←
    if peer.faraway = false ∧ parsedLen < len then
      parseRouteAttributes (message.drop (2 + parsedLen)) (len - parsedLen) assumed
    else pure assumed
  call (.updateRoute { u with nexthop := nh, channels := channels })

/-- What an update tells about the ones after it: its prefix, with the flag 0x80, and its router
id, with the flag 0x40. -/
def rememberUpdate (ae flags : UInt8) (pfx : List UInt8) (st : BabelParser) : BabelParser :=
  let st :=
    if flags &&& 0x80 = 0 then st
    else if ae = 1 then { st with v4Prefix := pfx, haveV4Prefix := true }
    else { st with v6Prefix := pfx, haveV6Prefix := true }
  if flags &&& 0x40 = 0 then st
  else if ae = 1 then { st with routerId := some ([0, 0, 0, 0] ++ (pfx.drop 12).take 4) }
  else { st with routerId := some ((pfx.drop 8).take 8) }

/-- What an update with a prefix leads to. -/
def acceptUpdate (ae flags plen : UInt8) (interval seqno metric : UInt16)
    (parsed : Nat × List UInt8) : BabelM Unit := do
  modify (rememberUpdate ae flags parsed.2)
  let st ← get
  let u : BabelUpdateCall :=
    ⟨st.routerId.getD [], parsed.2, plen + (if ae = 1 then 96 else 0), seqno, metric, interval,
      [], []⟩
  if st.routerId = none ∧ ae ≠ 0 then return
  else if ae = 0 then when (¬ metric < 0xffff) (call .retractNeighbourRoutes)
  else if ae = 1 then
    match st.v4Nh with
    | none => return
    | some nh => when (peer.ipv4 = true) (finishUpdate peer message len (10 + parsed.1) nh u)
  else finishUpdate peer message len (10 + parsed.1) (st.v6Nh.getD peer.address) u

def parseUpdate : BabelM Unit :=
  if len < 2 then forgetPrefixes
  else if len < 10 then do
    let flags ← readByte message 3
    when (flags &&& 0x80 ≠ 0) forgetPrefixes
  else do
    let interval ← readShort message 6
    let seqno ← readShort message 8
    let metric ← readShort message 10
    let ae ← readByte message 2
    let flags ← readByte message 3
    let plen ← readByte message 4
    let omitted ← readByte message 5
    let st ← get
    -- The flags are asked for what is meant of the address encoding.
    let parsed ←
      if omitted = 0 ∨ (if flags = 1 then st.haveV4Prefix else st.haveV6Prefix) = true then
        networkPrefix ae (some plen) omitted.toNat message 12
          (some (if ae = 1 then st.v4Prefix else st.v6Prefix)) (len - 10)
      else pure none
    match parsed with
    | none => when (flags &&& 0x80 ≠ 0) forgetPrefixes
    | some parsed => acceptUpdate peer message len ae flags plen interval seqno metric parsed

def parseRequest : BabelM Unit :=
  when (¬ len < 2) do
    let ae ← readByte message 2
    let plen ← readByte message 3
    match ← networkPrefix ae (some plen) 0 message 4 none (len - 2) with
    | none => return
    | some (_, pfx) =>
      if ae = 0 then call .requestAny
      else call (.request pfx (plen + (if ae = 1 then 96 else 0)))

def parseMhRequest : BabelM Unit :=
  when (¬ len < 14) do
    let seqno ← readShort message 4
    let ae ← readByte message 2
    let plen ← readByte message 3
    match ← networkPrefix ae (some plen) 0 message 16 none (len - 14) with
    | none => return
    | some (_, pfx) =>
      let hopCount ← readByte message 6
      let routerId ← readBytes message 8 8
      call (.handleRequest pfx (plen + (if ae = 1 then 96 else 0)) hopCount seqno routerId)

/-- One turn of the loop of `parse_packet`, for a message that is not a `Pad1`. -/
def parseMessage (type : UInt8) : BabelM Unit :=
  if type = 2 then parseAckReq message len
  else if type = 4 then parseHello message len
  else if type = 5 then parseIhu peer message len
  else if type = 6 then parseRouterId message len
  else if type = 7 then parseNh message len
  else if type = 8 then parseUpdate peer message len
  else if type = 9 then parseRequest message len
  else if type = 10 then parseMhRequest message len
  else pure ()

end

variable (peer : BabelPeer)

/-- The loop of `parse_packet`, with `left` bytes of the body from this message on. -/
def parseBody (message : List UInt8) (left : Nat) : BabelM Unit :=
  if left = 0 then pure ()
  else do
    let type ← readByte message 0
    if type = 0 then parseBody (message.drop 1) (left - 1)
    else
      let len ← readByte message 1
      if left < len.toNat then return
      else
        parseMessage peer message len.toNat type
        parseBody (message.drop (len.toNat + 2)) (left - (len.toNat + 2))
termination_by left

/-- `parse_packet`. A body that is longer than what was received is cut. -/
def parsePacket (packet : List UInt8) : BabelM Unit :=
  when (peer.linklocal = true) do
    let magic ← readByte packet 0
    when (magic = 42) do
      let version ← readByte packet 1
      when (version = 2 ∧ peer.known = true) do
        let bodylen ← readShort packet 2
        parseBody peer (packet.drop 4) (min bodylen.toNat (packet.length - 4))

/-- The parser before a packet, with what happens to be in memory. -/
def BabelParser.start (v4Prefix v6Prefix : List UInt8) : BabelParser :=
  ⟨none, false, false, v4Prefix, v6Prefix, none, none, []⟩

end SdnQuagga
