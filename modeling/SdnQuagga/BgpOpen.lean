import SdnQuagga.BgpCapability

/-!
# The optional parameters of an OPEN message

`bgp_open_option_parse` of `bgpd/bgp_open.c` and the parsers below it.
Options hold capabilities, and a capability for outbound route filters
(ORF) holds entries; each level has length fields of its own. Besides
what the source keeps, the state records where each capability and each
ORF entry was read; no function looks at these records.
-/

namespace SdnQuagga

open FaultM SdnQuagga.Stream

/-! ## State -/

/-- The bits of `peer->cap` that are set here. -/
structure PeerCap where
  refreshNewRcv : Bool
  refreshOldRcv : Bool
  dynamicRcv : Bool
  restartRcv : Bool
  as4Rcv : Bool
deriving DecidableEq, Repr

/-- The bits of `peer->af_cap[afi][safi]` that are set here. -/
structure AfCap where
  orfPrefixSmRcv : Bool
  orfPrefixRmRcv : Bool
  orfPrefixSmOldRcv : Bool
  orfPrefixRmOldRcv : Bool
  restartAfRcv : Bool
  restartAfPreserveRcv : Bool
deriving DecidableEq, Repr

/-- `struct peer`, the fields that are used. -/
structure OpenPeer where
  /-- `PEER_FLAG_OVERRIDE_CAPABILITY` -/
  overrideCapability : Bool
  /-- `PEER_FLAG_STRICT_CAP_MATCH` -/
  strictCapMatch : Bool
  afc : Afi → Safi → Bool
  afcRecv : Afi → Safi → Bool
  afcNego : Afi → Safi → Bool
  cap : PeerCap
  afCap : Afi → Safi → AfCap
  vGrRestart : UInt16
  notified : List (UInt8 × UInt8 × List UInt8)

/-- Where a capability was read: its value, the ORF entries in it with
their numbers of ORFs, and where its parser has left the stream. -/
structure CapabilityRead where
  start : Nat
  length : Nat
  entries : List (Nat × Nat)
  stop : Nat
deriving DecidableEq, Repr

/-- The stream, the peer, `*mp_capability`, the part of `error_data` that
is filled, and the records. -/
structure OpenState where
  input : Stream
  peer : OpenPeer
  mpCapability : Bool
  error : List UInt8
  entries : List (Nat × Nat)
  parsed : List CapabilityRead

abbrev OpenM := FaultM OpenState

def openIn {α : Type} (m : StreamM α) : OpenM α := fun st =>
  match m st.input with
  | .error e => .error e
  | .ok (a, s) => .ok (a, { st with input := s })

def modifyPeer (f : OpenPeer → OpenPeer) : OpenM Unit :=
  modify fun st => { st with peer := f st.peer }

def modifyCap (f : PeerCap → PeerCap) : OpenM Unit :=
  modifyPeer fun peer => { peer with cap := f peer.cap }

def modifyAfCap (afi : Afi) (safi : Safi) (f : AfCap → AfCap) :
    OpenM Unit :=
  modifyPeer fun peer => { peer with
    afCap := fun a s => if a = afi ∧ s = safi then f (peer.afCap a s)
      else peer.afCap a s }

variable (code subcode : UInt8) (data : List UInt8)

/-- `bgp_notify_send` and `bgp_notify_send_with_data`. -/
def openNotify : OpenM Unit :=
  modifyPeer fun peer => { peer with
    notified := peer.notified ++ [(code, subcode, data)] }

def openRefuse : OpenM Bool := do
  openNotify code subcode data
  return false

def notifyOpenErr : UInt8 := 2
def notifyOpenUnsupParam : UInt8 := 4
def notifyOpenAuthFailure : UInt8 := 5
def notifyOpenUnsupCapbl : UInt8 := 7

/-! ## Capabilities

Each parser returns `false` for -1. -/

def capabilityCodeRefresh : UInt8 := 2
def capabilityCodeOrf : UInt8 := 3
def capabilityCodeRestart : UInt8 := 64
def capabilityCodeAs4 : UInt8 := 65
def capabilityCodeDynamic : UInt8 := 66
def capabilityCodeRefreshOld : UInt8 := 128
def capabilityCodeOrfOld : UInt8 := 130

variable (code : UInt8)

/-- The two codes for outbound route filters. -/
def isOrf : Prop :=
  code = capabilityCodeOrf ∨ code = capabilityCodeOrfOld

instance (code : UInt8) : Decidable (isOrf code) :=
  inferInstanceAs (Decidable (_ ∨ _))

def bgpCapabilityMpData : OpenM (UInt16 × UInt8) := do
  let afi ← openIn getw
  let _ ← openIn getc
  let safi ← openIn getc
  return (afi, safi)

def bgpCapabilityMp : OpenM Bool := do
  let (afi, safi) ← bgpCapabilityMpData
  match bgpAfiSafiValidIndices afi safi with
  | none => return false
  | some (afi, safi) =>
    modifyPeer fun peer => { peer with
      afcRecv := setFamily peer.afcRecv afi safi true }
    if (← get).peer.afc afi safi then
      modifyPeer fun peer => { peer with
        afcNego := setFamily peer.afcNego afi safi true }
      return true
    else return false

def orfTypePrefix : UInt8 := 64
def orfTypePrefixOld : UInt8 := 128
def orfModeReceive : UInt8 := 1
def orfModeSend : UInt8 := 2
def orfModeBoth : UInt8 := 3

/-- `sizeof (struct capability_orf_entry)`. -/
def orfEntrySize : Nat := 5

/-- One ORF of an entry, if it is supported. -/
def orfSet (afi : Afi) (safi : Safi) (type mode : UInt8) :
    OpenM Unit :=
  let sm := mode = orfModeSend ∨ mode = orfModeBoth
  let rm := mode = orfModeReceive ∨ mode = orfModeBoth
  if (sm ∨ rm) ∧ ((afi, safi) = (.ip, .unicast)
      ∨ (afi, safi) = (.ip, .multicast) ∨ (afi, safi) = (.ip6, .unicast)) then
    if code = capabilityCodeOrf ∧ type = orfTypePrefix then
      modifyAfCap afi safi fun c => { c with
        orfPrefixSmRcv := c.orfPrefixSmRcv || sm
        orfPrefixRmRcv := c.orfPrefixRmRcv || rm }
    else if code = capabilityCodeOrfOld ∧ type = orfTypePrefixOld then
      modifyAfCap afi safi fun c => { c with
        orfPrefixSmOldRcv := c.orfPrefixSmOldRcv || sm
        orfPrefixRmOldRcv := c.orfPrefixRmOldRcv || rm }
    else return
  else return

/-- The loop of `bgp_capability_orf_entry`. -/
def orfLoop (code : UInt8) (afi : Afi) (safi : Safi) : Nat → OpenM Unit
  | 0 => return
  | num + 1 => do
    let type ← openIn getc
    let mode ← openIn getc
    orfSet code afi safi type mode
    orfLoop code afi safi num

variable (length : Nat)

/-- `bgp_capability_orf_entry`. The number of ORFs is compared with the
length of the whole capability, and the ORFs of an unknown family are
left unread. -/
def bgpCapabilityOrfEntry : OpenM Bool := do
  let start := (← get).input.getp
  let (afi, safi) ← bgpCapabilityMpData
  let num ← openIn getc
  modify fun st => { st with entries := st.entries ++ [(start, num.toNat)] }
  match bgpAfiSafiValidIndices afi safi with
  | none => return true
  | some (afi, safi) =>
    if orfEntrySize + num.toNat * 2 > length then
      openRefuse notifyCease 0 []
    else
      orfLoop code afi safi num.toNat
      return true

/-- The `do … while` of `bgp_capability_orf`. Every turn reads an entry,
so the length of the capability is bound enough. -/
def orfEntries (code : UInt8) (length endp : Nat) : Nat → OpenM Bool
  | 0 => throw .loopBound
  | bound + 1 => do
    if !(← bgpCapabilityOrfEntry code length) then return false
    else if (← get).input.getp + orfEntrySize < endp then
      orfEntries code length endp bound
    else return true

def bgpCapabilityOrf : OpenM Bool := do
  let endp := (← get).input.getp + length
  if (← get).input.getp + orfEntrySize ≤ endp then
    orfEntries code length endp length
  else throw .assertion

/-- A family in a graceful restart capability. -/
def restartFamily (afi : UInt16) (safi flag : UInt8) : OpenM Unit := do
  match bgpAfiSafiValidIndices afi safi with
  | none => return
  | some (afi, safi) =>
    if (← get).peer.afc afi safi then
      modifyAfCap afi safi fun c => { c with
        restartAfRcv := true
        restartAfPreserveRcv :=
          c.restartAfPreserveRcv || flag &&& 0x80 ≠ 0 }
    else return

/-- There are `n` more bytes before `endp`. -/
def before (n endp : Nat) (st : OpenState) : Bool :=
  st.input.getp + n ≤ endp

/-- One turn of `bgp_capability_restart`. -/
def restartTurn : OpenM Bool := do
  let afi ← openIn getw
  let safi ← openIn getc
  let flag ← openIn getc
  restartFamily afi safi flag
  return true

def bgpCapabilityRestart : OpenM Bool := do
  let endp := (← get).input.getp + length
  modifyCap fun cap => { cap with restartRcv := true }
  let restartFlagTime ← openIn getw
  modifyPeer fun peer => { peer with
    vGrRestart := restartFlagTime &&& 0x0FFF }
  whileTurns (before 4 endp) restartTurn length

def bgpCapabilityAs4 : OpenM UInt32 := do
  modifyCap fun cap => { cap with as4Rcv := true }
  if length ≠ 4 then return 0
  else openIn getl

/-- `cap_minsizes`, 0 for unknown codes. -/
def capMinsize : Nat :=
  if code = capabilityCodeMp then 4
  else if isOrf code then 5
  else if code = capabilityCodeRestart then 2
  else if code = capabilityCodeAs4 then 4
  else 0

/-- The size of `error_data`. -/
def errorDataSize : Nat := 4096

variable (start length : Nat)

/-- `memcpy (*error, sp, caphdr.length + 2)`. -/
def storeError : OpenM Unit := do
  let st ← get
  let bytes := (st.input.data.drop (start - 2)).take (length + 2)
  if errorDataSize < st.error.length + bytes.length then throw .outOfBounds
  else set { st with error := st.error ++ bytes }

/-- The second `switch` of `bgp_capability_parse`. -/
def capabilitySwitch : OpenM Bool := do
  if code = capabilityCodeMp then
    modify fun st => { st with mpCapability := true }
    if (← get).peer.overrideCapability then return true
    else if ← bgpCapabilityMp then return true
    else
      storeError start length
      return true
  else if code = capabilityCodeRefreshOld then
    modifyCap fun cap => { cap with refreshOldRcv := true }
    return true
  else if code = capabilityCodeRefresh then
    modifyCap fun cap => { cap with refreshNewRcv := true }
    return true
  else if isOrf code then bgpCapabilityOrf code length
  else if code = capabilityCodeRestart then
    bgpCapabilityRestart length
  else if code = capabilityCodeDynamic then
    modifyCap fun cap => { cap with dynamicRcv := true }
    return true
  else if code = capabilityCodeAs4 then
    return (← bgpCapabilityAs4 length) ≠ 0
  else if code > 128 then return true
  else
    storeError start length
    return true

/-- Record where the capability was read. -/
def recordCapability : OpenM Unit :=
  modify fun st => { st with
    entries := []
    parsed := st.parsed ++ [⟨start, length, st.entries, st.input.getp⟩] }

/-- A capability that has passed the length checks. -/
def capabilityTaken : OpenM Bool := do
  let ret ← capabilitySwitch code start length
  recordCapability start length
  if ret then
    openIn (setGetp (start + length))
    return true
  else return false

/-- One turn of `bgp_capability_parse`. -/
def capabilityParseTurn (endp : Nat) : OpenM Bool := do
  if (← get).input.getp + 2 > endp then openRefuse notifyCease 0 []
  else
    let code ← openIn getc
    let length ← openIn getc
    let start := (← get).input.getp
    if start + length.toNat > endp then openRefuse notifyCease 0 []
    else if length.toNat < capMinsize code then openRefuse notifyCease 0 []
    else capabilityTaken code start length.toNat

def bgpCapabilityParse (length : Nat) : OpenM Bool := do
  let endp := (← get).input.getp + length
  if (← get).input.readable < length then throw .assertion
  else whileTurns (before 1 endp) (capabilityParseTurn endp) length

/-! ## Options -/

def bgpOpenOptAuth : UInt8 := 1
def bgpOpenOptCap : UInt8 := 2

/-- One turn of `bgp_open_option_parse`. -/
def openOptionTurn : OpenM Bool := do
  if (← get).input.readable < 2 then openRefuse notifyCease 0 []
  else
    let optType ← openIn getc
    let optLength ← openIn getc
    if (← get).input.readable < optLength.toNat then
      openRefuse notifyCease 0 []
    else if optType = bgpOpenOptAuth then
      openRefuse notifyOpenErr notifyOpenAuthFailure []
    else if optType = bgpOpenOptCap then bgpCapabilityParse optLength.toNat
    else openRefuse notifyOpenErr notifyOpenUnsupParam []

def strictCapabilitySame (peer : OpenPeer) : Bool :=
  [Afi.ip, .ip6].all fun afi => [Safi.unicast, .multicast, .mplsVpn].all
    fun safi => peer.afc afi safi = peer.afcNego afi safi

/-- The checks of `bgp_open_option_parse` behind the loop. -/
def openOptionCheck : OpenM Bool := do
  let st ← get
  if st.peer.strictCapMatch ∧ st.error ≠ [] then
    openRefuse notifyOpenErr notifyOpenUnsupCapbl st.error
  else if st.peer.strictCapMatch ∧ ¬ strictCapabilitySame st.peer then
    openRefuse notifyOpenErr notifyOpenUnsupCapbl []
  else if st.mpCapability ∧ ¬ st.peer.overrideCapability ∧ ¬ peerActiveNego st.peer.afcNego then
    openRefuse notifyOpenErr notifyOpenUnsupCapbl st.error
  else return true

def bgpOpenOptionParse (length : UInt8) : OpenM Int := do
  modify fun st => { st with error := [] }
  let endp := (← get).input.getp + length.toNat
  if ← whileTurns (before 1 endp) openOptionTurn length.toNat then
    if ← openOptionCheck then return 0 else return -1
  else return -1

end SdnQuagga
