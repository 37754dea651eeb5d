import SdnQuagga.BgpAttrRefs

/-!
# Receiving an UPDATE

`bgpd/bgp_packet.c`, `bgp_update_receive`, with the reference counts of the
intern tables. The attribute parser leaves the references of the attribute
set in the tables; each return behind it has to give them back with
`bgp_attr_unintern_sub`. Of the RIB there are the references it gives back
for withdrawn routes, before the last check, and an arbitrary effect of the
calls behind it.
-/

namespace SdnQuagga

open FaultM SdnQuagga.Stream RefTable

/-! ## State -/

/-- What `bgp_update_receive` reads of the peer besides what the attribute
code reads. -/
structure UpdatePeer where
  peer : Peer
  /-- `peer->status == Established` -/
  established : Bool
  /-- `peer->afc` -/
  afc : Afi → Safi → Bool
  /-- `peer->nsf` -/
  nsf : Afi → Safi → Bool

/-- The calls into the RIB behind the last check. -/
inductive RibCall where
  /-- `bgp_nlri_parse` and `bgp_nlri_parse_vpnv4`; no attributes withdraw. -/
  | nlriParse (attr : Option Attr) (nlri : BgpNlri)
  /-- `bgp_clear_stale_route` -/
  | clearStaleRoute (afi : Afi) (safi : Safi)

/-- The RIB, seen from the intern tables. -/
structure Rib where
  /-- The parts of the attribute sets that are given back when the routes of
  these IPv4 prefixes are withdrawn. -/
  withdrawn : List UInt8 → List HeldParts
  call : RibCall → Interns → Interns

/-- The state: that of the parser, with the whole message as its field, and
what else the peer is told. -/
structure UpdateState where
  ref : RefState
  /-- A NOTIFICATION of `BGP_NOTIFY_FSM_ERR` was sent. -/
  fsmError : Bool
  /-- `PEER_STATUS_EOR_RECEIVED` by family. -/
  eorReceived : List (Afi × Safi)

abbrev UpdateM := FaultM UpdateState

/-- A message of `size` bytes in the input. -/
def UpdateState.start (input : Stream) (size : Nat) (interns : Interns) :
    UpdateState where
  ref := ⟨.start input size, interns, false⟩
  fsmError := false
  eorReceived := []

variable {α : Type}

def inRef (m : RefM α) : UpdateM α := fun st =>
  match m st.ref with
  | .error e => .error e
  | .ok (a, ref) => .ok (a, { st with ref := ref })

def inMessage (m : ParseM α) : UpdateM α := inRef (inParse m)

def notifyUpdateMissAttr : UInt8 := 3

/-! ## References -/

/-- `bgp_attr_unintern_sub`, the parts of interned objects. -/
def uninternParts (h : HeldParts) : RefM Unit := do
  uninternIn aspathSlot h.aspath
  uninternIn communitySlot h.community
  uninternIn ecommunitySlot h.ecommunity
  uninternIn clusterSlot h.cluster
  uninternIn transitSlot h.transit

/-- `transit_unintern` of an object that is not in the table: the reference
count is 0, and `hash_release` takes an equal object out. -/
def releaseTransit : Option (List UInt8) → RefM Unit
  | none => return
  | some val => modify fun st => { st with interns := { st.interns with
      transit := fun v => if v = val then 0 else st.interns.transit v } }

/-- `bgp_attr_unintern_sub (&attr)` and the freeing of `attr.extra`. -/
def bgpAttrUninternSub : RefM Unit := do
  let st ← get
  let h := heldParts st.parse
  if st.transitInterned then uninternParts h
  else
    uninternParts { h with transit := none }
    releaseTransit h.transit

/-! ## The fields of the message -/

/-- A header error of the message: notify and return -1. -/
def updateError : UpdateM (Option α) := do
  inMessage (notifySend notifyUpdateMalAttr [])
  return none

variable (endp : Nat)

/-- The next field: a length of two bytes, and whether so many bytes are
left before `endp`. -/
def updateFieldLength : UpdateM (Option Nat) := do
  if (← get).ref.parse.input.getp + 2 > endp then updateError
  else
    let length := (← inMessage (input getw)).toNat
    if (← get).ref.parse.input.getp + length > endp then updateError
    else return some length

/-- The unfeasible routes. -/
def updateWithdrawn : UpdateM (Option (List UInt8)) := do
  match ← updateFieldLength endp with
  | none => return none
  | some 0 => return some []
  | some length =>
    if ← inMessage (bgpNlriSanityCheck 1 length) then
      let nlri ← inMessage (inputBytes length)
      inMessage (input (forwardGetp length))
      return some nlri
    else return none

/-- The attributes. The parser gets its own attribute set and the next
`length` bytes; -1 on its error. -/
def updateAttributes (up : UpdatePeer) (uninit : UInt8 → UInt16) (endp : Nat) :
    UpdateM (Option (Nat × ParseRet)) := do
  match ← updateFieldLength endp with
  | none => return none
  | some 0 => return some (0, .proceed)
  | some length =>
    modify fun st => { st with ref := { st.ref with
      parse := { ParseState.start st.ref.parse.input length with
        notified := st.ref.parse.notified } } }
    let ret ← inRef (refAttrParse up.peer uninit length)
    modify fun st => { st with ref := { st.ref with
      parse := { st.ref.parse with fieldEnd := endp } } }
    if ret = .error then return none
    else return some (length, ret)

/-- The announced routes: what is left of the message. -/
def updateNlri : UpdateM (Option (List UInt8)) := do
  let length := endp - (← get).ref.parse.input.getp
  if length = 0 then return some []
  else if ← inMessage (bgpNlriSanityCheck 1 length) then
    let nlri ← inMessage (inputBytes length)
    inMessage (input (forwardGetp length))
    return some nlri
  else
    inRef bgpAttrUninternSub
    return none

/-! ## The routes -/

/-- The attributes that `bgp_attr_check` misses, the last one first. -/
def missingAttr (peer : Peer) (flag : AttrFlags) : Option UInt8 :=
  if peerSort peer = .ibgp ∧ ¬ flag.localPref then some attrLocalPref
  else if ¬ flag.nextHop then some attrNextHop
  else if ¬ flag.asPath then some attrAsPath
  else if ¬ flag.origin then some attrOrigin
  else none

def bgpAttrCheck (peer : Peer) : ParseM Bool := do
  match missingAttr peer (← get).attr.flag with
  | some type =>
    notifySend notifyUpdateMissAttr [type]
    return false
  | none => return true

def ribCall (rib : Rib) (c : RibCall) : UpdateM Unit :=
  modify fun st => { st with ref := { st.ref with
    interns := rib.call c st.ref.interns } }

/-- `bgp_nlri_parse (peer, NULL, &withdraw)`. -/
def ribWithdraw (rib : Rib) (nlri : List UInt8) : UpdateM Unit :=
  inRef ((rib.withdrawn nlri).forM uninternParts)

section

variable (up : UpdatePeer) (rib : Rib)

def endOfRib (marks : Bool) (afi : Afi) (safi : Safi) : UpdateM Unit := do
  if marks then
    modify fun st => { st with eorReceived := (afi, safi) :: st.eorReceived }
  else pure ()
  if up.nsf afi safi then ribCall rib (.clearStaleRoute afi safi)
  else return

variable (attr : Option Attr)

/-- The calls for the multiprotocol attributes of a family, with the codes
that stand in the attributes. `attr` is `NLRI_ATTR_ARG`. -/
def updateFamily (afi : UInt16) (safi : UInt8) :
    UpdateM Unit := do
  let st := (← get).ref.parse
  match st.mpUpdate.filter fun n => n.afi = afi ∧ n.safi = safi ∧ n.nlri ≠ [] with
  | some nlri => ribCall rib (.nlriParse attr nlri)
  | none => pure ()
  match st.mpWithdraw.filter fun n =>
      n.afi = afi ∧ n.safi = safi ∧ n.nlri ≠ [] with
  | some nlri => ribCall rib (.nlriParse none nlri)
  | none => pure ()

/-- The sections of the families other than IPv4 unicast: these use their
empty MP_UNREACH_NLRI as the end of RIB marker. -/
def updateMpFamily (withdrawLen : Nat) (marks stale : Bool)
    (afi : Afi) (safi : Safi) (afiCode : UInt16) (safiCode : UInt8) :
    UpdateM Unit := do
  if up.afc afi safi then
    updateFamily rib attr afiCode safiCode
    match (← get).ref.parse.mpWithdraw with
    | some ⟨afi', safi', []⟩ =>
      if withdrawLen = 0 ∧ afi' = afiCode ∧ safi' = safiCode ∧ stale then
        endOfRib up rib marks afi safi
      else return
    | _ => return
  else return

/-- The withdrawn routes of the message, if it has any. -/
def withdrawRoutes (withdraw : List UInt8) : UpdateM Unit :=
  if withdraw ≠ [] then ribWithdraw rib withdraw else pure ()

/-- The announced routes of the message, if it has any; -1 if a well-known
attribute is missing. -/
def announceRoutes (update : List UInt8) :
    UpdateM Bool := do
  if update ≠ [] then
    if ← inMessage (bgpAttrCheck up.peer) then
      ribCall rib (.nlriParse attr ⟨1, 1, update⟩)
      return true
    else
      inRef bgpAttrUninternSub
      return false
  else return true

variable (attributeLen : Nat)

/-- The end of the section for IPv4 unicast. -/
def unicastEnd (withdraw : List UInt8) : UpdateM Unit := do
  updateFamily rib attr 1 1
  if attributeLen = 0 ∧ withdraw = [] then endOfRib up rib true .ip .unicast
  else return

/-- The section for IPv4 unicast, the only one that may return -1. -/
def updateUnicast (withdraw update : List UInt8) : UpdateM Bool := do
  if up.afc .ip .unicast then
    withdrawRoutes rib withdraw
    if ← announceRoutes up rib attr update then
      unicastEnd up rib attr attributeLen withdraw
      return true
    else return false
  else return true

/-- The sections for the other address families. The VPN section has no stale
routes to clear. -/
def updateOthers (withdrawLen : Nat) : UpdateM Unit := do
  updateMpFamily up rib attr withdrawLen true true .ip .multicast 1 2
  updateMpFamily up rib attr withdrawLen true true .ip6 .unicast 2 1
  updateMpFamily up rib attr withdrawLen false true .ip6 .multicast 2 2
  updateMpFamily up rib attr withdrawLen false false .ip .mplsVpn 1 safiMplsLabeledVpn

/-- The sections for the address families. -/
def updateFamilies (ret : ParseRet) (attributeLen : Nat)
    (withdraw update : List UInt8) : UpdateM Bool := do
  let parsed := (← get).ref.parse.attr
  let attr := if ret ≠ .withdraw then some parsed else none
  if ← updateUnicast up rib attr attributeLen withdraw update then
    updateOthers up rib attr withdraw.length
    inRef bgpAttrUninternSub
    return true
  else return false

end

variable (up : UpdatePeer) (uninit : UInt8 → UInt16)

/-- The attributes, the announced routes and the address families. -/
def updateRoutes (rib : Rib) (endp : Nat) (withdraw : List UInt8) : UpdateM Bool := do
  match ← updateAttributes up uninit endp with
  | none => return false
  | some (attributeLen, ret) =>
    match ← updateNlri endp with
    | none => return false
    | some update => updateFamilies up rib ret attributeLen withdraw update

/-- `bgp_update_receive`; `false` is the return value -1. -/
def bgpUpdateReceive (rib : Rib) (size : Nat) : UpdateM Bool := do
  if ¬ up.established then
    modify fun st => { st with fsmError := true }
    return false
  else
    let endp := (← get).ref.parse.input.getp + size
    match ← updateWithdrawn endp with
    | none => return false
    | some withdraw => updateRoutes up uninit rib endp withdraw

end SdnQuagga
