import SdnQuagga.BgpAttr

/-!
# BGP path attributes: the parser

`bgpd/bgp_attr.c`, `bgp_attr_parse` and the handlers it dispatches to.
The parser walks the attribute field of an UPDATE through the peer's
input stream. Three things can go wrong in ways the source does not
check for, and each is a fault here: reading a byte behind the attribute
field (`outOfBounds`, the field ends at `fieldEnd`), indexing outside a
table (`outOfBounds`), and dereferencing a NULL pointer (`nullDeref`).
-/

namespace SdnQuagga

open SdnQuagga.Stream

/-! ## State -/

/-- `bgp_attr_parse_ret_t`. -/
inductive ParseRet where
  | proceed
  | error
  | withdraw
deriving DecidableEq, Repr

/-- A NOTIFICATION of `BGP_NOTIFY_UPDATE_ERR` with its data. -/
structure UpdateNotify where
  subcode : UInt8
  data : List UInt8
deriving DecidableEq, Repr

/-- `struct bgp_nlri`. -/
structure BgpNlri where
  afi : UInt16
  safi : UInt8
  nlri : List UInt8
deriving DecidableEq, Repr

/-- What the parser works on: `peer->ibuf`, the attribute set, the locals
of `bgp_attr_parse` that outlive one attribute, and the notifications
sent. `fieldEnd` is where the attribute field ends in the stream. -/
structure ParseState where
  input : Stream
  fieldEnd : Nat
  attr : Attr
  as4Path : Option (List Assegment)
  as4Aggregator : UInt32
  as4AggregatorAddr : UInt32
  mpUpdate : Option BgpNlri
  mpWithdraw : Option BgpNlri
  notified : List UpdateNotify

/-- The state in which `bgp_update_receive` calls the parser on a field
of `size` bytes. -/
def ParseState.start (input : Stream) (size : Nat) : ParseState where
  input := input
  fieldEnd := input.getp + size
  attr := .empty
  as4Path := none
  as4Aggregator := 0
  as4AggregatorAddr := 0
  mpUpdate := none
  mpWithdraw := none
  notified := []

abbrev ParseM := FaultM ParseState

/-- A read of the input stream. Reads only move forward, so the position
after the read tells whether it left the attribute field. -/
def input {α : Type} (m : StreamM α) : ParseM α := fun st =>
  match m st.input with
  | .error e => .error e
  | .ok (a, s) =>
    if st.fieldEnd < s.getp then .error .outOfBounds
    else .ok (a, { st with input := s })

/-- `n` bytes at `pos`, read through a pointer into the stream. -/
def pointBytes (pos n : Nat) : ParseM (List UInt8) := fun st =>
  if st.fieldEnd < pos + n then .error .outOfBounds
  else .ok ((st.input.data.drop pos).take n, st)

def modifyAttr (f : Attr → Attr) : ParseM Unit :=
  modify fun st => { st with attr := f st.attr }

/-- Allocate `attr->extra` if need be and change it. -/
def modifyExtra (f : AttrExtra → AttrExtra) : ParseM Unit :=
  modifyAttr fun attr => { attr with extra := some (f attr.extraGet) }

def modifyFlag (f : AttrFlags → AttrFlags) : ParseM Unit :=
  modifyAttr fun attr => { attr with flag := f attr.flag }

/-- A pointer that the parser dereferences. -/
def derefParse {α : Type} : Option α → ParseM α
  | some a => return a
  | none => throw .nullDeref

def whenever (c : Prop) [Decidable c] (m : ParseM Unit) : ParseM Unit :=
  if c then m else return

def notifyUpdateMalAttr : UInt8 := 1
def notifyUpdateUnrecAttr : UInt8 := 2
def notifyUpdateAttrFlagErr : UInt8 := 4
def notifyUpdateAttrLengErr : UInt8 := 5
def notifyUpdateInvalOrigin : UInt8 := 6
def notifyUpdateInvalNextHop : UInt8 := 8
def notifyUpdateOptAttrErr : UInt8 := 9
def notifyUpdateInvalNetwork : UInt8 := 10
def notifyUpdateMalAsPath : UInt8 := 11

/-- `bgp_notify_send` and `bgp_notify_send_with_data`. -/
def notifySend (subcode : UInt8) (data : List UInt8) : ParseM Unit :=
  modify fun st => { st with notified := st.notified ++ [⟨subcode, data⟩] }

/-- `struct bgp_attr_parser_args`; `startp` is a position in the stream. -/
structure AttrArgs where
  type : UInt8
  flags : UInt8
  length : Nat
  startp : Nat
  total : Nat
deriving DecidableEq, Repr

def checkFlag (flags flag : UInt8) : Bool := flags &&& flag ≠ 0

/-! ## Malformed attributes -/

/-- The attributes whose errors always reset the session. -/
def coreAttrs : List UInt8 :=
  [attrOrigin, attrAsPath, attrNextHop, attrMultiExitDisc, attrLocalPref,
    attrCommunities, attrOriginatorId, attrClusterList, attrMpReachNlri,
    attrMpUnreachNlri, attrExtCommunities]

/-- The attributes whose errors an eBGP session ignores. -/
def ignorableAttrs : List UInt8 :=
  [attrAs4Aggregator, attrAggregator, attrAtomicAggregate]

variable (args : AttrArgs)

/-- Send a notification with the first `length` bytes of the attribute. -/
def notifyAttr (subcode : UInt8) (length : Nat) :
    ParseM Unit := do
  if length > 0 then notifySend subcode (← pointBytes args.startp length)
  else notifySend subcode []

def bgpAttrMalformed (peer : Peer) (args : AttrArgs) (subcode : UInt8)
    (length : Nat) : ParseM ParseRet := do
  if peerSort peer ≠ .ebgp then
    notifyAttr args subcode length
    return .error
  else
    input (setGetp (args.startp + args.total))
    if args.type ∈ ignorableAttrs then return .proceed
    else if args.type ∈ coreAttrs then
      notifyAttr args subcode length
      return .error
    else if checkFlag args.flags attrFlagTrans ∧ checkFlag args.flags attrFlagOptional
        ∧ checkFlag args.flags attrFlagPartial then return .withdraw
    else return .error

/-- `attr_flags_values`: the required flags by type code, 0 for codes the
table does not define. -/
def attrFlagsValues : List UInt8 :=
  [0, 0x40, 0x40, 0x40, 0x80, 0x40, 0x40, 0xC0, 0xC0, 0x80, 0x80, 0, 0, 0,
    0x80, 0x80, 0xC0, 0xC0, 0xC0]

/-- The comparison of the flags with the required ones, the part of
`bgp_attr_flag_invalid` behind the table lookup. -/
def flagsConflict (flags desired : UInt8) : Bool :=
  let opt := checkFlag flags attrFlagOptional
  let trans := checkFlag flags attrFlagTrans
  let mask := if opt && trans then attrFlagExtlen ||| attrFlagPartial
    else attrFlagExtlen
  (!opt && !trans)
    || (checkFlag flags attrFlagPartial && (!opt || !trans))
    || flags &&& ~~~mask ≠ desired

/-- `bgp_attr_flag_invalid`. The guard lets the type code equal to the
table size through to the lookup. -/
def bgpAttrFlagInvalid : ParseM Bool :=
  if args.type.toNat > attrFlagsValues.length then return false
  else match attrFlagsValues[args.type.toNat]? with
    | none => throw .outOfBounds
    | some desired =>
      if desired = 0 then return false
      else return flagsConflict args.flags desired

/-! ## Handlers -/

section

variable (peer : Peer) (args : AttrArgs)

def bgpAttrOrigin : ParseM ParseRet := do
  if args.length ≠ 1 then
    bgpAttrMalformed peer args notifyUpdateAttrLengErr args.total
  else
    let origin ← input getc
    modifyAttr fun attr => { attr with origin := origin }
    if origin ≠ 0 ∧ origin ≠ 1 ∧ origin ≠ 2 then
      bgpAttrMalformed peer args notifyUpdateInvalOrigin args.total
    else
      modifyFlag fun flag => { flag with origin := true }
      return .proceed

def aspathParse (length : Nat) (use32bit : Bool) :
    StreamM (Option (List Assegment)) :=
  if length % 2 ≠ 0 then return none
  else assegmentsParse length [] use32bit

def bgpAttrAspath : ParseM ParseRet := do
  let aspath ← input (aspathParse args.length peer.capAs4Rcv)
  modifyAttr fun attr => { attr with aspath := aspath }
  if aspath = none then
    bgpAttrMalformed peer args notifyUpdateMalAsPath 0
  else
    modifyFlag fun flag => { flag with asPath := true }
    return .proceed

def bgpAttrAs4Path : ParseM ParseRet := do
  let as4Path ← input (aspathParse args.length true)
  modify fun st => { st with as4Path := as4Path }
  if as4Path = none then
    bgpAttrMalformed peer args notifyUpdateMalAsPath 0
  else
    modifyFlag fun flag => { flag with as4Path := true }
    return .proceed

/-- `IPV4_NET0`, `IPV4_NET127` and `IPV4_CLASS_DE`. -/
def martianNexthop (a : UInt32) : Bool :=
  a &&& 0xff000000 = 0 || a &&& 0xff000000 = 0x7f000000
    || a &&& 0xe0000000 = 0xe0000000

def bgpAttrNexthop : ParseM ParseRet := do
  if args.length ≠ 4 then
    bgpAttrMalformed peer args notifyUpdateAttrLengErr args.total
  else
    let nexthop ← input getIpv4
    if martianNexthop nexthop then
      bgpAttrMalformed peer args notifyUpdateInvalNextHop args.total
    else
      modifyAttr fun attr => { attr with nexthop := nexthop }
      modifyFlag fun flag => { flag with nextHop := true }
      return .proceed

def bgpAttrMed : ParseM ParseRet := do
  if args.length ≠ 4 then
    bgpAttrMalformed peer args notifyUpdateAttrLengErr args.total
  else
    let med ← input getl
    modifyAttr fun attr => { attr with med := med }
    modifyFlag fun flag => { flag with multiExitDisc := true }
    return .proceed

def bgpAttrLocalPref : ParseM ParseRet := do
  if args.length ≠ 4 then
    bgpAttrMalformed peer args notifyUpdateAttrLengErr args.total
  else if peerSort peer = .ebgp then
    input (forwardGetp args.length)
    return .proceed
  else
    let localPref ← input getl
    modifyAttr fun attr => { attr with localPref := localPref }
    modifyFlag fun flag => { flag with localPref := true }
    return .proceed

def bgpAttrAtomic : ParseM ParseRet := do
  if args.length ≠ 0 then
    bgpAttrMalformed peer args notifyUpdateAttrLengErr args.total
  else
    modifyFlag fun flag => { flag with atomicAggregate := true }
    return .proceed

def bgpAttrAggregator : ParseM ParseRet := do
  modifyExtra id
  if args.length ≠ (if peer.capAs4Rcv then 8 else 6) then
    bgpAttrMalformed peer args notifyUpdateAttrLengErr args.total
  else
    let aggregatorAs ← input (asnGet peer.capAs4Rcv)
    modifyExtra fun attre => { attre with aggregatorAs := aggregatorAs }
    let aggregatorAddr ← input getIpv4
    modifyExtra fun attre => { attre with aggregatorAddr := aggregatorAddr }
    modifyFlag fun flag => { flag with aggregator := true }
    return .proceed

def bgpAttrAs4Aggregator : ParseM ParseRet := do
  if args.length ≠ 8 then
    bgpAttrMalformed peer args notifyUpdateAttrLengErr 0
  else
    let as4Aggregator ← input getl
    modify fun st => { st with as4Aggregator := as4Aggregator }
    let addr ← input getIpv4
    modify fun st => { st with as4AggregatorAddr := addr }
    modifyFlag fun flag => { flag with as4Aggregator := true }
    return .proceed

/-- The bytes at `stream_pnt`. -/
def inputBytes (n : Nat) : ParseM (List UInt8) := do
  pointBytes (← get).input.getp n

def bgpAttrCommunity : ParseM ParseRet := do
  if args.length = 0 then
    modifyAttr fun attr => { attr with community := none }
    return .proceed
  else
    let community := communityParse (← inputBytes args.length)
    modifyAttr fun attr => { attr with community := community }
    input (forwardGetp args.length)
    if community = none then
      bgpAttrMalformed peer args notifyUpdateOptAttrErr args.total
    else
      modifyFlag fun flag => { flag with communities := true }
      return .proceed

def bgpAttrOriginatorId : ParseM ParseRet := do
  if args.length ≠ 4 then
    bgpAttrMalformed peer args notifyUpdateAttrLengErr args.total
  else
    let originatorId ← input getIpv4
    modifyExtra fun attre => { attre with originatorId := originatorId }
    modifyFlag fun flag => { flag with originatorId := true }
    return .proceed

def clusterParse (bs : List UInt8) : List UInt32 :=
  (ofBEs 4 (bs.length / 4) bs).map UInt32.ofNat

def bgpAttrClusterList : ParseM ParseRet := do
  if args.length % 4 ≠ 0 then
    bgpAttrMalformed peer args notifyUpdateAttrLengErr args.total
  else
    let cluster := clusterParse (← inputBytes args.length)
    modifyExtra fun attre => { attre with cluster := some cluster }
    input (forwardGetp args.length)
    modifyFlag fun flag => { flag with clusterList := true }
    return .proceed

def bgpAttrExtCommunities : ParseM ParseRet := do
  if args.length = 0 then
    modifyAttr fun attr => { attr with
      extra := attr.extra.map fun attre => { attre with ecommunity := none } }
    return .proceed
  else
    let ecommunity := ecommunityParse (← inputBytes args.length)
    modifyExtra fun attre => { attre with ecommunity := ecommunity }
    input (forwardGetp args.length)
    if ecommunity = none then
      bgpAttrMalformed peer args notifyUpdateOptAttrErr args.total
    else
      modifyFlag fun flag => { flag with extCommunities := true }
      return .proceed

variable (afi : UInt16)

/-- The loop of `bgp_nlri_sanity_check` over the NLRI bytes. -/
def nlriSanityCheck (bs : List UInt8) : Bool :=
  match bs with
  | [] => true
  | prefixlen :: rest =>
    if (afi = 1 ∧ prefixlen > 32) ∨ (afi = 2 ∧ prefixlen > 128) then false
    else if rest.length < psize prefixlen.toNat then false
    else nlriSanityCheck (rest.drop (psize prefixlen.toNat))
termination_by bs.length
decreasing_by
  rw [List.length_drop, List.length_cons]
  omega

/-- `bgp_nlri_sanity_check` of the next `length` bytes of the input. -/
def bgpNlriSanityCheck (length : Nat) : ParseM Bool := do
  if nlriSanityCheck afi (← inputBytes length) then return true
  else
    notifySend notifyUpdateInvalNetwork []
    return false

/-- The NLRI check both multiprotocol handlers make, except for labeled
VPN routes. -/
def nlriSane (safi : UInt8) (length : Nat) : ParseM Bool :=
  if safi ≠ safiMplsLabeledVpn then bgpNlriSanityCheck afi length
  else return true

def in6IsAddrLinklocal (a : BitVec 128) : Bool := a.toNat / 2 ^ 118 = 0x3fa

/-- `stream_get` of an IPv6 address. -/
def getIpv6 : StreamM (BitVec 128) := do
  return BitVec.ofNat 128 (ofBE (← getBytes 16))

/-- The next hop of `bgp_mp_reach_parse`; `false` for a wrong length. -/
def mpNexthop (nexthopLen : UInt8) : ParseM Bool :=
  if nexthopLen = 4 then do
    let nexthop ← input getIpv4
    modifyExtra fun attre => { attre with mpNexthopGlobalIn := nexthop }
    whenever ((← get).attr.nexthop = 0) (modifyAttr fun attr =>
      { attr with nexthop := nexthop })
    return true
  else if nexthopLen = 12 then do
    let _ ← input getl
    let _ ← input getl
    let nexthop ← input getIpv4
    modifyExtra fun attre => { attre with mpNexthopGlobalIn := nexthop }
    return true
  else if nexthopLen = 16 then do
    let nexthop ← input getIpv6
    modifyExtra fun attre => { attre with mpNexthopGlobal := nexthop }
    return true
  else if nexthopLen = 32 then do
    let nexthop ← input getIpv6
    modifyExtra fun attre => { attre with mpNexthopGlobal := nexthop }
    let nexthopLocal ← input getIpv6
    modifyExtra fun attre => { attre with mpNexthopLocal := nexthopLocal }
    whenever (¬ in6IsAddrLinklocal nexthopLocal) (modifyExtra fun attre =>
      { attre with mpNexthopLen := 16 })
    return true
  else return false

def bgpMpReachMinSize : Nat := 5

/-- What follows the next hop in MP_REACH_NLRI: the defunct SNPA byte and
the NLRI. `start` is where the attribute's value begins. -/
def mpReachNlri (safi : UInt8) (start : Nat) :
    ParseM ParseRet := do
  if args.length - ((← get).input.getp - start) = 0 then return .error
  else
    let _ ← input getc
    let s := (← get).input
    let nlriLen := args.length - (s.getp - start)
    if nlriLen = 0 ∨ nlriLen > s.readable then return .error
    else
      if !(← nlriSane afi safi nlriLen) then return .error
      else
        let nlri ← inputBytes nlriLen
        modify fun st => { st with mpUpdate := some ⟨afi, safi, nlri⟩ }
        input (forwardGetp nlriLen)
        return .proceed

def bgpMpReachParse : ParseM ParseRet := do
  modifyExtra id
  let s := (← get).input
  let start := s.getp
  if args.length > s.readable ∨ args.length < bgpMpReachMinSize then
    return .error
  else
    let afi ← input getw
    let safi ← input getc
    let nexthopLen ← input getc
    modifyExtra fun attre => { attre with mpNexthopLen := nexthopLen }
    if args.length - ((← get).input.getp - start) < nexthopLen.toNat then
      return .error
    else if ← mpNexthop nexthopLen then mpReachNlri args afi safi start
    else return .error

def bgpMpUnreachMinSize : Nat := 3

def bgpMpUnreachParse : ParseM ParseRet := do
  let s := (← get).input
  if args.length > s.readable ∨ args.length < bgpMpUnreachMinSize then
    return .error
  else
    let afi ← input getw
    let safi ← input getc
    let withdrawLen := args.length - bgpMpUnreachMinSize
    if !(← nlriSane afi safi withdrawLen) then return .error
    else
      let nlri ← inputBytes withdrawLen
      modify fun st => { st with mpWithdraw := some ⟨afi, safi, nlri⟩ }
      input (forwardGetp withdrawLen)
      return .proceed

/-- `SET_FLAG (*startp, BGP_ATTR_FLAG_PARTIAL)`, in the input buffer. -/
def setPartial (pos : Nat) : ParseM Unit :=
  modify fun st => { st with input := { st.input with
    data := st.input.data.modify pos (· ||| attrFlagPartial)
    endp_le_size := by
      rw [List.length_modify]
      exact st.input.endp_le_size } }

/-- `bgp_attr_unknown`. The local `total` is never assigned: `uninit` is
whatever it holds. -/
def bgpAttrUnknown (uninit : UInt16) : ParseM ParseRet := do
  input (forwardGetp args.length)
  if !checkFlag args.flags attrFlagOptional then
    bgpAttrMalformed peer args notifyUpdateUnrecAttr args.total
  else if !checkFlag args.flags attrFlagTrans then return .proceed
  else
    setPartial args.startp
    let val ← pointBytes args.startp uninit.toNat
    modifyExtra fun attre => { attre with
      transit := some (attre.transit.getD [] ++ val) }
    return .proceed

/-- The `switch` of `bgp_attr_parse`. -/
def attrDispatch (uninit : UInt8 → UInt16) : ParseM ParseRet :=
  if args.type = attrOrigin then bgpAttrOrigin peer args
  else if args.type = attrAsPath then bgpAttrAspath peer args
  else if args.type = attrAs4Path then bgpAttrAs4Path peer args
  else if args.type = attrNextHop then bgpAttrNexthop peer args
  else if args.type = attrMultiExitDisc then bgpAttrMed peer args
  else if args.type = attrLocalPref then bgpAttrLocalPref peer args
  else if args.type = attrAtomicAggregate then bgpAttrAtomic peer args
  else if args.type = attrAggregator then bgpAttrAggregator peer args
  else if args.type = attrAs4Aggregator then bgpAttrAs4Aggregator peer args
  else if args.type = attrCommunities then bgpAttrCommunity peer args
  else if args.type = attrOriginatorId then bgpAttrOriginatorId peer args
  else if args.type = attrClusterList then bgpAttrClusterList peer args
  else if args.type = attrMpReachNlri then bgpMpReachParse args
  else if args.type = attrMpUnreachNlri then bgpMpUnreachParse args
  else if args.type = attrExtCommunities then bgpAttrExtCommunities peer args
  else bgpAttrUnknown peer args (uninit args.type)

end

def knownAttrs : List UInt8 :=
  [attrOrigin, attrAsPath, attrAs4Path, attrNextHop, attrMultiExitDisc,
    attrLocalPref, attrAtomicAggregate, attrAggregator, attrAs4Aggregator,
    attrCommunities, attrOriginatorId, attrClusterList, attrMpReachNlri,
    attrMpUnreachNlri, attrExtCommunities]

/-! ## The attribute loop -/

def bgpAttrMinLen : Nat := 3

/-- What follows a handler: an error ends the loop, and so does a handler
that has not consumed the attribute. -/
def attrFetched (args : AttrArgs) : ParseRet → ParseM (Option ParseRet)
  | .error => do
    notifySend notifyUpdateMalAttr []
    return some .error
  | .withdraw => return some .withdraw
  | .proceed => do
    if (← get).input.getp ≠ args.startp + args.total then
      notifySend notifyUpdateAttrLengErr []
      return some .error
    else return none

variable (peer : Peer) (uninit : UInt8 → UInt16)

/-- The part of one turn behind the header checks: flags and handler.
`some` ends the loop. -/
def attrBody (args : AttrArgs) :
    ParseM (Option ParseRet) := do
  if ← bgpAttrFlagInvalid args then
    match ← bgpAttrMalformed peer args notifyUpdateAttrFlagErr args.total with
    | .proceed => return none
    | ret => return some ret
  else attrFetched args (← attrDispatch peer args uninit)

/-- The length field, of two bytes with the extended length flag. -/
def attrLength (extlen : Bool) : ParseM Nat :=
  if extlen then do return (← input getw).toNat
  else do return (← input getc).toNat

def attrError (subcode : UInt8) : ParseM (Option ParseRet) := do
  notifySend subcode []
  return some .error

/-- One turn of the loop, with the types seen so far. -/
def attrStep (endp : Nat) (seen : List UInt8) : ParseM (Option ParseRet × List UInt8) := do
  let startp := (← get).input.getp
  if endp - startp < bgpAttrMinLen then
    return (← attrError notifyUpdateAttrLengErr, seen)
  else
    let flag := 0xF0 &&& (← input getc)
    let type ← input getc
    if checkFlag flag attrFlagExtlen ∧ endp - startp < bgpAttrMinLen + 1 then
      return (← attrError notifyUpdateAttrLengErr, seen)
    else
      let length ← attrLength (checkFlag flag attrFlagExtlen)
      if type ∈ seen then
        return (← attrError notifyUpdateMalAttr, seen)
      else
        let attrEndp := (← get).input.getp + length
        if attrEndp > endp then
          return (← attrError notifyUpdateAttrLengErr, type :: seen)
        else
          let ret ← attrBody peer uninit
            ⟨type, flag, length, startp, attrEndp - startp⟩
          return (ret, type :: seen)

/-- The loop. Each turn consumes at least a header, so a bound of the
field's size is never reached. -/
def attrLoop (endp : Nat) :
    Nat → List UInt8 → ParseM ParseRet
  | bound, seen => do
    if (← get).input.getp < endp then
      match bound with
      | 0 => throw .loopBound
      | bound + 1 =>
        match ← attrStep peer uninit endp seen with
        | (some ret, _) => return ret
        | (none, seen) => attrLoop endp bound seen
    else return .proceed

/-! ## Reconciling four-byte AS numbers -/

variable (segs : List Assegment)

def aspathCountHops : Nat :=
  (segs.map fun seg => match seg.type with
    | .sequence => seg.length
    | .set => 1
    | .confedSequence | .confedSet => 0).sum

def aspathCountConfeds : Nat :=
  (segs.map fun seg => match seg.type with
    | .confedSequence => seg.length
    | .confedSet => 1
    | .sequence | .set => 0).sum

/-- The loop of `aspath_reconcile_as4`: the leading `hops` of the path. -/
def reconcileLoop (hops : Int) : List Assegment → List Assegment
  | [] => []
  | seg :: next =>
    if hops > 0 then
      match seg.type with
      | .set | .confedSet =>
        .ofAsns seg.type seg.as :: reconcileLoop (hops - 1) next
      | .confedSequence =>
        -- a confederation sequence is never split
        .ofAsns seg.type seg.as :: reconcileLoop (max hops seg.length - seg.length) next
      | .sequence =>
        .ofAsns seg.type (seg.as.take hops.toNat) :: reconcileLoop (hops - seg.length) next
    else []

/-- `aspath_reconcile_as4` of two paths. -/
def aspathReconcileAs4 (aspath as4path : List Assegment) : List Assegment :=
  let hops : Int := (aspathCountHops aspath + aspathCountConfeds aspath : Nat)
    - (aspathCountHops as4path : Nat)
  let hops := if hops < 0 then (aspathCountHops aspath : Int) else hops
  if hops = 0 then as4path
  else assegmentNormalise (reconcileLoop hops aspath ++ as4path)

/-- The aggregator part of `bgp_attr_munge_as4_attrs`; the result is
`ignore_as4_path`. -/
def mungeAggregator : ParseM Bool := do
  let st ← get
  if st.attr.flag.as4Aggregator then
    if st.attr.flag.aggregator then
      match st.attr.extra with
      | none => throw .assertion
      | some attre =>
        if attre.aggregatorAs ≠ bgpAsTrans then return true
        else
          modifyExtra fun attre => { attre with
            aggregatorAs := st.as4Aggregator
            aggregatorAddr := st.as4AggregatorAddr }
          return false
    else
      modifyExtra fun attre => { attre with aggregatorAs := st.as4Aggregator }
      modifyFlag fun flag => { flag with aggregator := true }
      return false
  else return false

variable (peer : Peer)

/-- `bgp_attr_munge_as4_attrs`. `aspath_reconcile_as4` checks its argument
for NULL, the `aspath_unintern` behind it does not. -/
def bgpAttrMungeAs4Attrs : ParseM Unit := do
  if peer.capAs4Rcv then return
  else
    let ignoreAs4Path ← mungeAggregator
    let st ← get
    if !ignoreAs4Path && st.attr.flag.as4Path then
      let as4Path ← derefParse st.as4Path
      let aspath ← derefParse st.attr.aspath
      modifyAttr fun attr => { attr with
        aspath := some (aspathReconcileAs4 aspath as4Path) }
    else return

/-! ## Checks at the end -/

def aspathLeftConfedCheck : Bool :=
  segs.head?.any fun seg => seg.type.isConfed

def aspathConfedCheck : Bool :=
  segs.any fun seg => seg.type.isConfed

def aspathFirstasCheck (asno : UInt32) : Bool :=
  segs.head?.any fun seg =>
    seg.type = .sequence && seg.as.head? = some asno

def bgpAttrAspathCheck : ParseM ParseRet := do
  let aspath ← derefParse (← get).attr.aspath
  if (peerSort peer = .confed ∧ ¬ aspathLeftConfedCheck aspath)
      ∨ (peerSort peer = .ebgp ∧ aspathConfedCheck aspath) then
    notifySend notifyUpdateMalAsPath []
    return .error
  else if peer.bgp.enforceFirstAs ∧ peerSort peer = .ebgp ∧ ¬ aspathFirstasCheck aspath peer.as then
    notifySend notifyUpdateMalAsPath []
    return .error
  else
    whenever (peer.changeLocalAs ≠ 0 ∧ ¬ peer.localAsNoPrepend) (modifyAttr fun attr => { attr with
        aspath := some (aspathAddSeq peer.changeLocalAs aspath) })
    return .proceed

/-- What `bgp_attr_parse` does behind its loop. -/
def attrFinish (endp : Nat) : ParseM ParseRet := do
  if (← get).input.getp ≠ endp then
    notifySend notifyUpdateAttrLengErr []
    return .error
  else
    bgpAttrMungeAs4Attrs peer
    if (← get).attr.flag.asPath then bgpAttrAspathCheck peer
    else return .proceed

/-- `bgp_attr_parse` of `size` bytes of the input. -/
def bgpAttrParse (uninit : UInt8 → UInt16) (size : Nat) :
    ParseM ParseRet := do
  let endp := (← get).input.getp + size
  match ← attrLoop peer uninit endp size [] with
  | .proceed => attrFinish peer endp
  | ret => return ret

end SdnQuagga
