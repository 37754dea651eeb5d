import SdnQuagga.BgpAspath
import SdnQuagga.BgpCommunity
import SdnQuagga.Prefix

/-!
# BGP path attributes: the attribute set and its writer

`bgpd/bgp_attr.c`, `bgp_packet_attribute`. The attribute set follows
`struct attr` and the lazily allocated `struct attr_extra`, with a NULL
pointer as `none`.
-/

namespace SdnQuagga

open SdnQuagga.Stream

/-! ## Attribute sets -/

/-- The bits of `attr->flag` that the code sets or tests. -/
structure AttrFlags where
  origin : Bool
  asPath : Bool
  nextHop : Bool
  multiExitDisc : Bool
  localPref : Bool
  atomicAggregate : Bool
  aggregator : Bool
  communities : Bool
  originatorId : Bool
  clusterList : Bool
  extCommunities : Bool
  as4Path : Bool
  as4Aggregator : Bool
deriving DecidableEq, Repr

/-- `struct attr_extra`, without `weight` and `mp_nexthop_local_in`,
which neither the writer nor the parser touches. -/
structure AttrExtra where
  mpNexthopGlobal : BitVec 128
  mpNexthopLocal : BitVec 128
  ecommunity : Option Ecommunity
  /-- The addresses of the cluster list; its `length` counts bytes. -/
  cluster : Option (List UInt32)
  /-- `transit->val`, the unknown transitive attributes one after the
  other. -/
  transit : Option (List UInt8)
  mpNexthopGlobalIn : UInt32
  aggregatorAddr : UInt32
  originatorId : UInt32
  aggregatorAs : UInt32
  mpNexthopLen : UInt8
deriving DecidableEq, Repr

/-- `struct attr`, without the reference count. -/
structure Attr where
  aspath : Option (List Assegment)
  community : Option Community
  extra : Option AttrExtra
  flag : AttrFlags
  nexthop : UInt32
  med : UInt32
  localPref : UInt32
  origin : UInt8
deriving DecidableEq, Repr

def AttrFlags.empty : AttrFlags :=
  ⟨false, false, false, false, false, false, false, false, false, false, false, false, false⟩

/-- `bgp_attr_extra_new`: zeroed memory. -/
def AttrExtra.new : AttrExtra :=
  ⟨0, 0, none, none, none, 0, 0, 0, 0, 0⟩

/-- An attribute set as `bgp_update_receive` clears it. -/
def Attr.empty : Attr := ⟨none, none, none, .empty, 0, 0, 0, 0⟩

variable (attr : Attr)

/-- `bgp_attr_extra_get`. -/
def Attr.extraGet : AttrExtra := attr.extra.getD .new

/-! ## Peers -/

inductive Afi where
  | ip
  | ip6
deriving DecidableEq, Repr

inductive Safi where
  | unicast
  | multicast
  | mplsVpn
deriving DecidableEq, Repr

def Safi.code : Safi → UInt8
  | unicast => 1
  | multicast => 2
  | mplsVpn => 4

inductive PeerSort where
  | ibgp
  | ebgp
  | internal
  | confed
deriving DecidableEq, Repr

/-- `struct bgp`, the fields the attribute code reads. -/
structure Bgp where
  /-- `BGP_CONFIG_CONFEDERATION` -/
  confederation : Bool
  /-- `BGP_CONFIG_CLUSTER_ID` -/
  hasClusterId : Bool
  /-- `BGP_FLAG_ENFORCE_FIRST_AS` -/
  enforceFirstAs : Bool
  confedId : UInt32
  confedPeers : List UInt32
  clusterId : UInt32
  routerId : UInt32
deriving DecidableEq, Repr

/-- `peer->af_flags[afi][safi]`. -/
structure PeerAfFlags where
  sendCommunity : Bool
  sendExtCommunity : Bool
  asPathUnchanged : Bool
  rserverClient : Bool
deriving DecidableEq, Repr

/-- `struct peer`, the fields the attribute code reads. -/
structure Peer where
  bgp : Bgp
  as : UInt32
  localAs : UInt32
  /-- `change_local_as`, 0 when not configured. -/
  changeLocalAs : UInt32
  /-- `PEER_FLAG_LOCAL_AS_NO_PREPEND` -/
  localAsNoPrepend : Bool
  /-- `PEER_CAP_AS4_RCV` -/
  capAs4Rcv : Bool
  afFlags : Afi → Safi → PeerAfFlags
  remoteId : UInt32
  nexthopV4 : UInt32

/-- `peer_sort` of a peer with a session. Peer groups have none, so their
branch is left out. -/
def peerSort (peer : Peer) : PeerSort :=
  if peer.bgp.confederation then
    if peer.localAs = 0 then .internal
    else if peer.localAs = peer.as then
      if peer.localAs = peer.bgp.confedId then .ebgp else .ibgp
    else if peer.as ∈ peer.bgp.confedPeers then .confed
    else .ebgp
  else if peer.localAs = 0 then .internal
  else if peer.localAs = peer.as then .ibgp
  else .ebgp

/-! ## AS path editing -/

def aspathAddOneAs (type : SegType) (asno : UInt32) :
    List Assegment → List Assegment
  | [] => [.ofAsns type [asno]]
  | seg :: next =>
    if seg.length = 0 then [.ofAsns type [asno]]
    else if seg.type = type then assegmentPrependAsns seg asno 1 :: next
    else .ofAsns type [asno] :: seg :: next

def aspathAddSeq (asno : UInt32) : List Assegment → List Assegment :=
  aspathAddOneAs .sequence asno

def aspathAddConfedSeq (asno : UInt32) : List Assegment → List Assegment :=
  aspathAddOneAs .confedSequence asno

def SegType.isConfed : SegType → Bool
  | .confedSequence | .confedSet => true
  | .set | .sequence => false

def aspathDeleteConfedSeq : List Assegment → List Assegment
  | [] => []
  | seg :: next =>
    if seg.type ≠ .confedSequence then seg :: next
    else (seg :: next).dropWhile fun s => s.type.isConfed

def aspathHasAs4 (segs : List Assegment) : Bool :=
  segs.any fun seg => seg.as.any fun asn => bgpAsMax < asn

/-! ## Writing -/

def attrFlagOptional : UInt8 := 0x80
def attrFlagTrans : UInt8 := 0x40
def attrFlagPartial : UInt8 := 0x20
def attrFlagExtlen : UInt8 := 0x10

def attrOrigin : UInt8 := 1
def attrAsPath : UInt8 := 2
def attrNextHop : UInt8 := 3
def attrMultiExitDisc : UInt8 := 4
def attrLocalPref : UInt8 := 5
def attrAtomicAggregate : UInt8 := 6
def attrAggregator : UInt8 := 7
def attrCommunities : UInt8 := 8
def attrOriginatorId : UInt8 := 9
def attrClusterList : UInt8 := 10
def attrMpReachNlri : UInt8 := 14
def attrMpUnreachNlri : UInt8 := 15
def attrExtCommunities : UInt8 := 16
def attrAs4Path : UInt8 := 17
def attrAs4Aggregator : UInt8 := 18

def safiMplsLabeledVpn : UInt8 := 128

variable (flags type : UInt8) (length : Nat)

def putAttrHeader : StreamM Unit := do
  putc flags
  putc type
  putc (UInt8.ofNat length)

def putAttrHeaderExt : StreamM Unit := do
  putc (flags ||| attrFlagExtlen)
  putc type
  putw (UInt16.ofNat length)

/-- The header of the community attributes: the two-byte form only when
the value needs it. -/
def putAttrHeaderAuto : StreamM Unit :=
  if length > 255 then putAttrHeaderExt flags type length
  else putAttrHeader flags type length

/-- A pointer that the source dereferences. -/
def deref {α : Type} : Option α → StreamM α
  | some a => return a
  | none => throw .nullDeref

/-- `assert (attr->extra)`. -/
def assertExtra : StreamM AttrExtra :=
  match attr.extra with
  | some attre => return attre
  | none => throw .assertion

/-- The path `bgp_packet_attribute` sends for the path `aspath` of the
attribute set. -/
def packetAspath (bgp : Bgp) (peer : Peer) (af : PeerAfFlags)
    (aspath : List Assegment) : List Assegment :=
  if peerSort peer = .ebgp ∧ (¬ af.asPathUnchanged ∨ aspath = []) ∧ ¬ af.rserverClient then
    if bgp.confederation then
      aspathAddSeq bgp.confedId (aspathDeleteConfedSeq aspath)
    else
      let aspath := aspathAddSeq peer.localAs aspath
      if peer.changeLocalAs ≠ 0 then aspathAddSeq peer.changeLocalAs aspath
      else aspath
  else if peerSort peer = .confed then
    aspathAddConfedSeq peer.localAs aspath
  else aspath

/-- An AS path attribute: the length is filled in when the path has been
written. -/
def putAspath (aspath : List Assegment) (use32bit : Bool) : StreamM Unit := do
  putc (flags ||| attrFlagExtlen)
  putc type
  let sizep := (← get).endp
  putw 0
  let size ← aspathPut aspath use32bit
  putwAt sizep (UInt16.ofNat size)

def putOrigin : StreamM Unit := do
  putAttrHeader attrFlagTrans attrOrigin 1
  putc attr.origin

variable (peer : Peer)

def putNexthop (attr : Attr) (afi : Afi) (safi : Safi) :
    StreamM Unit :=
  if attr.flag.nextHop ∧ afi = .ip then do
    putAttrHeader attrFlagTrans attrNextHop 4
    if safi = .mplsVpn ∧ attr.nexthop = 0 then putIpv4 peer.nexthopV4
    else putIpv4 attr.nexthop
  else return

def putMed : StreamM Unit :=
  if attr.flag.multiExitDisc then do
    putAttrHeader attrFlagOptional attrMultiExitDisc 4
    putl attr.med
  else return

def putLocalPref (attr : Attr) : StreamM Unit :=
  if peerSort peer = .ibgp ∨ peerSort peer = .confed then do
    putAttrHeader attrFlagTrans attrLocalPref 4
    putl attr.localPref
  else return

def putAtomicAggregate : StreamM Unit :=
  if attr.flag.atomicAggregate then
    putAttrHeader attrFlagTrans attrAtomicAggregate 0
  else return

def putAggregator (use32bit : Bool) : StreamM Unit :=
  if attr.flag.aggregator then do
    let attre ← assertExtra attr
    if use32bit then
      putAttrHeader (attrFlagOptional ||| attrFlagTrans) attrAggregator 8
      putl attre.aggregatorAs
    else
      putAttrHeader (attrFlagOptional ||| attrFlagTrans) attrAggregator 6
      if attre.aggregatorAs > 65535 then putw bgpAsTrans.toUInt16
      else putw attre.aggregatorAs.toUInt16
    putIpv4 attre.aggregatorAddr
  else return

def putCommunity (af : PeerAfFlags) : StreamM Unit :=
  if af.sendCommunity ∧ attr.flag.communities then do
    let community ← deref attr.community
    putAttrHeaderAuto (attrFlagOptional ||| attrFlagTrans) attrCommunities
      (community.val.length * 4)
    put community.bytes
  else return

variable (src : Option Peer)

/-- `peer_sort (peer) == BGP_PEER_IBGP && from && peer_sort (from) ==
BGP_PEER_IBGP`. -/
def reflects : Bool :=
  peerSort peer = .ibgp && src.any fun src => peerSort src = .ibgp

def putOriginatorId : StreamM Unit :=
  if attr.flag.originatorId then do putIpv4 (← deref attr.extra).originatorId
  else do putIpv4 (← deref src).remoteId

/-- The cluster list behind the own cluster id. Its length goes into one
byte whatever it is. -/
def putClusterList (bgp : Bgp) (attr : Attr) : StreamM Unit :=
  let ownId := if bgp.hasClusterId then bgp.clusterId else bgp.routerId
  match attr.extra.bind AttrExtra.cluster with
  | some cluster => do
    putAttrHeader attrFlagOptional attrClusterList (4 * cluster.length + 4)
    putIpv4 ownId
    put (cluster.flatMap be32)
  | none => do
    putAttrHeader attrFlagOptional attrClusterList 4
    putIpv4 ownId

/-- The route reflector part: originator id and cluster list. -/
def putReflector (bgp : Bgp) (peer : Peer) (attr : Attr) (src : Option Peer) : StreamM Unit :=
  if reflects peer src then do
    putAttrHeader attrFlagOptional attrOriginatorId 4
    putOriginatorId attr src
    putClusterList bgp attr
  else return

/-- An MP_REACH_NLRI attribute around its next hop and prefix; the length
byte is filled in at the end. -/
def putMpReach (afi : UInt16) (safi : UInt8) (nexthop nlri : StreamM Unit) :
    StreamM Unit := do
  putc attrFlagOptional
  putc attrMpReachNlri
  let sizep := (← get).endp
  putc 0
  putw afi
  putc safi
  nexthop
  -- SNPA
  putc 0
  nlri
  putcAt sizep (UInt8.ofNat ((← get).endp - sizep - 1))

variable (p : Prefix) (safi : Safi)

def putMpIpv6 : StreamM Unit :=
  match p.addr with
  | .inet6 _ => do
    let attre ← assertExtra attr
    putMpReach 2 safi.code (do
        putc attre.mpNexthopLen
        if attre.mpNexthopLen = 16 then put (be128 attre.mpNexthopGlobal)
        else if attre.mpNexthopLen = 32 then
          put (be128 attre.mpNexthopGlobal)
          put (be128 attre.mpNexthopLocal)
        else return)
      (do let _ ← streamPutPrefix p)
  | .inet _ => return

def putMpMulticast : StreamM Unit :=
  match p.addr, safi with
  | .inet _, .multicast =>
    putMpReach 1 safi.code (do
        putc 4
        putIpv4 attr.nexthop)
      (do let _ ← streamPutPrefix p)
  | _, _ => return

def putMpVpn (prd tag : List UInt8) : StreamM Unit :=
  match p.addr, safi with
  | .inet _, .mplsVpn =>
    putMpReach 1 safiMplsLabeledVpn (do
        putc 12
        putl 0
        putl 0
        let attre ← deref attr.extra
        put (be32 attre.mpNexthopGlobalIn))
      (do
        putc (UInt8.ofNat (p.prefixlen + 88))
        put (tag.take 3)
        put (prd.take 8)
        put (p.addr.bytes.take (psize p.prefixlen)))
  | _, _ => return

/-- The extended communities; only transitive ones leave the AS. -/
def putEcommunity (attr : Attr) (af : PeerAfFlags) :
    StreamM Unit :=
  if af.sendExtCommunity ∧ attr.flag.extCommunities then do
    let attre ← assertExtra attr
    let ecommunity ← deref attre.ecommunity
    if peerSort peer = .ibgp ∨ peerSort peer = .confed then
      putAttrHeaderAuto (attrFlagOptional ||| attrFlagTrans)
        attrExtCommunities (ecommunity.val.length * 8)
      put (ecommunity.val.flatMap be64)
    else
      let transitive := ecommunity.val.filter fun v => !ecomNonTransitive v
      if transitive.length ≠ 0 then
        putAttrHeaderAuto (attrFlagOptional ||| attrFlagTrans)
          attrExtCommunities (transitive.length * 8)
        transitive.forM fun v => put (be64 v)
      else return
  else return

/-- AS4_PATH, for a peer that cannot do four-byte AS numbers and a path
that has some. -/
def putAs4Path (aspath : List Assegment) (use32bit : Bool) : StreamM Unit :=
  if !use32bit && aspathHasAs4 aspath then
    putAspath (attrFlagTrans ||| attrFlagOptional) attrAs4Path (aspathDeleteConfedSeq aspath) true
  else return

def putAs4Aggregator (use32bit : Bool) : StreamM Unit :=
  if attr.flag.aggregator ∧ ¬ use32bit then do
    let attre ← assertExtra attr
    if attre.aggregatorAs > 65535 then
      putAttrHeader (attrFlagOptional ||| attrFlagTrans) attrAs4Aggregator 8
      putl attre.aggregatorAs
      putIpv4 attre.aggregatorAddr
    else return
  else return

def putTransit : StreamM Unit :=
  match attr.extra.bind AttrExtra.transit with
  | some val => put val
  | none => return

def bgpPacketAttribute (bgp : Bgp) (peer : Peer) (attr : Attr) (p : Prefix)
    (afi : Afi) (safi : Safi) (src : Option Peer) (prd tag : List UInt8) :
    StreamM UInt16 := do
  let cp := (← get).endp
  let use32bit := peer.capAs4Rcv
  let af := peer.afFlags afi safi
  putOrigin attr
  let aspath := packetAspath bgp peer af (← deref attr.aspath)
  putAspath attrFlagTrans attrAsPath aspath use32bit
  putNexthop peer attr afi safi
  putMed attr
  putLocalPref peer attr
  putAtomicAggregate attr
  putAggregator attr use32bit
  putCommunity attr af
  putReflector bgp peer attr src
  putMpIpv6 attr p safi
  putMpMulticast attr p safi
  putMpVpn attr p safi prd tag
  putEcommunity peer attr af
  putAs4Path aspath use32bit
  putAs4Aggregator attr use32bit
  putTransit attr
  return UInt16.ofNat ((← get).endp - cp)

end SdnQuagga
