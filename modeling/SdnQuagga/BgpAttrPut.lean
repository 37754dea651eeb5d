import SdnQuagga.BgpAspathWire
import SdnQuagga.BgpAttrParse

/-!
# What the attribute writer stores

`bgp_packet_attribute` towards a peer that can do four-byte AS numbers,
for an IPv4 unicast prefix: the bytes it appends are those of a list of
attributes, `packetAttrs`. Only the value of the cluster list can be
too long for its length field.
-/

namespace SdnQuagga

open FaultM SdnQuagga.Stream List

/-! ## Attributes on the wire -/

/-- One attribute: the flag byte, the type code, and the value. -/
structure RawAttr where
  flags : UInt8
  type : UInt8
  value : List UInt8
deriving DecidableEq, Repr

namespace RawAttr

variable (a : RawAttr)

def extlen : Bool := checkFlag a.flags attrFlagExtlen

/-- The length field, with what of the value's length fits in. -/
def lengthField : List UInt8 :=
  if a.extlen then be16 (UInt16.ofNat a.value.length)
  else [UInt8.ofNat a.value.length]

def header : List UInt8 := a.flags :: a.type :: a.lengthField

def bytes : List UInt8 := a.header ++ a.value

/-- The length field denotes the number of value bytes that follow. -/
def Fits : Prop :=
  a.value.length < if a.extlen then 65536 else 256

instance (a : RawAttr) : Decidable a.Fits := Nat.decLt ..

end RawAttr

def attrsWire (as : List RawAttr) : List UInt8 := as.flatMap RawAttr.bytes

@[simp] theorem attrsWire_nil : attrsWire [] = [] := rfl

@[simp] theorem attrsWire_cons (a : RawAttr) (as : List RawAttr) :
    attrsWire (a :: as) = a.bytes ++ attrsWire as := rfl

@[simp] theorem attrsWire_append (xs ys : List RawAttr) :
    attrsWire (xs ++ ys) = attrsWire xs ++ attrsWire ys :=
  flatMap_append

/-! ## The attributes of a packet -/

variable (attr : Attr)

def originAttr : RawAttr :=
  ⟨attrFlagTrans, attrOrigin, [attr.origin]⟩

def aspathAttr (segs : List Assegment) : RawAttr :=
  ⟨attrFlagTrans ||| attrFlagExtlen, attrAsPath, segsWire (segs.flatMap putChunks)⟩

def nexthopAttrs : List RawAttr :=
  if attr.flag.nextHop then
    [⟨attrFlagTrans, attrNextHop, be32 attr.nexthop⟩]
  else []

def medAttrs : List RawAttr :=
  if attr.flag.multiExitDisc then
    [⟨attrFlagOptional, attrMultiExitDisc, be32 attr.med⟩]
  else []

variable (peer : Peer)

def localPrefAttrs (attr : Attr) : List RawAttr :=
  if peerSort peer = .ibgp ∨ peerSort peer = .confed then
    [⟨attrFlagTrans, attrLocalPref, be32 attr.localPref⟩]
  else []

def atomicAttrs : List RawAttr :=
  if attr.flag.atomicAggregate then
    [⟨attrFlagTrans, attrAtomicAggregate, []⟩]
  else []

def aggregatorAttrs : List RawAttr :=
  if attr.flag.aggregator then
    [⟨attrFlagOptional ||| attrFlagTrans, attrAggregator,
      be32 attr.extraGet.aggregatorAs ++ be32 attr.extraGet.aggregatorAddr⟩]
  else []

/-- The flags of the community attributes, by the length of the value. -/
def autoFlags (length : Nat) : UInt8 :=
  if length > 255 then attrFlagOptional ||| attrFlagTrans ||| attrFlagExtlen
  else attrFlagOptional ||| attrFlagTrans

def autoAttr (type : UInt8) (value : List UInt8) : RawAttr :=
  ⟨autoFlags value.length, type, value⟩

def communityAttrs : List RawAttr :=
  match attr.flag.communities, attr.community with
  | true, some community => [autoAttr attrCommunities community.bytes]
  | _, _ => []

def sentOriginatorId (src : Option Peer) : UInt32 :=
  if attr.flag.originatorId then attr.extraGet.originatorId
  else (src.map Peer.remoteId).getD 0

variable (bgp : Bgp)

def sentCluster (attr : Attr) : List UInt32 :=
  (if bgp.hasClusterId then bgp.clusterId else bgp.routerId)
    :: (attr.extra.bind AttrExtra.cluster).getD []

def originatorAttr (src : Option Peer) : RawAttr :=
  ⟨attrFlagOptional, attrOriginatorId, be32 (sentOriginatorId attr src)⟩

def clusterAttr (attr : Attr) : RawAttr :=
  ⟨attrFlagOptional, attrClusterList, (sentCluster bgp attr).flatMap be32⟩

def reflectorAttrs (peer : Peer) (attr : Attr) (src : Option Peer) : List RawAttr :=
  if reflects peer src then [originatorAttr attr src, clusterAttr bgp attr]
  else []

/-- The extended communities that are sent: all of them inside the AS,
the transitive ones outside. -/
def sentEcommunity (attr : Attr) : List UInt64 :=
  match attr.flag.extCommunities, attr.extra.bind AttrExtra.ecommunity with
  | true, some ecom =>
    if peerSort peer = .ibgp ∨ peerSort peer = .confed then ecom.val
    else ecom.val.filter fun v => !ecomNonTransitive v
  | _, _ => []

def ecommunityAttrs (attr : Attr) : List RawAttr :=
  if sentEcommunity peer attr = [] then []
  else [autoAttr attrExtCommunities ((sentEcommunity peer attr).flatMap be64)]

/-- The attributes of a packet with the AS path `segs`. -/
def packetAttrs (peer : Peer) (attr : Attr) (src : Option Peer)
    (segs : List Assegment) : List RawAttr :=
  [originAttr attr, aspathAttr segs] ++ nexthopAttrs attr ++ medAttrs attr
    ++ localPrefAttrs peer attr ++ atomicAttrs attr ++ aggregatorAttrs attr
    ++ communityAttrs attr ++ reflectorAttrs bgp peer attr src ++ ecommunityAttrs peer attr

/-! ## The writer stores them -/

/-- The attribute sets the daemon holds: pointers are there when their
flag is, flagged communities are not empty, and nothing unknown is
carried along. -/
structure AttrWf (attr : Attr) : Prop where
  aggregator : attr.flag.aggregator → attr.extra ≠ none
  communities : attr.flag.communities → ∃ com, attr.community = some com ∧ com.val ≠ []
  originatorId : attr.flag.originatorId → attr.extra ≠ none
  extCommunities : attr.flag.extCommunities →
    ∃ ecom, attr.extra.bind AttrExtra.ecommunity = some ecom ∧ ecom.val ≠ []
  transit : attr.extra.bind AttrExtra.transit = none

variable {flags type : UInt8} {value : List UInt8} {m : StreamM Unit} {attr : Attr}

section

variable (h : checkFlag flags attrFlagExtlen = false)
include h

theorem header_short :
    RawAttr.header ⟨flags, type, value⟩ = [flags] ++ ([type] ++ [UInt8.ofNat value.length]) := by
  simp [RawAttr.header, RawAttr.lengthField, RawAttr.extlen, h]

theorem emits_putAttrHeader :
    Emits (putAttrHeader flags type value.length) (RawAttr.header ⟨flags, type, value⟩) () := by
  rw [header_short h]
  exact (emits_putc flags).bind ((emits_putc type).bind (emits_putc _))

theorem emits_attr {n : Nat} (hn : value.length = n) (hm : Emits m value ()) :
    Emits (do putAttrHeader flags type n; m)
      (attrsWire [⟨flags, type, value⟩]) () := by
  rw [attrsWire_cons, attrsWire_nil, List.append_nil, ← hn]
  exact (emits_putAttrHeader h).bind hm

end

theorem emits_putAttrHeaderAuto (type : UInt8) (value : List UInt8) :
    Emits (putAttrHeaderAuto (attrFlagOptional ||| attrFlagTrans) type
      value.length) (autoAttr type value).header () := by
  rw [putAttrHeaderAuto]
  split
  next hlg =>
    have hfd : (autoAttr type value).header
        = [attrFlagOptional ||| attrFlagTrans ||| attrFlagExtlen]
          ++ ([type] ++ be16 (UInt16.ofNat value.length)) := by
      simp only [RawAttr.header, RawAttr.lengthField, RawAttr.extlen, autoAttr,
        autoFlags, if_pos hlg]
      rfl
    rw [hfd]
    exact (emits_putc _).bind ((emits_putc type).bind (emits_putw _))
  next hsh =>
    have hauto : autoAttr type value = ⟨attrFlagOptional ||| attrFlagTrans, type, value⟩ := by
      rw [autoAttr, autoFlags, if_neg hsh]
    rw [hauto]
    exact emits_putAttrHeader (by decide)

theorem emits_autoAttr (type : UInt8) {n : Nat} (hn : value.length = n) (hm : Emits m value ()) :
    Emits (do
      putAttrHeaderAuto (attrFlagOptional ||| attrFlagTrans) type n
      m) (attrsWire [autoAttr type value]) () := by
  rw [attrsWire_cons, attrsWire_nil, List.append_nil, ← hn]
  exact (emits_putAttrHeaderAuto type value).bind hm

theorem emits_ite {c : Prop} [Decidable c] {as : List RawAttr} (h : c → Emits m (attrsWire as) ()) :
    Emits (if c then m else return) (attrsWire (if c then as else [])) () := by
  split_ifs with hc
  · exact h hc
  · exact .pure ()

variable (attr)

theorem emits_putOrigin : Emits (putOrigin attr) (attrsWire [originAttr attr]) () :=
  emits_attr (by decide) rfl (emits_putc _)

theorem emits_putNexthop :
    Emits (putNexthop peer attr .ip .unicast) (attrsWire (nexthopAttrs attr)) () := by
  rw [putNexthop, nexthopAttrs]
  simp only [and_true]
  exact emits_ite fun _ => emits_attr (by decide) (be32_length _)
    (emits_putIpv4 _)

theorem emits_putMed : Emits (putMed attr) (attrsWire (medAttrs attr)) () :=
  emits_ite fun _ => emits_attr (by decide) (be32_length _) (emits_putl _)

theorem emits_putLocalPref :
    Emits (putLocalPref peer attr) (attrsWire (localPrefAttrs peer attr)) () :=
  emits_ite fun _ => emits_attr (by decide) (be32_length _) (emits_putl _)

theorem emits_putAtomicAggregate :
    Emits (putAtomicAggregate attr) (attrsWire (atomicAttrs attr)) () := by
  refine emits_ite fun _ => ?_
  have hh : Emits (putAttrHeader attrFlagTrans attrAtomicAggregate 0)
      (RawAttr.header ⟨attrFlagTrans, attrAtomicAggregate, []⟩) () :=
    emits_putAttrHeader (by decide)
  simpa [attrsWire, RawAttr.bytes] using hh

variable {attr}

theorem emits_putAggregator (h : AttrWf attr) :
    Emits (putAggregator attr true) (attrsWire (aggregatorAttrs attr)) () := by
  refine emits_ite fun hfg => ?_
  obtain ⟨attre, hx⟩ := Option.ne_none_iff_exists'.mp (h.aggregator hfg)
  have hge : attr.extraGet = attre := by simp [Attr.extraGet, hx]
  rw [hge]
  simp only [assertExtra, hx, pure_bind, if_true]
  exact emits_attr (by decide) (by simp)
    ((emits_putl _).bind (emits_putIpv4 _))

variable {af : PeerAfFlags}

theorem emits_putCommunity (haf : af.sendCommunity) (h : AttrWf attr) :
    Emits (putCommunity attr af) (attrsWire (communityAttrs attr)) () := by
  rw [putCommunity, communityAttrs]
  cases hfg : attr.flag.communities with
  | false =>
    simp only [haf, true_and, Bool.false_eq_true, if_false]
    exact .pure ()
  | true =>
    obtain ⟨com, hcom, -⟩ := h.communities hfg
    simp only [haf, and_self, if_true, hcom, deref, pure_bind]
    exact emits_autoAttr attrCommunities
      (by rw [Community.bytes_length, Nat.mul_comm]) (emits_put _)

variable {src : Option Peer}

theorem emits_putOriginatorId {peer : Peer} (h : AttrWf attr) (hrf : reflects peer src) :
    Emits (putOriginatorId attr src) (be32 (sentOriginatorId attr src)) () := by
  rw [putOriginatorId, sentOriginatorId]
  split
  next hfg =>
    obtain ⟨attre, hx⟩ :=
      Option.ne_none_iff_exists'.mp (h.originatorId hfg)
    simp only [hx, deref, pure_bind, Attr.extraGet, Option.getD_some]
    exact emits_putIpv4 _
  · cases src with
    | none => simp [reflects] at hrf
    | some src =>
      simp only [deref, pure_bind, Option.map_some, Option.getD_some]
      exact emits_putIpv4 _

theorem emits_putClusterList (attr : Attr) :
    Emits (putClusterList bgp attr) (attrsWire [clusterAttr bgp attr]) () := by
  rw [putClusterList, clusterAttr, sentCluster]
  cases attr.extra.bind AttrExtra.cluster with
  | none =>
    refine emits_attr (by decide) (by simp) ?_
    simpa using emits_putIpv4 _
  | some cluster =>
    refine emits_attr (by decide) ?_ ((emits_putIpv4 _).bind (emits_put _))
    simp only [Option.getD_some, flatMap_cons, length_append,
      be32_length, flatMap_length_of_width be32_length]
    omega

theorem emits_putReflector (peer : Peer) (src : Option Peer) (h : AttrWf attr) :
    Emits (putReflector bgp peer attr src) (attrsWire (reflectorAttrs bgp peer attr src)) () := by
  refine emits_ite fun hrf => ?_
  have hh : Emits (putAttrHeader attrFlagOptional attrOriginatorId 4)
      (originatorAttr attr src).header () :=
    emits_putAttrHeader (by decide)
  rw [attrsWire_cons, RawAttr.bytes, append_assoc]
  exact hh.bind ((emits_putOriginatorId h hrf).bind (emits_putClusterList bgp attr))

theorem putMp_unicast (attr : Attr) {p : Prefix} (prd tag : List UInt8)
    (hp : ∃ a, p.addr = .inet a) :
    putMpIpv6 attr p .unicast = pure () ∧ putMpMulticast attr p .unicast = pure ()
      ∧ putMpVpn attr p .unicast prd tag = pure () := by
  obtain ⟨a, ha⟩ := hp
  simp [putMpIpv6, putMpMulticast, putMpVpn, ha]

theorem emits_forM_put (vals : List UInt64) :
    Emits (vals.forM fun v => put (be64 v)) (vals.flatMap be64) () := by
  induction vals with
  | nil => exact .pure ()
  | cons v vals ih => exact (emits_put _).bind ih

theorem emits_putEcommunity (haf : af.sendExtCommunity) (h : AttrWf attr) :
    Emits (putEcommunity peer attr af) (attrsWire (ecommunityAttrs peer attr)) () := by
  rw [putEcommunity, ecommunityAttrs]
  cases hfg : attr.flag.extCommunities with
  | false =>
    have hsn : sentEcommunity peer attr = [] := by simp [sentEcommunity, hfg]
    simp only [haf, true_and, Bool.false_eq_true, if_false, hsn, if_true]
    exact .pure ()
  | true =>
    obtain ⟨ecom, hec, hne⟩ := h.extCommunities hfg
    obtain ⟨attre, hx, hattre⟩ := Option.bind_eq_some_iff.mp hec
    have hsn : sentEcommunity peer attr
        = if peerSort peer = .ibgp ∨ peerSort peer = .confed then ecom.val
          else ecom.val.filter fun v => !ecomNonTransitive v := by
      simp only [sentEcommunity, hfg, hec]
    rw [hsn]
    simp only [haf, hx, hattre, assertExtra, deref, and_self, if_true, pure_bind]
    by_cases hin : peerSort peer = .ibgp ∨ peerSort peer = .confed
    · simp only [if_pos hin, if_neg hne]
      exact emits_autoAttr attrExtCommunities
        (by rw [flatMap_length_of_width be64_length, Nat.mul_comm])
        (emits_put _)
    · simp only [if_neg hin, ne_eq, length_eq_zero_iff]
      split
      · exact emits_autoAttr attrExtCommunities
          (by rw [flatMap_length_of_width be64_length, Nat.mul_comm])
          (emits_forM_put _)
      next hni =>
        rw [if_pos (not_not.mp hni)]
        exact .pure ()

theorem aspathAttr_extlen (segs : List Assegment) : (aspathAttr segs).extlen = true := by
  simp only [RawAttr.extlen, aspathAttr]
  decide

theorem emits_putAspath {segs : List Assegment} (h : NormalForm segs)
    (hsp : ∀ seg ∈ segs, splitCount seg ≤ 1) :
    Emits (putAspath attrFlagTrans attrAsPath segs true) (attrsWire [aspathAttr segs]) () := by
  have hput := emits_aspathPut h
  rw [(putCount_sum_spec segs).2.mpr hsp] at hput
  have hwire : attrsWire [aspathAttr segs] = [attrFlagTrans ||| attrFlagExtlen] ++ ([attrAsPath]
        ++ (be16 (UInt16.ofNat (segsWire (segs.flatMap putChunks)).length)
          ++ segsWire (segs.flatMap putChunks))) := by
    rw [attrsWire_cons, attrsWire_nil, List.append_nil, RawAttr.bytes,
      RawAttr.header, RawAttr.lengthField, if_pos (aspathAttr_extlen segs)]
    rfl
  rw [hwire]
  exact (emits_putc _).bind ((emits_putc _).bind (emits_putwAt hput))

/-- What is stored for an IPv4 unicast route and a peer with four-byte AS
numbers. -/
def putUnicast (bgp : Bgp) (peer : Peer) (attr : Attr) (src : Option Peer)
    (segs : List Assegment) : StreamM Unit := do
  putOrigin attr
  putAspath attrFlagTrans attrAsPath segs true
  putNexthop peer attr .ip .unicast
  putMed attr
  putLocalPref peer attr
  putAtomicAggregate attr
  putAggregator attr true
  putCommunity attr (peer.afFlags .ip .unicast)
  putReflector bgp peer attr src
  putEcommunity peer attr (peer.afFlags .ip .unicast)

/-- The writer appends the attributes of the packet and returns their
size. -/
theorem bgpPacketAttribute_ok {bgp : Bgp} {peer : Peer} {p : Prefix} {prd tag : List UInt8}
    {aspath segs : List Assegment} {s : Stream} (has4 : peer.capAs4Rcv)
    (hcom : (peer.afFlags .ip .unicast).sendCommunity)
    (hec : (peer.afFlags .ip .unicast).sendExtCommunity)
    (hp : ∃ a, p.addr = .inet a) (hwf : AttrWf attr) (hasp : attr.aspath = some aspath)
    (hsg : segs = packetAspath bgp peer (peer.afFlags .ip .unicast) aspath)
    (hnm : NormalForm segs) (hsp : ∀ seg ∈ segs, splitCount seg ≤ 1)
    (hrm : (attrsWire (packetAttrs bgp peer attr src segs)).length ≤ s.writeable) :
    bgpPacketAttribute bgp peer attr p .ip .unicast src prd tag s = .ok (UInt16.ofNat
          (attrsWire (packetAttrs bgp peer attr src segs)).length,
        s.append (attrsWire (packetAttrs bgp peer attr src segs))) := by
  have hbd : Emits (putUnicast bgp peer attr src segs)
      (attrsWire (packetAttrs bgp peer attr src segs)) () := by
    have h : Emits (putUnicast bgp peer attr src segs) _ () :=
      (emits_putOrigin attr).seq ((emits_putAspath hnm hsp).seq
      ((emits_putNexthop peer attr).seq ((emits_putMed attr).seq
      ((emits_putLocalPref peer attr).seq ((emits_putAtomicAggregate attr).seq
      ((emits_putAggregator hwf).seq ((emits_putCommunity hcom hwf).seq
      ((emits_putReflector bgp peer src hwf).seq (emits_putEcommunity peer hec hwf)))))))))
    simpa [packetAttrs] using h
  obtain ⟨hmp6, hmpm, hmpv⟩ := putMp_unicast attr prd tag hp
  have hx : putAs4Path segs true = pure ()
      ∧ putAs4Aggregator attr true = pure () ∧ putTransit attr = pure () := by
    simp [putAs4Path, putAs4Aggregator, putTransit, hwf.transit]
  obtain ⟨has4p, has4a, htr⟩ := hx
  have hr := hbd s hrm
  have hal : bgpPacketAttribute bgp peer attr p .ip .unicast src prd tag = (do
        let cp := (← get).endp
        putUnicast bgp peer attr src segs
        return UInt16.ofNat ((← get).endp - cp)) := by
    simp only [bgpPacketAttribute, hasp, deref, pure_bind, has4, ← hsg,
      hmp6, hmpm, hmpv, has4p, has4a, htr, putUnicast, bind_assoc]
  rw [hal, get_bind, bind_ok hr, get_bind, append_endp, Nat.add_sub_cancel_left]
  rfl

end SdnQuagga
