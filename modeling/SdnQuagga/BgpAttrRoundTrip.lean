import SdnQuagga.BgpAspathEdit
import SdnQuagga.BgpAttrFrame
import SdnQuagga.BgpAttrRead

/-!
# The attribute block round trip

What `bgp_packet_attribute` stores for an IPv4 unicast route and a peer
with four-byte AS numbers, read back by `bgp_attr_parse` on the other
side. The receiver ends up with the sender's values in all cases but two:
a reflected cluster list whose length does not fit in its length byte,
and a confederation sequence that the prepended AS makes longer than a
wire segment.
-/

namespace SdnQuagga

open FaultM SdnQuagga.Stream List AttrFlags RawAttr

/-! ## Attribute groups and their effect -/

/-- The parser takes all of `as` and changes the attribute set by `f`. -/
def Parses (peer : Peer) (uninit : UInt8 → UInt16) (as : List RawAttr) (f : Attr → Attr) : Prop :=
  ∃ es : Effects, es.attrs = as ∧ es.apply = f
    ∧ (∀ e ∈ es, FlagsOk e.1) ∧ ∀ e ∈ es, Handles peer uninit e.1 e.2

section

variable {peer : Peer} {uninit : UInt8 → UInt16}

theorem Parses.nil : Parses peer uninit [] id := ⟨[], rfl, rfl, by simp, by simp⟩

theorem Parses.single {a : RawAttr} {f : Attr → Attr} (hfl : FlagsOk a)
    (hhan : Handles peer uninit a f) : Parses peer uninit [a] f :=
  ⟨[(a, f)], rfl, rfl, by simpa using hfl, by simpa using hhan⟩

variable {f g : Attr → Attr}

theorem Parses.append {as bs : List RawAttr}
    (hf : Parses peer uninit as f) (hg : Parses peer uninit bs g) :
    Parses peer uninit (as ++ bs) fun attr => g (f attr) := by
  obtain ⟨es, rfl, rfl, hfl, hhan⟩ := hf
  obtain ⟨es', rfl, rfl, hfl', hhan'⟩ := hg
  refine ⟨es ++ es', by simp [Effects.attrs], ?_, ?_, ?_⟩
  · funext attr
    exact foldl_append
  · exact forall_mem_append.mpr ⟨hfl, hfl'⟩
  · exact forall_mem_append.mpr ⟨hhan, hhan'⟩

theorem Parses.ite {c : Prop} [Decidable c] {as : List RawAttr}
    (hps : c → Parses peer uninit as f) (hs : ∀ got, g got = if c then f got else got) :
    Parses peer uninit (if c then as else []) g := by
  rw [funext hs]
  by_cases hc : c
  · simpa only [if_pos hc] using hps hc
  · simpa only [if_neg hc] using .nil

end

theorem flagsOk_of {flags type desired : UInt8} {value : List UInt8} (hlow : 0xF0 &&& flags = flags)
    (hge : attrFlagsValues[type.toNat]? = some desired)
    (hok : flagsConflict flags desired = false) : FlagsOk ⟨flags, type, value⟩ :=
  ⟨hlow, desired, hge, .inr hok⟩

/-! ## What the receiver makes of each group -/

variable (attr got : Attr)

/-- The flags `attr` has and the ones the receiver got before. -/
def recvOrigin : Attr :=
  { got with origin := attr.origin
             flag := { got.flag with origin := true } }

def recvAspath (segs : List Assegment) (got : Attr) : Attr :=
  { got with aspath := some segs
             flag := { got.flag with asPath := true } }

def recvNexthop : Attr :=
  { got with
    nexthop := if attr.flag.nextHop then attr.nexthop else got.nexthop
    flag := { got.flag with
      nextHop := attr.flag.nextHop || got.flag.nextHop } }

def recvMed : Attr :=
  { got with
    med := if attr.flag.multiExitDisc then attr.med else got.med
    flag := { got.flag with
      multiExitDisc := attr.flag.multiExitDisc || got.flag.multiExitDisc } }

variable (peer : Peer)

/-- Local preference is for the own AS and the confederation. -/
def sendsLocalPref : Bool :=
  peerSort peer = .ibgp || peerSort peer = .confed

def recvLocalPref (attr got : Attr) : Attr :=
  { got with
    localPref := if sendsLocalPref peer then attr.localPref
      else got.localPref
    flag := { got.flag with
      localPref := sendsLocalPref peer || got.flag.localPref } }

def recvAtomic : Attr :=
  { got with flag := { got.flag with
      atomicAggregate :=
        attr.flag.atomicAggregate || got.flag.atomicAggregate } }

def recvAggregator : Attr :=
  { got with
    extra := if attr.flag.aggregator then
        some { got.extraGet with
          aggregatorAs := attr.extraGet.aggregatorAs
          aggregatorAddr := attr.extraGet.aggregatorAddr }
      else got.extra
    flag := { got.flag with
      aggregator := attr.flag.aggregator || got.flag.aggregator } }

def recvCommunity : Attr :=
  { got with
    community := if attr.flag.communities then attr.community
      else got.community
    flag := { got.flag with
      communities := attr.flag.communities || got.flag.communities } }

def recvOriginatorId (originatorId : UInt32) (got : Attr) : Attr :=
  { got with
    extra := some { got.extraGet with originatorId := originatorId }
    flag := { got.flag with originatorId := true } }

def recvClusterList (cluster : List UInt32) (got : Attr) : Attr :=
  { got with
    extra := some { got.extraGet with cluster := some cluster }
    flag := { got.flag with clusterList := true } }

def recvReflector (bgp : Bgp) (peer : Peer) (attr : Attr) (src : Option Peer) (got : Attr) : Attr :=
  if reflects peer src then
    recvClusterList (sentCluster bgp attr) (recvOriginatorId (sentOriginatorId attr src) got)
  else got

theorem sentEcommunity_ascending (attr : Attr) : (sentEcommunity peer attr).Pairwise (· < ·) := by
  rw [sentEcommunity]
  split
  · split
    · exact Ecommunity.ascending _
    · exact (Ecommunity.ascending _).filter _
  · exact List.Pairwise.nil

/-- The extended communities as the receiver interns them. -/
def receivedEcommunity (attr : Attr) : Ecommunity :=
  ⟨sentEcommunity peer attr, sentEcommunity_ascending peer attr⟩

def recvEcommunity (attr got : Attr) : Attr :=
  { got with
    extra := if sentEcommunity peer attr = [] then got.extra
      else some { got.extraGet with
        ecommunity := some (receivedEcommunity peer attr) }
    flag := { got.flag with
      extCommunities := sentEcommunity peer attr ≠ []
        || got.flag.extCommunities } }

section

variable {peer recv : Peer} {uninit : UInt8 → UInt16} {attr : Attr}

theorem parses_origin (h : attr.origin = 0 ∨ attr.origin = 1 ∨ attr.origin = 2) :
    Parses recv uninit [originAttr attr] (recvOrigin attr) :=
  .single (flagsOk_of rfl rfl (by decide)) (handles_origin h)

theorem parses_aspath {segs : List Assegment} (has4 : recv.capAs4Rcv) (h : NormalForm segs) :
    Parses recv uninit [aspathAttr segs] (recvAspath (wirePath segs)) :=
  .single (flagsOk_of rfl rfl (by decide))
    (handles_aspath has4 (reads_wirePath h) (segsWire_length_even _))

theorem parses_nexthop (h : attr.flag.nextHop → martianNexthop attr.nexthop = false) :
    Parses recv uninit (nexthopAttrs attr) (recvNexthop attr) := by
  refine .ite (fun hfg => .single (flagsOk_of rfl rfl (by decide))
    (handles_nexthop (h hfg))) fun got => ?_
  cases hfg : attr.flag.nextHop <;> simp [recvNexthop, hfg]

theorem parses_med : Parses recv uninit (medAttrs attr) (recvMed attr) := by
  refine .ite (fun _ => .single (flagsOk_of rfl rfl (by decide)) (handles_med _))
    fun got => ?_
  cases hfg : attr.flag.multiExitDisc <;> simp [recvMed, hfg]

theorem parses_localPref (hsor : peerSort recv = peerSort peer) :
    Parses recv uninit (localPrefAttrs peer attr) (recvLocalPref peer attr) := by
  refine .ite (fun hin => .single (flagsOk_of rfl rfl (by decide))
    (handles_localPref _ ?_)) fun got => ?_
  · rw [hsor]
    rcases hin with hin | hin <;> simp [hin]
  · have hsends : sendsLocalPref peer ↔ peerSort peer = .ibgp ∨ peerSort peer = .confed := by
      simp [sendsLocalPref]
    rw [← if_congr hsends rfl rfl]
    cases hsn : sendsLocalPref peer <;> simp [recvLocalPref, hsn]

theorem parses_atomic : Parses recv uninit (atomicAttrs attr) (recvAtomic attr) := by
  refine .ite (fun _ => .single (flagsOk_of rfl rfl (by decide)) handles_atomic)
    fun got => ?_
  cases hfg : attr.flag.atomicAggregate <;> simp [recvAtomic, hfg]

theorem parses_aggregator (has4 : recv.capAs4Rcv) :
    Parses recv uninit (aggregatorAttrs attr) (recvAggregator attr) := by
  refine .ite (fun _ => .single (flagsOk_of rfl rfl (by decide))
    (handles_aggregator _ _ has4)) fun got => ?_
  cases hfg : attr.flag.aggregator <;> simp [recvAggregator, hfg]

theorem flagsOk_autoAttr {type : UInt8} {value : List UInt8}
    (hge : attrFlagsValues[type.toNat]? = some 0xC0) : FlagsOk (autoAttr type value) := by
  have hfl : autoFlags value.length = 0xD0 ∨ autoFlags value.length = 0xC0 := by
    rw [autoFlags]
    split
    · exact .inl rfl
    · exact .inr rfl
  rw [autoAttr]
  rcases hfl with h | h
  · rw [h]
    exact flagsOk_of rfl hge (by decide)
  · rw [h]
    exact flagsOk_of rfl hge (by decide)

theorem parses_community (h : AttrWf attr) :
    Parses recv uninit (communityAttrs attr) (recvCommunity attr) := by
  rw [communityAttrs]
  cases hfg : attr.flag.communities with
  | false =>
    have hid : recvCommunity attr = id := by
      funext got
      simp [recvCommunity, hfg]
    rw [hid]
    exact .nil
  | true =>
    obtain ⟨com, hcom, hne⟩ := h.communities hfg
    have hs : recvCommunity attr = fun got => { got with
        community := some com
        flag := { got.flag with communities := true } } := by
      funext got
      simp [recvCommunity, hfg, hcom]
    rw [hcom, hs]
    exact .single (flagsOk_autoAttr rfl) (handles_community hne)

theorem parses_originatorId (src : Option Peer) :
    Parses recv uninit [originatorAttr attr src] (recvOriginatorId (sentOriginatorId attr src)) :=
  .single (flagsOk_of rfl rfl (by decide)) (handles_originatorId _)

theorem parses_clusterList (cluster : List UInt32) :
    Parses recv uninit [⟨attrFlagOptional, attrClusterList, cluster.flatMap be32⟩]
      (recvClusterList cluster) := by
  have hmod : (cluster.flatMap be32).length % 4 = 0 := by
    rw [flatMap_length_of_width be32_length]
    exact Nat.mul_mod_right 4 _
  have hhan : Handles recv uninit ⟨attrFlagOptional, attrClusterList, cluster.flatMap be32⟩ _ :=
    handles_clusterList hmod
  rw [clusterParse_flatMap] at hhan
  exact .single (flagsOk_of rfl rfl (by decide)) hhan

theorem parses_reflector (bgp : Bgp) (peer : Peer) (attr : Attr) (src : Option Peer) :
    Parses recv uninit (reflectorAttrs bgp peer attr src) (recvReflector bgp peer attr src) := by
  exact .ite (fun _ => (parses_originatorId src).append (parses_clusterList _)) fun _ => rfl

theorem parses_ecommunity :
    Parses recv uninit (ecommunityAttrs peer attr) (recvEcommunity peer attr) := by
  rw [ecommunityAttrs, ← ite_not]
  refine .ite (fun hne : (receivedEcommunity peer attr).val ≠ [] =>
    .single (flagsOk_autoAttr rfl) (handles_extCommunities hne)) fun got => ?_
  by_cases hni : sentEcommunity peer attr = [] <;> simp [recvEcommunity, hni]

end

/-! ## The whole block -/

/-- The attributes in front of the reflector's. -/
def plainAttrs (peer : Peer) (attr : Attr) (segs : List Assegment) :
    List RawAttr :=
  [originAttr attr, aspathAttr segs] ++ nexthopAttrs attr ++ medAttrs attr
    ++ localPrefAttrs peer attr ++ atomicAttrs attr ++ aggregatorAttrs attr ++ communityAttrs attr

variable (bgp : Bgp)

theorem packetAttrs_eq (peer : Peer) (attr : Attr) (src : Option Peer) (segs : List Assegment) :
    packetAttrs bgp peer attr src segs = plainAttrs peer attr segs
      ++ reflectorAttrs bgp peer attr src ++ ecommunityAttrs peer attr := rfl

def recvPlain (peer : Peer) (attr : Attr) (path : List Assegment) (got : Attr) : Attr :=
  recvCommunity attr (recvAggregator attr (recvAtomic attr
    (recvLocalPref peer attr (recvMed attr (recvNexthop attr
      (recvAspath path (recvOrigin attr got)))))))

def recvAll (peer : Peer) (attr : Attr) (src : Option Peer)
    (path : List Assegment) (got : Attr) : Attr :=
  recvEcommunity peer attr (recvReflector bgp peer attr src (recvPlain peer attr path got))

def sentAspath (peer : Peer) (aspath : List Assegment) :
    List Assegment :=
  packetAspath bgp peer (peer.afFlags .ip .unicast) aspath

/-- What has to hold of an outgoing route and of the two ends of the
session. The two peer structures describe each other's router: both ends
know four-byte AS numbers and agree on the kind of session. The receiver
rejects a martian next hop, confederation segments from outside, and,
when it is told to, a path that does not start with the neighbour's AS. -/
structure Exchange (bgp : Bgp) (peer recv : Peer) (attr : Attr)
    (aspath : List Assegment) : Prop where
  sendAs4 : peer.capAs4Rcv
  recvAs4 : recv.capAs4Rcv
  community : (peer.afFlags .ip .unicast).sendCommunity
  extCommunity : (peer.afFlags .ip .unicast).sendExtCommunity
  sort : peerSort recv = peerSort peer
  wf : AttrWf attr
  origin : attr.origin = 0 ∨ attr.origin = 1 ∨ attr.origin = 2
  nexthop : attr.flag.nextHop → martianNexthop attr.nexthop = false
  aspath_eq : attr.aspath = some aspath
  normal : NormalForm aspath
  lengths : ∀ seg ∈ aspath, seg.length ≤ asSegmentMax
  confed : peerSort peer = .ebgp → aspathConfedCheck (sentAspath bgp peer aspath) = false
  firstAs : peerSort peer = .ebgp → recv.bgp.enforceFirstAs →
    aspathFirstasCheck (sentAspath bgp peer aspath) recv.as

section

variable {bgp : Bgp} {peer recv : Peer} {attr : Attr}
  {aspath segs : List Assegment} {uninit : UInt8 → UInt16}

theorem parses_plain (h : Exchange bgp peer recv attr aspath) (hsg : NormalForm segs) :
    Parses recv uninit (plainAttrs peer attr segs) (recvPlain peer attr (wirePath segs)) :=
  ((((((((parses_origin h.origin).append (parses_aspath h.recvAs4 hsg)).append
    (parses_nexthop h.nexthop)).append parses_med).append
    (parses_localPref h.sort)).append parses_atomic).append
    (parses_aggregator h.recvAs4)).append (parses_community h.wf))

/-- Each attribute of the block has its own type. -/
theorem types_ite {c : Prop} [Decidable c] (as : List RawAttr) :
    Sublist ((if c then as else []).map type) (as.map type) := by
  split
  · exact .refl _
  · exact nil_sublist _

theorem types_plain :
    Sublist ((plainAttrs peer attr segs).map type)
      [attrOrigin, attrAsPath, attrNextHop, attrMultiExitDisc, attrLocalPref,
        attrAtomicAggregate, attrAggregator, attrCommunities] := by
  have hcom : Sublist ((communityAttrs attr).map type) [attrCommunities] := by
    rw [communityAttrs]
    split
    · exact .refl _
    · exact nil_sublist _
  simp only [plainAttrs, map_append]
  exact ((((((Sublist.refl [attrOrigin, attrAsPath]).append
    (types_ite _)).append (types_ite _)).append (types_ite _)).append
    (types_ite _)).append (types_ite _)).append hcom

theorem distinct_packetAttrs (src : Option Peer) :
    ((packetAttrs bgp peer attr src segs).map type).Nodup := by
  have hec : Sublist ((ecommunityAttrs peer attr).map type) [attrExtCommunities] := by
    rw [ecommunityAttrs, ← ite_not]
    exact types_ite _
  rw [packetAttrs_eq, map_append, map_append]
  have hrf : Sublist ((reflectorAttrs bgp peer attr src).map type)
      [attrOriginatorId, attrClusterList] := types_ite _
  exact ((types_plain.append hrf).append hec).nodup (by decide)

/-! ## Length fields -/

/-- A value that is short enough for a one-byte length, if it has one. -/
def Short (a : RawAttr) : Prop := a.extlen = false → a.value.length < 256

variable {as : List RawAttr}

theorem value_length_le {a : RawAttr} (h : a ∈ as) : a.value.length ≤ (attrsWire as).length := by
  obtain ⟨xs, ys, rfl⟩ := append_of_mem h
  have hby : a.bytes.length = a.header.length + a.value.length := length_append
  rw [attrsWire_append, attrsWire_cons, length_append, length_append]
  omega

theorem fits_of_short (h : ∀ a ∈ as, Short a)
    (hsize : (attrsWire as).length < 65536) : ∀ a ∈ as, a.Fits := by
  intro a ha
  have hle := value_length_le ha
  rw [RawAttr.Fits]
  split
  · exact hle.trans_lt hsize
  next hext => exact h a ha (by simpa using hext)

theorem short_autoAttr (type : UInt8) (value : List UInt8) : Short (autoAttr type value) := by
  intro hext
  by_contra hlg
  have hfl : autoFlags value.length = attrFlagOptional ||| attrFlagTrans ||| attrFlagExtlen := by
    rw [autoFlags, if_pos]
    exact Nat.lt_of_succ_le (Nat.le_of_not_lt hlg)
  simp only [extlen, autoAttr, hfl] at hext
  exact absurd hext (by decide)

theorem short_ite {c : Prop} [Decidable c] {a : RawAttr} (h : Short a) :
    ∀ x ∈ (if c then [a] else []), Short x := by
  intro x hx
  split at hx
  · rwa [mem_singleton.mp hx]
  · cases hx

theorem short_plain : ∀ a ∈ plainAttrs peer attr segs, Short a := by
  have hasp : Short (aspathAttr segs) := fun hext =>
    absurd hext (by rw [aspathAttr_extlen]; decide)
  have hcom : ∀ a ∈ communityAttrs attr, Short a := by
    intro a ha
    rw [communityAttrs] at ha
    split at ha
    · rw [mem_singleton.mp ha]
      exact short_autoAttr _ _
    · cases ha
  simp only [plainAttrs, forall_mem_append]
  refine ⟨⟨⟨⟨⟨⟨?_, short_ite ?_⟩, short_ite ?_⟩, short_ite ?_⟩, short_ite ?_⟩, short_ite ?_⟩, hcom⟩
  · exact forall_mem_cons.mpr ⟨fun _ => by simp [originAttr], by simpa using hasp⟩
  all_goals simp [Short]

theorem short_ecommunity : ∀ a ∈ ecommunityAttrs peer attr, Short a := by
  rw [ecommunityAttrs, ← ite_not]
  exact short_ite (short_autoAttr _ _)

/-! ## Parsing the block -/

theorem length_le_attrsWire (as : List RawAttr) : as.length ≤ (attrsWire as).length := by
  induction as with
  | nil => exact le_rfl
  | cons a as ih =>
    have := bytes_pos a
    rw [attrsWire_cons, length_append, length_cons]
    omega

/-- The loop on a block that starts with `as`. -/
theorem attrLoop_parses {f : Attr → Attr} (hpas : Parses recv uninit as f) (hft : ∀ a ∈ as, a.Fits)
    (hdis : (as.map type).Nodup) {input : Stream} {size : Nat}
    (hv : attrsWire as <+: input.unread) (hsize : (attrsWire as).length ≤ size) :
    ∃ bound, attrLoop recv uninit (input.getp + size) size [] (.start input size)
      = attrLoop recv uninit (input.getp + size) bound
        (as.map type).reverse { ParseState.start input size with
          input := input.advance (attrsWire as).length, attr := f .empty } := by
  obtain ⟨es, rfl, rfl, hfl, hhan⟩ := hpas
  have hes : es.Ok recv uninit := by
    refine ⟨fun e he => ?_, hfl, hhan, hdis⟩
    exact hft e.1 (mem_map_of_mem he)
  have hlen : es.length ≤ size := by
    have := length_le_attrsWire es.attrs
    rw [Effects.attrs, length_map] at this
    exact this.trans hsize
  obtain ⟨bound, hbd⟩ := Nat.exists_eq_add_of_le hlen
  have hlp : attrLoop recv uninit (input.getp + size) (es.length + bound) []
      (.start input size) = _ :=
    attrLoop_append hes (.start input size) (by simp) hv
      (Nat.add_le_add_left hsize _) le_rfl
  rw [List.append_nil, ← hbd] at hlp
  exact ⟨bound, hlp⟩

/-- The path after the receiver's own `local-as` has been applied. -/
def recvLocalAs (recv : Peer) (path : List Assegment) : List Assegment :=
  if recv.changeLocalAs ≠ 0 ∧ ¬ recv.localAsNoPrepend then
    aspathAddSeq recv.changeLocalAs path
  else path

/-- The path checks let the path through. -/
structure PathOk (recv : Peer) (path : List Assegment) : Prop where
  left : peerSort recv = .confed → aspathLeftConfedCheck path
  confed : peerSort recv = .ebgp → aspathConfedCheck path = false
  firstAs : peerSort recv = .ebgp → recv.bgp.enforceFirstAs → aspathFirstasCheck path recv.as

theorem attrFinish_ok {path : List Assegment} (st : ParseState)
    (has4 : recv.capAs4Rcv) (hok : PathOk recv path)
    (hasp : st.attr.aspath = some path) (hfg : st.attr.flag.asPath) :
    attrFinish recv st.input.getp st = .ok (.proceed, { st with
      attr := { st.attr with aspath := some (recvLocalAs recv path) } }) := by
  have hmun : bgpAttrMungeAs4Attrs recv = pure () := by rw [bgpAttrMungeAs4Attrs, if_pos has4]
  have hshp : ¬ ((peerSort recv = .confed ∧ ¬ aspathLeftConfedCheck path)
      ∨ (peerSort recv = .ebgp ∧ aspathConfedCheck path)) := by
    rintro (⟨hsor, hlf⟩ | ⟨hsor, hcf⟩)
    · exact hlf (hok.left hsor)
    · exact absurd hcf (by simp [hok.confed hsor])
  have hfst : ¬ (recv.bgp.enforceFirstAs ∧ peerSort recv = .ebgp
      ∧ ¬ aspathFirstasCheck path recv.as) :=
    fun ⟨henf, hsor, hno⟩ => hno (hok.firstAs hsor henf)
  have hderef : (derefParse (some path) : ParseM _) = pure path := rfl
  rw [attrFinish, get_bind, if_neg (by simp), hmun, pure_bind, get_bind,
    if_pos hfg, bgpAttrAspathCheck, get_bind, hasp, hderef, pure_bind,
    if_neg hshp, if_neg hfst, recvLocalAs, whenever]
  split
  · rfl
  · rw [← hasp]
    rfl

end

/-! ## The round trip -/

/-- `got` has the values of `attr`, with the changes a BGP speaker makes
on the way: ASNs are prepended to the path, local preference stays inside
the AS and the confederation, non-transitive extended communities stay
inside too, and a reflected route has an originator id and the own
cluster id. -/
structure Rebuilt (bgp : Bgp) (peer recv : Peer) (attr : Attr)
    (src : Option Peer) (aspath : List Assegment) (got : Attr) : Prop where
  origin : got.flag.origin = true ∧ got.origin = attr.origin
  aspath : got.flag.asPath = true
    ∧ got.aspath = some (recvLocalAs recv (sentAspath bgp peer aspath))
  nexthop : got.flag.nextHop = attr.flag.nextHop ∧ (attr.flag.nextHop → got.nexthop = attr.nexthop)
  med : got.flag.multiExitDisc = attr.flag.multiExitDisc
    ∧ (attr.flag.multiExitDisc → got.med = attr.med)
  localPref : got.flag.localPref = sendsLocalPref peer
    ∧ (sendsLocalPref peer → got.localPref = attr.localPref)
  atomicAggregate : got.flag.atomicAggregate = attr.flag.atomicAggregate
  aggregator : got.flag.aggregator = attr.flag.aggregator ∧ (attr.flag.aggregator →
      got.extraGet.aggregatorAs = attr.extraGet.aggregatorAs
        ∧ got.extraGet.aggregatorAddr = attr.extraGet.aggregatorAddr)
  communities : got.flag.communities = attr.flag.communities
    ∧ (attr.flag.communities → got.community = attr.community)
  originatorId : got.flag.originatorId = reflects peer src ∧ (reflects peer src →
      got.extraGet.originatorId = sentOriginatorId attr src)
  clusterList : got.flag.clusterList = reflects peer src ∧ (reflects peer src →
      got.extraGet.cluster = some (sentCluster bgp attr))
  extCommunities :
    got.flag.extCommunities = decide (sentEcommunity peer attr ≠ [])
      ∧ (sentEcommunity peer attr ≠ [] →
        got.extraGet.ecommunity = some (receivedEcommunity peer attr))

variable (bgp : Bgp)

theorem recvAll_extraGet (peer : Peer) (attr : Attr) (src : Option Peer) (path : List Assegment) :
    (recvAll bgp peer attr src path .empty).extraGet = { AttrExtra.new with
      aggregatorAs := if attr.flag.aggregator then
        attr.extraGet.aggregatorAs else 0
      aggregatorAddr := if attr.flag.aggregator then
        attr.extraGet.aggregatorAddr else 0
      originatorId := if reflects peer src then
        sentOriginatorId attr src else 0
      cluster := if reflects peer src then some (sentCluster bgp attr)
        else none
      ecommunity := if sentEcommunity peer attr = [] then none
        else some (receivedEcommunity peer attr) } := by
  by_cases hagg : attr.flag.aggregator <;>
    by_cases hrf : reflects peer src <;>
    by_cases hec : sentEcommunity peer attr = [] <;>
    simp [recvAll, recvEcommunity, recvReflector, recvClusterList,
      recvOriginatorId, recvPlain, recvCommunity, recvAggregator, recvAtomic,
      recvLocalPref, recvMed, recvNexthop, recvAspath, recvOrigin,
      Attr.extraGet, Attr.empty, AttrExtra.new, hagg, hrf, hec]

theorem recvAll_flag (peer : Peer) (attr : Attr) (src : Option Peer) (path : List Assegment) :
    (recvAll bgp peer attr src path .empty).flag = { empty with
      origin := true
      asPath := true
      nextHop := attr.flag.nextHop
      multiExitDisc := attr.flag.multiExitDisc
      localPref := sendsLocalPref peer
      atomicAggregate := attr.flag.atomicAggregate
      aggregator := attr.flag.aggregator
      communities := attr.flag.communities
      originatorId := reflects peer src
      clusterList := reflects peer src
      extCommunities := sentEcommunity peer attr ≠ [] } := by
  by_cases hrf : reflects peer src <;>
    simp [recvAll, recvEcommunity, recvReflector, recvClusterList,
      recvOriginatorId, recvPlain, recvCommunity, recvAggregator, recvAtomic,
      recvLocalPref, recvMed, recvNexthop, recvAspath, recvOrigin, Attr.empty, empty, hrf]

/-- The reflector's attributes and the extended communities touch the flags
and the extra part only. -/
theorem recvAll_eq (peer : Peer) (attr : Attr) (src : Option Peer) (path : List Assegment) :
    ∃ extra flag, recvAll bgp peer attr src path .empty
      = { recvPlain peer attr path .empty with extra := extra, flag := flag } := by
  rw [recvAll, recvReflector]
  split
  · exact ⟨_, _, rfl⟩
  · exact ⟨_, _, rfl⟩

/-- Apart from the AS path the receiver always gets it right. -/
theorem rebuilt_recvAll_iff (peer recv : Peer) (attr : Attr)
    (src : Option Peer) (aspath path path' : List Assegment) :
    Rebuilt bgp peer recv attr src aspath
        { recvAll bgp peer attr src path .empty with aspath := some path' }
      ↔ path' = recvLocalAs recv (sentAspath bgp peer aspath) := by
  refine ⟨fun h => Option.some.inj h.aspath.2, ?_⟩
  rintro rfl
  have hfg := recvAll_flag bgp peer attr src path
  have hextra := recvAll_extraGet bgp peer attr src path
  obtain ⟨extra, flag, heq⟩ := recvAll_eq bgp peer attr src path
  rw [heq] at hfg hextra ⊢
  exact {
    origin := ⟨(congrArg origin hfg :), rfl⟩
    aspath := ⟨(congrArg asPath hfg :), rfl⟩
    nexthop := ⟨(congrArg nextHop hfg :), fun h => if_pos h⟩
    med := ⟨(congrArg multiExitDisc hfg :), fun h => if_pos h⟩
    localPref := ⟨(congrArg localPref hfg :), fun h => if_pos h⟩
    atomicAggregate := (congrArg atomicAggregate hfg :)
    aggregator := ⟨(congrArg aggregator hfg :), fun h =>
      ⟨(congrArg AttrExtra.aggregatorAs hextra).trans (if_pos h),
        (congrArg AttrExtra.aggregatorAddr hextra).trans (if_pos h)⟩⟩
    communities := ⟨(congrArg communities hfg :), fun h => if_pos h⟩
    originatorId := ⟨(congrArg originatorId hfg :),
      fun h => (congrArg AttrExtra.originatorId hextra).trans (if_pos h)⟩
    clusterList := ⟨(congrArg clusterList hfg :),
      fun h => (congrArg AttrExtra.cluster hextra).trans (if_pos h)⟩
    extCommunities := ⟨(congrArg extCommunities hfg :),
      fun h => (congrArg AttrExtra.ecommunity hextra).trans (if_neg h)⟩ }

section

variable {bgp : Bgp} {peer recv : Peer} {attr : Attr}
  {aspath : List Assegment} {uninit : UInt8 → UInt16}

theorem Exchange.sentNormal (h : Exchange bgp peer recv attr aspath) :
    NormalForm (sentAspath bgp peer aspath)
      ∧ ∀ seg ∈ sentAspath bgp peer aspath, splitCount seg ≤ 1 :=
  normalForm_packetAspath h.normal h.lengths

theorem addConfedSeq_head (asno : UInt32) (h : NormalForm aspath)
    (hb : Bounded storedBound aspath) : aspathLeftConfedCheck (aspathAddConfedSeq asno aspath) := by
  rcases aspathAddOneAs_cases .confedSequence asno h (lt_of_bounded hb storedBound_lt) with
    ⟨heq, -⟩ | ⟨seg, next, hlt, -, hty, heq⟩
  · rw [aspathAddConfedSeq, heq]
    rfl
  · rw [aspathAddConfedSeq, heq]
    simp [aspathLeftConfedCheck, hty, SegType.isConfed]

theorem Exchange.pathOk (h : Exchange bgp peer recv attr aspath) :
    PathOk recv (wirePath (sentAspath bgp peer aspath)) := by
  have hsm : peerSort peer = .ebgp → wirePath (sentAspath bgp peer aspath)
      = sentAspath bgp peer aspath := fun hsor =>
    wirePath_packetAspath bgp _ h.normal h.lengths fun hcf =>
      absurd (hsor.symm.trans hcf) (by decide)
  refine ⟨fun hsor => ?_, fun hsor => ?_, fun hsor henf => ?_⟩
  · rw [h.sort] at hsor
    by_cases hfu : FullConfedHead aspath
    · obtain ⟨_, _, got, tail, -, -, -, hgot, hty, -⟩ :=
        fullConfedHead_split peer.localAs h.normal h.lengths hfu
      rw [sentAspath, packetAspath_confed hsor, hgot]
      simp [aspathLeftConfedCheck, hty, SegType.isConfed]
    · rw [sentAspath, wirePath_packetAspath bgp _ h.normal h.lengths
        fun _ => hfu, packetAspath_confed hsor]
      exact addConfedSeq_head _ h.normal h.lengths
  · rw [h.sort] at hsor
    rw [hsm hsor]
    exact h.confed hsor
  · rw [h.sort] at hsor
    rw [hsm hsor]
    exact h.firstAs hsor henf

/-- What the receiver makes of the block when all length fields are
right. -/
theorem bgpAttrParse_packet (h : Exchange bgp peer recv attr aspath)
    (src : Option Peer) {as : List RawAttr} {path : List Assegment}
    (has : as = packetAttrs bgp peer attr src (sentAspath bgp peer aspath))
    (hpt : path = wirePath (sentAspath bgp peer aspath))
    (hft : ∀ a ∈ as, a.Fits) {input : Stream} (hv : attrsWire as <+: input.unread) :
    bgpAttrParse recv uninit (attrsWire as).length (.start input (attrsWire as).length)
      = .ok (.proceed, { ParseState.start input (attrsWire as).length with
          input := input.advance (attrsWire as).length
          attr := { recvAll bgp peer attr src path .empty with
            aspath := some (recvLocalAs recv path) } }) := by
  have hpas : Parses recv uninit as (recvAll bgp peer attr src path) := by
    rw [has, hpt]
    exact ((parses_plain h h.sentNormal.1).append
      (parses_reflector bgp peer attr src)).append parses_ecommunity
  obtain ⟨bound, hlp⟩ := attrLoop_parses hpas hft (has ▸ distinct_packetAttrs src) hv le_rfl
  have hgp := getp_advance hv
  obtain ⟨extra, flag, heq⟩ := recvAll_eq bgp peer attr src path
  have hasp : (recvAll bgp peer attr src path .empty).aspath = some path := by
    rw [heq]
    rfl
  have hfg := congrArg asPath (recvAll_flag bgp peer attr src path)
  have hfin := attrFinish_ok { ParseState.start input (attrsWire as).length with
        input := input.advance (attrsWire as).length
        attr := recvAll bgp peer attr src path .empty }
    h.recvAs4 (hpt ▸ h.pathOk) hasp hfg
  have hdn := hlp.trans (attrLoop_done (Nat.not_lt_of_le hgp.ge))
  simp only [hgp] at hfin
  rw [bgpAttrParse, get_bind]
  refine (bind_ok hdn).trans ?_
  exact hfin

/-- Apart from the cluster list every attribute fits its length field. -/
theorem fits_packetAttrs (src : Option Peer) {segs : List Assegment}
    (hcl : reflects peer src → (clusterAttr bgp attr).Fits)
    (hsize : (attrsWire (packetAttrs bgp peer attr src segs)).length < 65536) :
    ∀ a ∈ packetAttrs bgp peer attr src segs, a.Fits := by
  refine fits_of_short ?_ hsize
  have hrf : ∀ a ∈ reflectorAttrs bgp peer attr src, Short a := by
    intro a ha
    rw [reflectorAttrs] at ha
    split at ha
    next hrf =>
      rcases mem_pair.mp ha with rfl | rfl
      · exact fun _ => by simp [originatorAttr]
      · intro hext
        have hft := hcl hrf
        rwa [RawAttr.Fits, hext] at hft
    · cases ha
  rw [packetAttrs_eq]
  exact forall_mem_append.mpr ⟨forall_mem_append.mpr ⟨short_plain, hrf⟩, short_ecommunity⟩

/-! ## A cluster list that is too long -/

variable (bgp attr)

/-- The attribute that the length byte makes of the cluster list. -/
def truncatedCluster : List UInt32 :=
  (sentCluster bgp attr).take ((sentCluster bgp attr).length % 64)

def truncatedAttr : RawAttr :=
  ⟨attrFlagOptional, attrClusterList, (truncatedCluster bgp attr).flatMap be32⟩

theorem truncatedCluster_length :
    (truncatedCluster bgp attr).length = (sentCluster bgp attr).length % 64 := by
  rw [truncatedCluster, length_take]
  exact Nat.min_eq_left (Nat.mod_le _ _)

theorem clusterAttr_bytes :
    ∃ rest, (clusterAttr bgp attr).bytes = (truncatedAttr bgp attr).bytes ++ rest := by
  have hln : UInt8.ofNat ((sentCluster bgp attr).flatMap be32).length
      = UInt8.ofNat ((truncatedCluster bgp attr).flatMap be32).length := by
    rw [flatMap_length_of_width be32_length,
      flatMap_length_of_width be32_length, truncatedCluster_length]
    apply UInt8.toNat_inj.mp
    simp only [UInt8.toNat_ofNat']
    omega
  have hh : (clusterAttr bgp attr).header = (truncatedAttr bgp attr).header := by
    rw [clusterAttr, truncatedAttr, header_short (by decide), header_short (by decide), hln]
  refine ⟨((sentCluster bgp attr).drop ((sentCluster bgp attr).length % 64)).flatMap be32, ?_⟩
  rw [bytes, hh, bytes, append_assoc]
  congr 1
  rw [truncatedAttr, truncatedCluster, ← flatMap_append, take_append_drop]
  rfl

variable {bgp attr} {src : Option Peer}

/-- Whatever follows, a parse that goes through ends with the cut-off
cluster list. -/
theorem clusterOf_truncated (h : Exchange bgp peer recv attr aspath) (hrf : reflects peer src)
    {bs : List UInt8} {st : ParseState} (hbs : bs = attrsWire
      (packetAttrs bgp peer attr src (sentAspath bgp peer aspath))) (hsize : bs.length < 65536)
    (hr : bgpAttrParse recv uninit bs.length
      (.start (.ofBytes bs) bs.length) = .ok (.proceed, st)) :
    clusterOf st = some (truncatedCluster bgp attr) := by
  let as := plainAttrs peer attr (sentAspath bgp peer aspath)
    ++ ([originatorAttr attr src] ++ [truncatedAttr bgp attr])
  have hpas : Parses recv uninit as _ :=
    (parses_plain h h.sentNormal.1).append ((parses_originatorId src).append (parses_clusterList _))
  obtain ⟨rest, hrs⟩ := clusterAttr_bytes bgp attr
  have hv : attrsWire as <+: bs := by
    refine ⟨rest ++ attrsWire (ecommunityAttrs peer attr), ?_⟩
    rw [hbs, packetAttrs_eq, reflectorAttrs, if_pos hrf]
    simp [as, hrs]
  have hdis : (as.map type).Nodup := by
    refine Sublist.nodup ?_ (show [attrOrigin, attrAsPath, attrNextHop,
      attrMultiExitDisc, attrLocalPref, attrAtomicAggregate, attrAggregator,
      attrCommunities, attrOriginatorId, attrClusterList].Nodup by decide)
    rw [map_append]
    exact types_plain.append (Sublist.refl _)
  have hft : ∀ a ∈ as, a.Fits := by
    refine fits_of_short ?_ (hv.length_le.trans_lt hsize)
    refine forall_mem_append.mpr ⟨short_plain, ?_⟩
    intro a ha hext
    rcases mem_pair.mp ha with rfl | rfl
    · simp [originatorAttr]
    · rw [truncatedAttr, flatMap_length_of_width be32_length, truncatedCluster_length]
      omega
  obtain ⟨bound, hlp⟩ := attrLoop_parses hpas hft hdis
    (show attrsWire as <+: (Stream.ofBytes bs).unread by simpa using hv)
    hv.length_le
  rw [bgpAttrParse, get_bind] at hr
  obtain ⟨ret, st', hr, hfin⟩ := bind_eq_ok hr
  have hse : attrClusterList ∈ (as.map type).reverse := by
    rw [mem_reverse]
    exact mem_map_of_mem (f := type) (show truncatedAttr bgp attr ∈ as by simp [as])
  have hfrm := preserves_loop recv uninit _ bound
    (fun type hty => blind_cluster fun heq => hty (heq ▸ hse)) _ _ _ (hlp.symm.trans hr)
  cases ret with
  | proceed =>
    have hfinished := preserves_finish recv _
      (fun h p => (rfl : HeldParts.cluster { h with aspath := p } = h.cluster))
      st' _ st hfin
    exact hfinished.trans hfrm
  | error | withdraw => cases hfin

/-! ## When the round trip holds -/

/-- `cluster->length` in bytes, 0 without a cluster list. -/
def clusterLength (attr : Attr) : Nat :=
  4 * ((attr.extra.bind AttrExtra.cluster).getD []).length

/-- The writer returns the number of bytes it appends; they are a
sequence of attributes with right length fields; and the receiver takes
all of them and rebuilds the attribute set, wherever in its input they
lie. -/
def AttrRoundTrip (bgp : Bgp) (peer recv : Peer) (attr : Attr)
    (aspath : List Assegment) (p : Prefix) (src : Option Peer)
    (prd tag : List UInt8) (uninit : UInt8 → UInt16) (s : Stream) : Prop :=
  ∃ (n : UInt16) (bs : List UInt8), bgpPacketAttribute bgp peer attr p .ip .unicast src prd tag s
        = .ok (n, s.append bs) ∧ n.toNat = bs.length ∧ (∃ as, bs = attrsWire as ∧ ∀ a ∈ as, a.Fits)
      ∧ ∀ input : Stream, bs <+: input.unread →
        ∃ st, bgpAttrParse recv uninit bs.length (.start input bs.length) = .ok (.proceed, st)
          ∧ st.input = input.advance bs.length ∧ Rebuilt bgp peer recv attr src aspath st.attr

theorem append_inj {s : Stream} {as bs : List UInt8} (h : s.append as = s.append bs) : as = bs := by
  have hwr := congrArg written h
  rw [append_written, append_written] at hwr
  exact append_cancel_left hwr

theorem clusterOf_eq (st : ParseState) : clusterOf st = st.attr.extraGet.cluster := by
  rw [clusterOf, Attr.extraGet]
  cases st.attr.extra <;> rfl

theorem sentCluster_length (bgp : Bgp) (attr : Attr) :
    4 * (sentCluster bgp attr).length = clusterLength attr + 4 := by
  rw [sentCluster, clusterLength, length_cons]
  omega

theorem clusterAttr_fits (bgp : Bgp) {attr : Attr}
    (h : clusterLength attr < 252) : (clusterAttr bgp attr).Fits := by
  have hsh : (clusterAttr bgp attr).extlen = false := by
    simp only [extlen, clusterAttr]
    decide
  have hlen := sentCluster_length bgp attr
  rw [RawAttr.Fits, hsh, if_neg (by decide), clusterAttr, flatMap_length_of_width be32_length]
  omega

theorem aspathAddSeq_cons {seg : Assegment} {next : List Assegment}
    (asno : UInt32) (hps : seg.length ≠ 0) (hty : seg.type ≠ .sequence) :
    aspathAddSeq asno (seg :: next) = .ofAsns .sequence [asno] :: seg :: next := by
  rw [aspathAddSeq, aspathAddOneAs, if_neg hps, if_neg hty]

/-- A path that comes back split is not the path that was sent. -/
theorem recvLocalAs_fullConfed (h : Exchange bgp peer recv attr aspath)
    (hsor : peerSort peer = .confed) (hfu : FullConfedHead aspath) :
    recvLocalAs recv (wirePath (sentAspath bgp peer aspath))
      ≠ recvLocalAs recv (sentAspath bgp peer aspath) := by
  obtain ⟨sent, next, got, tail, hsn, hstype, hslen, hgot, hgtype, hglen⟩ :=
    fullConfedHead_split peer.localAs h.normal h.lengths hfu
  have hhe : got :: tail ≠ sent :: next := by
    intro heq
    have hlen := congrArg Assegment.length (List.cons.inj heq).1
    omega
  have hmx : asSegmentMax ≠ 0 := by decide
  rw [sentAspath, packetAspath_confed hsor, hgot, hsn, recvLocalAs, recvLocalAs]
  split
  · rw [aspathAddSeq_cons _ (by omega) (by simp [hgtype]),
      aspathAddSeq_cons _ (by omega) (by simp [hstype])]
    exact fun heq => hhe (List.cons.inj heq).2
  · exact hhe

theorem reflects_ibgp (h : reflects peer src) : peerSort peer = .ibgp := by
  simp only [reflects, Bool.and_eq_true, decide_eq_true_eq] at h
  exact h.1

theorem wire_lt {as : List RawAttr} {s : Stream} (hsize : s.size < 65536)
    (hroom : (attrsWire as).length ≤ s.writeable) : (attrsWire as).length < 65536 :=
  (hroom.trans (Nat.sub_le _ _)).trans_lt hsize

section

variable {p : Prefix} {src : Option Peer} {prd tag : List UInt8} {s : Stream}
  (h : Exchange bgp peer recv attr aspath) (hp : ∃ a, p.addr = .inet a)
  (hroom : (attrsWire (packetAttrs bgp peer attr src
    (sentAspath bgp peer aspath))).length ≤ s.writeable)

include h hp hroom

theorem Exchange.put :
    bgpPacketAttribute bgp peer attr p .ip .unicast src prd tag s
      = .ok (UInt16.ofNat (attrsWire (packetAttrs bgp peer attr src
          (sentAspath bgp peer aspath))).length, s.append (attrsWire (packetAttrs bgp peer attr src
          (sentAspath bgp peer aspath)))) :=
  bgpPacketAttribute_ok h.sendAs4 h.community h.extCommunity hp h.wf
    h.aspath_eq rfl h.sentNormal.1 h.sentNormal.2 hroom

/-- What a successful round trip says about the packet's bytes alone. -/
theorem AttrRoundTrip.parse {bs : List UInt8} (hbs : bs = attrsWire (packetAttrs bgp peer attr src
      (sentAspath bgp peer aspath)))
    (hrt : AttrRoundTrip bgp peer recv attr aspath p src prd tag uninit s) :
    ∃ st, bgpAttrParse recv uninit bs.length (.start (.ofBytes bs) bs.length) = .ok (.proceed, st)
      ∧ Rebuilt bgp peer recv attr src aspath st.attr := by
  obtain ⟨n, bs', hr, -, -, hpa⟩ := hrt
  obtain rfl : bs = bs' := by
    rw [h.put hp hroom, Except.ok.injEq, Prod.mk.injEq, ← hbs] at hr
    exact append_inj hr.2
  obtain ⟨st, hst, -, hreb⟩ := hpa (.ofBytes bs) ((ofBytes_unread bs).symm ▸ prefix_rfl)
  exact ⟨st, hst, hreb⟩

variable (hsize : s.size < 65536)

include hsize

theorem AttrRoundTrip.cluster_short (hrf : reflects peer src)
    (hrt : AttrRoundTrip bgp peer recv attr aspath p src prd tag uninit s) :
    clusterLength attr < 252 := by
  obtain ⟨st, hst, hreb⟩ := hrt.parse h hp hroom rfl
  have htrunc := clusterOf_truncated h hrf rfl (wire_lt hsize hroom) hst
  rw [clusterOf_eq, hreb.clusterList.2 hrf] at htrunc
  have hlen := congrArg List.length (Option.some.inj htrunc)
  rw [truncatedCluster_length] at hlen
  have hsn := sentCluster_length bgp attr
  omega

theorem AttrRoundTrip.confed_room (hsor : peerSort peer = .confed)
    (hrt : AttrRoundTrip bgp peer recv attr aspath p src prd tag uninit s) :
    ¬ FullConfedHead aspath := by
  intro hfu
  have hft := fits_packetAttrs src
    (fun hrf => absurd (hsor.symm.trans (reflects_ibgp hrf)) (by decide))
    (wire_lt hsize hroom)
  obtain ⟨st, hst, hreb⟩ := hrt.parse h hp hroom rfl
  rw [bgpAttrParse_packet h src rfl rfl hft ((ofBytes_unread _).symm ▸ prefix_rfl)] at hst
  cases hst
  exact recvLocalAs_fullConfed h hsor hfu ((rebuilt_recvAll_iff ..).mp hreb)

theorem attrRoundTrip_of_fits (hcl : reflects peer src → clusterLength attr < 252)
    (hcf : peerSort peer = .confed → ¬ FullConfedHead aspath) :
    AttrRoundTrip bgp peer recv attr aspath p src prd tag uninit s := by
  have hlt := wire_lt hsize hroom
  have hft := fits_packetAttrs src (fun hrf => clusterAttr_fits bgp (hcl hrf)) hlt
  have hpt : sentAspath bgp peer aspath = wirePath (sentAspath bgp peer aspath) :=
    (wirePath_packetAspath bgp _ h.normal h.lengths hcf).symm
  refine ⟨_, _, h.put hp hroom, ?_, ⟨_, rfl, hft⟩, fun input hv => ?_⟩
  · rw [UInt16.toNat_ofNat', Nat.mod_eq_of_lt hlt]
  · exact ⟨_, bgpAttrParse_packet h src rfl hpt hft hv, rfl, (rebuilt_recvAll_iff ..).mpr rfl⟩

end

end

/-! ## A route reflector -/

/-- An iBGP session of a route reflector in AS 65001. -/
def reflectorPeer : Peer where
  bgp := ⟨false, false, false, 0, [], 0, 0x0a000001⟩
  as := 65001
  localAs := 65001
  changeLocalAs := 0
  localAsNoPrepend := false
  capAs4Rcv := true
  afFlags := fun _ _ => ⟨true, true, false, false⟩
  remoteId := 0x0a000002
  nexthopV4 := 0x0a000001

/-- A route that has passed `n` clusters. -/
def reflectedAttr (n : Nat) : Attr :=
  { Attr.empty with
    aspath := some []
    extra := some { AttrExtra.new with
      originatorId := 0x0a000003, cluster := some (replicate n 7) }
    flag := { AttrFlags.empty with
      origin := true, asPath := true, nextHop := true, originatorId := true
      clusterList := true }
    nexthop := 0x0a000004
    localPref := 100 }

def defaultRoute : Prefix := ⟨0, .inet 0, by decide⟩

theorem reflectedAttr_exchange (n : Nat) :
    Exchange reflectorPeer.bgp reflectorPeer reflectorPeer (reflectedAttr n) [] where
  sendAs4 := rfl
  recvAs4 := rfl
  community := rfl
  extCommunity := rfl
  sort := rfl
  wf := ⟨nofun, nofun, nofun, nofun, rfl⟩
  origin := .inl rfl
  nexthop := fun _ => (by decide : martianNexthop 0x0a000004 = false)
  aspath_eq := rfl
  normal := ⟨by simp, .nil, by simp⟩
  lengths := by simp
  confed := fun h => absurd h (by decide)
  firstAs := fun h => absurd h (by decide)

theorem bytes_length_le (a : RawAttr) : a.bytes.length ≤ 4 + a.value.length := by
  have hh := header_length a
  rw [bytes, length_append]
  split at hh <;> omega

theorem reflectedAttr_room {n : Nat} (h : n ≤ 1000) :
    (attrsWire (packetAttrs reflectorPeer.bgp reflectorPeer (reflectedAttr n)
      (some reflectorPeer) (sentAspath reflectorPeer.bgp reflectorPeer
        []))).length ≤ (Stream.new 4096).writeable := by
  have hats : packetAttrs reflectorPeer.bgp reflectorPeer (reflectedAttr n)
      (some reflectorPeer) (sentAspath reflectorPeer.bgp reflectorPeer [])
      = [originAttr (reflectedAttr n), aspathAttr [], ⟨attrFlagTrans, attrNextHop, be32 0x0a000004⟩,
        ⟨attrFlagTrans, attrLocalPref, be32 100⟩,
        originatorAttr (reflectedAttr n) (some reflectorPeer),
        clusterAttr reflectorPeer.bgp (reflectedAttr n)] := rfl
  have hby : ∀ as, (attrsWire as).length
      ≤ (as.map fun a => 4 + a.value.length).sum := by
    intro as
    induction as with
    | nil => exact le_rfl
    | cons a as ih =>
      rw [attrsWire_cons, length_append, map_cons, sum_cons]
      exact Nat.add_le_add (bytes_length_le a) ih
  have hcl : (clusterAttr reflectorPeer.bgp (reflectedAttr n)).value.length = 4 * (n + 1) := by
    rw [clusterAttr, flatMap_length_of_width be32_length]
    simp [sentCluster, reflectedAttr]
  rw [new_writeable, hats]
  refine (hby _).trans ?_
  simp only [map_cons, sum_cons, map_nil, sum_nil,
    originAttr, aspathAttr, originatorAttr, be32_length, hcl,
    flatMap_nil, segsWire, length_cons, length_nil]
  omega

/-- The path 1 2 3 in three segments, as it is left when the sets between them are excluded. -/
def threeSequences : List Assegment :=
  [.ofAsns .sequence [1], .ofAsns .sequence [2], .ofAsns .sequence [3]]

/-- Whether the reflector's peer refuses what is sent with this path. -/
def refused (aspath : List Assegment) : Bool :=
  match bgpPacketAttribute reflectorPeer.bgp reflectorPeer
      { reflectedAttr 0 with aspath := some aspath } defaultRoute .ip .unicast none [] []
      (.new 64) with
  | .error _ => true
  | .ok (_, s) =>
    match bgpAttrParse reflectorPeer (fun _ => 0) s.written.length
        (.start (.ofBytes s.written) s.written.length) with
    | .ok (.proceed, _) => false
    | _ => true

/-- The packing of `aspath_put` writes a count of 2 in front of the three ASNs. -/
theorem threeSequences_not_roundTrip :
    ¬ AttrRoundTrip reflectorPeer.bgp reflectorPeer reflectorPeer
      { reflectedAttr 0 with aspath := some threeSequences } threeSequences defaultRoute none [] []
      (fun _ => 0) (.new 64) := by
  rintro ⟨n, bs, hput, -, -, hparse⟩
  have hrefused : refused threeSequences = true := by decide +kernel
  obtain ⟨st, hst, -⟩ := hparse (.ofBytes bs) ((ofBytes_unread bs).symm ▸ prefix_rfl)
  have hwritten : ((Stream.new 64).append bs).written = bs := by
    rw [append_written]
    rfl
  rw [refused, hput] at hrefused
  simp only [hwritten, hst, Bool.false_eq_true] at hrefused

end SdnQuagga
