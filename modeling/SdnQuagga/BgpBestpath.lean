import Mathlib.Data.List.Lex
import SdnQuagga.BestChoice
import SdnQuagga.BgpAttrHash
import SdnQuagga.BgpAttrParse

/-!
# Comparing routes

`bgp_info_cmp` of `bgpd/bgp_route.c`, with `sockunion_cmp`. Thirteen steps, of
which each decides or leaves it to the next. For routes that are learned from
neighbors the steps are the criteria of a lexicographic order: `decisionKey`
lists their values.

One step may be left out for a pair of routes, the one that compares MEDs. The
key of a route then has a MED that depends on which routes it is compared with,
so it is a parameter of `decisionKey`.
-/

namespace SdnQuagga

open List Function

/-! ## Addresses -/

/-- `union sockunion`, the address of a neighbor in host byte order. -/
inductive SockUnion where
  | inet (addr : UInt32)
  | inet6 (addr : BitVec 128)
deriving DecidableEq

/-- `sa.sa_family`. -/
def SockUnion.family : SockUnion → Nat
  | inet _ => 2
  | inet6 _ => 10

/-- `in6addr_cmp`, byte by byte. -/
def in6addrCmp : List UInt8 → List UInt8 → Int
  | p1 :: next1, p2 :: next2 =>
    if p1 > p2 then 1 else if p1 < p2 then -1 else in6addrCmp next1 next2
  | _, _ => 0

def sockunionCmp (su1 su2 : SockUnion) : Int :=
  if su1.family > su2.family then 1
  else if su1.family < su2.family then -1
  else match su1, su2 with
    | .inet addr1, .inet addr2 =>
      if addr1 = addr2 then 0 else if addr1 > addr2 then 1 else -1
    | .inet6 addr1, .inet6 addr2 => in6addrCmp (be128 addr1) (be128 addr2)
    | _, _ => 0

/-! ## Routes -/

/-- A neighbor with a session. `peer_remote_as` and the confederation commands
set `local_as` to an AS of the configuration, which is never 0. -/
structure Neighbor extends Peer where
  suRemote : SockUnion
  localAs_ne_zero : localAs ≠ 0

/-- `BGP_ROUTE_NORMAL` to `BGP_ROUTE_REDISTRIBUTE`. -/
inductive SubType where
  | normal
  | static
  | aggregate
  | redistribute
deriving DecidableEq

/-- The bits of `struct bgp_info` that the selection reads. -/
structure InfoFlags where
  damped : Bool
  history : Bool
  selected : Bool
  valid : Bool
  removed : Bool
deriving DecidableEq

/-- `struct bgp_info` with its address. Where a flag of the attribute set is
set the part that belongs to it is there. -/
structure BgpInfo where
  addr : Nat
  peer : Neighbor
  attr : FullAttr
  subType : SubType
  flags : InfoFlags
  /-- `extra->igpmetric` -/
  igpmetric : Option UInt32
  hasPath : attr.aspath.isSome
  hasOriginator : attr.flag.originatorId → attr.extra.isSome
  hasCluster : attr.flag.clusterList → (attr.extra.bind (·.cluster)).isSome

/-- The configuration that `bgp_info_cmp` reads from `struct bgp`. -/
structure BestpathConfig where
  /-- `BGP_FLAG_ALWAYS_COMPARE_MED` -/
  alwaysCompareMed : Bool
  /-- `BGP_FLAG_DETERMINISTIC_MED` -/
  deterministicMed : Bool
  /-- `BGP_FLAG_MED_MISSING_AS_WORST` -/
  medMissingAsWorst : Bool
  /-- `BGP_FLAG_MED_CONFED` -/
  medConfed : Bool
  /-- `BGP_FLAG_COMPARE_ROUTER_ID` -/
  compareRouterId : Bool
  /-- `BGP_FLAG_ASPATH_IGNORE` -/
  aspathIgnore : Bool
  /-- `BGP_FLAG_ASPATH_CONFED` -/
  aspathConfed : Bool
  defaultLocalPref : UInt32

namespace BgpInfo

variable (info : BgpInfo)

def aspath : List Assegment := info.attr.aspath.get info.hasPath

def weight : UInt32 :=
  match info.attr.extra with
  | some ae => ae.weight
  | none => 0

variable (bgp : BestpathConfig)

def pref (info : BgpInfo) : UInt32 :=
  if info.attr.flag.localPref then info.attr.localPref else bgp.defaultLocalPref

/-- The identifier of the router-id step. -/
def routerId : UInt32 :=
  if h : info.attr.flag.originatorId then
    (info.attr.extra.get (info.hasOriginator h)).originatorId
  else info.peer.remoteId

def clusterLength : Nat :=
  if h : info.attr.flag.clusterList then
    4 * ((info.attr.extra.bind (·.cluster)).get (info.hasCluster h)).length
  else 0

/-- The hops of the path length step. -/
def hops (info : BgpInfo) : Nat :=
  if bgp.aspathConfed then
    aspathCountHops info.aspath + aspathCountConfeds info.aspath
  else aspathCountHops info.aspath

def sort : PeerSort := peerSort info.peer.toPeer

end BgpInfo

def bgpMedValue (attr : FullAttr) (bgp : BestpathConfig) : UInt32 :=
  if attr.flag.multiExitDisc then attr.med
  else if bgp.medMissingAsWorst then 4294967295
  else 0

/-- The first ASN of an `AS_SEQUENCE`. The segments of a route's path are not
empty. -/
def firstAsn (type : SegType) : List Assegment → Option UInt32
  | seg :: _ => if seg.type = type then seg.as.head? else none
  | [] => none

/-- Both are there and the same. -/
def sameFirst (asn1 asn2 : Option UInt32) : Bool :=
  match asn1, asn2 with
  | some asn1, some asn2 => asn1 = asn2
  | _, _ => false

variable (aspath1 aspath2 : List Assegment)

def aspathCmpLeft : Bool :=
  sameFirst (firstAsn .sequence (aspath1.dropWhile (·.type.isConfed)))
    (firstAsn .sequence (aspath2.dropWhile (·.type.isConfed)))

def aspathCmpLeftConfed : Bool :=
  sameFirst (firstAsn .confedSequence aspath1) (firstAsn .confedSequence aspath2)

/-! ## The steps -/

/-- Step 3: local routes. -/
def localStep (new exist : SubType) (next : Bool) : Bool :=
  if new = .static then true
  else if exist = .static then false
  else if new = .redistribute then true
  else if exist = .redistribute then false
  else if new = .aggregate then true
  else if exist = .aggregate then false
  else next

variable (bgp : BestpathConfig) (new exist : BgpInfo)

/-- The condition of step 6. -/
def medCompared : Bool :=
  let internalAsRoute := aspathCountHops new.aspath = 0 && aspathCountHops exist.aspath = 0
  let confedAsRoute := aspathCountConfeds new.aspath > 0 && aspathCountConfeds exist.aspath > 0
    && aspathCountHops new.aspath = 0 && aspathCountHops exist.aspath = 0
  bgp.alwaysCompareMed || (bgp.medConfed && confedAsRoute)
    || aspathCmpLeft new.aspath exist.aspath
    || aspathCmpLeftConfed new.aspath exist.aspath || internalAsRoute

/-- Step 7: the sort of the neighbor. -/
def sortStep (new exist : PeerSort) (next : Bool) : Bool :=
  if new = .ebgp ∧ exist = .ibgp then true
  else if new = .ebgp ∧ exist = .confed then true
  else if new = .ibgp ∧ exist = .ebgp then false
  else if new = .confed ∧ exist = .ebgp then false
  else next

/-- Step 10: the route that is selected stays. -/
def selectedStep (next : Bool) : Bool :=
  if !bgp.compareRouterId && new.sort = .ebgp && exist.sort = .ebgp then
    if new.flags.selected then true
    else if exist.flags.selected then false
    else next
  else next

/-- Step 13: the address of the neighbor. -/
def neighborStep (new exist : SockUnion) : Bool :=
  if sockunionCmp new exist = 1 then false
  else if sockunionCmp new exist = -1 then true
  else true

/-- `bgp_info_cmp` of two routes. What it reports for multipath is left out:
the selection does not read it. -/
def bgpInfoCmp : Bool :=
  preferMore new.weight.toNat exist.weight.toNat <|
  preferMore (new.pref bgp).toNat (exist.pref bgp).toNat <|
  localStep new.subType exist.subType <|
  (if bgp.aspathIgnore then id else preferLess (new.hops bgp) (exist.hops bgp)) <|
  preferLess new.attr.origin.toNat exist.attr.origin.toNat <|
  (if medCompared bgp new exist then
    preferLess (bgpMedValue new.attr bgp).toNat (bgpMedValue exist.attr bgp).toNat
  else id) <|
  sortStep new.sort exist.sort <|
  preferLess (new.igpmetric.getD 0).toNat (exist.igpmetric.getD 0).toNat <|
  selectedStep bgp new exist <|
  preferLess new.routerId.toNat exist.routerId.toNat <|
  preferLess new.clusterLength exist.clusterLength <|
  neighborStep new.peer.suRemote exist.peer.suRemote

/-! ## The last step is an order of addresses -/

/-- Family, IPv4 address, bytes of the IPv6 address. -/
def SockUnion.key : SockUnion → Nat ×ₗ (Nat ×ₗ List Nat)
  | inet addr => toLex (2, toLex (addr.toNat, []))
  | inet6 addr => toLex (10, toLex (0, (be128 addr).map UInt8.toNat))

theorem be128_injective : Injective be128 := by
  intro a b h
  rw [← ofNat_ofBE_be128 a, h, ofNat_ofBE_be128]

theorem SockUnion.key_injective : Injective SockUnion.key := by
  intro a b h
  cases a with
  | inet addr1 =>
    cases b with
    | inet addr2 =>
      have had : addr1.toNat = addr2.toNat := by simpa [SockUnion.key] using h
      rw [UInt32.toNat_inj.mp had]
    | inet6 addr2 => simp [SockUnion.key] at h
  | inet6 addr1 =>
    cases b with
    | inet addr2 => simp [SockUnion.key] at h
    | inet6 addr2 =>
      have hby : (be128 addr1).map UInt8.toNat = (be128 addr2).map UInt8.toNat := by
        simpa [SockUnion.key] using h
      have hinj : Injective UInt8.toNat := fun _ _ => UInt8.toNat_inj.mp
      rw [be128_injective (map_injective_iff.mpr hinj hby)]

theorem in6addrCmp_iff : ∀ {p1 p2 : List UInt8}, p1.length = p2.length →
    (in6addrCmp p1 p2 = 1 ↔ p2.map UInt8.toNat < p1.map UInt8.toNat)
  | [], [], _ => by simp [in6addrCmp]
  | b1 :: p1, b2 :: p2, hlen => by
    rw [in6addrCmp, map_cons, map_cons, cons_lt_cons_iff]
    rcases lt_trichotomy b1.toNat b2.toNat with hlt | heq | hgt
    · have h : b1 < b2 := hlt
      rw [if_neg (UInt8.not_lt.mpr (UInt8.le_of_lt h)), if_pos h]
      exact iff_of_false (by decide) (by omega)
    · obtain rfl := UInt8.toNat_inj.mp heq
      have ih := @in6addrCmp_iff p1 p2 (by simpa using hlen)
      rw [if_neg (by simp), if_neg (by simp), ih]
      simp
    · have h : b2 < b1 := hgt
      rw [if_pos h]
      exact iff_of_true rfl (.inl hgt)

theorem sockunionCmp_iff (su1 su2 : SockUnion) : sockunionCmp su1 su2 = 1 ↔ su2.key < su1.key := by
  cases su1 with
  | inet addr1 =>
    cases su2 with
    | inet addr2 =>
      have hlt : addr2 < addr1 ↔ addr2.toNat < addr1.toNat := Iff.rfl
      by_cases heq : addr1 = addr2
      · simp [sockunionCmp, SockUnion.family, SockUnion.key, heq]
      · by_cases hgt : addr2 < addr1
        · simp [sockunionCmp, SockUnion.family, SockUnion.key, heq, hgt,
            Prod.Lex.toLex_lt_toLex, hlt.mp hgt]
        · simp [sockunionCmp, SockUnion.family, SockUnion.key, heq, hgt,
            Prod.Lex.toLex_lt_toLex, mt hlt.mpr hgt]
    | inet6 addr2 => simp [sockunionCmp, SockUnion.family, SockUnion.key, Prod.Lex.toLex_lt_toLex]
  | inet6 addr1 =>
    cases su2 with
    | inet addr2 => simp [sockunionCmp, SockUnion.family, SockUnion.key, Prod.Lex.toLex_lt_toLex]
    | inet6 addr2 =>
      have hby := @in6addrCmp_iff (be128 addr1) (be128 addr2) (by simp)
      simp [sockunionCmp, SockUnion.family, SockUnion.key, Prod.Lex.toLex_lt_toLex, hby]

theorem neighborStep_iff {su1 su2 : SockUnion} (hne : su1 ≠ su2) :
    neighborStep su1 su2 = true ↔ su1.key < su2.key := by
  have hk : su1.key ≠ su2.key := fun h => hne (SockUnion.key_injective h)
  have hst : neighborStep su1 su2 = true ↔ ¬ sockunionCmp su1 su2 = 1 := by
    unfold neighborStep
    split
    next h => simp [h]
    next h => split <;> simp [h]
  rw [hst, sockunionCmp_iff, not_lt]
  exact ⟨fun hle => lt_of_le_of_ne hle hk, le_of_lt⟩

/-! ## The other steps -/

/-- External neighbors before internal ones. -/
def sortRank (sort : PeerSort) : Nat := if sort = .ebgp then 0 else 1

theorem Neighbor.sort_ne_internal (peer : Neighbor) : peerSort peer.toPeer ≠ .internal := by
  have hne := peer.localAs_ne_zero
  unfold peerSort
  rw [if_neg hne, if_neg hne]
  repeat' split
  all_goals simp

theorem BgpInfo.sort_ne_internal (info : BgpInfo) : info.sort ≠ .internal :=
  info.peer.sort_ne_internal

theorem sortStep_eq {new exist : PeerSort} (hn : new ≠ .internal)
    (hexist : exist ≠ .internal) (next : Bool) :
    sortStep new exist next = preferLess (sortRank new) (sortRank exist) next := by
  cases new with
  | internal => exact absurd rfl hn
  | ibgp | ebgp | confed =>
    cases exist with
    | internal => exact absurd rfl hexist
    | ibgp | ebgp | confed => simp [sortStep, sortRank, preferLess]

theorem localStep_normal (next : Bool) : localStep .normal .normal next = next := rfl

theorem selectedStep_compareRouterId {bgp : BestpathConfig}
    (h : bgp.compareRouterId = true) (new exist : BgpInfo) (next : Bool) :
    selectedStep bgp new exist next = next := by
  simp [selectedStep, h]

/-! ## The order -/

/-- The criteria behind the step that compares MEDs. -/
def tieKey (info : BgpInfo) : Nat ×ₗ Nat ×ₗ Nat ×ₗ Nat ×ₗ Nat ×ₗ Nat ×ₗ List Nat :=
  toLex (sortRank info.sort, toLex ((info.igpmetric.getD 0).toNat,
    toLex (info.routerId.toNat, toLex (info.clusterLength, info.peer.suRemote.key))))

variable (med : BgpInfo → Nat)

/-- The values that `bgp_info_cmp` compares, in its order. -/
def decisionKey (info : BgpInfo) :
    ℕᵒᵈ ×ₗ ℕᵒᵈ ×ₗ ℕ ×ₗ ℕ ×ₗ ℕ ×ₗ Nat ×ₗ Nat ×ₗ Nat ×ₗ Nat ×ₗ Nat ×ₗ Nat ×ₗ List Nat :=
  toLex (OrderDual.toDual info.weight.toNat, toLex (OrderDual.toDual (info.pref bgp).toNat,
      toLex (if bgp.aspathIgnore then 0 else info.hops bgp,
        toLex (info.attr.origin.toNat, toLex (med info, tieKey info)))))

/-- `med` is what the MED step makes of two routes that the steps before it do
not tell apart. -/
def MedAgrees (a b : BgpInfo) : Prop :=
  (bgp.aspathIgnore = false → a.hops bgp = b.hops bgp) → if medCompared bgp a b then
      med a = (bgpMedValue a.attr bgp).toNat ∧ med b = (bgpMedValue b.attr bgp).toNat
    else med a = med b

section

variable {bgp : BestpathConfig} {med : BgpInfo → Nat} {a b : BgpInfo}

theorem tieSteps_iff (hid : bgp.compareRouterId = true) (had : a.peer.suRemote ≠ b.peer.suRemote) :
    sortStep a.sort b.sort (preferLess (a.igpmetric.getD 0).toNat (b.igpmetric.getD 0).toNat
      (selectedStep bgp a b (preferLess a.routerId.toNat b.routerId.toNat
      (preferLess a.clusterLength b.clusterLength
      (neighborStep a.peer.suRemote b.peer.suRemote))))) = true ↔ tieKey a < tieKey b := by
  rw [sortStep_eq a.sort_ne_internal b.sort_ne_internal, selectedStep_compareRouterId hid]
  exact preferLess_iff fun _ => preferLess_iff fun _ => preferLess_iff fun _ =>
    preferLess_iff fun _ => neighborStep_iff had

theorem medSteps_iff {next : Bool} (hnx : next = true ↔ tieKey a < tieKey b)
    (hmed : if medCompared bgp a b then
        med a = (bgpMedValue a.attr bgp).toNat ∧ med b = (bgpMedValue b.attr bgp).toNat
      else med a = med b) :
    (if medCompared bgp a b then
      preferLess (bgpMedValue a.attr bgp).toNat (bgpMedValue b.attr bgp).toNat
    else id) next = true ↔ toLex (med a, tieKey a) < toLex (med b, tieKey b) := by
  split at hmed
  next hcmp =>
    rw [if_pos hcmp, hmed.1, hmed.2]
    exact preferLess_iff fun _ => hnx
  next hcmp =>
    rw [if_neg hcmp, hmed, Prod.Lex.toLex_lt_toLex]
    simp [hnx]

/-- For routes of neighbors the comparison is the order of their keys. -/
theorem bgpInfoCmp_iff (hid : bgp.compareRouterId = true) (ha : a.subType = .normal)
    (hb : b.subType = .normal) (had : a.peer.suRemote ≠ b.peer.suRemote)
    (hmed : MedAgrees bgp med a b) :
    bgpInfoCmp bgp a b = true ↔ decisionKey bgp med a < decisionKey bgp med b := by
  rw [bgpInfoCmp, ha, hb, localStep_normal]
  refine preferMore_iff fun _ => preferMore_iff fun _ => ?_
  by_cases hign : bgp.aspathIgnore = true
  · simp only [hign, if_true, id_eq]
    rw [Prod.Lex.toLex_lt_toLex]
    simp only [lt_irrefl, false_or, true_and]
    refine preferLess_iff fun _ => medSteps_iff (tieSteps_iff hid had) (hmed ?_)
    simp [hign]
  · simp only [hign, Bool.false_eq_true, if_false]
    refine preferLess_iff fun hho => preferLess_iff fun _ =>
      medSteps_iff (tieSteps_iff hid had) (hmed fun _ => hho)

end

/-! ## Routes that are all compared by MED -/

/-- The MED that is compared. -/
def plainMed (bgp : BestpathConfig) (info : BgpInfo) : Nat :=
  (bgpMedValue info.attr bgp).toNat

theorem medAgrees_plain {bgp : BestpathConfig} {a b : BgpInfo}
    (h : medCompared bgp a b = true) : MedAgrees bgp (plainMed bgp) a b := by
  intro _
  rw [if_pos h]
  exact ⟨rfl, rfl⟩

theorem decisionKey_addr {bgp : BestpathConfig} {med : BgpInfo → Nat} {a b : BgpInfo}
    (h : decisionKey bgp med a = decisionKey bgp med b) : a.peer.suRemote = b.peer.suRemote := by
  simp only [decisionKey, tieKey, EmbeddingLike.apply_eq_iff_eq, Prod.mk.injEq] at h
  exact SockUnion.key_injective (by tauto)

/-- Comparing routes of neighbors by all criteria, MEDs included, is a strict
total order. -/
theorem bgp_info_cmp_strict_total {bgp : BestpathConfig}
    (hmed : bgp.alwaysCompareMed = true) (hid : bgp.compareRouterId = true)
    {a b c : BgpInfo} (ha : a.subType = .normal) (hb : b.subType = .normal)
    (hc : c.subType = .normal) (hab : a.peer.suRemote ≠ b.peer.suRemote)
    (hbc : b.peer.suRemote ≠ c.peer.suRemote) (hac : a.peer.suRemote ≠ c.peer.suRemote) :
    (bgpInfoCmp bgp a b = true ↔ ¬ bgpInfoCmp bgp b a = true)
      ∧ (bgpInfoCmp bgp a b = true → bgpInfoCmp bgp b c = true → bgpInfoCmp bgp a c = true) := by
  have hcompared : ∀ x y, MedAgrees bgp (plainMed bgp) x y := fun x y =>
    medAgrees_plain (by simp [medCompared, hmed])
  rw [bgpInfoCmp_iff hid ha hb hab (hcompared a b),
    bgpInfoCmp_iff hid hb ha hab.symm (hcompared b a), bgpInfoCmp_iff hid hb hc hbc (hcompared b c),
    bgpInfoCmp_iff hid ha hc hac (hcompared a c), not_lt]
  have hne : decisionKey bgp (plainMed bgp) a ≠ decisionKey bgp (plainMed bgp) b :=
    fun h => hab (decisionKey_addr h)
  exact ⟨⟨le_of_lt, fun hle => lt_of_le_of_ne hle hne⟩, lt_trans⟩

/-- A route from the neighbor with the given address and router identifier. -/
def learnedRoute (addr : UInt32) (aspath : List Assegment) (med : UInt32) : BgpInfo where
  addr := addr.toNat
  peer := {
    bgp := ⟨false, false, false, 0, [], 0, 0⟩
    as := 65001
    localAs := 65000
    changeLocalAs := 0
    localAsNoPrepend := false
    capAs4Rcv := true
    afFlags := fun _ _ => ⟨false, false, false, false⟩
    remoteId := addr
    nexthopV4 := 0
    suRemote := .inet addr
    localAs_ne_zero := by decide }
  attr := ⟨some aspath, none, none, { AttrFlags.empty with multiExitDisc := true }, 0, med, 100, 0⟩
  subType := .normal
  flags := ⟨false, false, false, true, false⟩
  igpmetric := none
  hasPath := rfl
  hasOriginator := by simp [AttrFlags.empty]
  hasCluster := by simp [AttrFlags.empty]

def allCompared : BestpathConfig :=
  ⟨true, false, false, false, true, false, false, 100⟩

/-- Routes of three neighbors. -/
theorem bgp_info_cmp_strict_total_three :
    (bgpInfoCmp allCompared (learnedRoute 1 [] 5) (learnedRoute 2 [] 5) = true
      ↔ ¬ bgpInfoCmp allCompared (learnedRoute 2 [] 5) (learnedRoute 1 [] 5) = true)
      ∧ (bgpInfoCmp allCompared (learnedRoute 1 [] 5) (learnedRoute 2 [] 5) = true →
        bgpInfoCmp allCompared (learnedRoute 2 [] 5) (learnedRoute 3 [] 9) = true →
        bgpInfoCmp allCompared (learnedRoute 1 [] 5) (learnedRoute 3 [] 9) = true) :=
  bgp_info_cmp_strict_total rfl rfl rfl rfl rfl (by decide) (by decide) (by decide)

end SdnQuagga
