import SdnQuagga.BgpAttr
import SdnQuagga.BgpAspathStr

/-!
# Interning of attribute sets

`attrhash_cmp`, `attrhash_key_make` and `bgp_attr_intern`. The AS path, the
communities, the cluster list and the unknown attributes of an attribute set
are interned before the set is, each content once, so that a pointer of the
source is the content here.

The two field lists of the source leave out `originator_id`. `hashed` is
what they look at, `observable` what the decision process and
`bgp_packet_attribute` look at.
-/

namespace SdnQuagga

/-- `struct attr_extra` with all its fields. -/
structure FullExtra extends AttrExtra where
  weight : UInt32
  mpNexthopLocalIn : UInt32
deriving DecidableEq

/-- `struct attr` with all its fields but the reference count. -/
structure FullAttr where
  aspath : Option (List Assegment)
  community : Option Community
  extra : Option FullExtra
  flag : AttrFlags
  nexthop : UInt32
  med : UInt32
  localPref : UInt32
  origin : UInt8
deriving DecidableEq

/-! ## Comparison and key -/

/-- The fields of `extra` in `attrhash_cmp`. -/
def extraCmp (ae1 ae2 : FullExtra) : Bool :=
  ae1.aggregatorAs = ae2.aggregatorAs && ae1.aggregatorAddr = ae2.aggregatorAddr
    && ae1.weight = ae2.weight && ae1.mpNexthopLen = ae2.mpNexthopLen
    && ae1.mpNexthopGlobal = ae2.mpNexthopGlobal && ae1.mpNexthopLocal = ae2.mpNexthopLocal
    && ae1.mpNexthopGlobalIn = ae2.mpNexthopGlobalIn && ae1.ecommunity = ae2.ecommunity
    && ae1.cluster = ae2.cluster && ae1.transit = ae2.transit

def attrhashCmp (attr1 attr2 : FullAttr) : Bool :=
  if attr1.flag = attr2.flag ∧ attr1.origin = attr2.origin
      ∧ attr1.nexthop = attr2.nexthop ∧ attr1.aspath = attr2.aspath
      ∧ attr1.community = attr2.community ∧ attr1.med = attr2.med
      ∧ attr1.localPref = attr2.localPref then
    match attr1.extra, attr2.extra with
    | some ae1, some ae2 => extraCmp ae1 ae2
    | none, none => true
    | _, _ => false
  else false

/-- The sum of `community_hash_make` and `ecommunity_hash_make`. -/
def byteSum (bs : List UInt8) : UInt32 :=
  bs.foldl (fun key b => key + b.toUInt32) 0

/-- `MIX` of a part that may be missing. -/
def mixPart {α : Type} (keyMake : α → UInt32) (part : Option α) (key : UInt32) : UInt32 :=
  match part with
  | some a => Jhash.oneWord (keyMake a) key
  | none => key

variable (extra : Option FullExtra)

/-- The first part of `extra` in `attrhash_key_make`. -/
def mixAggregator (key : UInt32) : UInt32 :=
  match extra with
  | some ae => Jhash.oneWord ae.mpNexthopGlobalIn (Jhash.oneWord ae.weight
      (Jhash.oneWord ae.aggregatorAddr (Jhash.oneWord ae.aggregatorAs key)))
  | none => key

/-- The second part of `extra`. -/
def mixExtra (key : UInt32) : UInt32 :=
  match extra with
  | some ae =>
    let key := mixPart (fun ecom => byteSum (ecom.val.flatMap be64))
      ae.ecommunity key
    let key := mixPart (fun cluster => Jhash.hash (cluster.flatMap be32) 0)
      ae.cluster key
    let key := mixPart (fun val => Jhash.hash val 0) ae.transit key
    let key := Jhash.oneWord ae.mpNexthopLen.toUInt32 key
    let key := Jhash.hash (be128 ae.mpNexthopGlobal) key
    Jhash.hash (be128 ae.mpNexthopLocal) key
  | none => key

variable (attr : FullAttr)

def attrhashKeyMake : UInt32 :=
  let key := Jhash.oneWord attr.origin.toUInt32 0
  let key := Jhash.oneWord attr.nexthop key
  let key := Jhash.oneWord attr.med key
  let key := Jhash.oneWord attr.localPref key
  let key := key + attr.origin.toUInt32 + attr.nexthop + attr.med + attr.localPref
  let key := mixAggregator attr.extra key
  let key := mixPart (fun segs => aspathStrKey (aspathMakeStrCount segs))
    attr.aspath key
  let key := mixPart (fun com => byteSum com.bytes) attr.community key
  mixExtra attr.extra key

/-! ## What is looked at -/

/-- The fields that the decision process or `bgp_packet_attribute` read;
nothing reads `mp_nexthop_local_in`. That there is an `extra` can be seen as
well, as the writer asserts it for an IPv6 prefix. -/
def FullAttr.observable : FullAttr :=
  { attr with extra := attr.extra.map fun ae =>
      { ae with mpNexthopLocalIn := 0 } }

/-- The fields that the table looks at. -/
def FullAttr.hashed : FullAttr :=
  { attr with extra := attr.extra.map fun ae =>
      { ae with mpNexthopLocalIn := 0, originatorId := 0 } }

def FullAttr.originatorId : Option UInt32 :=
  attr.extra.map fun ae => ae.originatorId

theorem extraCmp_iff {ae1 ae2 : FullExtra} :
    extraCmp ae1 ae2 = true ↔ ({ ae1 with mpNexthopLocalIn := 0, originatorId := 0 } : FullExtra)
        = { ae2 with mpNexthopLocalIn := 0, originatorId := 0 } := by
  simp only [extraCmp, Bool.and_eq_true, decide_eq_true_eq, FullExtra.mk.injEq, AttrExtra.mk.injEq]
  tauto

variable {attr1 attr2 : FullAttr}

theorem attrhashCmp_iff : attrhashCmp attr1 attr2 = true ↔ attr1.hashed = attr2.hashed := by
  have hx : (match attr1.extra, attr2.extra with
      | some ae1, some ae2 => extraCmp ae1 ae2
      | none, none => true
      | _, _ => false) = true
      ↔ attr1.hashed.extra = attr2.hashed.extra := by
    unfold FullAttr.hashed
    cases attr1.extra with
    | none => cases attr2.extra <;> simp
    | some ae1 =>
      cases attr2.extra with
      | none => simp
      | some ae2 =>
        rw [Option.map_some, Option.map_some, Option.some.injEq]
        exact extraCmp_iff
  simp only [attrhashCmp, FullAttr.hashed, FullAttr.mk.injEq] at hx ⊢
  rw [← hx]
  split
  · tauto
  · constructor
    · intro hf
      cases hf
    · tauto

/-- Attribute sets that do not compare equal, in either order. -/
instance : Std.Symm fun x y : Backet FullAttr =>
    attrhashCmp x.data y.data = false where
  symm x y hxy := by
    rw [← Bool.not_eq_true, attrhashCmp_iff] at hxy ⊢
    exact fun h => hxy h.symm

/-- The key is made of what is compared. -/
theorem attrhashKeyMake_hashed : attrhashKeyMake attr.hashed = attrhashKeyMake attr := by
  obtain ⟨aspath, community, extra, flag, nexthop, med, pref, origin⟩ := attr
  cases extra with
  | none => rfl
  | some ae => rfl

/-- The originator id is all that the table does not look at. -/
theorem observable_eq_iff :
    attr1.observable = attr2.observable
      ↔ attr1.hashed = attr2.hashed ∧ attr1.originatorId = attr2.originatorId := by
  simp only [FullAttr.observable, FullAttr.hashed, FullAttr.originatorId, FullAttr.mk.injEq]
  cases attr1.extra with
  | none => cases attr2.extra <;> simp
  | some ae1 =>
    cases attr2.extra with
    | none => simp
    | some ae2 =>
      obtain ⟨⟨⟩, weight1, local1⟩ := ae1
      obtain ⟨⟨⟩, weight2, local2⟩ := ae2
      simp only [Option.map_some, Option.some.injEq, FullExtra.mk.injEq, AttrExtra.mk.injEq]
      tauto

/-! ## The table -/

/-- `attrhash`: each attribute set under its key, no two of them equal. -/
structure AttrTable where
  backets : List (Backet FullAttr)
  keyed : ∀ backet ∈ backets, backet.key = attrhashKeyMake backet.data
  distinct : backets.Pairwise fun x y => attrhashCmp x.data y.data = false

namespace AttrTable

def empty : AttrTable := ⟨[], by simp, .nil⟩

variable (table : AttrTable)

def lookup (attr : FullAttr) : Option FullAttr :=
  hashLookup attrhashKeyMake attrhashCmp table.backets attr

theorem lookup_none {table : AttrTable} {attr : FullAttr}
    (h : table.lookup attr = none) {backet : Backet FullAttr}
    (hm : backet ∈ table.backets) : attrhashCmp backet.data attr = false := by
  by_contra hcmp
  rw [Bool.not_eq_false, attrhashCmp_iff] at hcmp
  have hk : backet.key = attrhashKeyMake attr := by
    rw [table.keyed backet hm, ← attrhashKeyMake_hashed, hcmp, attrhashKeyMake_hashed]
  have hf := hashLookup_none h hm hk
  rw [attrhashCmp_iff.mpr hcmp] at hf
  cases hf

def insert (attr : FullAttr) (h : table.lookup attr = none) : AttrTable where
  backets := ⟨attrhashKeyMake attr, attr⟩ :: table.backets
  keyed := List.forall_mem_cons.mpr ⟨rfl, table.keyed⟩
  distinct := by
    refine List.pairwise_cons.mpr ⟨fun backet hmem => ?_, table.distinct⟩
    have hfalse := lookup_none h hmem
    rw [← Bool.not_eq_true, attrhashCmp_iff] at hfalse ⊢
    exact fun heq => hfalse heq.symm

end AttrTable

/-- `bgp_attr_intern`: the attribute set of the table. -/
def bgpAttrIntern (table : AttrTable) (attr : FullAttr) :
    FullAttr × AttrTable :=
  match h : table.lookup attr with
  | some found => (found, table)
  | none => (attr, table.insert attr h)

variable {table : AttrTable} {attr : FullAttr}

theorem bgpAttrIntern_some {found : FullAttr} (h : table.lookup attr = some found) :
    bgpAttrIntern table attr = (found, table) := by
  unfold bgpAttrIntern
  split
  next found' h' =>
    cases h.symm.trans h'
    rfl
  next h' => cases h.symm.trans h'

theorem bgpAttrIntern_none
    (h : table.lookup attr = none) : (bgpAttrIntern table attr).1 = attr := by
  unfold bgpAttrIntern
  split
  next h' => cases h.symm.trans h'
  · rfl

/-! ## The theorem -/

/-- Comparison, key and interning agree with what can be observed. -/
structure InternsFaithfully (attr1 attr2 : FullAttr) (table : AttrTable) :
    Prop where
  cmp : attrhashCmp attr1 attr2 = true ↔ attr1.observable = attr2.observable
  key : attrhashCmp attr1 attr2 = true → attrhashKeyMake attr1 = attrhashKeyMake attr2
  intern : (bgpAttrIntern table attr1).1.observable = attr1.observable

theorem cmp_observable_iff {attr1 attr2 : FullAttr} :
    (attrhashCmp attr1 attr2 = true ↔ attr1.observable = attr2.observable)
      ↔ (attr1.hashed = attr2.hashed → attr1.originatorId = attr2.originatorId) := by
  rw [attrhashCmp_iff, observable_eq_iff]
  tauto

theorem intern_observable_iff :
    (bgpAttrIntern table attr).1.observable = attr.observable
      ↔ ∀ backet ∈ table.backets, backet.data.hashed = attr.hashed →
        backet.data.originatorId = attr.originatorId := by
  cases hlk : table.lookup attr with
  | none =>
    rw [bgpAttrIntern_none hlk]
    refine iff_of_true rfl fun backet hm heq => ?_
    have hf := AttrTable.lookup_none hlk hm
    rw [attrhashCmp_iff.mpr heq] at hf
    cases hf
  | some found =>
    obtain ⟨backet, hm, rfl, -, hcmp⟩ := hashLookup_some hlk
    rw [attrhashCmp_iff] at hcmp
    rw [bgpAttrIntern_some hlk, observable_eq_iff]
    constructor
    · rintro ⟨-, hid⟩ other ho heq
      -- two equal attribute sets of the table are one
      have hsm : other = backet := by
        by_contra hne
        have hf := table.distinct.forall ho hm hne
        rw [attrhashCmp_iff.mpr (heq.trans hcmp.symm)] at hf
        cases hf
      rwa [hsm]
    · intro hal
      exact ⟨hcmp, hal backet hm hcmp⟩

/-- Interning keeps everything that can be observed, except for attribute
sets that agree in everything but the originator id. -/
theorem attrhash_faithful_iff (attr1 attr2 : FullAttr) (table : AttrTable) :
    InternsFaithfully attr1 attr2 table
      ↔ (attr1.hashed = attr2.hashed → attr1.originatorId = attr2.originatorId)
        ∧ ∀ backet ∈ table.backets, backet.data.hashed = attr1.hashed →
          backet.data.originatorId = attr1.originatorId := by
  rw [← cmp_observable_iff, ← intern_observable_iff]
  constructor
  · intro h
    exact ⟨h.cmp, h.intern⟩
  · rintro ⟨hcmp, hintern⟩
    refine ⟨hcmp, fun htrue => ?_, hintern⟩
    rw [← attrhashKeyMake_hashed attr1, attrhashCmp_iff.mp htrue, attrhashKeyMake_hashed]

/-- A reflected route. -/
def originatedAttr (originatorId : UInt32) : FullAttr where
  aspath := some []
  community := none
  extra := some { AttrExtra.new with
    originatorId := originatorId
    weight := 0
    mpNexthopLocalIn := 0 }
  flag := { AttrFlags.empty with
    origin := true, asPath := true, nextHop := true, localPref := true
    originatorId := true }
  nexthop := 0x0A000001
  med := 0
  localPref := 100
  origin := 0

/-- Two routes that differ in the originator id only. -/
theorem attrhash_conflates_originator :
    ¬ ∀ attr1 attr2 table, InternsFaithfully attr1 attr2 table := by
  intro h
  have hcmp := (h (originatedAttr 1) (originatedAttr 2) .empty).cmp
  rw [cmp_observable_iff] at hcmp
  have hid := hcmp rfl
  revert hid
  decide

end SdnQuagga
