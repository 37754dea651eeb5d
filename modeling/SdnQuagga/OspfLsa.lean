import Mathlib.Data.List.FinRange
import Mathlib.Tactic.Ring

/-!
# OSPF router and network LSAs

The parts of `ospfd/ospf_lsa.h` and `ospfd/ospf_lsa.c` that the shortest
path calculation reads. An LSA is kept as the contents that
`ospf_lsa_examin` lets into the database: as many links as announced,
each with as many TOS metrics as announced. Only `ospf_lsa_has_link` does
not follow this structure: it steps over the links at a fixed width of
three words, so it is given the words.
-/

namespace SdnQuagga

open List

/-! ## Contents -/

/-- `struct router_lsa_link` with the TOS metrics behind it. -/
structure RouterLink where
  linkId : UInt32
  linkData : UInt32
  type : UInt8
  metric : UInt16
  tos : List UInt32
  /-- the number of metrics is a byte -/
  tos_lt : tos.length < 256
deriving DecidableEq, Repr

theorem RouterLink.noTos : ([] : List UInt32).length < 256 := by decide

def lsaLinkTypePointopoint : UInt8 := 1
def lsaLinkTypeTransit : UInt8 := 2
def lsaLinkTypeStub : UInt8 := 3
def lsaLinkTypeVirtuallink : UInt8 := 4

def ospfOutputCostInfinite : UInt16 := 0xFFFF

def routerLsaVirtual : UInt8 := 0x04

/-- The body of an `OSPF_ROUTER_LSA` or an `OSPF_NETWORK_LSA`. -/
inductive LsaBody where
  | router (flags : UInt8) (links : List RouterLink)
  | network (routers : List UInt32)
deriving DecidableEq, Repr

/-- `struct ospf_lsa`; `maxAge` is `IS_LSA_MAXAGE` at the time of the
calculation. -/
structure OspfLsa where
  id : UInt32
  advRouter : UInt32
  maxAge : Bool
  body : LsaBody
deriving DecidableEq, Repr

namespace OspfLsa

def isNetwork (lsa : OspfLsa) : Bool :=
  match lsa.body with
  | .router _ _ => false
  | .network _ => true

def links (lsa : OspfLsa) : List RouterLink :=
  match lsa.body with
  | .router _ links => links
  | .network _ => []

/-- A link of this type and link id is one to `lsa`. -/
def isTarget (lsa : OspfLsa) (linkId : UInt32) (type : UInt8) : Bool :=
  linkId = lsa.id && if lsa.isNetwork then type = lsaLinkTypeTransit
      else type = lsaLinkTypePointopoint || type = lsaLinkTypeVirtuallink

end OspfLsa

/-! ## Back links -/

/-- The third word of a link: type, number of TOS metrics, metric. -/
def RouterLink.m (l : RouterLink) : UInt32 :=
  UInt32.ofNat (l.type.toNat * 2 ^ 24 + l.tos.length * 2 ^ 16 + l.metric.toNat)

def RouterLink.words (l : RouterLink) : List UInt32 :=
  l.linkId :: l.linkData :: l.m :: l.tos

/-- The walk of `ospf_get_next_link` and `ospf_spf_next` steps over the TOS metrics. -/
def linkWalk (ws : List UInt32) : List (UInt32 × UInt8) :=
  match ws with
  | linkId :: _ :: m :: rest =>
    (linkId, UInt8.ofNat (m.toNat / 2 ^ 24)) :: linkWalk (rest.drop (m.toNat / 2 ^ 16 % 256))
  | _ => []
termination_by ws.length
decreasing_by grind

/-- Link id and type at every third word. -/
def linkStrides : List UInt32 → List (UInt32 × UInt8)
  | linkId :: _ :: m :: rest =>
    (linkId, UInt8.ofNat (m.toNat / 2 ^ 24)) :: linkStrides rest
  | _ => []

/-- `ospf_lsa_has_link`: the index of a link from `w` back to `v`. -/
def ospfLsaHasLink (w v : OspfLsa) : Option Nat :=
  match w.body with
  | .network routers =>
    if v.isNetwork then none else routers.findIdx? (· = v.id)
  | .router _ links =>
    ((linkStrides (links.flatMap RouterLink.words)).take
      links.length).findIdx? fun (linkId, type) => v.isTarget linkId type

/-- One of the links or attached routers of `w` is `v`. -/
def LinksTo (w v : OspfLsa) : Prop :=
  match w.body with
  | .network routers => v.isNetwork = false ∧ v.id ∈ routers
  | .router _ links => ∃ l ∈ links, v.isTarget l.linkId l.type = true

/-- No link has TOS metrics. -/
def OspfLsa.NoTos (lsa : OspfLsa) : Prop := ∀ l ∈ lsa.links, l.tos = []

theorem RouterLink.m_eq (l : RouterLink) : UInt8.ofNat (l.m.toNat / 2 ^ 24) = l.type
    ∧ l.m.toNat / 2 ^ 16 % 256 = l.tos.length := by
  have hm := l.metric.toNat_lt
  have ht := l.type.toNat_lt
  have hn := l.tos_lt
  rw [RouterLink.m, UInt32.toNat_ofNat', Nat.mod_eq_of_lt (by omega)]
  refine ⟨?_, by omega⟩
  have hdiv : (l.type.toNat * 2 ^ 24 + l.tos.length * 2 ^ 16 + l.metric.toNat) / 2 ^ 24
      = l.type.toNat := by omega
  rw [hdiv, UInt8.ofNat_toNat]

theorem linkStrides_words (l : RouterLink) (ws : List UInt32) :
    linkStrides (l.words ++ ws) = (l.linkId, l.type) :: linkStrides (l.tos ++ ws) := by
  simp only [RouterLink.words, cons_append, linkStrides, l.m_eq.1]

theorem linkStrides_noTos {links : List RouterLink} (h : ∀ l ∈ links, l.tos = [])
    (ws : List UInt32) : linkStrides (links.flatMap RouterLink.words ++ ws)
      = links.map (fun l => (l.linkId, l.type)) ++ linkStrides ws := by
  induction links with
  | nil => rfl
  | cons l links ih =>
    rw [flatMap_cons, append_assoc, linkStrides_words, h l mem_cons_self, nil_append,
      ih fun l' hl' => h l' (mem_cons_of_mem _ hl')]
    rfl

theorem ospfLsaHasLink_isSome {w v : OspfLsa} (h : w.NoTos) :
    (ospfLsaHasLink w v).isSome ↔ LinksTo w v := by
  unfold ospfLsaHasLink LinksTo
  unfold OspfLsa.NoTos OspfLsa.links at h
  split
  · split
    · simp_all
    · simp_all
  next flags links hbd =>
    simp only [hbd] at h
    have hstrides := linkStrides_noTos h []
    simp only [append_nil, linkStrides] at hstrides
    rw [hstrides, take_of_length_le (by simp)]
    simp

theorem linkWalk_links (links : List RouterLink) :
    linkWalk (links.flatMap RouterLink.words) = links.map fun l => (l.linkId, l.type) := by
  induction links with
  | nil => simp [linkWalk]
  | cons l links ih =>
    rw [flatMap_cons, RouterLink.words, cons_append, cons_append, cons_append, linkWalk,
      l.m_eq.1, l.m_eq.2, drop_left, ih]
    rfl

/-- What `ospf_lsa_has_link` answers is right if a link to `v` comes before any TOS metrics, or
if the words behind the first metrics, read in threes, have a link to `v` just when the links
there do. -/
def SeesLink (v : OspfLsa) : List RouterLink → Prop
  | [] => True
  | l :: links => v.isTarget l.linkId l.type = true ∨
      if l.tos = [] then SeesLink v links
      else (∃ s ∈ (linkStrides (l.tos ++ links.flatMap RouterLink.words)).take links.length,
          v.isTarget s.1 s.2 = true) ↔ ∃ k ∈ links, v.isTarget k.linkId k.type = true

theorem strides_agree_iff (v : OspfLsa) (links : List RouterLink) :
    ((∃ s ∈ (linkStrides (links.flatMap RouterLink.words)).take links.length,
        v.isTarget s.1 s.2 = true) ↔ ∃ k ∈ links, v.isTarget k.linkId k.type = true)
      ↔ SeesLink v links := by
  induction links with
  | nil => simp [SeesLink]
  | cons l links ih =>
    simp only [flatMap_cons, linkStrides_words, length_cons, take_succ_cons, mem_cons,
      or_and_right, exists_or, exists_eq_left, SeesLink]
    by_cases hl : v.isTarget l.linkId l.type = true
    · simp [hl]
    · by_cases htos : l.tos = []
      · simp only [hl, htos, nil_append, Bool.false_eq_true, false_or, if_true, ih]
      · simp only [hl, htos, Bool.false_eq_true, false_or, if_false]

/-- A link to the router 2. -/
def linkToTwo (tos : List UInt32) (h : tos.length < 256) : RouterLink :=
  ⟨2, 0x0A010001, lsaLinkTypePointopoint, 10, tos, h⟩

def stubLink (tos : List UInt32) (h : tos.length < 256) : RouterLink :=
  ⟨0x0A000000, 0xFFFFFF00, lsaLinkTypeStub, 10, tos, h⟩

end SdnQuagga
