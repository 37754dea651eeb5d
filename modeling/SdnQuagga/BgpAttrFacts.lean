import SdnQuagga.BgpAttrFlags
import SdnQuagga.BgpAttrLeak

/-!
# What the attribute loop has read

The attribute set behind the loop, as a function of the bytes of the field:
`passed` are the attributes the loop got past, `loopVerdict` is what it
returns, and `Facts` says which parts and flags these attributes have set.
Behind the loop the path that `bgp_attr_aspath_check` looks at is
`mergedPath`.
-/

namespace SdnQuagga

open FaultM SdnQuagga.Stream List

/-! ## The field -/

variable (peer : Peer)

/-- The attributes that the loop gets past. -/
def passed : List UInt8 → List RawAttr → List RawAttr
  | _, [] => []
  | seen, a :: as =>
    if a.type ∈ seen then []
    else if accepted peer a then a :: passed (a.type :: seen) as
    else []

/-- An attribute whose error withdraws the routes: an AS4_PATH that other
routers have passed on, from an eBGP peer. -/
def withdraws (a : RawAttr) : Bool :=
  peerSort peer = .ebgp && a.type = attrAs4Path && flagsRight a
    && checkFlag (0xF0 &&& a.flags) attrFlagPartial

def loopVerdict (complete : Bool) :
    List UInt8 → List RawAttr → ParseRet
  | _, [] => if complete then .proceed else .error
  | seen, a :: as =>
    if a.type ∈ seen then .error
    else if accepted peer a then
      loopVerdict complete (a.type :: seen) as
    else if withdraws peer a then .withdraw else .error

def parsedPath (use32bit : Bool) (value : List UInt8) :
    Option (List Assegment) :=
  match aspathParse value.length use32bit (.ofBytes value) with
  | .ok (path, _) => path
  | .error _ => none

variable (type : UInt8)

/-- The path that the attribute of the type carries. -/
def pathIn (use32bit : Bool) (as : List RawAttr) :
    Option (List Assegment) :=
  (as.find? (·.type = type)).bind fun a => parsedPath use32bit a.value

variable (as : List RawAttr)

def hasType : Bool := as.any (·.type = type)

/-- An attribute of the type that is not empty: an empty list of communities
is not kept. -/
def hasValue : Bool :=
  as.any fun a => a.type = type && a.value ≠ []

/-- The parts that these attributes have set. -/
structure PartFacts (peer : Peer) (as : List RawAttr) (h : HeldParts) :
    Prop where
  aspath : h.aspath = pathIn attrAsPath peer.capAs4Rcv as
  as4Path : h.as4Path = pathIn attrAs4Path true as
  community : h.community.isSome = hasValue attrCommunities as
  ecommunity : h.ecommunity.isSome = hasValue attrExtCommunities as
  cluster : h.cluster.isSome = hasType attrClusterList as
  transit : h.transit.isSome = as.any unknownTransitive

/-- The flags that these attributes have set. -/
def mandatoryIn : Mandatory :=
  as.foldl (fun flags a => flags.add peer a.type) ⟨false, false, false, false⟩

/-- What the attributes have made of the parser's state. -/
structure Facts (peer : Peer) (as : List RawAttr) (st : ParseState) :
    Prop where
  parts : PartFacts peer as (heldParts st)
  mandatory : mandatoryOf st = mandatoryIn peer as
  view : as4View st = fieldView peer as

/-! ## AS paths -/

section

variable {use32bit : Bool} {v : List UInt8}

theorem reads_aspathParse_any (h : aspathOk use32bit v = true) :
    ∃ path, Reads (aspathParse v.length use32bit) v (some path) := by
  obtain ⟨r, hr, hcon⟩ := consumes_aspathParse use32bit v
  rw [h] at hr
  obtain ⟨path, rfl⟩ := Option.isSome_iff_exists.mp hr
  refine ⟨path, fun s hv => ?_⟩
  obtain ⟨s', hrn, -, -, hal⟩ := hcon s hv
  rw [hrn, hal h]

theorem parsedPath_of_reads {path : Option (List Assegment)}
    (h : Reads (aspathParse v.length use32bit) v path) : parsedPath use32bit v = path := by
  have hrn := h (.ofBytes v) ((ofBytes_unread v).symm ▸ prefix_rfl)
  rw [parsedPath, hrn]

end

/-! ## One attribute -/

/-- The return value of a turn that the handler ended with `ret`. -/
def turnOf (ret : ParseRet) : Option ParseRet :=
  if ret = .proceed then none else some ret

variable {peer : Peer} {uninit : UInt8 → UInt16} {endp : Nat} {a : RawAttr}
  {rest : List UInt8} {st p : ParseState} {r : Option ParseRet} {ret : ParseRet} {type : UInt8}

/-- What an attribute does: wrong flags are an error, right ones lead to the
handler, and a handler that goes on has read the attribute. -/
theorem attrBody_cases (h : AtField endp (a.bytes ++ rest) st) (hwf : ParseWf st)
    (hrn : attrBody peer uninit (argsAt st a) (atValue st a) = .ok (r, p)) :
    (flagsRight a = false ∧ ∃ ret, bgpAttrMalformed peer (argsAt st a)
        notifyUpdateAttrFlagErr a.bytes.length (atValue st a) = .ok (ret, p) ∧ r = turnOf ret)
      ∨ (flagsRight a = true ∧ ∃ ret p1 notified,
        attrDispatch peer (argsAt st a) uninit (atValue st a) = .ok (ret, p1)
        ∧ p = { p1 with notified := notified } ∧ r = turnOf ret) := by
  have h19 : a.type ≠ 19 := attrBody_type_ne hrn
  have hr' := hrn
  rw [attrBody, bgpAttrFlagInvalid_eq rfl rfl h19, pure_bind] at hr'
  cases hrgt : flagsRight a with
  | false =>
    rw [hrgt] at hr'
    obtain ⟨ret, p1, hmal, hrs⟩ := bind_eq_ok hr'
    refine .inl ⟨rfl, ret, ?_⟩
    cases ret with
    | proceed | error | withdraw => cases hrs; exact ⟨hmal, rfl⟩
  | true =>
    rw [hrgt] at hr'
    obtain ⟨ret, p1, hds, hfet⟩ := bind_eq_ok hr'
    refine .inr ⟨rfl, ret, p1, p.notified, hds, ?_⟩
    cases ret with
    | error | withdraw => cases hfet; exact ⟨rfl, rfl⟩
    | proceed =>
      rw [attrFetched, get_bind] at hfet
      split at hfet
      · -- no handler goes on in the middle of its attribute
        cases hfet
        have hac := attrBody_refused h hwf hrn
        have hft : faulty a = false := by
          by_contra hf
          have hun := unknownTransitive_of_faulty (Bool.eq_true_of_not_eq_false hf) h19
          cases (attrBody_copied h hun hrn).2
        have hvr : Verdict peer a (attrDispatch peer (argsAt st a)
            uninit) (atValue st a) := verdict_dispatch h.atValue
          ⟨hwf.asPath, hwf.as4Path, hwf.aggregator⟩ hft
        rw [accepted, wellFormed, hrgt, Bool.true_and, Bool.or_eq_false_iff] at hac
        rw [Verdict, hac.1, hac.2, if_neg Bool.false_ne_true, if_neg Bool.false_ne_true] at hvr
        obtain ⟨ret, st', hr1, hrt⟩ := hvr
        rw [hds] at hr1
        cases hr1
        exact absurd rfl hrt
      · cases hfet
        exact ⟨rfl, rfl⟩

theorem turnOf_some {ret ret' : ParseRet} (h : some ret' = turnOf ret) :
    ret = ret' ∧ ret ≠ .proceed := by
  unfold turnOf at h
  split at h
  · cases h
  · cases h
    exact ⟨rfl, ‹_›⟩

theorem turnOf_none (h : none = turnOf ret) : ret = .proceed := by
  unfold turnOf at h
  split at h
  · assumption
  · cases h

theorem flagsRight_as4Path (hty : a.type = attrAs4Path) :
    flagsRight a = (checkFlag (0xF0 &&& a.flags) attrFlagOptional
      && checkFlag (0xF0 &&& a.flags) attrFlagTrans) := by
  have hal : ∀ i < 256, (!flagsConflict (0xF0 &&& UInt8.ofNat i) 0xC0)
      = (checkFlag (0xF0 &&& UInt8.ofNat i) attrFlagOptional
        && checkFlag (0xF0 &&& UInt8.ofNat i) attrFlagTrans) := by decide +kernel
  have hfl := hal a.flags.toNat (UInt8.toNat_lt _)
  rw [UInt8.ofNat_toNat] at hfl
  rwa [flagsRight, hty]

theorem dispatch_withdraw {args : AttrArgs}
    (hrn : attrDispatch peer args uninit st = .ok (.withdraw, p)) :
    peerSort peer = .ebgp ∧ args.type = attrAs4Path
      ∧ checkFlag args.flags attrFlagPartial = true := by
  have hfl := (handled_dispatch (f := follow fun _ => ()) (P := fun ret => ret = .withdraw →
      peerSort peer = .ebgp ∧ args.type ∉ ignorableAttrs
        ∧ args.type ∉ coreAttrs ∧ checkFlag args.flags attrFlagTrans
        ∧ checkFlag args.flags attrFlagOptional ∧ checkFlag args.flags attrFlagPartial)
    peer args uninit (fun _ _ _ => rfl) nofun nofun
    fun _ _ _ _ _ hm => (malformed_ret hm).2.mp).returned _ _ _ hrn rfl
  obtain ⟨hsor, hig, hcore, htrs, hopt, hprt⟩ := hfl
  refine ⟨hsor, ?_, hprt⟩
  by_cases hkn : args.type ∈ knownAttrs
  · simp only [knownAttrs, ignorableAttrs, coreAttrs, mem_cons,
      not_mem_nil, or_false, not_or] at hkn hig hcore
    tauto
  · -- an unknown attribute that is optional is no error
    rw [attrDispatch_unknown hkn, bgpAttrUnknown] at hrn
    obtain ⟨u, st1, -, hrs⟩ := bind_eq_ok hrn
    rw [hopt, htrs, Bool.not_true, if_neg Bool.false_ne_true, if_neg Bool.false_ne_true] at hrs
    obtain ⟨u, st2, -, hrs⟩ := bind_eq_ok hrs
    obtain ⟨u, st3, -, hrs⟩ := bind_eq_ok hrs
    obtain ⟨u, st4, -, hrs⟩ := bind_eq_ok hrs
    cases hrs

section

variable (h : AtField endp (a.bytes ++ rest) st)
include h

/-- How an attribute that is not accepted ends the loop. -/
theorem attrBody_verdict (hwf : ParseWf st)
    (hrn : attrBody peer uninit (argsAt st a) (atValue st a) = .ok (some ret, p)) :
    ret = if withdraws peer a then .withdraw else .error := by
  have hrt := attrBody_some hrn
  have hiff : ret = .withdraw ↔ withdraws peer a = true := by
    simp only [withdraws, Bool.and_eq_true, decide_eq_true_eq]
    obtain ⟨hrgt, ret', hmal, htn⟩
      | ⟨hrgt, ret', p1, notified, hds, -, htn⟩ :=
      attrBody_cases h hwf hrn
    · obtain ⟨rfl, -⟩ := turnOf_some htn
      refine ⟨fun hw => ?_, fun hw => ?_⟩
      · obtain ⟨-, hig, hcore, htrs, hopt, -⟩ :=
          (malformed_ret hmal).2.mp hw
        have hkn : a.type ∈ knownAttrs := by
          by_contra hun
          rw [flagsRight_unknown hun] at hrgt
          cases hrgt
        have hty : a.type = attrAs4Path := by
          simp only [knownAttrs, ignorableAttrs, coreAttrs, mem_cons,
            not_mem_nil, or_false, not_or] at hkn hig hcore
          tauto
        rw [flagsRight_as4Path hty, hopt, htrs] at hrgt
        cases hrgt
      · rw [hrgt] at hw
        cases hw.1.2
    · obtain ⟨rfl, hne⟩ := turnOf_some htn
      refine ⟨?_, ?_⟩
      · rintro rfl
        obtain ⟨hsor, hty, hprt⟩ := dispatch_withdraw hds
        exact ⟨⟨⟨hsor, hty⟩, hrgt⟩, hprt⟩
      · rintro ⟨⟨⟨hsor, hty⟩, -⟩, hprt⟩
        rw [flagsRight_as4Path hty, Bool.and_eq_true] at hrgt
        have hds' : bgpAttrAs4Path peer (argsAt st a) (atValue st a) = .ok (ret', p1) := by
          rw [← hds, attrDispatch]
          simp only [hty]
          rfl
        obtain ⟨path, st1, -, hrs⟩ := bind_eq_ok hds'
        obtain ⟨u, st2, -, hrs⟩ := bind_eq_ok hrs
        split at hrs
        · refine (malformed_ret hrs).2.mpr ⟨hsor, ?_, ?_, hrgt.2, hrgt.1, hprt⟩
          · show a.type ∉ ignorableAttrs
            rw [hty]
            decide
          · show a.type ∉ coreAttrs
            rw [hty]
            decide
        · obtain ⟨u, st3, -, hrs⟩ := bind_eq_ok hrs
          cases hrs
          exact absurd rfl hne
  split
  next hw => exact hiff.mpr hw
  next hw =>
    cases ret with
    | proceed => exact absurd rfl hrt
    | error => rfl
    | withdraw => exact absurd (hiff.mp rfl) hw

theorem attrBody_mandatory (hwf : ParseWf st)
    (hrn : attrBody peer uninit (argsAt st a) (atValue st a) = .ok (r, p)) :
    mandatoryOf p = if r = none then (mandatoryOf st).add peer a.type
      else mandatoryOf st := by
  have hat : mandatoryOf (atValue st a) = mandatoryOf st := rfl
  obtain ⟨-, ret, hmal, rfl⟩
    | ⟨-, ret, p1, notified, hds, rfl, rfl⟩ := attrBody_cases h hwf hrn
  · have hkp := preserves_malformed (f := mandatoryOf) _ _ _ _ _ _ _ hmal
    rw [hkp, hat]
    split
    next htn =>
      have hig := (malformed_ret hmal).1 (turnOf_none htn.symm)
      refine (Mandatory.add_other ?_ _).symm
      simp only [ignorableAttrs, mem_cons, not_mem_nil, or_false] at hig
      rcases hig with hig | hig | hig <;> rw [hig] <;> decide
    · rfl
  · have hno : turnOf ret = none ↔ ret = .proceed := by
      cases ret <;> decide
    simp only [hno]
    by_cases hmb : a.type ∈ mandatoryAttrs
    · have hm' : (argsAt st a).type ∈ mandatoryAttrs := hmb
      have hs := sets_dispatch hm' _ _ _ hds
      rwa [hat] at hs
    · have hm' : (argsAt st a).type ∉ mandatoryAttrs := hmb
      have hkp := keeps_dispatch hm' _ _ _ hds
      rw [Mandatory.add_other hmb, ite_self]
      exact hkp.trans hat

/-- An attribute that was passed, of a type whose errors are not ignored,
was taken by its handler. -/
theorem attrBody_taken (hwf : ParseWf st) (hig : a.type ∉ ignorableAttrs)
    (hrn : attrBody peer uninit (argsAt st a) (atValue st a) = .ok (none, p)) :
    ∃ p1 notified, attrDispatch peer (argsAt st a) uninit (atValue st a)
        = .ok (.proceed, p1) ∧ p = { p1 with notified := notified } := by
  obtain ⟨-, ret, hmal, htn⟩
    | ⟨-, ret, p1, notified, hds, rfl, htn⟩ := attrBody_cases h hwf hrn
  · exact absurd ((malformed_ret hmal).1 (turnOf_none htn)) hig
  · obtain rfl := turnOf_none htn
    exact ⟨p1, notified, hds, rfl⟩

end

section

variable {args : AttrArgs} {ret : ParseRet}

section

variable (hig : args.type ∉ ignorableAttrs)
include hig

/-- The end of a handler that has set its part to `o`. -/
theorem part_at_end {α : Type} {g : HeldParts → Option α} {o : Option α}
    {flag : AttrFlags → AttrFlags} {subcode : UInt8} {n : Nat} (hst : g (heldParts st) = o)
    [Decidable (o = none)]
    (hrn : (if o = none then bgpAttrMalformed peer args subcode n
      else do modifyFlag flag; return .proceed) st = .ok (ret, p)) :
    (g (heldParts p)).isSome = decide (ret = .proceed) := by
  split at hrn
  next hno =>
    have hkp := preserves_malformed (f := follow g) _ _ _ _ _ _ _ hrn
    have hprc : ret ≠ .proceed := fun h => hig ((malformed_ret hrn).1 h)
    rw [decide_eq_false hprc]
    exact congrArg Option.isSome (hkp.trans (hst.trans hno))
  next hso =>
    cases hrn
    exact Option.isSome_iff_ne_none.mpr (hst ▸ hso)

/-- The part that `bgp_attr_aspath` sets. -/
theorem aspath_part (hrn : bgpAttrAspath peer args st = .ok (ret, p)) :
    p.attr.aspath.isSome = decide (ret = .proceed) := by
  obtain ⟨path, st1, -, hrs⟩ := bind_eq_ok hrn
  obtain ⟨u, st2, hs, hla⟩ := bind_eq_ok hrs
  cases hs
  exact part_at_end hig (g := HeldParts.aspath) (o := path) rfl hla

theorem as4Path_part (hrn : bgpAttrAs4Path peer args st = .ok (ret, p)) :
    p.as4Path.isSome = decide (ret = .proceed) := by
  obtain ⟨path, st1, -, hrs⟩ := bind_eq_ok hrn
  obtain ⟨u, st2, hs, hla⟩ := bind_eq_ok hrs
  cases hs
  exact part_at_end hig (g := HeldParts.as4Path) (o := path) rfl hla

theorem community_part (hrn : bgpAttrCommunity peer args st = .ok (ret, p)) :
    p.attr.community.isSome = (decide (ret = .proceed) && args.length ≠ 0) := by
  rw [bgpAttrCommunity] at hrn
  split at hrn
  next hlen =>
    cases hrn
    simp [hlen]
  next hlen =>
    obtain ⟨bs, st1, -, hrs⟩ := bind_eq_ok hrn
    obtain ⟨u, st2, hs, hrs⟩ := bind_eq_ok hrs
    cases hs
    obtain ⟨u, st3, hfwd, hla⟩ := bind_eq_ok hrs
    have hkp := preserves_input (f := follow HeldParts.community) _ _ _ _ hfwd
    rw [decide_eq_true hlen, Bool.and_true]
    exact part_at_end hig hkp hla

theorem ecommunity_part (hrn : bgpAttrExtCommunities peer args st = .ok (ret, p)) :
    (heldParts p).ecommunity.isSome = (decide (ret = .proceed) && args.length ≠ 0) := by
  rw [bgpAttrExtCommunities] at hrn
  split at hrn
  next hlen =>
    cases hrn
    simp only [heldParts, hlen]
    cases st.attr.extra with
    | none => rfl
    | some attre => rfl
  next hlen =>
    obtain ⟨bs, st1, -, hrs⟩ := bind_eq_ok hrn
    obtain ⟨u, st2, hs, hrs⟩ := bind_eq_ok hrs
    cases hs
    obtain ⟨u, st3, hfwd, hla⟩ := bind_eq_ok hrs
    have hkp := preserves_input (f := follow HeldParts.ecommunity) _ _ _ _ hfwd
    rw [decide_eq_true hlen, Bool.and_true]
    exact part_at_end hig hkp hla

theorem cluster_part (hrn : bgpAttrClusterList peer args st = .ok (ret, p))
    (hno : (heldParts st).cluster = none) :
    (heldParts p).cluster.isSome = decide (ret = .proceed) := by
  rw [bgpAttrClusterList] at hrn
  split at hrn
  · have hkp := preserves_malformed (f := follow HeldParts.cluster) _ _ _ _ _ _ _ hrn
    have hprc : ret ≠ .proceed := fun h => hig ((malformed_ret hrn).1 h)
    rw [decide_eq_false hprc]
    exact congrArg Option.isSome (hkp.trans hno)
  · obtain ⟨bs, st1, -, hrs⟩ := bind_eq_ok hrn
    obtain ⟨u, st2, hs, hrs⟩ := bind_eq_ok hrs
    cases hs
    obtain ⟨u, st3, hfwd, hla⟩ := bind_eq_ok hrs
    have hkp := preserves_input (f := follow HeldParts.cluster) _ _ _ _ hfwd
    cases hla
    exact congrArg Option.isSome hkp

end

/-- A handler that ends the parse leaves its part empty. -/
theorem dispatch_unset (huns : Unset args.type (heldParts st)) (hrt : ret ≠ .proceed)
    (hrn : attrDispatch peer args uninit st = .ok (ret, p)) : Unset args.type (heldParts p) := by
  have hno {α : Type} {o : Option α} (h : o.isSome = decide (ret = .proceed)) : o = none := by
    rwa [decide_eq_false hrt, Option.isSome_eq_false_iff, Option.isNone_iff_eq_none] at h
  have hno' {α : Type} {o : Option α} {b : Bool}
      (h : o.isSome = (decide (ret = .proceed) && b)) : o = none := by
    rwa [decide_eq_false hrt, Bool.false_and, Option.isSome_eq_false_iff,
      Option.isNone_iff_eq_none] at h
  constructor <;> intro hty <;> rw [attrDispatch, hty] at hrn
    <;> have hig : args.type ∉ ignorableAttrs := by rw [hty]; decide
  · exact hno (aspath_part hig hrn)
  · exact hno (as4Path_part hig hrn)
  · exact hno' (community_part hig hrn)
  · exact hno' (ecommunity_part hig hrn)
  · exact hno (cluster_part hig hrn (huns.cluster hty))

end

theorem mask_unset {h : HeldParts} (huns : Unset type h) :
    { h.mask type with transit := h.transit } = h := by
  obtain ⟨aspath, as4Path, community, ecommunity, cluster, transit⟩ := h
  unfold HeldParts.mask
  split_ifs with h1 h2 h3 h4 h5
  · obtain rfl : aspath = none := huns.aspath h1
    rfl
  · obtain rfl : as4Path = none := huns.as4Path h2
    rfl
  · obtain rfl : community = none := huns.community h3
    rfl
  · obtain rfl : ecommunity = none := huns.ecommunity h4
    rfl
  · obtain rfl : cluster = none := huns.cluster h5
    rfl
  · rfl

theorem eq_of_mask {h h' : HeldParts}
    (hmk : h'.mask type = h.mask type) (huns : Unset type h)
    (huns' : Unset type h') (htr : h'.transit = h.transit) : h' = h := by
  refine (mask_unset huns').symm.trans ?_
  rw [hmk, htr, mask_unset huns]

theorem attrBody_stops (h : AtField endp (a.bytes ++ rest) st)
    (hwf : ParseWf st) (huns : Unset a.type (heldParts st))
    (hrn : attrBody peer uninit (argsAt st a) (atValue st a)
      = .ok (some ret, p)) : heldParts p = heldParts st := by
  obtain ⟨-, ret', hmal, -⟩
    | ⟨-, ret', p1, notified, hds, rfl, htn⟩ := attrBody_cases h hwf hrn
  · have hkp := preserves_malformed (f := follow id) _ _ _ _ _ _ _ hmal
    exact hkp
  · obtain ⟨rfl, hrt⟩ := turnOf_some htn
    have hun : unknownTransitive a = false := by
      by_contra hun
      cases (attrBody_copied h (Bool.eq_true_of_not_eq_false hun) hrn).2
    have htr := preserves_body_transit hun rfl rfl _ _ _ hrn
    have hmk := preserves_dispatch peer (argsAt st a) uninit
      (blind_mask (argsAt st a).type) _ _ _ hds
    have huns' : Unset (argsAt st a).type (heldParts (atValue st a)) := huns
    have huns1 := dispatch_unset huns' hrt hds
    exact eq_of_mask hmk huns huns1 htr

variable {as : List RawAttr} {type : UInt8}

theorem pathIn_append (hn : a.type = type → hasType type as = false)
    (use32bit : Bool) : pathIn type use32bit (as ++ [a])
      = if a.type = type then parsedPath use32bit a.value
        else pathIn type use32bit as := by
  unfold pathIn
  rw [find?_append]
  by_cases hty : a.type = type
  · have hno : as.find? (·.type = type) = none := by
      have hany := hn hty
      rw [hasType, any_eq_false] at hany
      exact find?_eq_none.mpr hany
    rw [hno, if_pos hty, Option.none_or, find?_singleton, decide_eq_true hty]
    rfl
  · rw [if_neg hty, find?_singleton, decide_eq_false hty]
    cases as.find? (·.type = type) with
    | none => rfl
    | some b => rfl

theorem hasType_append : hasType type (as ++ [a]) = (hasType type as || a.type = type) := by
  simp [hasType]

/-- No attribute of the type was passed before. -/
theorem hasValue_of_new (hn : hasType type as = false) : hasValue type as = false := by
  rw [hasType, any_eq_false] at hn
  rw [hasValue, any_eq_false]
  intro b hb
  rw [Bool.and_eq_true]
  exact fun hand => hn b hb hand.1

theorem hasValue_append (hn : a.type = type → hasType type as = false) :
    hasValue type (as ++ [a]) = if a.type = type then decide (a.value.length ≠ 0)
      else hasValue type as := by
  rw [hasValue, any_append, ← hasValue]
  split
  next hty => simp [hasValue_of_new (hn hty), hty]
  next hty => simp [hty]

variable (h : AtField endp (a.bytes ++ rest) st) (hwf : ParseWf st)
  (hrn : attrBody peer uninit (argsAt st a) (atValue st a) = .ok (none, p))
include h hwf hrn

theorem valueOk_passed (hig : a.type ∉ ignorableAttrs) : valueOk peer a = true := by
  have hac := (attrBody_none h hwf hrn).acc
  rw [accepted, not_ignorable peer hig, Bool.or_false, wellFormed, Bool.and_eq_true] at hac
  exact hac.2

theorem attrBody_path :
    (a.type = attrAsPath → p.attr.aspath = parsedPath peer.capAs4Rcv a.value)
      ∧ (a.type = attrAs4Path → p.as4Path = parsedPath true a.value) := by
  have hat := h.atValue
  constructor <;> intro hty <;> have hig : a.type ∉ ignorableAttrs := by rw [hty]; decide
  all_goals
    have hvl := valueOk_passed h hwf hrn hig
    rw [valueOk, hty] at hvl
    obtain ⟨path, hrd⟩ := reads_aspathParse_any hvl
    obtain ⟨p1, notified, hds, rfl⟩ := attrBody_taken h hwf hig hrn
    have hinp := input_reads hrd hat.value hat.inField
    rw [attrDispatch, show (argsAt st a).type = _ from hty] at hds
    obtain ⟨path', st1, hpat, hrs⟩ := bind_eq_ok hds
    rw [show (argsAt st a).length = a.value.length from rfl, hinp] at hpat
    cases hpat
    cases hrs
    exact (parsedPath_of_reads hrd).symm

/-- A part that only the handler of `type` sets. -/
theorem attrBody_part {α : Type} {g : HeldParts → Option α} {set : Bool}
    (hig : type ∉ ignorableAttrs) (hblind : a.type ≠ type → Blind g a.type)
    (hs : a.type = type → a.type ∉ ignorableAttrs → ∀ p1, attrDispatch peer (argsAt st a)
      uninit (atValue st a) = .ok (.proceed, p1) → (g (heldParts p1)).isSome = set) :
    (g (heldParts p)).isSome = if a.type = type then set else (g (heldParts st)).isSome := by
  split
  next hty =>
    obtain ⟨p1, notified, hds, rfl⟩ := attrBody_taken h hwf (hty ▸ hig) hrn
    exact hs hty (hty ▸ hig) p1 hds
  next hty =>
    have hblind : Blind g (argsAt st a).type := hblind hty
    have hkp := preserves_body peer uninit hblind _ _ _ hrn
    exact congrArg Option.isSome hkp

/-- The parts behind an attribute that was passed. -/
theorem attrBody_parts (hpt : PartFacts peer as (heldParts st)) (hn : hasType a.type as = false) :
    PartFacts peer (as ++ [a]) (heldParts p) where
  aspath := by
    rw [pathIn_append fun hty => hty ▸ hn]
    split
    next hty => exact (attrBody_path h hwf hrn).1 hty
    next hty =>
      have hkp := preserves_body peer uninit
        (blind_aspath (show (argsAt st a).type ≠ _ from hty)) _ _ _ hrn
      exact hkp.trans hpt.aspath
  as4Path := by
    rw [pathIn_append fun hty => hty ▸ hn]
    split
    next hty => exact (attrBody_path h hwf hrn).2 hty
    next hty =>
      have hkp := preserves_body peer uninit
        (blind_as4Path (show (argsAt st a).type ≠ _ from hty)) _ _ _ hrn
      exact hkp.trans hpt.as4Path
  community := by
    rw [hasValue_append fun hty => hty ▸ hn, ← hpt.community]
    refine attrBody_part h hwf hrn (by decide) blind_community fun hty hig p1 hds => ?_
    rw [attrDispatch, show (argsAt st a).type = _ from hty] at hds
    exact community_part hig hds
  ecommunity := by
    rw [hasValue_append fun hty => hty ▸ hn, ← hpt.ecommunity]
    refine attrBody_part h hwf hrn (by decide) blind_ecommunity fun hty hig p1 hds => ?_
    rw [attrDispatch, show (argsAt st a).type = _ from hty] at hds
    exact ecommunity_part hig hds
  cluster := by
    refine (attrBody_part h hwf hrn (by decide) blind_cluster fun hty hig p1 hds => by
      rw [attrDispatch, show (argsAt st a).type = _ from hty] at hds
      have hno : (heldParts st).cluster.isSome = false := by rw [hpt.cluster, ← hty, hn]
      exact cluster_part hig hds
        (Option.isNone_iff_eq_none.mp (Option.isSome_eq_false_iff.mp hno))).trans ?_
    rw [hasType_append, hpt.cluster]
    split
    next hty => simp [hty]
    next hty => rw [decide_eq_false hty, Bool.or_false]
  transit := by
    rw [any_append, any_cons, any_nil, Bool.or_false]
    cases hun : unknownTransitive a with
    | false =>
      have hkp := preserves_body_transit hun rfl rfl _ _ _ hrn
      rw [Bool.or_false]
      exact (congrArg Option.isSome hkp).trans hpt.transit
    | true =>
      cases (attrBody_copied h hun hrn).2
      rw [passedState_parts, Bool.or_true]
      rfl

end SdnQuagga
