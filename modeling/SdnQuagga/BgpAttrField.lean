import SdnQuagga.BgpAttrFacts

/-!
# The attribute field

The attribute loop and what follows it, over a whole field: what
`bgp_attr_parse` returns (`fieldVerdict`), what it has read by then, and
where it stands in the field.
-/

namespace SdnQuagga

open FaultM SdnQuagga.Stream List

/-! ## The position behind a withdrawal -/

section

variable {peer : Peer} {uninit : UInt8 → UInt16} {endp : Nat} {a : RawAttr}
  {rest : List UInt8} {st p : ParseState}

theorem malformed_withdraw {args : AttrArgs} {subcode : UInt8} {n : Nat}
    (hr : bgpAttrMalformed peer args subcode n st = .ok (.withdraw, p)) :
    input (setGetp (args.startp + args.total)) st = .ok ((), p) := by
  rw [bgpAttrMalformed] at hr
  split at hr
  · obtain ⟨u, st1, -, hrs⟩ := bind_eq_ok hr
    cases hrs
  obtain ⟨u, st1, hs, hrs⟩ := bind_eq_ok hr
  split at hrs
  · cases hrs
  split at hrs
  · obtain ⟨u, st2, -, hla⟩ := bind_eq_ok hrs
    cases hla
  split at hrs
  · cases hrs
    exact hs
  · cases hrs

theorem input_ok {α : Type} {m : StreamM α} {x : α} (h : input m st = .ok (x, p)) :
    ∃ s, m st.input = .ok (x, s) ∧ ¬ st.fieldEnd < s.getp ∧ p = { st with input := s } := by
  rw [input] at h
  split at h
  · cases h
  next s hm =>
    split at h
    · cases h
    next hin =>
      cases h
      exact ⟨s, hm, hin, rfl⟩

/-- An AS4_PATH that withdraws the routes is read to its end, and nothing
else happens. -/
theorem as4Path_withdraw (h : AtField endp (a.bytes ++ rest) st)
    (hr : bgpAttrAs4Path peer (argsAt st a) (atValue st a) = .ok (.withdraw, p)) :
    p.attr = st.attr ∧ AtField endp rest p
      ∧ p.input.unread = st.input.unread.drop a.bytes.length := by
  obtain ⟨path, st1, hrd, hrs⟩ := bind_eq_ok hr
  obtain ⟨s1, hpa, -, rfl⟩ := input_ok hrd
  have hwr : s1.written = st.input.written := by
    obtain ⟨r, -, hcon⟩ := consumes_aspathParse true a.value
    obtain ⟨s, hr', hsm, -⟩ := hcon _ h.atValue.value
    cases hpa.symm.trans hr'
    exact hsm
  obtain ⟨u, st2, hs, hla⟩ := bind_eq_ok hrs
  cases hs
  split at hla
  swap
  · obtain ⟨u, st3, -, he⟩ := bind_eq_ok hla
    cases he
  obtain ⟨s2, hgp, hin, rfl⟩ := input_ok (malformed_withdraw hla)
  rw [setGetp] at hgp
  split at hgp
  swap
  · cases hgp
  rename_i hle
  cases hgp
  have hfd := h.ahead.inField
  have hep := h.endp
  rw [length_append] at hfd hep
  have hu : s1.written.drop (st.input.getp + a.bytes.length)
      = st.input.unread.drop a.bytes.length := by rw [hwr, unread, drop_drop]
  refine ⟨rfl, ⟨⟨?_, ?_⟩, ?_⟩, hu⟩
  · have hbh := unread_advance h.ahead.unread
    rwa [advance_unread, ← hu] at hbh
  · show st.input.getp + a.bytes.length + rest.length ≤ st.fieldEnd
    omega
  · show st.input.getp + a.bytes.length + rest.length = endp
    omega

end

/-! ## The loop -/

section

variable {peer : Peer} {uninit : UInt8 → UInt16} {endp bound : Nat}
  {seen bs : List UInt8} {as : List RawAttr} {st p : ParseState}
  {a : RawAttr} {rest : List UInt8} {ret : ParseRet}

/-- What one more attribute makes of the state. -/
theorem Facts.next (hfc : Facts peer as st)
    (h : AtField endp (a.bytes ++ rest) st) (hwf : ParseWf st) (hn : hasType a.type as = false)
    (hr : attrBody peer uninit (argsAt st a) (atValue st a) = .ok (none, p)) :
    Facts peer (as ++ [a]) p where
  parts := attrBody_parts h hwf hr hfc.parts hn
  mandatory := by
    rw [attrBody_mandatory h hwf hr, if_pos rfl, hfc.mandatory, mandatoryIn,
      mandatoryIn, foldl_append]
    rfl
  view := by
    rw [(attrBody_none h hwf hr).view, hfc.view, fieldView, fieldView, foldl_append]
    rfl

theorem pathIn_new {type : UInt8} (hn : hasType type as = false)
    (use32bit : Bool) : pathIn type use32bit as = none := by
  rw [hasType, any_eq_false] at hn
  rw [pathIn, find?_eq_none.mpr hn]
  rfl

/-- The part of a type that was not passed is empty. -/
theorem PartFacts.unset {type : UInt8} {h : HeldParts}
    (hpt : PartFacts peer as h) (hn : hasType type as = false) : Unset type h where
  aspath := by
    rintro rfl
    rw [hpt.aspath, pathIn_new hn]
  as4Path := by
    rintro rfl
    rw [hpt.as4Path, pathIn_new hn]
  community := by
    rintro rfl
    rw [← Option.isNone_iff_eq_none, ← Option.isSome_eq_false_iff,
      hpt.community, hasValue_of_new hn]
  ecommunity := by
    rintro rfl
    rw [← Option.isNone_iff_eq_none, ← Option.isSome_eq_false_iff,
      hpt.ecommunity, hasValue_of_new hn]
  cluster := by
    rintro rfl
    rw [← Option.isNone_iff_eq_none, ← Option.isSome_eq_false_iff, hpt.cluster, hn]

/-- How much of a field the loop reads. -/
def fieldRead (peer : Peer) (seen bs : List UInt8) : Nat :=
  (attrsWire (reached peer seen (splitField bs).1)).length

/-- What the loop leaves, with the attributes `as` passed before. -/
structure LoopFacts (peer : Peer) (endp : Nat) (seen bs : List UInt8)
    (as : List RawAttr) (st : ParseState) (ret : ParseRet) (p : ParseState) :
    Prop where
  verdict : ret = loopVerdict peer (splitField bs).2 seen (splitField bs).1
  parts : PartFacts peer (as ++ passed peer seen (splitField bs).1) (heldParts p)
  facts : ret ≠ .error → Facts peer (as ++ passed peer seen (splitField bs).1) p
      ∧ AtField endp (bs.drop (fieldRead peer seen bs)) p
  unread : ret ≠ .error → p.input.unread = st.input.unread.drop (fieldRead peer seen bs)
  done : ret = .proceed → ParseWf p ∧ ¬ p.input.getp < endp

theorem loopFacts_done (h : AtField endp [] st) (hwf : ParseWf st) (hfc : Facts peer as st) :
    LoopFacts peer endp seen [] as st .proceed st := by
  have hal : as ++ passed peer seen (splitField []).1 = as := by
    rw [splitField_none rfl]
    exact List.append_nil as
  refine ⟨?_, ?_, fun _ => ⟨?_, ?_⟩, fun _ => ?_, fun _ => ⟨hwf, h.not_lt⟩⟩
  · rw [splitField_none rfl]
    rfl
  · rw [hal]
    exact hfc.parts
  · rwa [hal]
  · rwa [drop_nil]
  · rw [fieldRead, splitField_none rfl]
    rfl

theorem attrLoop_header (h : AtField endp bs st) (hne : bs ≠ []) (hstp : HeaderStops endp seen st)
    (hr : attrLoop peer uninit endp (bound + 1) seen st = .ok (ret, p)) :
    ret = .error ∧ heldParts p = heldParts st := by
  obtain ⟨seen', p1, hh⟩ := hstp
  have hpt : heldParts p1 = heldParts st := preserves_header (g := id) endp seen _ _ _ hh
  have hst : attrStep peer uninit endp seen st = .ok ((some .error, seen'), p1) := by
    rw [attrStep_split, bind_ok hh]
    rfl
  rw [attrLoop, get_bind, if_pos (h.getp_lt hne), bind_ok hst] at hr
  cases hr
  exact ⟨rfl, hpt⟩

section

variable (hnx : nextAttr (a.bytes ++ rest) = some (a, rest))
include hnx

theorem loopFacts_cons {st1 : ParseState} (hmb : a.type ∉ seen) (hac : accepted peer a = true)
    (hrd : st1.input.unread = st.input.unread.drop a.bytes.length)
    (hrec : LoopFacts peer endp (a.type :: seen) rest (as ++ [a]) st1 ret p) :
    LoopFacts peer endp seen (a.bytes ++ rest) as st ret p := by
  have hsp := splitField_some hnx
  have hps : as ++ passed peer seen (splitField (a.bytes ++ rest)).1
      = as ++ [a] ++ passed peer (a.type :: seen) (splitField rest).1 := by
    rw [hsp, passed, if_neg hmb, if_pos hac, append_assoc]
    rfl
  have hlen : fieldRead peer seen (a.bytes ++ rest)
      = a.bytes.length + fieldRead peer (a.type :: seen) rest := by
    rw [fieldRead, fieldRead, hsp, reached, if_neg hmb, if_pos hac, attrsWire_cons, length_append]
  refine ⟨?_, ?_, ?_, fun hrt => ?_, hrec.done⟩
  · rw [hsp, loopVerdict, if_neg hmb, if_pos hac]
    exact hrec.verdict
  · rw [hps]
    exact hrec.parts
  · rw [hps, hlen, drop_length_add_append]
    exact hrec.facts
  · rw [hrec.unread hrt, hrd, hlen, drop_drop]

theorem loopFacts_refused (hmb : a.type ∉ seen) (h : AtField endp (a.bytes ++ rest) st)
    (hwf : ParseWf st) (hfc : Facts peer as st) (hn : hasType a.type as = false)
    (hr : attrBody peer uninit (argsAt st a) (atValue st a) = .ok (some ret, p)) :
    LoopFacts peer endp seen (a.bytes ++ rest) as st ret p := by
  have hac := attrBody_refused h hwf hr
  have hv := attrBody_verdict h hwf hr
  have hpt := attrBody_stops h hwf (hfc.parts.unset hn) hr
  have hman := attrBody_mandatory h hwf hr
  have hsp := splitField_some hnx
  have hps : as ++ passed peer seen (splitField (a.bytes ++ rest)).1 = as := by
    rw [hsp, passed, if_neg hmb, hac, if_neg Bool.false_ne_true, List.append_nil]
  have hlen : fieldRead peer seen (a.bytes ++ rest) = a.bytes.length := by
    rw [fieldRead, hsp, reached, if_neg hmb, hac, if_neg Bool.false_ne_true,
      attrsWire_cons, attrsWire_nil, List.append_nil]
  suffices he : ret ≠ .error → Facts peer as p ∧ AtField endp rest p
      ∧ p.input.unread = st.input.unread.drop a.bytes.length by
    refine ⟨?_, ?_, fun hrt => ?_, fun hrt => ?_, fun hrt => absurd hrt (attrBody_some hr)⟩
    · rwa [hsp, loopVerdict, if_neg hmb, hac, if_neg Bool.false_ne_true]
    · rw [hps, hpt]
      exact hfc.parts
    · rw [hps, hlen, drop_left]
      exact ⟨(he hrt).1, (he hrt).2.1⟩
    · rw [hlen]
      exact (he hrt).2.2
  intro hrt
  -- the one error that is no error is that of an AS4_PATH
  have hwds : withdraws peer a = true := by
    by_contra hne
    rw [if_neg hne] at hv
    exact hrt hv
  rw [if_pos hwds] at hv
  subst hv
  simp only [withdraws, Bool.and_eq_true, decide_eq_true_eq] at hwds
  obtain ⟨⟨⟨-, hty⟩, hrgt⟩, -⟩ := hwds
  obtain ⟨hwrong, -⟩ | ⟨-, ret', p1, notified, hds, rfl, htn⟩ :=
    attrBody_cases h hwf hr
  · rw [hrgt] at hwrong
    cases hwrong
  obtain ⟨rfl, -⟩ := turnOf_some htn
  rw [attrDispatch, show (argsAt st a).type = attrAs4Path from hty] at hds
  obtain ⟨hattr, hbh, hu⟩ := as4Path_withdraw h hds
  refine ⟨⟨?_, ?_, ?_⟩, ⟨⟨hbh.ahead.unread, hbh.ahead.inField⟩, hbh.endp⟩, hu⟩
  · rw [hpt]
    exact hfc.parts
  · rw [hman]
    exact hfc.mandatory
  · rw [← hfc.view]
    unfold as4View
    rw [hattr]

end

/-- The whole loop, by induction on its bound: one attribute more is passed,
or the loop ends in one of three ways. -/
theorem attrLoop_facts (h : AtField endp bs st) (hwf : ParseWf st) (hfc : Facts peer as st)
    (hse : ∀ type, type ∈ seen ↔ hasType type as = true)
    (hr : attrLoop peer uninit endp bound seen st = .ok (ret, p)) :
    LoopFacts peer endp seen bs as st ret p := by
  induction bound generalizing bs seen as st with
  | zero =>
    by_cases hne : bs = []
    · subst hne
      rw [attrLoop_done h.not_lt] at hr
      cases hr
      exact loopFacts_done h hwf hfc
    · rw [attrLoop, get_bind, if_pos (h.getp_lt hne)] at hr
      cases hr
  | succ bound ih =>
    by_cases hne : bs = []
    · subst hne
      rw [attrLoop_done h.not_lt] at hr
      cases hr
      exact loopFacts_done h hwf hfc
    cases hnx : nextAttr bs with
    | none =>
      obtain ⟨rfl, hpt⟩ := attrLoop_header h hne (headerStops_none h hnx hne) hr
      refine ⟨?_, ?_, fun hrt => absurd rfl hrt, fun hrt => absurd rfl hrt,
        fun h => by cases h⟩
      · rw [splitField_none hnx, isEmpty_eq_false_iff.mpr hne]
        rfl
      · rw [splitField_none hnx, hpt]
        exact (List.append_nil as).symm ▸ hfc.parts
    | some next =>
      obtain ⟨a, rest⟩ := next
      obtain ⟨rfl, hft⟩ := nextAttr_bytes hnx
      have hsp := splitField_some hnx
      by_cases hmb : a.type ∈ seen
      · obtain ⟨rfl, hpt⟩ := attrLoop_header h hne (headerStops_seen hft h hmb) hr
        refine ⟨?_, ?_, fun hrt => absurd rfl hrt, fun hrt => absurd rfl hrt,
          fun h => by cases h⟩
        · rw [hsp, loopVerdict, if_pos hmb]
        · rw [hsp, passed, if_pos hmb, List.append_nil, hpt]
          exact hfc.parts
      have hn : hasType a.type as = false :=
        Bool.eq_false_of_not_eq_true fun ht => hmb ((hse _).mpr ht)
      rw [attrLoop, get_bind, if_pos (h.getp_lt hne)] at hr
      obtain ⟨⟨ret1, seen1⟩, p1, hst, hrs⟩ := bind_eq_ok hr
      rw [h.attrStep_eq hft hmb] at hst
      obtain ⟨ret2, p2, hbd, hpure⟩ := bind_eq_ok hst
      cases hpure
      cases ret1 with
      | some ret1 =>
        cases hrs
        exact loopFacts_refused hnx hmb h hwf hfc hn hbd
      | none =>
        have hps := attrBody_none h hwf hbd
        have hse1 : ∀ type, type ∈ a.type :: seen ↔ hasType type (as ++ [a]) = true := by
          intro type
          rw [mem_cons, hasType_append, Bool.or_eq_true, hse, decide_eq_true_eq, or_comm]
          exact or_congr_right eq_comm
        exact loopFacts_cons hnx hmb hps.acc hps.unread
          (ih hps.field hps.wf (hfc.next h hwf hn hbd) hse1 hrs)

end

/-! ## Behind the loop -/

variable (peer : Peer)

/-- The path that `bgp_attr_aspath_check` is given. -/
def mergedPath (as : List RawAttr) : Option (List Assegment) :=
  let view := fieldView peer as
  let path := pathIn attrAsPath peer.capAs4Rcv as
  if peer.capAs4Rcv || (view.as4Aggregator
      && view.aggregator.any (· ≠ bgpAsTrans)) || !view.as4Path then path
  else path.bind fun path =>
    (pathIn attrAs4Path true as).map (aspathReconcileAs4 path)

/-- The paths that `bgp_attr_aspath_check` does not let through. -/
def refusesPath (path : List Assegment) : Bool :=
  (peerSort peer = .confed && !aspathLeftConfedCheck path)
    || (peerSort peer = .ebgp && aspathConfedCheck path)
    || (peer.bgp.enforceFirstAs && peerSort peer = .ebgp && !aspathFirstasCheck path peer.as)

/-- What `bgp_attr_parse` returns. -/
def fieldVerdict (bs : List UInt8) : ParseRet :=
  let as := passed peer [] (splitField bs).1
  match loopVerdict peer (splitField bs).2 [] (splitField bs).1 with
  | .proceed =>
    if (mandatoryIn peer as).asPath && (mergedPath peer as).any (refusesPath peer)
    then .error else .proceed
  | ret => ret

variable {peer : Peer} {endp : Nat} {as : List RawAttr} {st p : ParseState}
  {ret : ParseRet}

/-- What the end of the parser leaves alone. -/
def keptByFinish (st : ParseState) : Mandatory × Stream × Nat :=
  (mandatoryOf st, st.input, st.fieldEnd)

theorem mungeAggregator_kept : Preserves keptByFinish mungeAggregator := by
  refine Preserves.get.bind fun st => .ite (.ite ?_ ?_) (.pure _)
  · split
    · exact .throw _
    · exact .ite (.pure _) (.bind (.modify fun _ => rfl) fun _ => .pure _)
  · exact .bind (.modify fun _ => rfl) fun _ =>
      .bind (.modify fun _ => rfl) fun _ => .pure _

theorem derefParse_kept {α : Type} (o : Option α) : Preserves keptByFinish (derefParse o) := by
  cases o with
  | none => exact .throw _
  | some a => exact .pure a

theorem attrFinish_kept : Preserves keptByFinish (attrFinish peer endp) := by
  have hmun : Preserves keptByFinish (bgpAttrMungeAs4Attrs peer) :=
    .ite (.pure _) (mungeAggregator_kept.bind fun _ => Preserves.get.bind fun _ =>
      .ite ((derefParse_kept _).bind fun _ => (derefParse_kept _).bind fun _ =>
        .modify fun _ => rfl) (.pure _))
  have hntf subcode : Preserves keptByFinish (do
      notifySend subcode []
      return ParseRet.error) :=
    Preserves.bind (.modify fun _ => rfl) fun _ => .pure _
  exact Preserves.get.bind fun _ => .ite (hntf _) (hmun.bind fun _ =>
    Preserves.get.bind fun _ => .ite (Preserves.get.bind fun _ => (derefParse_kept _).bind fun _ =>
        .ite (hntf _) (.ite (hntf _) (Preserves.bind
          (.ite (.modify fun _ => rfl) (.pure _)) fun _ => .pure _)))
      (.pure _))

theorem aspathCheck_ret {path : List Assegment} (hpat : st.attr.aspath = some path)
    (hr : bgpAttrAspathCheck peer st = .ok (ret, p)) :
    ret = (if refusesPath peer path then .error else .proceed) ∧ p.attr.aspath.isSome = true := by
  rw [bgpAttrAspathCheck, get_bind, hpat, derefParse, pure_bind] at hr
  simp only [refusesPath, Bool.or_eq_true, Bool.and_eq_true, decide_eq_true_eq, Bool.not_eq_true']
  split at hr
  next hcf =>
    cases hr
    refine ⟨?_, by rw [hpat]; rfl⟩
    rw [Bool.not_eq_true] at hcf
    rw [if_pos (.inl hcf)]
  rename_i hcf
  split at hr
  next hf =>
    cases hr
    refine ⟨?_, by rw [hpat]; rfl⟩
    rw [Bool.not_eq_true] at hf
    rw [if_pos (.inr ⟨⟨hf.1, hf.2.1⟩, hf.2.2⟩)]
  rename_i hf
  have hrt : ret = .proceed ∧ p.attr.aspath.isSome = true := by
    unfold whenever at hr
    split at hr
    · cases hr
      exact ⟨rfl, rfl⟩
    · cases hr
      exact ⟨rfl, by rw [hpat]; rfl⟩
  refine ⟨?_, hrt.2⟩
  rw [hrt.1, if_neg]
  rw [Bool.not_eq_true] at hcf hf
  tauto

/-- The merge of the AS4_PATH, which needs an AS_PATH. -/
theorem munge_path (hfc : Facts peer as st) (hwf : ParseWf st)
    (hr : bgpAttrMungeAs4Attrs peer st = .ok ((), p)) :
    p.attr.aspath = mergedPath peer as ∧ p.attr.aspath.isSome = st.attr.aspath.isSome
      ∧ p.attr.flag.asPath = st.attr.flag.asPath := by
  have hpat : st.attr.aspath = pathIn attrAsPath peer.capAs4Rcv as := hfc.parts.aspath
  have has4 : st.as4Path = pathIn attrAs4Path true as := hfc.parts.as4Path
  have hfg : st.attr.flag.as4Path = (fieldView peer as).as4Path := congrArg As4View.as4Path hfc.view
  unfold bgpAttrMungeAs4Attrs at hr
  unfold mergedPath
  cases hcap : peer.capAs4Rcv with
  | true =>
    rw [hcap] at hr hpat
    cases hr
    exact ⟨hpat, rfl, rfl⟩
  | false =>
    rw [hcap] at hr hpat
    obtain ⟨st1, hagg, has1, has41, hfg1, hasFlag1⟩ :=
      mungeAggregator_ok hwf
    rw [if_neg Bool.false_ne_true, bind_ok hagg, get_bind, hfc.view, hfg1,
      hfg, has41, has4, has1, hpat] at hr
    dsimp only
    rw [Bool.false_or]
    cases hign : (fieldView peer as).as4Aggregator
        && (fieldView peer as).aggregator.any (· ≠ bgpAsTrans) with
    | true =>
      rw [hign] at hr
      cases hr
      exact ⟨has1.trans hpat, congrArg Option.isSome has1, hasFlag1⟩
    | false =>
      rw [hign] at hr
      cases hvw : (fieldView peer as).as4Path with
      | false =>
        rw [hvw] at hr
        cases hr
        exact ⟨has1.trans hpat, congrArg Option.isSome has1, hasFlag1⟩
      | true =>
        rw [hvw] at hr
        obtain ⟨as4, st2, hderef2, hrs⟩ := bind_eq_ok hr
        obtain ⟨hso2, rfl⟩ := derefParse_ok hderef2
        obtain ⟨path, st3, hderef3, hs⟩ := bind_eq_ok hrs
        obtain ⟨hso3, rfl⟩ := derefParse_ok hderef3
        cases hs
        rw [hso2, hso3, hpat, hso3]
        exact ⟨rfl, rfl, hasFlag1⟩

theorem attrFinish_facts (hfc : Facts peer as st) (hwf : ParseWf st)
    (hep : st.input.getp = endp) (hr : attrFinish peer endp st = .ok (ret, p)) :
    ret = (if (mandatoryIn peer as).asPath
        && (mergedPath peer as).any (refusesPath peer) then .error else .proceed)
      ∧ p.attr.aspath.isSome = st.attr.aspath.isSome := by
  have hfg : st.attr.flag.asPath = (mandatoryIn peer as).asPath :=
    congrArg Mandatory.asPath hfc.mandatory
  rw [attrFinish, get_bind, if_neg (not_not.mpr hep)] at hr
  obtain ⟨u, st1, hmun, hrs⟩ := bind_eq_ok hr
  obtain ⟨hpat, hso, hfg1⟩ := munge_path hfc hwf hmun
  rw [get_bind, hfg1] at hrs
  rw [← hfg]
  cases hasp : st.attr.flag.asPath with
  | false =>
    rw [hasp] at hrs
    cases hrs
    exact ⟨rfl, hso⟩
  | true =>
    rw [hasp, if_pos rfl] at hrs
    have hs : st1.attr.aspath.isSome = true := hso.trans (hwf.asPath hasp)
    obtain ⟨path, hpt'⟩ := Option.isSome_iff_exists.mp hs
    obtain ⟨hrt, hso'⟩ := aspathCheck_ret hpt' hrs
    rw [← hpat, hpt', Bool.true_and, Option.any_some]
    exact ⟨hrt, hso'.trans (hwf.asPath hasp).symm⟩

/-! ## The parser -/

variable {uninit : UInt8 → UInt16} {input : Stream} {bs : List UInt8}

theorem facts_start (input : Stream) (size : Nat) : Facts peer [] (.start input size) :=
  ⟨⟨rfl, rfl, rfl, rfl, rfl, rfl⟩, rfl, rfl⟩

/-- What the parser leaves, with `as` the attributes it has passed. -/
structure ParseFacts (peer : Peer) (input : Stream) (bs : List UInt8)
    (as : List RawAttr) (ret : ParseRet) (p : ParseState) : Prop where
  verdict : ret = fieldVerdict peer bs
  aspath : p.attr.aspath.isSome = (pathIn attrAsPath peer.capAs4Rcv as).isSome
  community : p.attr.community.isSome = hasValue attrCommunities as
  ecommunity : (heldParts p).ecommunity.isSome = hasValue attrExtCommunities as
  cluster : (heldParts p).cluster.isSome = hasType attrClusterList as
  transit : (heldParts p).transit.isSome = as.any unknownTransitive
  mandatory : ret ≠ .error → mandatoryOf p = mandatoryIn peer as
  unread : ret ≠ .error → p.input.unread = input.unread.drop (fieldRead peer [] bs)
  getp : ret ≠ .error → p.input.getp + (bs.drop (fieldRead peer [] bs)).length
    = input.getp + bs.length

theorem parse_facts (h : bs <+: input.unread)
    (hr : bgpAttrParse peer uninit bs.length (.start input bs.length) = .ok (ret, p)) :
    ParseFacts peer input bs (passed peer [] (splitField bs).1) ret p := by
  rw [bgpAttrParse, get_bind] at hr
  obtain ⟨ret1, p1, hlp, hrs⟩ := bind_eq_ok hr
  have hse : ∀ type, type ∈ ([] : List UInt8) ↔ hasType type [] = true :=
    fun _ => ⟨fun hmb => (by cases hmb), fun hany => (by cases hany)⟩
  have hfc := attrLoop_facts (atField_start h) (parseWf_start _)
    (facts_start input bs.length) hse hlp
  have hear (hrt : ret1 ≠ .proceed) : ParseFacts peer input bs
      (passed peer [] (splitField bs).1) ret1 p1 := by
    refine ⟨?_, congrArg Option.isSome hfc.parts.aspath,
      hfc.parts.community, hfc.parts.ecommunity, hfc.parts.cluster,
      hfc.parts.transit, fun hne => (hfc.facts hne).1.mandatory,
      hfc.unread, fun hne => (hfc.facts hne).2.endp⟩
    have hv := hfc.verdict
    rw [fieldVerdict, ← hv]
    cases ret1 with
    | proceed => exact absurd rfl hrt
    | error => rfl
    | withdraw => rfl
  cases ret1 with
  | error | withdraw =>
    cases hrs
    exact hear (by decide)
  | proceed =>
    obtain ⟨hloopFacts, hfd⟩ := hfc.facts (by decide)
    obtain ⟨hwf, hdn⟩ := hfc.done rfl
    have hep : p1.input.getp = input.getp + bs.length := by
      have hle := hfd.endp
      have hge : ¬ p1.input.getp < input.getp + bs.length := hdn
      omega
    obtain ⟨hrt, hso⟩ := attrFinish_facts hloopFacts hwf hep hrs
    have hkp := attrFinish_kept _ _ _ hrs
    rw [keptByFinish, keptByFinish, Prod.mk.injEq, Prod.mk.injEq] at hkp
    obtain ⟨hman, hinp, -⟩ := hkp
    have hsm {γ : Type} (g : HeldParts → γ) (hg : ∀ h path, g { h with aspath := path } = g h) :
        g (heldParts p) = g (heldParts p1) :=
      preserves_finish peer _ hg _ _ _ hrs
    refine ⟨?_, ?_, ?_, ?_, ?_, ?_, fun _ => ?_, fun _ => ?_, fun _ => ?_⟩
    · rwa [fieldVerdict, ← hfc.verdict]
    · exact hso.trans (congrArg Option.isSome hfc.parts.aspath)
    · exact (congrArg Option.isSome (hsm HeldParts.community
        fun _ _ => rfl)).trans hfc.parts.community
    · exact (congrArg Option.isSome (hsm HeldParts.ecommunity
        fun _ _ => rfl)).trans hfc.parts.ecommunity
    · exact (congrArg Option.isSome (hsm HeldParts.cluster fun _ _ => rfl)).trans hfc.parts.cluster
    · exact (congrArg Option.isSome (hsm HeldParts.transit fun _ _ => rfl)).trans hfc.parts.transit
    · exact hman.trans hloopFacts.mandatory
    · rw [hinp]
      exact hfc.unread (by decide)
    · rw [hinp]
      exact hfd.endp

end SdnQuagga
