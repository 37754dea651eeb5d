import SdnQuagga.BgpAttrCarry
import SdnQuagga.BgpAttrRefs

/-!
# Which references the attribute parser keeps

During the loop the tables hold, besides what was there before, one
reference for each part that has been read (`Counted`). The exits behind a
handler release the AS4_PATH, those in the header of an attribute and the
one for wrong flags do not. `leaksAs4Path` says on the bytes of the field
whether the parser leaves by one of the latter with an AS4_PATH read.
-/

namespace SdnQuagga

open FaultM SdnQuagga.Stream RefTable List HeldParts

/-! ## The parts and their references -/

/-- The tables with one reference for each part. -/
def HeldParts.counted (h : HeldParts) (i : Interns) : Interns where
  aspath := i.aspath + held h.aspath + held h.as4Path
  community := i.community + held h.community
  ecommunity := i.ecommunity + held h.ecommunity
  cluster := i.cluster + held h.cluster
  transit := i.transit

/-- The parts without the AS4_PATH. -/
def HeldParts.released (h : HeldParts) : HeldParts := { h with as4Path := none }

/-- What the handler of the type does not set. -/
def HeldParts.mask (type : UInt8) (h : HeldParts) : HeldParts :=
  if type = attrAsPath then { h with aspath := none }
  else if type = attrAs4Path then { h with as4Path := none }
  else if type = attrCommunities then { h with community := none }
  else if type = attrExtCommunities then { h with ecommunity := none }
  else if type = attrClusterList then { h with cluster := none }
  else { h with transit := none }

theorem blind_mask (type : UInt8) : Blind (mask type) type := by
  have hkn : type ∉ knownAttrs → type ≠ attrAsPath ∧ type ≠ attrAs4Path
      ∧ type ≠ attrCommunities ∧ type ≠ attrExtCommunities ∧ type ≠ attrClusterList := by
    intro h
    simp only [knownAttrs, mem_cons, not_mem_nil, or_false, not_or] at h
    obtain ⟨-, h1, h2, -, -, -, -, -, -, h3, -, h4, -, -, h5⟩ := h
    exact ⟨h1, h2, h3, h5, h4⟩
  refine ⟨?_, ?_, ?_, ?_, ?_, ?_⟩
  · rintro rfl h p
    rfl
  · rintro rfl h p
    rfl
  · rintro rfl h p
    rfl
  · rintro rfl h p
    rfl
  · rintro rfl h p
    rfl
  · intro hun h val
    obtain ⟨h1, h2, h3, h4, h5⟩ := hkn hun
    simp only [mask, if_neg h1, if_neg h2, if_neg h3, if_neg h4, if_neg h5]

/-- The part that the handler of the type sets is empty. -/
structure Unset (type : UInt8) (h : HeldParts) : Prop where
  aspath : type = attrAsPath → h.aspath = none
  as4Path : type = attrAs4Path → h.as4Path = none
  community : type = attrCommunities → h.community = none
  ecommunity : type = attrExtCommunities → h.ecommunity = none
  cluster : type = attrClusterList → h.cluster = none

section

variable {type : UInt8} {h h' : HeldParts} {i : Interns}

/-- A handler interns what it adds to the parts. -/
theorem internNew_counted (hmk : h'.mask type = h.mask type) (huns : Unset type h) :
    internNew type h' (h.counted i) = h'.counted i := by
  obtain ⟨aspath, as4Path, community, ecommunity, cluster, transit⟩ := h
  obtain ⟨aspath', as4Path', community', ecommunity', cluster', transit'⟩ := h'
  unfold mask at hmk
  unfold internNew counted
  split_ifs at hmk ⊢ with h1 h2 h3 h4 h5
  · obtain rfl : aspath = none := huns.aspath h1
    cases hmk
    rw [held_none, add_zero, add_right_comm]
  · obtain rfl : as4Path = none := huns.as4Path h2
    cases hmk
    rw [held_none, add_zero]
  · obtain rfl : community = none := huns.community h3
    cases hmk
    rw [held_none, add_zero]
  · obtain rfl : ecommunity = none := huns.ecommunity h4
    cases hmk
    rw [held_none, add_zero]
  · obtain rfl : cluster = none := huns.cluster h5
    cases hmk
    rw [held_none, add_zero]
  · cases hmk
    rfl

end

/-! ## One attribute -/

/-- The tables hold what they held before and a reference for each part. -/
def Counted (base : Interns) (st : RefState) : Prop :=
  st.interns = (heldParts st.parse).counted base

section

variable {peer : Peer} {uninit : UInt8 → UInt16} {args : AttrArgs}
  {st : RefState} {p : ParseState} {base : Interns} {α : Type}

theorem inParse_ok {m : ParseM α} {a : α} (h : m st.parse = .ok (a, p)) :
    inParse m st = .ok (a, { st with parse := p }) := by
  rw [inParse, h]

variable {ret : Option ParseRet}

/-- Attributes of other types leave an empty part empty. -/
theorem attrBody_unset {type : UInt8}
    {st st' : ParseState} (huns : Unset type (heldParts st)) (hne : args.type ≠ type)
    (hr : attrBody peer uninit args st = .ok (ret, st')) : Unset type (heldParts st') where
  aspath := fun heq => (preserves_body peer uninit
    (blind_aspath (heq ▸ hne)) _ _ _ hr).trans (huns.aspath heq)
  as4Path := fun heq => (preserves_body peer uninit
    (blind_as4Path (heq ▸ hne)) _ _ _ hr).trans (huns.as4Path heq)
  community := fun heq => (preserves_body peer uninit
    (blind_community (heq ▸ hne)) _ _ _ hr).trans (huns.community heq)
  ecommunity := fun heq => (preserves_body peer uninit
    (blind_ecommunity (heq ▸ hne)) _ _ _ hr).trans (huns.ecommunity heq)
  cluster := fun heq => (preserves_body peer uninit
    (blind_cluster (heq ▸ hne)) _ _ _ hr).trans (huns.cluster heq)

theorem refDispatch_ok {ret : ParseRet} (hi : Counted base st)
    (huns : Unset args.type (heldParts st.parse))
    (hr : attrDispatch peer args uninit st.parse = .ok (ret, p)) :
    ∃ st', refDispatch peer uninit args st = .ok (ret, st')
      ∧ st'.parse = p ∧ st'.transitInterned = st.transitInterned ∧ Counted base st' := by
  have hmk := preserves_dispatch peer args uninit (blind_mask args.type) _ _ _ hr
  refine ⟨{ st with
    parse := p
    interns := internNew args.type (heldParts p) st.interns }, ?_, rfl, rfl, ?_⟩
  · rw [refDispatch, bind_ok (inParse_ok hr), modify_bind]
    rfl
  · show internNew args.type (heldParts p) st.interns = (heldParts p).counted base
    rw [hi]
    exact internNew_counted hmk huns

/-- A reference that is held can be given back. -/
theorem uninternIn_ok [DecidableEq α] (slot : Slot α) {o : Option α}
    {t : α → Nat} (h : slot.get st.interns = t + held o) :
    uninternIn slot o st = .ok ((), { st with interns := slot.set st.interns t }) := by
  cases o with
  | none =>
    rw [held_none, add_zero] at h
    rw [← h, slot.set_get]
    rfl
  | some a =>
    have hp : ¬ slot.get st.interns a = 0 := by
      rw [h]
      exact add_held_pos t a
    rw [uninternIn, get_bind, if_neg hp, h, add_held_sub]
    rfl

section

variable (hi : Counted base st)
include hi

theorem releaseAs4Path_ok :
    releaseAs4Path st = .ok ((), { st with
      interns := (heldParts st.parse).released.counted base }) := by
  have hap : aspathSlot.get st.interns = base.aspath
      + held st.parse.attr.aspath + held st.parse.as4Path :=
    congrArg Interns.aspath hi
  rw [releaseAs4Path, get_bind, uninternIn_ok aspathSlot hap, hi]
  rfl

theorem refFetched_ok {ret : ParseRet} {ret' : Option ParseRet}
    (hr : attrFetched args ret st.parse = .ok (ret', p)) :
    refFetched args ret st = .ok (ret', { st with
      parse := p
      interns := if ret' = none then st.interns
        else (heldParts p).released.counted base }) := by
  have hpt : heldParts p = heldParts st.parse := preserves_fetched (g := id) args ret _ _ _ hr
  have hi' : Counted base { st with parse := p } := by
    show st.interns = (heldParts p).counted base
    rwa [hpt]
  rw [refFetched, bind_ok (inParse_ok hr)]
  cases ret' with
  | none => rfl
  | some ret' =>
    refine (bind_ok (releaseAs4Path_ok hi')).trans ?_
    rfl

/-- A whole attribute: the exit for wrong flags keeps the AS4_PATH. -/
theorem refBody_ok {a : RawAttr} (huns : Unset args.type (heldParts st.parse))
    (hty : args.type = a.type) (hfl : args.flags = 0xF0 &&& a.flags)
    (hr : attrBody peer uninit args st.parse = .ok (ret, p)) :
    ∃ st', refBody peer uninit args st = .ok (ret, st') ∧ st'.parse = p
      ∧ st'.transitInterned = st.transitInterned
      ∧ st'.interns = (if ret = none ∨ flagsRight a = false then heldParts p
        else (heldParts p).released).counted base
      ∧ (flagsRight a = false → heldParts p = heldParts st.parse) := by
  have h19 : a.type ≠ 19 := hty ▸ attrBody_type_ne hr
  have hinvalid := bgpAttrFlagInvalid_eq hty hfl h19
  rw [attrBody, hinvalid, pure_bind] at hr
  have hck : inParse (bgpAttrFlagInvalid args) st = .ok (!flagsRight a, st) := by
    rw [hinvalid]
    rfl
  rw [refBody, bind_ok hck]
  cases hrgt : flagsRight a with
  | false =>
    rw [hrgt] at hr
    obtain ⟨ret1, p1, hmal, hrs⟩ := bind_eq_ok hr
    have hpt : heldParts p1 = heldParts st.parse :=
      preserves_malformed (f := follow id) _ _ _ _ _ _ _ hmal
    obtain rfl : p = p1 := by
      cases ret1 with
      | proceed | error | withdraw => cases hrs; rfl
    refine ⟨{ st with parse := p }, ?_, rfl, rfl, ?_, fun _ => hpt⟩
    · refine (bind_ok (inParse_ok hmal)).trans ?_
      cases ret1 with
      | proceed | error | withdraw => cases hrs; rfl
    · rwa [if_pos (.inr rfl), hpt]
  | true =>
    rw [hrgt] at hr
    obtain ⟨ret1, p1, hds, hfet⟩ := bind_eq_ok hr
    obtain ⟨st1, hds1, rfl, htr, hi1⟩ :=
      refDispatch_ok hi huns hds
    have hpt : heldParts p = heldParts st1.parse := preserves_fetched (g := id) args ret1 _ _ _ hfet
    refine ⟨_, (bind_ok hds1).trans (refFetched_ok hi1 hfet), rfl, htr, ?_, fun h => by cases h⟩
    cases ret with
    | none => rwa [if_pos rfl, if_pos (.inl rfl), hpt]
    | some ret => rfl

end

end

/-! ## The loop -/

/-- Whether the parser, with or without an AS4_PATH so far, leaves the rest
of the field by an exit that does not release it. -/
def leaksAs4Path (peer : Peer) (complete : Bool) :
    Bool → List UInt8 → List RawAttr → Bool
  | read, _, [] => read && !complete
  | read, seen, a :: as =>
    if a.type ∈ seen then read
    else if accepted peer a then
      leaksAs4Path peer complete (read || (a.type = attrAs4Path)) (a.type :: seen) as
    else read && !flagsRight a

section

variable {peer : Peer} {uninit : UInt8 → UInt16} {endp bound : Nat}
  {seen bs : List UInt8} {st : RefState} {p : ParseState} {base : Interns}

/-- Before a turn of the loop. -/
structure LoopInv (endp : Nat) (base : Interns) (seen bs : List UInt8) (st : RefState) : Prop where
  field : AtField endp bs st.parse
  wf : ParseWf st.parse
  counted : Counted base st
  unset : ∀ type ∉ seen, Unset type (heldParts st.parse)

/-- The parser has left the loop early. -/
structure LeftEarly (base : Interns) (leaks : Bool) (st : RefState) : Prop where
  interns : st.interns = (if leaks then heldParts st.parse
    else (heldParts st.parse).released).counted base
  as4Path : leaks = true → st.parse.as4Path.isSome = true

theorem released_of_none {h : HeldParts} (hno : h.as4Path = none) : h.released = h := by
  rw [released, ← hno]

theorem preserves_header (endp : Nat) (seen : List UInt8) {γ : Type}
    {g : HeldParts → γ} : Preserves (follow g) (attrHeader endp seen) := by
  have herr subcode seen' :
      Preserves (follow g) (headerError subcode seen') :=
    .bind ((preserves_notifySend _ _).bind fun _ => .pure _) fun _ => .pure _
  refine Preserves.get.bind fun _ => .ite (herr _ _) ?_
  refine (preserves_input _).bind fun _ => (preserves_input _).bind fun type =>
    .ite (herr _ _) ?_
  refine (preserves_attrLength _).bind fun _ => .ite (herr _ _) ?_
  exact Preserves.get.bind fun _ => .ite (herr _ _) (.pure _)

variable {a : RawAttr} {rest : List UInt8} {ret : ParseRet}

theorem attrBody_as4Path {st p : ParseState}
    (h : AtField endp (a.bytes ++ rest) st) (hwf : ParseWf st)
    (hr : attrBody peer uninit (argsAt st a) (atValue st a) = .ok (none, p)) :
    p.as4Path.isSome = (st.as4Path.isSome || decide (a.type = attrAs4Path)) := by
  have hps := attrBody_none h hwf hr
  by_cases hty : a.type = attrAs4Path
  · have hwell : wellFormed peer a = true := by
      have hig : ignorable peer a = false := not_ignorable peer (by rw [hty]; decide)
      have hac := hps.acc
      rwa [accepted, hig, Bool.or_false] at hac
    have hfg : p.attr.flag.as4Path = true := by
      have := congrArg As4View.as4Path hps.view
      rw [As4View.add, if_pos hwell, As4View.take, hty] at this
      exact this
    rw [hps.wf.as4Path hfg, decide_eq_true hty, Bool.or_true]
  · have hpt := preserves_body peer uninit
      (blind_as4Path (show (argsAt st a).type ≠ _ from hty)) _ _ _ hr
    have hkp : p.as4Path = st.as4Path := hpt
    rw [hkp, decide_eq_false hty, Bool.or_false]

theorem refLoop_done (h : ¬ st.parse.input.getp < endp) :
    refLoop peer uninit endp bound seen st = .ok (.proceed, st) := by
  cases bound with
  | zero | succ bound =>
    rw [refLoop, get_bind, if_neg h]
    rfl

theorem refLoop_header (hi : LoopInv endp base seen bs st)
    (hne : bs ≠ []) (hstp : HeaderStops endp seen st.parse)
    (hr : attrLoop peer uninit endp (bound + 1) seen st.parse = .ok (ret, p)) :
    ∃ st', refLoop peer uninit endp (bound + 1) seen st = .ok (ret, st')
      ∧ st'.parse = p ∧ st'.transitInterned = st.transitInterned
      ∧ ret ≠ .proceed ∧ LeftEarly base st.parse.as4Path.isSome st' := by
  obtain ⟨seen', p1, hh⟩ := hstp
  have hpt : heldParts p1 = heldParts st.parse := preserves_header (g := id) endp seen _ _ _ hh
  have hst : attrStep peer uninit endp seen st.parse = .ok ((some .error, seen'), p1) := by
    rw [attrStep_split, bind_ok hh]
    rfl
  have hrf : refStep peer uninit endp seen st
      = .ok ((some .error, seen'), { st with parse := p1 }) := by
    rw [refStep, bind_ok (inParse_ok hh)]
    rfl
  rw [attrLoop, get_bind, if_pos (hi.field.getp_lt hne), bind_ok hst] at hr
  cases hr
  refine ⟨{ st with parse := p }, ?_, rfl, rfl, by decide, ?_, ?_⟩
  · rw [refLoop, get_bind, if_pos (hi.field.getp_lt hne), bind_ok hrf]
    rfl
  · show st.interns = (if st.parse.as4Path.isSome = true then heldParts p
      else (heldParts p).released).counted base
    rw [hpt]
    split
    · exact hi.counted
    next hno =>
      rw [released_of_none (Option.not_isSome_iff_eq_none.mp hno)]
      exact hi.counted
  · intro hso
    have has4 : p.as4Path = st.parse.as4Path := congrArg as4Path hpt
    rwa [has4]

section

variable (hi : LoopInv endp base seen (a.bytes ++ rest) st)
include hi

theorem refBody_stops (hse : a.type ∉ seen)
    (hbd : attrBody peer uninit (argsAt st.parse a) (atValue st.parse a) = .ok (some ret, p)) :
    ∃ st', refBody peer uninit (argsAt st.parse a) { st with parse := atValue st.parse a }
        = .ok (some ret, st')
      ∧ st'.parse = p ∧ st'.transitInterned = st.transitInterned
      ∧ LeftEarly base (st.parse.as4Path.isSome && !flagsRight a) st' := by
  have hcn : Counted base { st with parse := atValue st.parse a } := hi.counted
  obtain ⟨st', hr, rfl, htr, hn, hkp⟩ := refBody_ok hcn (hi.unset _ hse) rfl rfl hbd
  cases hrgt : flagsRight a with
  | true =>
    rw [hrgt, if_neg (by simp)] at hn
    refine ⟨st', hr, rfl, htr, ?_, ?_⟩
    · rwa [Bool.not_true, Bool.and_false, if_neg Bool.false_ne_true]
    · rw [Bool.not_true, Bool.and_false]
      intro h
      cases h
  | false =>
    rw [hrgt, if_pos (.inr rfl)] at hn
    have has4 : st'.parse.as4Path = st.parse.as4Path := congrArg as4Path (hkp hrgt)
    rw [Bool.not_false, Bool.and_true]
    refine ⟨st', hr, rfl, htr, ?_, fun h => has4 ▸ h⟩
    split
    · exact hn
    next hno =>
      rw [← has4] at hno
      rwa [released_of_none (Option.not_isSome_iff_eq_none.mp hno)]

theorem refBody_goes (hse : a.type ∉ seen)
    (hbd : attrBody peer uninit (argsAt st.parse a) (atValue st.parse a) = .ok (none, p)) :
    ∃ st', refBody peer uninit (argsAt st.parse a) { st with parse := atValue st.parse a }
        = .ok (none, st')
      ∧ st'.parse = p ∧ st'.transitInterned = st.transitInterned
      ∧ LoopInv endp base (a.type :: seen) rest st' := by
  have hcn : Counted base { st with parse := atValue st.parse a } := hi.counted
  obtain ⟨st', hr, rfl, htr, hn, -⟩ := refBody_ok hcn (hi.unset _ hse) rfl rfl hbd
  obtain ⟨-, hfd, hwf, -⟩ := attrBody_none hi.field hi.wf hbd
  rw [if_pos (.inl rfl)] at hn
  refine ⟨st', hr, rfl, htr, hfd, hwf, hn, ?_⟩
  intro type hty
  obtain ⟨hne, hse'⟩ := not_or.mp (mem_cons.not.mp hty)
  have huns : Unset type (heldParts (atValue st.parse a)) := hi.unset type hse'
  exact attrBody_unset huns (.symm hne) hbd

end

/-- What the loop leaves behind. -/
def LoopLeft (base : Interns) (leaks : Bool) (ret : ParseRet) (st : RefState) : Prop :=
  if ret = .proceed then Counted base st ∧ ParseWf st.parse ∧ leaks = false
  else LeftEarly base leaks st

theorem refLoop_empty (hi : LoopInv endp base seen [] st)
    (hr : attrLoop peer uninit endp bound seen st.parse = .ok (ret, p)) :
    ∃ st', refLoop peer uninit endp bound seen st = .ok (ret, st')
      ∧ st'.parse = p ∧ st'.transitInterned = st.transitInterned
      ∧ LoopLeft base (leaksAs4Path peer (splitField []).2
        st.parse.as4Path.isSome seen (splitField []).1) ret st' := by
  have hdn := hi.field.not_lt
  rw [attrLoop_done hdn] at hr
  cases hr
  refine ⟨st, refLoop_done hdn, rfl, rfl, ?_⟩
  rw [splitField_none rfl]
  exact ⟨hi.counted, hi.wf, Bool.and_false _⟩

/-- The loop with the tables does what the loop without them does. -/
theorem refLoop_ok (hi : LoopInv endp base seen bs st)
    (hr : attrLoop peer uninit endp bound seen st.parse = .ok (ret, p)) :
    ∃ st', refLoop peer uninit endp bound seen st = .ok (ret, st')
      ∧ st'.parse = p ∧ st'.transitInterned = st.transitInterned
      ∧ LoopLeft base (leaksAs4Path peer (splitField bs).2
        st.parse.as4Path.isSome seen (splitField bs).1) ret st' := by
  induction bound generalizing bs seen st with
  | zero =>
    rcases eq_or_ne bs [] with rfl | hne
    · exact refLoop_empty hi hr
    · rw [attrLoop, get_bind, if_pos (hi.field.getp_lt hne)] at hr
      cases hr
  | succ bound ih =>
    rcases eq_or_ne bs [] with rfl | hne
    · exact refLoop_empty hi hr
    have hear {leaks st'} (hrt : ret ≠ .proceed)
        (hlf : LeftEarly base leaks st') : LoopLeft base leaks ret st' := by
      rwa [LoopLeft, if_neg hrt]
    cases hnx : nextAttr bs with
    | none =>
      obtain ⟨st', hrf, hpa, htr, hrt, hlf⟩ := refLoop_header
        hi hne (headerStops_none hi.field hnx hne) hr
      refine ⟨st', hrf, hpa, htr, hear hrt ?_⟩
      rwa [splitField_none hnx, isEmpty_eq_false_iff.mpr hne,
        leaksAs4Path, Bool.not_false, Bool.and_true]
    | some next =>
      obtain ⟨a, rest⟩ := next
      obtain ⟨rfl, hft⟩ := nextAttr_bytes hnx
      rw [splitField_some hnx, leaksAs4Path]
      by_cases hse : a.type ∈ seen
      · obtain ⟨st', hrf, hpa, htr, hrt, hlf⟩ := refLoop_header
          hi hne (headerStops_seen hft hi.field hse) hr
        rw [if_pos hse]
        exact ⟨st', hrf, hpa, htr, hear hrt hlf⟩
      rw [if_neg hse]
      have hh := hi.field.attrHeader_eq hft hse
      have hlt := hi.field.getp_lt hne
      rw [attrLoop, get_bind, if_pos hlt] at hr
      obtain ⟨⟨ret1, seen1⟩, p1, hst, hrs⟩ := bind_eq_ok hr
      rw [hi.field.attrStep_eq hft hse] at hst
      obtain ⟨ret2, p2, hbd, hpure⟩ := bind_eq_ok hst
      cases hpure
      rw [refLoop, get_bind, if_pos hlt, refStep]
      cases ret1 with
      | some ret1 =>
        cases hrs
        obtain ⟨st', hrf, hpa, htr, hlf⟩ :=
          refBody_stops hi hse hbd
        refine ⟨st', ?_, hpa, htr, hear (attrBody_some hbd) ?_⟩
        · rw [bind_assoc, bind_ok (inParse_ok hh)]
          refine (bind_ok (bind_ok hrf)).trans ?_
          rfl
        · rwa [attrBody_refused hi.field hi.wf hbd, if_neg Bool.false_ne_true]
      | none =>
        obtain ⟨st1, hrf, rfl, htr, hi1⟩ :=
          refBody_goes hi hse hbd
        have hac := (attrBody_none hi.field hi.wf hbd).acc
        have has4 := attrBody_as4Path hi.field hi.wf hbd
        obtain ⟨st', hlp, hpa, htr', hlf⟩ := ih hi1 hrs
        refine ⟨st', ?_, hpa, htr'.trans htr, ?_⟩
        · rw [bind_assoc, bind_ok (inParse_ok hh)]
          refine (bind_ok (bind_ok hrf)).trans ?_
          exact hlp
        · rwa [hac, if_pos rfl, ← has4]

end

/-! ## Behind the loop -/

/-- The tables when the parser returns: the parts of the attribute set are
held, and the transit attributes only if the parser went through. -/
def HeldParts.kept (h : HeldParts) (ret : ParseRet) (base : Interns) :
    Interns :=
  { h.released.counted base with
    transit := base.transit + if ret = .proceed then held h.transit else 0 }

section

variable {peer : Peer} {endp : Nat} {st : RefState} {p : ParseState}
  {base : Interns}

theorem replaceAspath_ok {old new : List Assegment}
    {t : List Assegment → Nat} (h : st.interns.aspath = t + held (some old)) :
    replaceAspath old new st = .ok ((), { st with
      parse := { st.parse with
        attr := { st.parse.attr with aspath := some new } }
      interns := { st.interns with aspath := t + held (some new) } }) := by
  rw [replaceAspath, bind_ok (uninternIn_ok aspathSlot h)]
  rfl

theorem derefParse_ok {α : Type} {o : Option α} {a : α} {st p : ParseState}
    (h : derefParse o st = .ok (a, p)) : o = some a ∧ p = st := by
  cases o with
  | none => cases h
  | some b =>
    cases h
    exact ⟨rfl, rfl⟩

theorem refMunge_ok (hi : Counted base st) (hr : bgpAttrMungeAs4Attrs peer st.parse = .ok ((), p)) :
    ∃ st', refMunge peer st = .ok ((), st') ∧ st'.parse = p
      ∧ st'.transitInterned = st.transitInterned ∧ Counted base st' := by
  unfold bgpAttrMungeAs4Attrs at hr
  unfold refMunge
  split_ifs at hr ⊢ with hcap
  · cases hr
    exact ⟨st, rfl, rfl, rfl, hi⟩
  obtain ⟨ignore, p1, hagg, hrs⟩ := bind_eq_ok hr
  have hpt : heldParts p1 = heldParts st.parse := preserves_mungeAggregator (g := id) _ _ _ hagg
  have hi1 : Counted base { st with parse := p1 } := by
    show st.interns = (heldParts p1).counted base
    rwa [hpt]
  rw [bind_ok (inParse_ok hagg), get_bind]
  rw [get_bind] at hrs
  dsimp only at hrs ⊢
  split at hrs
  next hmrg =>
    rw [if_pos hmrg]
    obtain ⟨as4Path, p2, has4, hrs2⟩ := bind_eq_ok hrs
    obtain ⟨-, rfl⟩ := derefParse_ok has4
    obtain ⟨aspath, p3, hasp, hrs3⟩ := bind_eq_ok hrs2
    obtain ⟨hso, rfl⟩ := derefParse_ok hasp
    cases hrs3
    have hct : st.interns.aspath = base.aspath + held p3.as4Path + held (some aspath) := by
      rw [hi1, ← hso, add_right_comm]
      rfl
    refine ⟨{ st with
      parse := { p3 with attr := { p3.attr with
        aspath := some (aspathReconcileAs4 aspath as4Path) } }
      interns := { st.interns with
        aspath := base.aspath + held p3.as4Path
          + held (some (aspathReconcileAs4 aspath as4Path)) } },
      ?_, rfl, rfl, ?_⟩
    · refine (bind_ok (inParse_ok has4)).trans ?_
      refine (bind_ok (inParse_ok hasp)).trans ?_
      exact replaceAspath_ok hct
    · rw [Counted, add_right_comm, hi1]
      rfl
  next hmrg =>
    rw [if_neg hmrg]
    cases hrs
    exact ⟨_, rfl, rfl, rfl, hi1⟩

variable {ret : ParseRet}

/-- The check of the path, behind the release of the AS4_PATH. -/
theorem refAspathCheck_ok (hi : st.interns = (heldParts st.parse).released.counted base)
    (hr : bgpAttrAspathCheck peer st.parse = .ok (ret, p)) :
    ∃ st', refAspathCheck peer st = .ok (ret, st') ∧ st'.parse = p
      ∧ st'.transitInterned = st.transitInterned
      ∧ st'.interns = (heldParts p).released.counted base := by
  unfold bgpAttrAspathCheck at hr
  unfold refAspathCheck
  rw [get_bind] at hr ⊢
  obtain ⟨aspath, p1, hasp, hrs⟩ := bind_eq_ok hr
  obtain ⟨hso, rfl⟩ := derefParse_ok hasp
  rw [bind_ok (inParse_ok hasp)]
  split at hrs
  next hcf =>
    rw [if_pos hcf]
    cases hrs
    exact ⟨_, rfl, rfl, rfl, hi⟩
  rename_i hcf
  rw [if_neg hcf]
  split at hrs
  next hf =>
    rw [if_pos hf]
    cases hrs
    exact ⟨_, rfl, rfl, rfl, hi⟩
  rename_i hf
  rw [if_neg hf]
  unfold whenever at hrs
  split at hrs
  next hlocal =>
    rw [if_pos hlocal]
    cases hrs
    have hct : st.interns.aspath = base.aspath + held (some aspath) := by
      rw [hi, ← hso]
      rfl
    refine ⟨_, bind_ok (replaceAspath_ok hct), rfl, rfl, ?_⟩
    rw [hi]
    rfl
  next hlocal =>
    rw [if_neg hlocal]
    cases hrs
    exact ⟨_, rfl, rfl, rfl, hi⟩

theorem kept_early (h : HeldParts) (hrt : ret ≠ .proceed)
    (base : Interns) : h.kept ret base = h.released.counted base := by
  rw [kept, if_neg hrt, add_zero]
  rfl

section

variable (hi : st.interns = (heldParts st.parse).released.counted base)
include hi

theorem internTransit_ok :
    internTransit st = .ok ((), { st with
      interns := (heldParts st.parse).kept .proceed base
      transitInterned := (heldParts st.parse).transit.isSome }) := by
  obtain ⟨parse, interns, interned⟩ := st
  obtain rfl : interns = (heldParts parse).released.counted base := hi
  rfl

theorem refChecked_ok (hr : (do
      if (← get).attr.flag.asPath then bgpAttrAspathCheck peer
      else return .proceed : ParseM ParseRet) st.parse = .ok (ret, p)) :
    ∃ st', refChecked peer st = .ok (ret, st') ∧ st'.parse = p
      ∧ st'.transitInterned = st.transitInterned
      ∧ st'.interns = (heldParts p).released.counted base := by
  unfold refChecked
  rw [get_bind] at hr ⊢
  split at hr
  next hfg =>
    rw [if_pos hfg]
    exact refAspathCheck_ok hi hr
  next hfg =>
    rw [if_neg hfg]
    cases hr
    exact ⟨st, rfl, rfl, rfl, hi⟩

end

/-- Behind the loop each exit releases the AS4_PATH. -/
theorem refFinish_ok (hi : Counted base st) (hr : attrFinish peer endp st.parse = .ok (ret, p)) :
    ∃ st', refFinish peer endp st = .ok (ret, st') ∧ st'.parse = p
      ∧ st'.transitInterned = (if ret = .proceed
        then (heldParts p).transit.isSome else st.transitInterned)
      ∧ st'.interns = (heldParts p).kept ret base := by
  unfold attrFinish at hr
  unfold refFinish
  rw [get_bind] at hr ⊢
  split at hr
  next he =>
    rw [if_pos he]
    cases hr
    have hi1 : Counted base { st with parse := { st.parse with
      notified := st.parse.notified ++ [⟨notifyUpdateAttrLengErr, []⟩] } } := hi
    have hntf : notifySend notifyUpdateAttrLengErr [] st.parse = .ok ((), { st.parse with
          notified := st.parse.notified ++ [⟨notifyUpdateAttrLengErr, []⟩] }) := rfl
    refine ⟨_, (bind_ok (inParse_ok hntf)).trans (bind_ok (releaseAs4Path_ok hi1)), rfl, rfl, ?_⟩
    have hrt : ParseRet.error ≠ .proceed := by decide
    exact (kept_early _ hrt base).symm
  rename_i he
  rw [if_neg he]
  obtain ⟨u, p1, hmun, hrs⟩ := bind_eq_ok hr
  obtain ⟨st1, hmun', rfl, htr1, hi1⟩ := refMunge_ok hi hmun
  have hreleased : RefState.interns { st1 with
      interns := (heldParts st1.parse).released.counted base }
      = (heldParts st1.parse).released.counted base := rfl
  obtain ⟨st2, hck, rfl, htr2, hi2⟩ := refChecked_ok hreleased hrs
  rw [bind_ok hmun', bind_ok (releaseAs4Path_ok hi1), bind_ok hck]
  cases ret with
  | proceed => exact ⟨_, bind_ok (internTransit_ok hi2), rfl, rfl, rfl⟩
  | error | withdraw => exact ⟨st2, rfl, rfl, htr2.trans htr1,
      hi2.trans (kept_early _ (by decide) base).symm⟩

end

/-! ## The parser -/

/-- Whether the attributes of the field make the parser keep a reference
to the AS4_PATH. -/
def fieldLeaks (peer : Peer) (bs : List UInt8) : Bool :=
  leaksAs4Path peer (splitField bs).2 false [] (splitField bs).1

section

variable {peer : Peer} {uninit : UInt8 → UInt16} {input : Stream}
  {bs : List UInt8} {ret : ParseRet} {p : ParseState}

theorem loopInv_start (base : Interns) (h : bs <+: input.unread) :
    LoopInv (input.getp + bs.length) base [] bs ⟨.start input bs.length, base, false⟩ where
  field := atField_start h
  wf := parseWf_start bs.length
  counted := rfl
  unset := fun _ _ => ⟨fun _ => rfl, fun _ => rfl, fun _ => rfl, fun _ => rfl, fun _ => rfl⟩

/-- What the parser leaves in the tables. -/
structure ParserLeft (base : Interns) (leaks : Bool) (ret : ParseRet) (st : RefState) : Prop where
  interns : st.interns = if leaks then (heldParts st.parse).counted base
    else (heldParts st.parse).kept ret base
  as4Path : leaks = true → st.parse.as4Path.isSome = true ∧ ret ≠ .proceed
  transit : st.transitInterned = (decide (ret = .proceed) && (heldParts st.parse).transit.isSome)

theorem refAttrParse_ok (base : Interns) (h : bs <+: input.unread)
    (hr : bgpAttrParse peer uninit bs.length (.start input bs.length) = .ok (ret, p)) :
    ∃ st', refAttrParse peer uninit bs.length ⟨.start input bs.length, base, false⟩ = .ok (ret, st')
      ∧ st'.parse = p ∧ ParserLeft base (fieldLeaks peer bs) ret st' := by
  rw [bgpAttrParse, get_bind] at hr
  obtain ⟨ret1, p1, hlp, hrs⟩ := bind_eq_ok hr
  obtain ⟨st1, hlp', rfl, htr, hlf⟩ :=
    refLoop_ok (loopInv_start base h) hlp
  have hlf : LoopLeft base (fieldLeaks peer bs) ret1 st1 := hlf
  have hear (hrt : ret1 ≠ .proceed) :
      ParserLeft base (fieldLeaks peer bs) ret1 st1 := by
    rw [LoopLeft, if_neg hrt] at hlf
    refine ⟨?_, fun hlk => ⟨hlf.as4Path hlk, hrt⟩, ?_⟩
    · rw [kept_early _ hrt, hlf.interns]
      exact apply_ite (counted · base) _ _ _
    · rw [htr, decide_eq_false hrt]
      rfl
  rw [refAttrParse, get_bind]
  cases ret1 with
  | proceed =>
    rw [LoopLeft, if_pos rfl] at hlf
    obtain ⟨hcn, -, hlk⟩ := hlf
    obtain ⟨st', hfin, rfl, htr', hn⟩ :=
      refFinish_ok hcn hrs
    refine ⟨st', (bind_ok hlp').trans hfin, rfl, ?_, ?_, ?_⟩
    · rwa [hlk, if_neg Bool.false_ne_true]
    · rw [hlk]
      intro hne
      cases hne
    · rw [htr', htr]
      cases ret with
      | proceed => rfl
      | error => rfl
      | withdraw => rfl
  | error | withdraw =>
    cases hrs
    exact ⟨st1, bind_ok hlp', rfl, hear (by decide)⟩

end

/-- The parser returns with the references of the AS path table raised by
the one of `attr->aspath`. -/
def KeepsPathOnly (peer : Peer) (uninit : UInt8 → UInt16) (input : Stream)
    (bs : List UInt8) (before : Interns) : Prop :=
  ∃ ret st, refAttrParse peer uninit bs.length
      ⟨.start input bs.length, before, false⟩ = .ok (ret, st)
    ∧ st.interns.aspath = before.aspath + held st.parse.attr.aspath

/-- Whenever the parser returns, the AS4_PATH has been released unless one
was read and the parser left by an exit that forgets it: in the header of
a later attribute, at a repeated one, or at one with wrong flags. -/
theorem attr_as4_path_released_iff (peer : Peer) (uninit : UInt8 → UInt16)
    (input : Stream) (bs : List UInt8) (before : Interns) (h : bs <+: input.unread)
    (hreturns : ∃ ret st, bgpAttrParse peer uninit bs.length
      (.start input bs.length) = .ok (ret, st)) :
    KeepsPathOnly peer uninit input bs before ↔ fieldLeaks peer bs = false := by
  obtain ⟨ret, p, hrun⟩ := hreturns
  obtain ⟨st, href, rfl, hleft⟩ := refAttrParse_ok before h hrun
  have hinterns := hleft.interns
  constructor
  · rintro ⟨ret', st', href', haspath⟩
    rw [href] at href'
    cases href'
    by_contra hleaks
    rw [Bool.not_eq_false] at hleaks
    have hnone : st.parse.as4Path = none := by
      rw [hinterns, if_pos hleaks] at haspath
      exact add_held_eq.mp haspath
    have hsome := (hleft.as4Path hleaks).1
    rw [hnone] at hsome
    cases hsome
  · intro hleaks
    refine ⟨ret, st, href, ?_⟩
    rw [hinterns, hleaks, if_neg Bool.false_ne_true]
    exact add_zero _

/-- The path of both sample attributes. -/
def oldPath : List Assegment := [⟨.sequence, [65002], by decide⟩]

def noInterns : Interns := ⟨0, 0, 0, 0, 0⟩

theorem attr_as4_path_released_merge :
    KeepsPathOnly oldPeer (fun _ => 0) (.ofBytes (attrsWire [oldAspath, oldAs4Path]))
        (attrsWire [oldAspath, oldAs4Path]) noInterns := by
  obtain ⟨st, hrun, -⟩ := parsedTransit_some (show parsedTransit (fun _ => 0)
    [oldAspath, oldAs4Path] = some [] by decide +kernel)
  refine (attr_as4_path_released_iff _ _ _ _ _ ?_ ⟨_, st, hrun⟩).mpr (by decide +kernel)
  exact (ofBytes_unread _).symm ▸ prefix_rfl

/-- The references to a path that the parser leaves, and those of the
attribute set. -/
def pathCounts (as : List RawAttr) (path : List Assegment) :
    Option (Nat × Nat) :=
  match refAttrParse oldPeer (fun _ => 0) (attrsWire as).length
      ⟨.start (.ofBytes (attrsWire as)) (attrsWire as).length, noInterns, false⟩ with
  | .ok (_, st) => some (st.interns.aspath path, held st.parse.attr.aspath path)
  | .error _ => none

/-- A second AS_PATH behind the AS4_PATH. -/
theorem attr_as4_path_not_released :
    ¬ KeepsPathOnly oldPeer (fun _ => 0) (.ofBytes (attrsWire [oldAspath, oldAs4Path, oldAspath]))
      (attrsWire [oldAspath, oldAs4Path, oldAspath]) noInterns := by
  rintro ⟨ret, st, hrun, haspath⟩
  have hcounts : pathCounts [oldAspath, oldAs4Path, oldAspath] oldPath
      = some (2, 1) := by decide +kernel
  rw [pathCounts, hrun] at hcounts
  dsimp only at hcounts
  rw [haspath, Option.some.injEq, Prod.mk.injEq] at hcounts
  obtain ⟨htwo, hone⟩ := hcounts
  rw [Pi.add_apply, hone] at htwo
  cases htwo

end SdnQuagga
