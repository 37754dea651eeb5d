import SdnQuagga.BgpUpdateRefs

/-!
# The references of a refused UPDATE

`bgp_update_receive` returns -1 from nine places. Those before the attribute
parser have not touched the intern tables; those behind it give back what
the parser has interned, with two exceptions: on the parser's error nothing
is given back, and behind a withdrawal the unknown attributes are given
back though they were not interned. `RefsKept` says on the bytes of the
message, the peer's configuration and the routes it withdraws when the
tables are what they were.
-/

namespace SdnQuagga

open FaultM SdnQuagga.Stream RefTable List

/-! ## Tables -/

section

variable {ret : ParseRet} {val : Option (List UInt8)} {r : Interns}

theorem add_refs_eq {i : Interns} {h : HeldParts} :
    i + h.refs = i ↔ h.aspath = none ∧ h.community = none
      ∧ h.ecommunity = none ∧ h.cluster = none ∧ h.transit = none := by
  constructor
  · intro heq
    exact ⟨add_held_eq.mp (congrArg Interns.aspath heq),
      add_held_eq.mp (congrArg Interns.community heq),
      add_held_eq.mp (congrArg Interns.ecommunity heq),
      add_held_eq.mp (congrArg Interns.cluster heq), add_held_eq.mp (congrArg Interns.transit heq)⟩
  · rintro ⟨hasp, hcom, hec, hcl, htr⟩
    ext : 1
    · exact add_held_eq.mpr hasp
    · exact add_held_eq.mpr hcom
    · exact add_held_eq.mpr hec
    · exact add_held_eq.mpr hcl
    · exact add_held_eq.mpr htr

theorem interns_add_eq {i : Interns} (h : i = i + r) : r = 0 := by
  ext : 1
  · exact left_eq_add.mp (congrArg Interns.aspath h)
  · exact left_eq_add.mp (congrArg Interns.community h)
  · exact left_eq_add.mp (congrArg Interns.ecommunity h)
  · exact left_eq_add.mp (congrArg Interns.cluster h)
  · exact left_eq_add.mp (congrArg Interns.transit h)

/-- One reference to everything. -/
def ones : Interns := ⟨1, 1, 1, 1, 1⟩

/-- If the tables are what they were, no references were dropped and nothing
was taken out. -/
theorem released_ones (h : (if ret = .proceed then ones else ones.dropTransit val) = ones + r) :
    r = 0 ∧ (ret ≠ .proceed → val = none) := by
  split_ifs at h with hrt
  · exact ⟨interns_add_eq h, fun hne => absurd hrt hne⟩
  · cases val with
    | none => exact ⟨interns_add_eq h, fun _ => rfl⟩
    | some v =>
      have hv := congrFun (congrArg Interns.transit h) v
      change (if v = v then 0 else 1) = 1 + r.transit v at hv
      rw [if_pos rfl] at hv
      omega

theorem released_same (i : Interns) (h : ret ≠ .proceed → val = none) :
    (if ret = .proceed then i else i.dropTransit val) = i := by
  by_cases hrt : ret = .proceed
  · exact if_pos hrt
  · rw [if_neg hrt, h hrt]
    rfl

end

/-! ## The condition -/

/-- The attributes that the parser has passed have put something in a
table. -/
def internsPart (peer : Peer) (attrs : List UInt8) : Bool :=
  (pathIn attrAsPath peer.capAs4Rcv (passedIn peer attrs)).isSome
    || hasValue attrCommunities (passedIn peer attrs)
    || hasValue attrExtCommunities (passedIn peer attrs)
    || hasType attrClusterList (passedIn peer attrs)

/-- The condition on the three fields of the message. -/
structure RefsKept (up : UpdatePeer) (rib : Rib) (withdraw attrs nlri : List UInt8) : Prop where
  /-- The parser's error comes before anything is interned. -/
  error : fieldVerdict up.peer attrs = .error →
    internsPart up.peer attrs = false ∧ fieldLeaks up.peer attrs = false
  /-- A withdrawal that is then refused carries no unknown transitive
  attribute. -/
  transit : fieldVerdict up.peer attrs = .withdraw →
    nlriSanityCheck 1 (updateBytes up.peer attrs nlri) = false ∨ checkFails up attrs nlri = true →
    (passedIn up.peer attrs).any unknownTransitive = false
  /-- The routes that are gone before the check of the well-known attributes
  fails held no references. -/
  withdrawn : fieldVerdict up.peer attrs ≠ .error →
    nlriSanityCheck 1 (updateBytes up.peer attrs nlri) = true →
    checkFails up attrs nlri = true → withdrawnRefs rib withdraw = 0

/-! ## The exits -/

section

variable {up : UpdatePeer} {uninit : UInt8 → UInt16} {rib : Rib}
  {input : Stream} {body withdraw rest attrs nlri : List UInt8}
  {before : Interns} {st : UpdateState}

theorem receive_routes (h : body <+: input.unread) (hup : up.established = true)
    (hwd : takeField body = some (withdraw, rest)) (hsa : nlriSanityCheck 1 withdraw = true) :
    bgpUpdateReceive up uninit rib body.length (.start input body.length before)
      = updateRoutes up uninit rib (input.getp + body.length) withdraw
        (messageAt input body.length before (2 + withdraw.length)) := by
  have hrd := (updateWithdrawn_some before h hwd hsa).1
  rw [messageAt_zero] at hrd
  unfold bgpUpdateReceive
  rw [if_neg (not_not.mpr hup), get_bind]
  exact (bind_ok hrd).trans rfl

/-- The fields of a message whose withdrawn routes are sane. -/
structure Fields (body withdraw attrs nlri : List UInt8) : Prop where
  fields : ∃ rest, takeField body = some (withdraw, rest) ∧ takeField rest = some (attrs, nlri)
  sane : nlriSanityCheck 1 withdraw = true

theorem Fields.attributes (h : body <+: input.unread) (hfields : Fields body withdraw attrs nlri) :
    2 + withdraw.length ≤ body.length
      ∧ takeField (body.drop (2 + withdraw.length)) = some (attrs, nlri) := by
  obtain ⟨⟨rest, hwd, hats⟩, hsa⟩ := hfields
  have hsize := @takeField_size body 0 rest withdraw hwd
  refine ⟨by omega, ?_⟩
  rwa [(updateWithdrawn_some 0 h hwd hsa).2]

section

variable (hrun : bgpUpdateReceive up uninit rib body.length
  (.start input body.length before) = .ok (false, st))
include hrun

theorem receive_down (hup : ¬ up.established = true) : st.ref.interns = before := by
  unfold bgpUpdateReceive at hrun
  rw [if_pos hup, modify_bind] at hrun
  cases hrun
  rfl

theorem receive_withdrawn (h : body <+: input.unread) (hup : up.established = true)
    (hfd : ∀ f rest, takeField body = some (f, rest) → nlriSanityCheck 1 f = false) :
    st.ref.interns = before := by
  unfold bgpUpdateReceive at hrun
  obtain ⟨st1, hwdn, hn⟩ := updateWithdrawn_none before h hfd
  rw [messageAt_zero] at hwdn
  rw [if_neg (not_not.mpr hup), get_bind] at hrun
  have hrt := (bind_ok hwdn).symm.trans hrun
  cases hrt
  exact hn

theorem receive_no_attributes (h : body <+: input.unread) (hup : up.established = true)
    (hwd : takeField body = some (withdraw, rest))
    (hsa : nlriSanityCheck 1 withdraw = true) (hrs : takeField rest = none) :
    st.ref.interns = before := by
  have hdr := (updateWithdrawn_some before h hwd hsa).2
  rw [receive_routes h hup hwd hsa, updateRoutes, updateAttributes] at hrun
  have hsize := @takeField_size body 0 rest withdraw hwd
  obtain ⟨st1, hlen, hn⟩ := updateFieldLength_none before h
    (show 2 + withdraw.length ≤ body.length by omega) (hdr.symm ▸ hrs)
  have hats : updateAttributes up uninit (input.getp + body.length)
      (messageAt input body.length before (2 + withdraw.length))
      = .ok (none, st1) := (bind_ok hlen).trans rfl
  have hrt := ((bind_ok hats).trans rfl).symm.trans hrun
  cases hrt
  exact hn

/-- Refused at all only with the fields in place, or with the tables as they
were. -/
theorem receive_fields (h : body <+: input.unread) :
    st.ref.interns = before ∨ up.established = true
      ∧ ∃ withdraw attrs nlri, Fields body withdraw attrs nlri := by
  by_cases hup : up.established = true
  · by_cases hfd : ∀ f rest, takeField body = some (f, rest) → nlriSanityCheck 1 f = false
    · exact .inl (receive_withdrawn hrun h hup hfd)
    push Not at hfd
    obtain ⟨withdraw, rest, hwd, hsa⟩ := hfd
    rw [Bool.ne_false_iff] at hsa
    cases hrs : takeField rest with
    | none => exact .inl (receive_no_attributes hrun h hup hwd hsa hrs)
    | some field => exact .inr ⟨hup, withdraw, field.1, field.2, ⟨rest, hwd, hrs⟩, hsa⟩
  · exact .inl (receive_down hrun hup)

end

/-- The attributes of the message as the parser gets them. -/
def attributesIn (input : Stream) (withdraw attrs : List UInt8) : ParseState :=
  .start (input.advance (2 + withdraw.length + 2)) attrs.length

variable {p : ParseState} {ret : ParseRet}

theorem Fields.facts (h : body <+: input.unread) (hfields : Fields body withdraw attrs nlri)
    (hparse : bgpAttrParse up.peer uninit attrs.length (attributesIn input withdraw attrs)
      = .ok (ret, p)) :
    ParseFacts up.peer (input.advance (2 + withdraw.length + 2)) attrs (passedIn up.peer attrs)
      ret p := by
  obtain ⟨hk, hats⟩ := hfields.attributes h
  obtain ⟨-, hbd⟩ := updateFieldLength_some 0 h hk hats
  exact parse_facts (prefix_of_append (hbd ▸ messageAt_unread h _)) hparse

theorem receive_error (before : Interns) (h : body <+: input.unread)
    (hup : up.established = true) (hfields : Fields body withdraw attrs nlri)
    (hparse : bgpAttrParse up.peer uninit attrs.length (attributesIn input withdraw attrs)
      = .ok (.error, p)) :
    ∃ st, bgpUpdateReceive up uninit rib body.length
        (.start input body.length before) = .ok (false, st)
      ∧ (st.ref.interns = before ↔ internsPart up.peer attrs = false
        ∧ fieldLeaks up.peer attrs = false) := by
  obtain ⟨hk, hats⟩ := hfields.attributes h
  obtain ⟨rest, hwd, -⟩ := hfields.fields
  have hfc := hfields.facts h hparse
  obtain ⟨st, hrun, hn, hlk⟩ := updateAttributes_error before h hk hats hparse
  refine ⟨st, ?_, ?_⟩
  · rw [receive_routes h hup hwd hfields.sane, updateRoutes]
    exact (bind_ok hrun).trans rfl
  cases hleak : fieldLeaks up.peer attrs with
  | true =>
    rw [hleak, if_pos rfl] at hn
    rw [hn]
    constructor
    · intro heq
      have hpt : before.aspath + held (heldParts p).aspath
          + held p.as4Path = before.aspath := congrArg Interns.aspath heq
      rw [add_assoc, add_eq_left] at hpt
      have hz : p.as4Path = none := by
        refine held_eq_zero.mp (funext fun path => ?_)
        exact (Nat.add_eq_zero_iff.mp (congrFun hpt path)).2
      have hso := hlk hleak
      rw [hz] at hso
      cases hso
    · rintro ⟨-, hf⟩
      cases hf
  | false =>
    rw [hleak, if_neg Bool.false_ne_true, kept_eq] at hn
    rw [hn, add_refs_eq, internsPart, ← hfc.aspath,
      ← hfc.community, ← hfc.ecommunity, ← hfc.cluster]
    simp only [Bool.or_eq_false_iff, Option.isSome_eq_false_iff, Option.isNone_iff_eq_none]
    constructor
    · rintro ⟨hasp, hcom, hec, hcl, -⟩
      exact ⟨⟨⟨⟨hasp, hcom⟩, hec⟩, hcl⟩, trivial⟩
    · rintro ⟨⟨⟨⟨hasp, hcom⟩, hec⟩, hcl⟩, -⟩
      exact ⟨hasp, hcom, hec, hcl, rfl⟩

section

variable (rib) (before) (h : body <+: input.unread) (hup : up.established = true)
  (hfields : Fields body withdraw attrs nlri) (hparse : bgpAttrParse up.peer uninit attrs.length
    (attributesIn input withdraw attrs) = .ok (ret, p)) (hrt : ret ≠ .error)
include h hup hfields hparse hrt

theorem receive_parsed :
    ∃ len st, Parsed up.peer (input.getp + body.length) before attrs nlri ret st
      ∧ bgpUpdateReceive up uninit rib body.length (.start input body.length before)
        = (updateNlri (input.getp + body.length) >>= fun
          | none => pure false
          | some update => updateFamilies up rib ret len withdraw update) st := by
  obtain ⟨hk, hats⟩ := hfields.attributes h
  obtain ⟨rest, hwd, -⟩ := hfields.fields
  rw [receive_routes h hup hwd hfields.sane, updateRoutes]
  by_cases hne : attrs = []
  · subst hne
    have hvr := (hfields.facts h hparse).verdict
    rw [fieldVerdict_nil] at hvr
    subst hvr
    obtain ⟨st, hrun, hpd⟩ := updateAttributes_nil up uninit before h hk hats
    exact ⟨_, st, hpd, bind_ok hrun⟩
  · obtain ⟨st, hrun, hpd⟩ := updateAttributes_cons before h hk hats hne hrt hparse
    exact ⟨_, st, hpd, bind_ok hrun⟩

theorem receive_insane (hsa : nlriSanityCheck 1 (updateBytes up.peer attrs nlri) = false) :
    ∃ st val, bgpUpdateReceive up uninit rib body.length
        (.start input body.length before) = .ok (false, st)
      ∧ val.isSome = (passedIn up.peer attrs).any unknownTransitive
      ∧ st.ref.interns = if ret = .proceed then before
        else before.dropTransit val := by
  obtain ⟨len, st, hpd, heq⟩ := receive_parsed rib before h hup hfields hparse hrt
  obtain ⟨st', hnlri, hn⟩ := updateNlri_none hpd hsa
  exact ⟨st', _, heq.trans (bind_ok hnlri), hpd.transit, hn⟩

theorem receive_sane (hsa : nlriSanityCheck 1 (updateBytes up.peer attrs nlri) = true) :
    ∃ len st, Held before ret st.ref ∧ mandatoryOf st.ref.parse
        = mandatoryIn up.peer (passedIn up.peer attrs) ∧ (heldParts st.ref.parse).transit.isSome
        = (passedIn up.peer attrs).any unknownTransitive
      ∧ bgpUpdateReceive up uninit rib body.length (.start input body.length before)
        = updateFamilies up rib ret len withdraw (updateBytes up.peer attrs nlri) st := by
  obtain ⟨len, st, hpd, heq⟩ := receive_parsed rib before h hup hfields hparse hrt
  refine ⟨len, _, ?_, ?_, ?_, heq.trans (bind_ok (updateNlri_some hpd hsa))⟩
  · exact ⟨hpd.held.interns, hpd.held.transit⟩
  · exact hpd.mandatory
  · exact hpd.transit

omit h hup hfields hparse hrt in
theorem checkFails_iff :
    checkFails up attrs nlri = true ↔ up.afc .ip .unicast = true
      ∧ updateBytes up.peer attrs nlri ≠ []
      ∧ (missing up.peer (mandatoryIn up.peer (passedIn up.peer attrs))).isSome = true := by
  simp only [checkFails, Bool.and_eq_true, decide_eq_true_eq, and_assoc]

theorem receive_missing (hsa : nlriSanityCheck 1 (updateBytes up.peer attrs nlri) = true)
    (hfls : checkFails up attrs nlri = true) :
    ∃ st val, bgpUpdateReceive up uninit rib body.length
        (.start input body.length (before + withdrawnRefs rib withdraw)) = .ok (false, st)
      ∧ val.isSome = (passedIn up.peer attrs).any unknownTransitive
      ∧ st.ref.interns = if ret = .proceed then before
        else before.dropTransit val := by
  obtain ⟨hafc, hupd, hms⟩ := checkFails_iff.mp hfls
  obtain ⟨len, st, hhl, hman, htr, heq⟩ := receive_sane rib
    (before + withdrawnRefs rib withdraw) h hup hfields hparse hrt hsa
  rw [← hman] at hms
  obtain ⟨st', hrun, hn⟩ := updateFamilies_missing hhl hafc hupd hms
  exact ⟨st', _, heq.trans hrun, htr, hn⟩

end

theorem bgpAttrParse_nil (peer : Peer) (uninit : UInt8 → UInt16) (input : Stream) :
    bgpAttrParse peer uninit 0 (.start input 0) = .ok (.proceed, .start input 0) := by
  have hlp : attrLoop peer uninit (input.getp + 0) 0 [] (.start input 0)
      = .ok (.proceed, .start input 0) := by
    rw [attrLoop, get_bind]
    exact congrFun (if_neg (Nat.lt_irrefl _)) _
  have hmun : bgpAttrMungeAs4Attrs peer (.start input 0) = .ok ((), .start input 0) := by
    unfold bgpAttrMungeAs4Attrs
    split
    · rfl
    · rfl
  have hfin : attrFinish peer (input.getp + 0) (.start input 0)
      = .ok (.proceed, .start input 0) := by
    rw [attrFinish, get_bind]
    refine (congrFun (if_neg (not_not.mpr rfl)) _).trans ?_
    exact (bind_ok hmun).trans rfl
  rw [bgpAttrParse, get_bind]
  exact (bind_ok hlp).trans hfin

theorem inRef_eq_ok {α : Type} {m : RefM α} {a : α} {st st' : UpdateState}
    (h : inRef m st = .ok (a, st')) : m st.ref = .ok (a, st'.ref) := by
  unfold inRef at h
  cases hm : m st.ref with
  | error e =>
    rw [hm] at h
    cases h
  | ok r =>
    rw [hm] at h
    cases h
    rfl

variable (h : body <+: input.unread) (hup : up.established = true)
  (hfields : Fields body withdraw attrs nlri)
include h hup hfields

theorem receive_parses {ok : Bool} (hrun : bgpUpdateReceive up uninit rib body.length
      (.start input body.length before) = .ok (ok, st)) :
    ∃ ret p, bgpAttrParse up.peer uninit attrs.length
      (attributesIn input withdraw attrs) = .ok (ret, p) := by
  obtain ⟨hk, hats⟩ := hfields.attributes h
  obtain ⟨rest, hwd, -⟩ := hfields.fields
  obtain ⟨hlen, -⟩ := updateFieldLength_some before h hk hats
  rw [receive_routes h hup hwd hfields.sane, updateRoutes] at hrun
  obtain ⟨out, st1, hupd, -⟩ := bind_eq_ok hrun
  cases attrs with
  | nil => exact ⟨_, _, bgpAttrParse_nil up.peer uninit _⟩
  | cons b attrs =>
    have hrs := (bind_ok hlen).symm.trans hupd
    obtain ⟨ret, st2, hparse, -⟩ := bind_eq_ok ((modify_bind _ _ _).symm.trans hrs)
    exact ⟨ret, _, erases_refAttrParse _ _ _ _ _ _ (inRef_eq_ok hparse)⟩

/-- Whenever the call returns -1, the tables are what they were. -/
def KeepsRefs (up : UpdatePeer) (uninit : UInt8 → UInt16) (rib : Rib)
    (input : Stream) (body : List UInt8) : Prop :=
  ∀ before st, bgpUpdateReceive up uninit rib body.length
      (.start input body.length before) = .ok (false, st) → st.ref.interns = before

/-- The condition is needed. -/
theorem refsKept_of_keeps (hkeeps : KeepsRefs up uninit rib input body)
    (hparse : bgpAttrParse up.peer uninit attrs.length
      (attributesIn input withdraw attrs) = .ok (ret, p)) :
    RefsKept up rib withdraw attrs nlri := by
  have hvr := (hfields.facts h hparse).verdict
  subst hvr
  -- the exits behind the parser, with one reference to everything
  have hinsane (hrt : fieldVerdict up.peer attrs ≠ .error)
      (hsa : nlriSanityCheck 1 (updateBytes up.peer attrs nlri) = false)
      (hprc : fieldVerdict up.peer attrs ≠ .proceed) :
      (passedIn up.peer attrs).any unknownTransitive = false := by
    obtain ⟨st, val, hrun, hvl, hn⟩ := receive_insane rib ones h hup hfields hparse hrt hsa
    have hsm := hn.symm.trans (hkeeps _ _ hrun)
    rw [← add_zero ones] at hsm
    rw [← hvl, (released_ones hsm).2 hprc]
    rfl
  have hms (hrt : fieldVerdict up.peer attrs ≠ .error)
      (hsa : nlriSanityCheck 1 (updateBytes up.peer attrs nlri) = true)
      (hfls : checkFails up attrs nlri = true) :
      withdrawnRefs rib withdraw = 0 ∧ (fieldVerdict up.peer attrs ≠ .proceed →
          (passedIn up.peer attrs).any unknownTransitive = false) := by
    obtain ⟨st, val, hrun, hvl, hn⟩ := receive_missing rib ones h hup hfields hparse hrt hsa hfls
    obtain ⟨hz, hno⟩ := released_ones (hn.symm.trans (hkeeps _ _ hrun))
    refine ⟨hz, fun hprc => ?_⟩
    rw [← hvl, hno hprc]
    rfl
  constructor
  · intro herr
    rw [herr] at hparse
    obtain ⟨st, hrun, hiff⟩ := receive_error 0 h hup hfields hparse
    exact hiff.mp (hkeeps _ _ hrun)
  · intro hwd hrf
    have hrt : fieldVerdict up.peer attrs ≠ .error := by
      rw [hwd]
      decide
    have hprc : fieldVerdict up.peer attrs ≠ .proceed := by
      rw [hwd]
      decide
    cases hsa : nlriSanityCheck 1 (updateBytes up.peer attrs nlri) with
    | false => exact hinsane hrt hsa hprc
    | true =>
      rw [hsa] at hrf
      exact (hms hrt hsa (hrf.resolve_left nofun)).2 hprc
  · intro hrt hsa hfls
    exact (hms hrt hsa hfls).1

/-- The condition is enough. -/
theorem RefsKept.keeps (hkp : RefsKept up rib withdraw attrs nlri)
    (hparse : bgpAttrParse up.peer uninit attrs.length
      (attributesIn input withdraw attrs) = .ok (ret, p))
    (hrun : bgpUpdateReceive up uninit rib body.length
      (.start input body.length before) = .ok (false, st)) : st.ref.interns = before := by
  have hvr := (hfields.facts h hparse).verdict
  subst hvr
  by_cases herr : fieldVerdict up.peer attrs = .error
  · rw [herr] at hparse
    obtain ⟨st', hr', hiff⟩ := receive_error before h hup hfields hparse
    cases hr'.symm.trans hrun
    exact hiff.mpr (hkp.error herr)
  have htr {val : Option (List UInt8)}
      (hvl : val.isSome = (passedIn up.peer attrs).any unknownTransitive)
      (hrf : nlriSanityCheck 1 (updateBytes up.peer attrs nlri) = false
        ∨ checkFails up attrs nlri = true)
      (hprc : fieldVerdict up.peer attrs ≠ .proceed) : val = none := by
    have hwd : fieldVerdict up.peer attrs = .withdraw := by
      cases hvr : fieldVerdict up.peer attrs with
      | proceed => exact absurd hvr hprc
      | error => exact absurd hvr herr
      | withdraw => rfl
    rw [hkp.transit hwd hrf, Option.isSome_eq_false_iff] at hvl
    exact Option.isNone_iff_eq_none.mp hvl
  cases hsa : nlriSanityCheck 1 (updateBytes up.peer attrs nlri) with
  | false =>
    obtain ⟨st', val, hr', hvl, hn⟩ := receive_insane rib before h hup hfields hparse herr hsa
    cases hr'.symm.trans hrun
    rw [hn]
    exact released_same before (htr hvl (.inl hsa))
  | true =>
    by_cases hfls : checkFails up attrs nlri = true
    · obtain ⟨st', val, hr', hvl, hn⟩ := receive_missing rib before h
        hup hfields hparse herr hsa hfls
      rw [hkp.withdrawn herr hsa hfls, add_zero] at hr'
      cases hr'.symm.trans hrun
      rw [hn]
      exact released_same before (htr hvl (.inr hfls))
    · obtain ⟨len, st', -, hman, -, heq⟩ := receive_sane rib before h hup hfields hparse herr hsa
      obtain ⟨hafc, hupd, hms⟩ :=
        updateFamilies_false (heq.symm.trans hrun)
      rw [hman] at hms
      exact absurd (checkFails_iff.mpr ⟨hafc, hupd, hms⟩) hfls

end

/-- A session of the sample peer, with IPv4 unicast only. -/
def oldSession : UpdatePeer where
  peer := oldPeer
  established := true
  afc afi safi := afi == .ip && safi == .unicast
  nsf _ _ := false

/-- No routes from the peer, and none are taken. -/
def noRoutes : Rib := ⟨fun _ => [], fun _ i => i⟩

/-- No withdrawn routes, an ORIGIN without a value, and no routes. -/
def originBody : List UInt8 := [0, 0, 0, 3, 0x40, 1, 0]

/-- The references to the path of the sample AS_PATH behind a refused
message. -/
def refusedCount (body : List UInt8) : Option Nat :=
  match bgpUpdateReceive oldSession (fun _ => 0) noRoutes body.length
      (.start (.ofBytes body) body.length noInterns) with
  | .ok (false, st) => some (st.ref.interns.aspath oldPath)
  | _ => none

/-- No withdrawn routes, the AS_PATH twice, and no routes. -/
def pathBody : List UInt8 := [0, 0, 0, 14] ++ attrsWire [oldAspath, oldAspath]

end SdnQuagga
