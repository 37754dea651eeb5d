import SdnQuagga.BgpAttrFrame
import SdnQuagga.BgpAttrSafety

/-!
# Unknown transitive attributes

An attribute without a handler that is optional and transitive is passed
on as it came, with the partial flag set: the parser collects the bytes in
`transit`, the writer puts them behind everything else. How many bytes
`bgp_attr_unknown` copies is up to a variable that is never assigned; with
the length of the attribute in it the bytes are right.
-/

namespace SdnQuagga

open FaultM SdnQuagga.Stream List

/-! ## What is to be passed on -/

def unknownTransitive (a : RawAttr) : Bool :=
  a.type ∉ knownAttrs && checkFlag (0xF0 &&& a.flags) attrFlagOptional
    && checkFlag (0xF0 &&& a.flags) attrFlagTrans

/-- The attribute with the partial flag set. -/
def RawAttr.passedOn (a : RawAttr) : RawAttr :=
  { a with flags := a.flags ||| attrFlagPartial }

/-- The bytes that have to be passed on, for a list of attributes. -/
def carried (as : List RawAttr) : List UInt8 :=
  (as.filter unknownTransitive).flatMap fun a => a.passedOn.bytes

variable (attr : Attr)

def transitOf : List UInt8 :=
  (attr.extra.bind AttrExtra.transit).getD []

def Attr.withoutTransit : Attr :=
  { attr with extra := attr.extra.map fun attre => { attre with
    transit := none } }

/-- The writer puts exactly `bs` behind what it writes for the other
attributes. -/
def Appends (bs : List UInt8) : Prop :=
  ∀ bgp peer p afi safi src prd tag s n s',
    bgpPacketAttribute bgp peer attr.withoutTransit p afi safi src prd tag s
      = .ok (n, s') → bs.length ≤ s'.writeable →
    ∃ n', bgpPacketAttribute bgp peer attr p afi safi src prd tag s = .ok (n', s'.append bs)

/-- The field is accepted, and its unknown attributes are passed on. -/
def CarriesThrough (peer : Peer) (uninit : UInt8 → UInt16) (input : Stream)
    (bs : List UInt8) : Prop :=
  ∃ st, bgpAttrParse peer uninit bs.length (.start input bs.length) = .ok (.proceed, st)
    ∧ transitOf st.attr = carried (splitField bs).1 ∧ Appends st.attr (carried (splitField bs).1)

/-! ## Writing -/

section

variable {α β : Type} {bs : List UInt8}

/-- `m'` writes what `m` writes and then `bs`. -/
def Extends (m m' : StreamM α) (bs : List UInt8) : Prop :=
  ∀ s a s', m s = .ok (a, s') → bs.length ≤ s'.writeable → ∃ a', m' s = .ok (a', s'.append bs)

theorem Extends.bind {m : StreamM α} {f f' : α → StreamM β}
    (h : ∀ a, Extends (f a) (f' a) bs) : Extends (m >>= f) (m >>= f') bs := by
  intro s b s' hr hrm
  obtain ⟨a, s1, hm, hrs⟩ := bind_eq_ok hr
  obtain ⟨b', hrs'⟩ := h a s1 b s' hrs hrm
  exact ⟨b', (bind_ok hm).trans hrs'⟩

theorem putTransit_ok {attr : Attr} {s : Stream} (hrm : (transitOf attr).length ≤ s.writeable) :
    putTransit attr s = .ok ((), s.append (transitOf attr)) := by
  unfold putTransit
  unfold transitOf at hrm ⊢
  cases htr : attr.extra.bind AttrExtra.transit with
  | none =>
    rw [Option.getD_none, Stream.append_nil]
    rfl
  | some val =>
    rw [htr] at hrm
    exact emits_put val s hrm

theorem putTransit_withoutTransit (attr : Attr) : putTransit attr.withoutTransit = pure () := by
  unfold putTransit Attr.withoutTransit
  cases attr.extra with
  | none => rfl
  | some attre => rfl

/-- The bytes in `transit` come last. -/
theorem appends_transit (attr : Attr) : Appends attr (transitOf attr) := by
  intro bgp peer p afi safi src prd tag
  have hla cp : Extends (do
        putTransit attr.withoutTransit
        return UInt16.ofNat ((← get).endp - cp))
      (do
        putTransit attr
        return UInt16.ofNat ((← get).endp - cp)) (transitOf attr) := by
    intro s n s' hr hrm
    rw [putTransit_withoutTransit, pure_bind, get_bind] at hr
    cases hr
    rw [bind_ok (putTransit_ok hrm), get_bind]
    exact ⟨_, rfl⟩
  suffices Extends (bgpPacketAttribute bgp peer attr.withoutTransit p afi safi src prd tag)
      (bgpPacketAttribute bgp peer attr p afi safi src prd tag) (transitOf attr) from this
  -- nothing before the last step looks at `transit`
  obtain ⟨aspath, community, extra, flag, nexthop, med, localPref, origin⟩ :=
    attr
  cases extra with
  | none | some attre =>
    exact .bind fun cp => .bind fun _ => .bind fun _ => .bind fun _ =>
      .bind fun _ => .bind fun _ => .bind fun _ => .bind fun _ =>
      .bind fun _ => .bind fun _ => .bind fun _ => .bind fun _ =>
      .bind fun _ => .bind fun _ => .bind fun _ => .bind fun _ =>
      .bind fun _ => hla cp.endp

end

/-! ## One attribute -/

section

variable {peer : Peer} {uninit : UInt8 → UInt16} {a : RawAttr}
  {st st' : ParseState} {endp : Nat} {bs rest : List UInt8}

theorem checkFlag_extlen_partial (flags : UInt8) :
    checkFlag (flags ||| attrFlagPartial) attrFlagExtlen = checkFlag flags attrFlagExtlen := by
  have hbt : (flags ||| attrFlagPartial) &&& attrFlagExtlen = flags &&& attrFlagExtlen := by
    refine UInt8.toBitVec_inj.mp ?_
    rw [UInt8.toBitVec_and, UInt8.toBitVec_and, UInt8.toBitVec_or,
      BitVec.and_comm, BitVec.and_or_distrib_left, BitVec.and_comm]
    exact BitVec.or_zero
  rw [checkFlag, checkFlag, hbt]

theorem passedOn_bytes (a : RawAttr) :
    a.passedOn.bytes = (a.flags ||| attrFlagPartial) :: (a.type :: a.lengthField ++ a.value) := by
  have hx : a.passedOn.extlen = a.extlen := checkFlag_extlen_partial a.flags
  rw [RawAttr.bytes, RawAttr.header, RawAttr.lengthField, hx]
  rfl

theorem drop_modify_self {α : Type} {f : α → α} {l rest : List α} {b : α}
    {i : Nat} (h : l.drop i = b :: rest) : (l.modify i f).drop i = f b :: rest := by
  induction i generalizing l with
  | zero =>
    rw [drop_zero] at h
    subst h
    rfl
  | succ i ih =>
    cases l with
    | nil => cases h
    | cons c l => exact ih h

theorem marked_bytes {s : Stream} (h : a.bytes <+: s.unread) :
    ((s.data.modify s.getp (· ||| attrFlagPartial)).drop s.getp).take
      a.bytes.length = a.passedOn.bytes := by
  have hda : s.unread <+: s.data.drop s.getp := by
    rw [unread, written, drop_take]
    exact take_prefix ..
  obtain ⟨more, hmo⟩ := h.trans hda
  have hby : s.data.drop s.getp = a.flags :: (a.type :: a.lengthField ++ a.value ++ more) := by
    rw [← hmo]
    simp [RawAttr.bytes, RawAttr.header]
  have hlen : a.bytes.length = a.passedOn.bytes.length := by
    rw [passedOn_bytes]
    rfl
  rw [drop_modify_self hby, hlen, passedOn_bytes, ← cons_append]
  exact take_left' rfl

/-- The state behind an attribute that is passed on, with what was
copied. -/
def passedState (st : ParseState) (a : RawAttr) (n : Nat) : ParseState :=
  let marked := st.input.data.modify st.input.getp (· ||| attrFlagPartial)
  { st with
    input := { st.input.advance a.bytes.length with
      data := marked
      endp_le_size := by
        rw [length_modify]
        exact st.input.endp_le_size }
    attr := { st.attr with extra := some { st.attr.extraGet with
      transit := some (st.attr.extraGet.transit.getD [] ++ (marked.drop st.input.getp).take n) } } }

section

variable (h : AtField endp (a.bytes ++ rest) st)
include h

/-- The copy runs out of the field, or the attribute is passed on. -/
theorem attrBody_unknown (hun : unknownTransitive a = true) (h19 : a.type ≠ 19) :
    attrBody peer uninit (argsAt st a) (atValue st a)
      = if st.fieldEnd < st.input.getp + (uninit a.type).toNat then
          .error .outOfBounds
        else .ok (none, passedState st a (uninit a.type).toNat) := by
  simp only [unknownTransitive, Bool.and_eq_true, decide_eq_true_eq] at hun
  obtain ⟨⟨hkn, hopt⟩, htrs⟩ := hun
  have hat := h.atValue
  have hr := input_reads (reads_forwardGetp a.value) hat.value hat.inField
  have hby : (st.input.advance a.header.length).advance a.value.length
      = st.input.advance a.bytes.length := by rw [advance_advance, RawAttr.bytes, length_append]
  rw [hby] at hr
  have hgp := getp_advance h.ahead.left.unread
  rw [attrBody, bgpAttrFlagInvalid_eq rfl rfl h19, pure_bind,
    flagsRight_unknown hkn, Bool.not_true, if_neg Bool.false_ne_true, attrDispatch_unknown hkn]
  split_ifs with hout
  · refine bind_error ?_
    rw [bgpAttrUnknown, bind_ok hr, hopt, htrs]
    refine (modify_bind _ _ _).trans (bind_error ?_)
    exact if_pos hout
  · have hunk : bgpAttrUnknown peer (argsAt st a) (uninit a.type) (atValue st a)
        = .ok (.proceed, passedState st a (uninit a.type).toNat) := by
      rw [bgpAttrUnknown, bind_ok hr, hopt, htrs]
      refine (modify_bind _ _ _).trans ?_
      exact (bind_ok (show pointBytes _ _ _ = _ from if_neg (by exact hout))).trans rfl
    rw [bind_ok hunk, attrFetched, get_bind, if_neg (by exact not_not.mpr hgp)]
    rfl

theorem attrBody_copied {r : Option ParseRet × ParseState} (hun : unknownTransitive a = true)
    (hr : attrBody peer uninit (argsAt st a) (atValue st a) = .ok r) :
    st.input.getp + (uninit a.type).toNat ≤ st.fieldEnd
      ∧ r = (none, passedState st a (uninit a.type).toNat) := by
  rw [attrBody_unknown h hun (attrBody_type_ne hr)] at hr
  split at hr
  · cases hr
  next hin =>
    cases hr
    exact ⟨Nat.not_lt.mp hin, rfl⟩

theorem passedState_unread (n : Nat) :
    (passedState st a n).input.unread = (st.input.advance a.bytes.length).unread := by
  have hgp := getp_advance h.ahead.left.unread
  have hp := bytes_pos a
  show ((st.input.data.modify _ _).take st.input.endp).drop (st.input.advance a.bytes.length).getp
    = (st.input.data.take st.input.endp).drop (st.input.advance a.bytes.length).getp
  rw [drop_take, drop_take, drop_modify_of_lt _ _ _ _ (by omega)]

theorem passedState_behind (hwf : ParseWf st) (n : Nat) :
    AtField endp rest (passedState st a n) ∧ ParseWf (passedState st a n) := by
  have hgp := getp_advance h.ahead.left.unread
  have hin := h.ahead.inField
  have hep := h.endp
  rw [length_append] at hin hep
  have hgp' : (passedState st a n).input.getp = st.input.getp + a.bytes.length := hgp
  refine ⟨⟨⟨?_, ?_⟩, ?_⟩, hwf.asPath, hwf.as4Path, fun _ => rfl⟩
  · rw [passedState_unread h]
    exact unread_advance h.ahead.unread
  · rw [hgp']
    exact (Nat.add_assoc ..).trans_le hin
  · omega

end

theorem passedState_parts (st : ParseState) (a : RawAttr) (n : Nat) :
    heldParts (passedState st a n) = { heldParts st with
      transit := some ((heldParts st).transit.getD []
        ++ ((st.input.data.modify st.input.getp (· ||| attrFlagPartial)).drop
          st.input.getp).take n) } := by
  obtain ⟨hec, hcl, htr⟩ := extraGet_parts st
  dsimp only
  rw [← hec, ← hcl, ← htr]
  rfl

variable {args : AttrArgs} {ret : ParseRet}

/-- Any other attribute leaves `transit` alone. -/
theorem preserves_body_transit (hun : unknownTransitive a = false) (hty : args.type = a.type)
    (hfl : args.flags = 0xF0 &&& a.flags) :
    Preserves (follow HeldParts.transit) (attrBody peer uninit args) := by
  by_cases hkn : a.type ∈ knownAttrs
  · exact preserves_body peer uninit (blind_transit (hty ▸ hkn))
  · refine preserves_body_of peer uninit ?_
    rw [attrDispatch_unknown (hty ▸ hkn)]
    refine (preserves_input _).bind fun _ => ?_
    rw [hfl]
    cases hopt : checkFlag (0xF0 &&& a.flags) attrFlagOptional with
    | false => exact preserves_malformed _ _ _ _
    | true =>
      have htrs : checkFlag (0xF0 &&& a.flags) attrFlagTrans = false := by
        simpa [unknownTransitive, hkn, hopt] using hun
      rw [htrs]
      exact .pure _

variable {seen seen' : List UInt8}

theorem attrStep_next (h : AtField endp bs st) (hne : bs ≠ [])
    (hr : attrStep peer uninit endp seen st = .ok ((none, seen'), st')) :
    ∃ a rest, nextAttr bs = some (a, rest) ∧ a.type ∉ seen ∧ seen' = a.type :: seen
      ∧ attrBody peer uninit (argsAt st a) (atValue st a) = .ok (none, st') := by
  have hgoes : ¬ StepStops peer uninit endp seen st := by
    rintro ⟨ret, seen'', st'', hstp, -⟩
    rw [hr] at hstp
    cases hstp
  cases hnx : nextAttr bs with
  | none => exact absurd (headerStops_none h hnx hne).step hgoes
  | some next =>
    obtain ⟨a, rest⟩ := next
    obtain ⟨rfl, hft⟩ := nextAttr_bytes hnx
    by_cases hse : a.type ∈ seen
    · exact absurd (headerStops_seen hft h hse).step hgoes
    · rw [h.attrStep_eq hft hse] at hr
      obtain ⟨ret, st1, hbd, hrs⟩ := bind_eq_ok hr
      cases hrs
      exact ⟨a, rest, rfl, hse, rfl, hbd⟩

theorem attrFetched_some {ret' : ParseRet} (hr : attrFetched args ret st = .ok (some ret', st')) :
    ret' ≠ .proceed := by
  cases ret with
  | proceed =>
    rw [attrFetched, get_bind] at hr
    split at hr
    · cases hr
      decide
    · cases hr
  | error | withdraw =>
    cases hr
    decide

theorem attrBody_some (hr : attrBody peer uninit args st = .ok (some ret, st')) :
    ret ≠ .proceed := by
  rw [attrBody] at hr
  obtain ⟨invalid, st1, -, hr⟩ := bind_eq_ok hr
  cases invalid with
  | false =>
    obtain ⟨ret1, st2, -, hr⟩ := bind_eq_ok hr
    exact attrFetched_some hr
  | true =>
    obtain ⟨ret1, st2, -, hr⟩ := bind_eq_ok hr
    cases ret1 with
    | proceed => cases hr
    | error | withdraw =>
      cases hr
      decide

/-- A turn that ends the parse ends it with an error or a withdrawal. -/
theorem attrStep_some
    (hr : attrStep peer uninit endp seen st = .ok ((some ret, seen'), st')) : ret ≠ .proceed := by
  obtain ⟨-, herr | ⟨args, st1, hbd⟩⟩ := attrStep_returns peer uninit hr
  · cases herr
    decide
  · exact attrBody_some hbd

theorem unknownTransitive_of_faulty (hflt : faulty a = true)
    (h19 : a.type ≠ 19) : unknownTransitive a = true := by
  simpa [faulty, h19, unknownTransitive] using hflt

/-- What an attribute that was passed leaves. -/
structure BodyPassed (peer : Peer) (endp : Nat) (a : RawAttr) (rest : List UInt8)
    (st p : ParseState) : Prop where
  acc : accepted peer a = true
  field : AtField endp rest p
  wf : ParseWf p
  fieldEnd : p.fieldEnd = st.fieldEnd
  view : as4View p = (as4View st).add peer a
  unread : p.input.unread = st.input.unread.drop a.bytes.length

section

variable (h : AtField endp (a.bytes ++ rest) st)
include h

/-- The attributes that are passed are the accepted ones. -/
theorem attrBody_passed {r : Option ParseRet}
    (hwf : ParseWf st) (hr : attrBody peer uninit (argsAt st a) (atValue st a) = .ok (r, st')) :
    if r = none then BodyPassed peer endp a rest st st' else accepted peer a = false := by
  cases hflt : faulty a with
  | false =>
    have hsc := attrBody_spec peer uninit h.atValue ⟨hwf.asPath, hwf.as4Path, hwf.aggregator⟩ hflt
    rw [hr] at hsc
    cases hac : accepted peer a with
    | false =>
      rw [hac] at hsc
      obtain ⟨ret, st1, heq, -⟩ := hsc
      cases heq
      rfl
    | true =>
      rw [hac] at hsc
      obtain ⟨st1, heq, hbh⟩ := hsc
      cases heq
      refine ⟨hac, h.behind hbh, hbh.2.2.1, hbh.2.1, hbh.2.2.2, ?_⟩
      rw [hbh.1, ← advance_unread]
      simp only [advance_advance, RawAttr.bytes, length_append]
  | true =>
    have hun := unknownTransitive_of_faulty hflt (attrBody_type_ne hr)
    cases (attrBody_copied h hun hr).2
    simp only [unknownTransitive, Bool.and_eq_true, decide_eq_true_eq] at hun
    obtain ⟨⟨hkn, hopt⟩, -⟩ := hun
    have ho : a.type ∉ [attrAsPath, attrAs4Path, attrAggregator, attrAs4Aggregator] := by
      intro hmb
      refine hkn ?_
      simp only [knownAttrs, mem_cons, not_mem_nil, or_false] at hmb ⊢
      tauto
    obtain ⟨hfd, hwf'⟩ := passedState_behind h hwf (uninit a.type).toNat
    refine ⟨?_, hfd, hwf', rfl, ?_, ?_⟩
    · rw [accepted, wellFormed, flagsRight_unknown hkn, valueOk_unknown peer hkn, hopt]
      rfl
    · rw [As4View.add, take_other peer _ ho, ite_self]
      rfl
    · rw [← advance_unread]
      exact passedState_unread h _

theorem attrBody_none (hwf : ParseWf st)
    (hr : attrBody peer uninit (argsAt st a) (atValue st a) = .ok (none, st')) :
    BodyPassed peer endp a rest st st' :=
  attrBody_passed h hwf hr

theorem attrBody_refused (hwf : ParseWf st)
    (hr : attrBody peer uninit (argsAt st a) (atValue st a) = .ok (some ret, st')) :
    accepted peer a = false :=
  attrBody_passed h hwf hr

end

/-! ## All attributes -/

variable {bound : Nat}

/-- The uninitialised variable happens to hold the lengths. -/
def LengthsRight (uninit : UInt8 → UInt16) (as : List RawAttr) : Prop :=
  ∀ a ∈ as, unknownTransitive a → (uninit a.type).toNat = a.bytes.length

theorem carried_cons (a : RawAttr) (as : List RawAttr) :
    carried (a :: as) = (if unknownTransitive a then a.passedOn.bytes else []) ++ carried as := by
  rw [carried, filter_cons]
  split
  · rfl
  · rfl

/-- What an attribute that was passed adds to `transit`. -/
theorem attrBody_carries {a : RawAttr} {rest : List UInt8} (h : AtField endp (a.bytes ++ rest) st)
    (hln : unknownTransitive a → (uninit a.type).toNat = a.bytes.length)
    (hr : attrBody peer uninit (argsAt st a) (atValue st a) = .ok (none, st')) :
    (heldParts st').transit.getD [] = (heldParts st).transit.getD []
      ++ (if unknownTransitive a then a.passedOn.bytes else []) := by
  cases hun : unknownTransitive a with
  | false =>
    have hkp := preserves_body_transit hun rfl rfl _ _ _ hr
    rw [if_neg Bool.false_ne_true, List.append_nil]
    exact congrArg (Option.getD · []) hkp
  | true =>
    cases (attrBody_copied h hun hr).2
    rw [passedState_parts, hln hun, marked_bytes h.ahead.left.unread]
    rfl

/-- A turn that has passed `a`. -/
structure Passed (peer : Peer) (uninit : UInt8 → UInt16) (endp : Nat)
    (seen : List UInt8) (a : RawAttr) (rest : List UInt8) (st st1 : ParseState) : Prop where
  before : AtField endp (a.bytes ++ rest) st
  wf : ParseWf st
  fits : a.Fits
  unseen : a.type ∉ seen
  body : attrBody peer uninit (argsAt st a) (atValue st a) = .ok (none, st1)
  behind : AtField endp rest st1
  fieldEnd : st1.fieldEnd = st.fieldEnd

/-- A loop that gets through the field passes one attribute after the
other. -/
theorem attrLoop_proceeds {P : Nat → List UInt8 → List RawAttr → ParseState → Prop}
    (hni : ∀ bound seen, ¬ st'.input.getp < endp → P bound seen [] st')
    (hcn : ∀ {bound seen a rest st st1},
      Passed peer uninit endp seen a rest st st1 →
      P bound (a.type :: seen) (splitField rest).1 st1 →
      P (bound + 1) seen (a :: (splitField rest).1) st) (h : AtField endp bs st) (hwf : ParseWf st)
    (hr : attrLoop peer uninit endp bound seen st = .ok (.proceed, st')) :
    P bound seen (splitField bs).1 st := by
  have hdn {st bound seen} (h : AtField endp [] st)
      (hr : attrLoop peer uninit endp bound seen st = .ok (.proceed, st')) :
      P bound seen (splitField []).1 st := by
    rw [attrLoop_done h.not_lt] at hr
    cases hr
    rw [splitField_none rfl]
    exact hni _ _ h.not_lt
  induction bound generalizing bs seen st with
  | zero =>
    by_cases hne : bs = []
    · subst hne
      exact hdn h hr
    · rw [attrLoop, get_bind, if_pos (h.getp_lt hne)] at hr
      cases hr
  | succ bound ih =>
    by_cases hne : bs = []
    · subst hne
      exact hdn h hr
    · rw [attrLoop, get_bind, if_pos (h.getp_lt hne)] at hr
      obtain ⟨⟨ret, seen'⟩, st1, hst, hrs⟩ := bind_eq_ok hr
      cases ret with
      | some ret =>
        cases hrs
        exact absurd rfl (attrStep_some hst)
      | none =>
        obtain ⟨a, rest, hnx, hse, rfl, hbd⟩ :=
          attrStep_next h hne hst
        obtain ⟨rfl, hft⟩ := nextAttr_bytes hnx
        obtain ⟨-, hfd, hwf', he, -, -⟩ := attrBody_none h hwf hbd
        rw [splitField_some hnx]
        exact hcn ⟨h, hwf, hft, hse, hbd, hfd, he⟩ (ih hfd hwf' hrs)

/-- The loop collects the bytes of the unknown attributes. -/
theorem attrLoop_carries (h : AtField endp bs st) (hwf : ParseWf st)
    (hlens : LengthsRight uninit (splitField bs).1)
    (hr : attrLoop peer uninit endp bound seen st = .ok (.proceed, st')) :
    (heldParts st').transit.getD []
      = (heldParts st).transit.getD [] ++ carried (splitField bs).1 := by
  refine attrLoop_proceeds (P := fun _ _ as st => LengthsRight uninit as →
    (heldParts st').transit.getD [] = (heldParts st).transit.getD [] ++ carried as)
    (fun _ _ _ _ => (List.append_nil _).symm) ?_ h hwf hr hlens
  intro _ _ a rest st st1 hps ih hlens
  rw [carried_cons, ← append_assoc, ← attrBody_carries hps.before (hlens a mem_cons_self) hps.body]
  exact ih fun b hb => hlens b (mem_cons_of_mem _ hb)

/-- No copy runs out of the field. -/
theorem attrLoop_copies (h : AtField endp bs st) (hwf : ParseWf st)
    (hr : attrLoop peer uninit endp bound seen st = .ok (.proceed, st')) :
    ∀ a ∈ (splitField bs).1, unknownTransitive a = true →
      st.input.getp + (uninit a.type).toNat ≤ st.fieldEnd := by
  refine attrLoop_proceeds (P := fun _ _ as st => ∀ a ∈ as, unknownTransitive a = true →
      st.input.getp + (uninit a.type).toNat ≤ st.fieldEnd)
    (fun _ _ _ a ha => absurd ha not_mem_nil) ?_ h hwf hr
  intro _ _ a rest st st1 hps ih b hb hun
  rcases mem_cons.mp hb with rfl | hb
  · exact (attrBody_copied hps.before hun hps.body).1
  · have hle := ih b hb hun
    have he := hps.fieldEnd
    have hep := hps.before.endp
    have hep1 := hps.behind.endp
    rw [length_append] at hep
    omega

variable {args : AttrArgs}

theorem attrDispatch_congr {uninit' : UInt8 → UInt16}
    (h : args.type ∉ knownAttrs → bgpAttrUnknown peer args (uninit args.type)
      = bgpAttrUnknown peer args (uninit' args.type)) :
    attrDispatch peer args uninit = attrDispatch peer args uninit' := by
  by_cases hkn : args.type ∈ knownAttrs
  · simp only [knownAttrs, mem_cons, not_mem_nil, or_false] at hkn
    rcases hkn with hty | hty | hty | hty | hty | hty | hty | hty | hty
      | hty | hty | hty | hty | hty | hty
    all_goals
      rw [attrDispatch, attrDispatch, hty]
      rfl
  · rw [attrDispatch_unknown hkn, attrDispatch_unknown hkn, h hkn]

variable (uninit' : UInt8 → UInt16)

/-- Only an attribute that is passed on looks at the variable. -/
theorem attrBody_congr {a : RawAttr} (hun : unknownTransitive a = false)
    (hty : args.type = a.type) (hfl : args.flags = 0xF0 &&& a.flags) :
    attrBody peer uninit args = attrBody peer uninit' args := by
  rw [attrBody, attrBody, attrDispatch_congr]
  intro hkn
  unfold bgpAttrUnknown
  rw [hfl]
  cases hopt : checkFlag (0xF0 &&& a.flags) attrFlagOptional with
  | false => rfl
  | true =>
    have htrs : checkFlag (0xF0 &&& a.flags) attrFlagTrans = false := by
      simpa [unknownTransitive, hty ▸ hkn, hopt] using hun
    rw [htrs]
    rfl

/-- Without such an attribute the run does not depend on the variable. -/
theorem attrLoop_congr (h : AtField endp bs st) (hwf : ParseWf st)
    (hpln : ∀ a ∈ (splitField bs).1, unknownTransitive a = false)
    (hr : attrLoop peer uninit endp bound seen st = .ok (.proceed, st')) :
    attrLoop peer uninit' endp bound seen st = .ok (.proceed, st') := by
  refine attrLoop_proceeds (P := fun bound seen as st =>
    (∀ a ∈ as, unknownTransitive a = false) →
      attrLoop peer uninit' endp bound seen st = .ok (.proceed, st'))
    (fun bound seen he _ => attrLoop_done he) ?_ h hwf hr hpln
  intro bound seen a rest st st1 hps ih hpln
  have hbd := hps.body
  rw [attrBody_congr uninit' (hpln a mem_cons_self) rfl rfl] at hbd
  have hst : attrStep peer uninit' endp seen st = .ok ((none, a.type :: seen), st1) := by
    rw [hps.before.attrStep_eq hps.fits hps.unseen, bind_ok hbd]
    rfl
  have hne : a.bytes ++ rest ≠ [] := by
    have hp := bytes_pos a
    intro heq
    rw [(append_eq_nil_iff.mp heq).1] at hp
    cases hp
  rw [attrLoop_step (hps.before.getp_lt hne) hst]
  exact ih fun b hb => hpln b (mem_cons_of_mem _ hb)

/-- With the lengths in the variable, the bytes are right. -/
theorem parse_carries {input : Stream} (h : bs <+: input.unread)
    (hlens : LengthsRight uninit (splitField bs).1)
    (hr : bgpAttrParse peer uninit bs.length (.start input bs.length)
      = .ok (.proceed, st)) : CarriesThrough peer uninit input bs := by
  have htr : transitOf st.attr = carried (splitField bs).1 := by
    rw [bgpAttrParse, get_bind] at hr
    obtain ⟨ret, st1, hlp, hfin⟩ := bind_eq_ok hr
    cases ret with
    | proceed =>
      have hcarries := attrLoop_carries (atField_start h) (parseWf_start bs.length) hlens hlp
      have hkp := preserves_finish peer _
        (fun h p => (rfl : HeldParts.transit { h with aspath := p } = h.transit)) _ _ _ hfin
      exact (congrArg (Option.getD · []) hkp).trans hcarries
    | error | withdraw => cases hfin
  exact ⟨st, hr, htr, htr ▸ appends_transit st.attr⟩

end

/-- For a field that the parser accepts: its unknown transitive attributes
are passed on, whatever the uninitialised variable holds, exactly if there
are none; and they are passed on if the variable holds their lengths. -/
theorem attr_unknown_carried_iff (peer : Peer) (input : Stream)
    (bs : List UInt8) (h : bs <+: input.unread) (hsize : bs.length ≤ 4096)
    (haccepted : ∃ uninit st, bgpAttrParse peer uninit bs.length
      (.start input bs.length) = .ok (.proceed, st)) :
    ((∀ uninit, CarriesThrough peer uninit input bs)
        ↔ ∀ a ∈ (splitField bs).1, unknownTransitive a = false)
      ∧ ∀ uninit st, bgpAttrParse peer uninit bs.length
          (.start input bs.length) = .ok (.proceed, st) → LengthsRight uninit (splitField bs).1 →
        CarriesThrough peer uninit input bs := by
  refine ⟨⟨fun hall a ha => ?_, fun hplain uninit => ?_⟩,
    fun uninit st hrun hlengths => parse_carries h hlengths hrun⟩
  · -- the largest value makes the copy run out of the field
    by_contra hun
    obtain ⟨st, hrun, -⟩ := hall fun _ => 65535
    rw [bgpAttrParse, get_bind] at hrun
    obtain ⟨ret, st1, hloop, hfinish⟩ := bind_eq_ok hrun
    cases ret with
    | proceed =>
      have hcopy := attrLoop_copies (atField_start h) (parseWf_start bs.length) hloop a ha
        (Bool.eq_true_of_not_eq_false hun)
      have hcopied : input.getp + 65535 ≤ input.getp + bs.length := hcopy
      omega
    | error | withdraw => cases hfinish
  · obtain ⟨uninit', st, hrun⟩ := haccepted
    have hrun' : bgpAttrParse peer uninit bs.length (.start input bs.length)
        = .ok (.proceed, st) := by
      rw [bgpAttrParse, get_bind] at hrun ⊢
      obtain ⟨ret, st1, hloop, hfinish⟩ := bind_eq_ok hrun
      cases ret with
      | proceed =>
        refine (bind_ok (attrLoop_congr uninit (atField_start h)
          (parseWf_start bs.length) hplain hloop)).trans hfinish
      | error | withdraw => cases hfinish
    refine parse_carries h (fun a ha hun => ?_) hrun'
    rw [hplain a ha] at hun
    cases hun

/-- An AS path, and an unknown optional transitive attribute of one
byte. -/
def unknownField : List RawAttr :=
  [oldAspath, ⟨attrFlagOptional ||| attrFlagTrans, 20, [7]⟩]

/-- What an accepted field of these attributes leaves in `transit`. -/
def parsedTransit (uninit : UInt8 → UInt16) (as : List RawAttr) :
    Option (List UInt8) :=
  match bgpAttrParse oldPeer uninit (attrsWire as).length
      (.start (.ofBytes (attrsWire as)) (attrsWire as).length) with
  | .ok (.proceed, st) => some (transitOf st.attr)
  | _ => none

theorem parsedTransit_some {uninit : UInt8 → UInt16} {as : List RawAttr}
    {val : List UInt8} (h : parsedTransit uninit as = some val) :
    ∃ st, bgpAttrParse oldPeer uninit (attrsWire as).length
        (.start (.ofBytes (attrsWire as)) (attrsWire as).length)
          = .ok (.proceed, st) ∧ transitOf st.attr = val := by
  unfold parsedTransit at h
  split at h
  next st hr =>
    cases h
    exact ⟨st, hr, rfl⟩
  · cases h

/-- The attribute is carried through with its length of 4 in the variable, but not with every
value. -/
theorem attr_unknown_carried_one :
    (¬ ∀ uninit, CarriesThrough oldPeer uninit (.ofBytes (attrsWire unknownField))
        (attrsWire unknownField))
      ∧ CarriesThrough oldPeer (fun _ => 4) (.ofBytes (attrsWire unknownField))
        (attrsWire unknownField) := by
  obtain ⟨st, hrun, -⟩ := parsedTransit_some
    (show parsedTransit (fun _ => 4) unknownField = some [0xE0, 20, 1, 7] by decide +kernel)
  have hsplit : (splitField (attrsWire unknownField)).1 = unknownField := by
    rw [splitField_attrsWire _ (by decide)]
  obtain ⟨hall, hright⟩ := attr_unknown_carried_iff oldPeer (.ofBytes (attrsWire unknownField)) _
    ((ofBytes_unread _).symm ▸ prefix_rfl) (by decide) ⟨_, st, hrun⟩
  rw [hsplit] at hall hright
  exact ⟨fun h => absurd (hall.mp h) (by decide), hright _ st hrun (by unfold LengthsRight; decide)⟩

/-- With 0 in the variable nothing is passed on. -/
theorem attr_unknown_not_carried :
    ¬ CarriesThrough oldPeer (fun _ => 0) (.ofBytes (attrsWire unknownField))
      (attrsWire unknownField) := by
  rintro ⟨st, hrun, htransit, -⟩
  obtain ⟨st', hrun', hempty⟩ := parsedTransit_some
    (show parsedTransit (fun _ => 0) unknownField = some [] by decide +kernel)
  rw [hrun] at hrun'
  cases hrun'
  rw [hempty, splitField_attrsWire _ (by decide)] at htransit
  exact absurd htransit (by decide)

end SdnQuagga
