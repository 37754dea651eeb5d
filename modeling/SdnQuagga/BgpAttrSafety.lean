import SdnQuagga.BgpAttrVerdict

/-!
# The attribute parser on arbitrary bytes

`bgp_attr_parse` on any byte string as the attribute field. The field is
cut into attributes once (`splitField`); the parser gets to the first one
it does not accept (`reached`) and, if it accepts all of them, to the
merge of the four-byte AS attributes behind the loop. It ends without a
fault exactly when no attribute it gets to is faulty and the merge finds
an AS path to merge with.
-/

namespace SdnQuagga

open FaultM SdnQuagga.Stream List RawAttr

/-! ## Cutting the field into attributes -/

/-- What an attribute header announces: flags, type and length, with the
bytes behind it. -/
def announced : List UInt8 → Option (UInt8 × UInt8 × Nat × List UInt8)
  | flags :: type :: rest =>
    if checkFlag flags attrFlagExtlen then
      match rest with
      | hi :: lo :: rest => some (flags, type, ofBE [hi, lo], rest)
      | _ => none
    else
      match rest with
      | n :: rest => some (flags, type, n.toNat, rest)
      | [] => none
  | _ => none

/-- The first attribute and the bytes behind it. -/
def nextAttr (bs : List UInt8) : Option (RawAttr × List UInt8) :=
  match announced bs with
  | some (flags, type, n, rest) =>
    if n ≤ rest.length then some (⟨flags, type, rest.take n⟩, rest.drop n)
    else none
  | none => none

theorem be16_ofBE {v : List UInt8} (h : v.length = 2) : be16 (UInt16.ofNat (ofBE v)) = v := by
  have hlt := ofBE_lt v
  have hby := toBE_ofBE v
  rw [h] at hlt hby
  rw [be16, UInt16.toNat_ofNat', Nat.mod_eq_of_lt (show ofBE v < 2 ^ 16 from hlt), hby]

variable {bs rest : List UInt8} {a : RawAttr}

theorem announced_header {value : List UInt8} {flags type : UInt8}
    (h : announced bs = some (flags, type, value.length, rest)) :
    bs = header ⟨flags, type, value⟩ ++ rest ∧ RawAttr.Fits ⟨flags, type, value⟩ := by
  unfold announced at h
  split at h
  next f t bs =>
    rw [header, lengthField, RawAttr.Fits, extlen]
    split at h
    next hx =>
      split at h
      next hi lo bs =>
        simp only [Option.some.injEq, Prod.mk.injEq] at h
        obtain ⟨rfl, rfl, hlen, rfl⟩ := h
        simp only [hx, if_true, ← hlen, be16_ofBE (v := [hi, lo]) rfl]
        exact ⟨rfl, by simpa using ofBE_lt [hi, lo]⟩
      · cases h
    next hx =>
      split at h
      next n bs =>
        simp only [Option.some.injEq, Prod.mk.injEq] at h
        obtain ⟨rfl, rfl, hlen, rfl⟩ := h
        simp only [hx, ← hlen, UInt8.ofNat_toNat]
        exact ⟨rfl, n.toNat_lt⟩
      · cases h
  · cases h

/-- The one way to announce nothing in three bytes or more. -/
theorem announced_none (h : announced bs = none)
    (hlen : 3 ≤ bs.length) : ∃ flags type b, bs = [flags, type, b]
      ∧ checkFlag flags attrFlagExtlen = true := by
  unfold announced at h
  split at h
  next flags type rest =>
    split at h
    next hx =>
      split at h
      · cases h
      next hno =>
        match rest, hlen, hno with
        | [b], _, _ => exact ⟨flags, type, b, rfl, hx⟩
        | hi :: lo :: rest, _, hno => exact absurd rfl (hno hi lo rest)
    · split at h
      · cases h
      · simp at hlen
  next hno =>
    match bs, hlen, hno with
    | flags :: type :: rest, _, hno => exact absurd rfl (hno flags type rest)

theorem nextAttr_bytes (h : nextAttr bs = some (a, rest)) : bs = a.bytes ++ rest ∧ a.Fits := by
  unfold nextAttr at h
  split at h
  next flags type n rest' hann =>
    split at h
    next hle =>
      simp only [Option.some.injEq, Prod.mk.injEq] at h
      obtain ⟨rfl, rfl⟩ := h
      have hlen : (rest'.take n).length = n := length_take_of_le hle
      rw [← hlen] at hann
      obtain ⟨hbs, hft⟩ := announced_header hann
      refine ⟨?_, hft⟩
      rwa [bytes, append_assoc, take_append_drop]
    · cases h
  · cases h

/-- The field as a list of attributes, and whether that is all of it. -/
def splitField (bs : List UInt8) : List RawAttr × Bool :=
  match _hnext : nextAttr bs with
  | some (a, rest) => (a :: (splitField rest).1, (splitField rest).2)
  | none => ([], bs.isEmpty)
termination_by bs.length
decreasing_by
  all_goals
    have hbytes := (nextAttr_bytes _hnext).1
    have := bytes_pos a
    rw [hbytes, length_append]
    omega

theorem splitField_some (h : nextAttr bs = some (a, rest)) :
    splitField bs = (a :: (splitField rest).1, (splitField rest).2) := by
  rw [splitField]
  split
  next a' rest' h' =>
    rw [h] at h'
    cases h'
    rfl
  next h' =>
    rw [h] at h'
    cases h'

theorem splitField_none (h : nextAttr bs = none) : splitField bs = ([], bs.isEmpty) := by
  rw [splitField]
  split
  next a' rest' h' =>
    rw [h] at h'
    cases h'
  · rfl

theorem announced_append (hft : a.Fits) (rest : List UInt8) :
    announced (a.header ++ rest) = some (a.flags, a.type, a.value.length, rest) := by
  rw [RawAttr.Fits] at hft
  rw [header, lengthField]
  cases hx : a.extlen with
  | false =>
    rw [hx] at hft
    have hlen : (UInt8.ofNat a.value.length).toNat = a.value.length := by
      rw [UInt8.toNat_ofNat', Nat.mod_eq_of_lt (by simpa using hft)]
    rw [extlen] at hx
    simp [announced, hx, hlen]
  | true =>
    rw [hx] at hft
    obtain ⟨hi, lo, hby⟩ := length_eq_two.mp (be16_length (UInt16.ofNat a.value.length))
    have hlen : ofBE [hi, lo] = a.value.length := by
      rw [← hby, be16, UInt16.toNat_ofNat', ofBE_toBE, Nat.mod_mod_of_dvd _ (by decide),
        Nat.mod_eq_of_lt (by simpa using hft)]
    rw [extlen] at hx
    simp [announced, hx, hby, hlen]

theorem splitField_attrsWire (as : List RawAttr) (hft : ∀ a ∈ as, a.Fits) :
    splitField (attrsWire as) = (as, true) := by
  induction as with
  | nil => exact splitField_none rfl
  | cons a as ih =>
    have hnx : nextAttr (a.bytes ++ attrsWire as) = some (a, attrsWire as) := by
      rw [nextAttr, bytes, append_assoc, announced_append (hft a mem_cons_self)]
      simp
    rw [attrsWire_cons, splitField_some hnx, ih fun b hb => hft b (mem_cons_of_mem _ hb)]

/-! ## How far the parser gets -/

/-- The attributes the parser gets to: up to the first that it does not
accept, or the first whose type it has seen. -/
def reached (peer : Peer) : List UInt8 → List RawAttr → List RawAttr
  | _, [] => []
  | seen, a :: as =>
    if a.type ∈ seen then []
    else if accepted peer a then a :: reached peer (a.type :: seen) as
    else [a]

/-- The parser gets through all of them. -/
def readsThrough (peer : Peer) : List UInt8 → List RawAttr → Bool
  | _, [] => true
  | seen, a :: as =>
    a.type ∉ seen && accepted peer a && readsThrough peer (a.type :: seen) as

variable (peer : Peer)

/-- The attributes of the four-byte AS transition in the field. -/
def fieldView (as : List RawAttr) : As4View :=
  as.foldl (As4View.add peer) .empty

/-- An AS4_PATH from a peer without four-byte AS numbers that is not
disregarded, and no AS_PATH to merge it into. -/
def missingAspath (view : As4View) : Bool :=
  !peer.capAs4Rcv && view.as4Path && !view.asPath
    && !(view.as4Aggregator && view.aggregator.any (· ≠ bgpAsTrans))

/-- The fields that `bgp_attr_parse` can be trusted with. -/
def FieldSafe (bs : List UInt8) : Prop :=
  (∀ a ∈ reached peer [] (splitField bs).1, faulty a = false)
    ∧ ((splitField bs).2 → readsThrough peer [] (splitField bs).1 →
      missingAspath peer (fieldView peer (splitField bs).1) = false)

/-- The parser returns, whatever an uninitialised variable holds. -/
def ParseSafe (input : Stream) (size : Nat) : Prop :=
  ∀ uninit, ∃ ret st, bgpAttrParse peer uninit size (.start input size) = .ok (ret, st)

/-! ## One attribute -/

section

variable {peer : Peer} {uninit : UInt8 → UInt16} {a : RawAttr}
  {args : AttrArgs} {st : ParseState}

/-- The parser is behind `n` bytes, with this view. -/
def Behind (st : ParseState) (n : Nat) (view : As4View) (st' : ParseState) :
    Prop :=
  st'.input = st.input.advance n ∧ st'.fieldEnd = st.fieldEnd ∧ ParseWf st' ∧ as4View st' = view

theorem bgpAttrFlagInvalid_eq (hty : args.type = a.type)
    (hfl : args.flags = 0xF0 &&& a.flags) (hne : a.type ≠ 19) :
    bgpAttrFlagInvalid args = pure (!flagsRight a) := by
  rw [bgpAttrFlagInvalid, flagsRight, hty, hfl]
  have hlen : attrFlagsValues.length = 19 := rfl
  have hnat : a.type.toNat ≠ 19 := fun h => hne (UInt8.toNat_inj.mp h)
  cases hge : attrFlagsValues[a.type.toNat]? with
  | none =>
    have hle := List.getElem?_eq_none_iff.mp hge
    rw [if_pos (by omega)]
    rfl
  | some desired =>
    have hlt := (List.getElem?_eq_some_iff.mp hge).1
    rw [if_neg (by omega)]
    by_cases h0 : desired = 0
    · simp [h0]
    · simp [h0]

theorem attrFetched_refused {ret : ParseRet} (hrt : ret ≠ .proceed) :
    ∃ ret' st', attrFetched args ret st = .ok (some ret', st') ∧ ret' ≠ .proceed := by
  cases ret with
  | proceed => exact absurd rfl hrt
  | error | withdraw => exact ⟨_, _, rfl, by decide⟩

/-- What happens to an attribute without a fault of its own. -/
theorem attrBody_spec (peer : Peer) (uninit : UInt8 → UInt16)
    (hat : AtValue a args st) (hwf : ParseWf st) (hflt : faulty a = false) :
    if accepted peer a then
      ∃ st', attrBody peer uninit args st = .ok (none, st')
        ∧ Behind st a.value.length ((as4View st).add peer a) st'
    else ∃ ret st', attrBody peer uninit args st = .ok (some ret, st') ∧ ret ≠ .proceed := by
  have hne : a.type ≠ 19 := by
    intro h
    simp [faulty, h] at hflt
  rw [attrBody, bgpAttrFlagInvalid_eq hat.type hat.flags hne, pure_bind,
    accepted, As4View.add, wellFormed]
  cases hfl : flagsRight a with
  | false =>
    rw [Bool.not_false, if_pos rfl, Bool.false_and, Bool.false_or]
    cases hig : ignorable peer a with
    | true =>
      rw [if_pos rfl, bind_ok (malformed_ignored _ hat hig)]
      exact ⟨_, rfl, rfl, rfl, ⟨hwf.asPath, hwf.as4Path, hwf.aggregator⟩, rfl⟩
    | false =>
      obtain ⟨ret, st', hr, hrt⟩ :=
        malformed_refuses notifyUpdateAttrFlagErr hat hig rfl rfl (le_refl args.total)
      rw [if_neg (by decide), bind_ok hr]
      cases ret with
      | proceed => exact absurd rfl hrt
      | error | withdraw => exact ⟨_, _, rfl, hrt⟩
  | true =>
    have hv : Verdict peer a (attrDispatch peer args uninit) st := verdict_dispatch hat hwf hflt
    have haccept {view}
        (h : Accepts (attrDispatch peer args uninit) st a.value.length view) :
        ∃ st', (attrDispatch peer args uninit >>= attrFetched args) st
          = .ok (none, st') ∧ Behind st a.value.length view st' := by
      obtain ⟨st', hr, hinp, hrs⟩ := h
      have hgp : st'.input.getp = args.startp + args.total := by
        rw [hinp, getp_advance hat.value, hat.endp]
      rw [bind_ok hr, attrFetched, get_bind, if_neg (not_not.mpr hgp)]
      exact ⟨st', rfl, hinp, hrs⟩
    rw [Bool.not_true, Bool.true_and]
    rw [Verdict] at hv
    cases hvl : valueOk peer a with
    | true =>
      rw [hvl, if_pos rfl] at hv
      exact haccept hv
    | false =>
      rw [hvl, if_neg (by decide)] at hv
      cases hig : ignorable peer a with
      | true =>
        rw [hig, if_pos rfl] at hv
        exact haccept hv
      | false =>
        rw [hig, if_neg (by decide)] at hv
        obtain ⟨ret, st', hr, hrt⟩ := hv
        obtain ⟨ret', st'', hfet⟩ := attrFetched_refused hrt
        refine ⟨ret', st'', (bind_ok hr).trans hfet.1, hfet.2⟩

/-- The flags of an attribute without a handler are never checked. -/
theorem flagsRight_unknown (hkn : a.type ∉ knownAttrs) : flagsRight a = true := by
  have htable : ∀ i < attrFlagsValues.length, UInt8.ofNat i ∈ knownAttrs
      ∨ attrFlagsValues[i]? = some 0 := by decide
  rw [flagsRight]
  cases hge : attrFlagsValues[a.type.toNat]? with
  | none => rfl
  | some desired =>
    have hlt := (List.getElem?_eq_some_iff.mp hge).1
    rcases htable _ hlt with hm | hz
    · rw [UInt8.ofNat_toNat] at hm
      exact absurd hm hkn
    · cases hz.symm.trans hge
      rfl

theorem attrDispatch_unknown (hkn : args.type ∉ knownAttrs) :
    attrDispatch peer args uninit = bgpAttrUnknown peer args (uninit args.type) := by
  simp only [knownAttrs, mem_cons, not_mem_nil, or_false, not_or] at hkn
  simp only [attrDispatch, hkn, if_false]

/-- The type code behind the flags table. -/
theorem attrBody_table (h19 : args.type = 19) :
    attrBody peer uninit args st = .error .outOfBounds := by
  refine bind_error ?_
  rw [bgpAttrFlagInvalid, h19]
  rfl

theorem attrBody_type_ne {r : Option ParseRet × ParseState}
    (hr : attrBody peer uninit args st = .ok r) : args.type ≠ 19 := by
  intro h19
  rw [attrBody_table h19] at hr
  cases hr

/-- A faulty attribute, with a large value in the uninitialised
variable. -/
theorem attrBody_faulty (hat : AtValue a args st) (hflt : faulty a = true)
    (hbig : st.fieldEnd < args.startp + 65535) :
    attrBody peer (fun _ => 65535) args st = .error .outOfBounds := by
  by_cases h19 : a.type = 19
  · exact attrBody_table (hat.type.trans h19)
  · have hunk : a.type ∉ knownAttrs ∧ checkFlag (0xF0 &&& a.flags) attrFlagOptional = true
        ∧ checkFlag (0xF0 &&& a.flags) attrFlagTrans = true := by
      simpa [faulty, h19, and_assoc] using hflt
    obtain ⟨hkn, hopt, htrs⟩ := hunk
    have hr := input_reads (reads_forwardGetp a.value) hat.value hat.inField
    have hcopy : ∀ st' : ParseState, st'.fieldEnd = st.fieldEnd →
        pointBytes args.startp 65535 st' = .error .outOfBounds := by
      intro st' hfd
      rw [pointBytes, if_pos (hfd ▸ hbig)]
    rw [attrBody, bgpAttrFlagInvalid_eq hat.type hat.flags h19, pure_bind,
      flagsRight_unknown hkn, Bool.not_true, if_neg (by decide)]
    refine bind_error ?_
    rw [attrDispatch_unknown (hat.type ▸ hkn), bgpAttrUnknown, hat.length,
      hat.flags, bind_ok hr, hopt, htrs]
    exact (modify_bind _ _ _).trans (bind_error (hcopy _ rfl))

end

/-! ## One turn of the loop -/

section

variable {peer : Peer} {uninit : UInt8 → UInt16} {endp : Nat}
  {seen : List UInt8} {a : RawAttr} {bs rest : List UInt8} {st : ParseState}

/-- The parser is in the field, with `bs` left of it. -/
structure AtField (endp : Nat) (bs : List UInt8) (st : ParseState) :
    Prop where
  ahead : Ahead bs st
  endp : st.input.getp + bs.length = endp

theorem AtField.endp_le (h : AtField endp bs st) : endp ≤ st.fieldEnd := h.endp ▸ h.ahead.inField

/-- The turn ends the parse. -/
def StepStops (peer : Peer) (uninit : UInt8 → UInt16) (endp : Nat)
    (seen : List UInt8) (st : ParseState) : Prop :=
  ∃ ret seen' st', attrStep peer uninit endp seen st = .ok ((some ret, seen'), st') ∧ ret ≠ .proceed

/-- The turn ends with an error in its header. -/
def HeaderStops (endp : Nat) (seen : List UInt8) (st : ParseState) : Prop :=
  ∃ seen' st', attrHeader endp seen st = .ok (.inl seen', st')

theorem HeaderStops.step (h : HeaderStops endp seen st) : StepStops peer uninit endp seen st := by
  obtain ⟨seen', st', hr⟩ := h
  rw [StepStops, attrStep_split, bind_ok hr]
  exact ⟨_, _, _, rfl, by decide⟩

theorem headerStops_header (hft : a.Fits) (h : AtField endp (a.header ++ rest) st)
    (hbad : a.type ∈ seen ∨ rest.length < a.value.length) : HeaderStops endp seen st := by
  have hh := prefix_of_append h.ahead.unread
  have hep := h.endp
  have hgp := getp_advance hh
  rw [length_append] at hep
  rw [HeaderStops, attrHeader_length hft hh (by omega) h.endp_le]
  by_cases hse : a.type ∈ seen
  · rw [if_pos hse]
    exact ⟨_, _, rfl⟩
  · have hsh := hbad.resolve_left hse
    rw [if_neg hse, get_bind, if_pos (by simp only [hgp]; omega)]
    exact ⟨_, _, rfl⟩

/-- A field that does not start with an attribute. -/
theorem headerStops_none (h : AtField endp bs st) (hnx : nextAttr bs = none)
    (hne : bs ≠ []) : HeaderStops endp seen st := by
  have hep := h.endp
  by_cases hlen : bs.length < 3
  · rw [HeaderStops, attrHeader, get_bind, if_pos (by simp only [bgpAttrMinLen]; omega)]
    exact ⟨_, _, rfl⟩
  cases hann : announced bs with
  | some val =>
    obtain ⟨flags, type, n, rest⟩ := val
    have hsh : rest.length < n := by
      rw [nextAttr, hann] at hnx
      by_contra hle
      simp only [Nat.le_of_not_lt hle, if_true] at hnx
      cases hnx
    have hvalue : (replicate n (0 : UInt8)).length = n := length_replicate
    rw [← hvalue] at hann hsh
    obtain ⟨rfl, hft⟩ := announced_header hann
    exact headerStops_header hft h (.inr hsh)
  | none =>
    obtain ⟨flags, type, b, rfl, hx⟩ := announced_none hann (by omega)
    have hfl : [flags] ++ ([type] ++ [b]) <+: st.input.unread := h.ahead.unread
    have hty := prefix_of_append (unread_advance hfl)
    have hin := h.ahead.inField
    have hgp := getp_advance (prefix_of_append hfl)
    simp only [length_cons, length_nil, Nat.zero_add] at hep hin hgp
    rw [HeaderStops, attrHeader, get_bind, if_neg (by simp only [bgpAttrMinLen]; omega),
      bind_ok (input_reads (reads_getc flags) (prefix_of_append hfl) ?_),
      bind_ok (input_reads (reads_getc type) hty ?_),
      if_pos ⟨(checkFlag_extlen_masked flags).trans hx, by simp only [bgpAttrMinLen]; omega⟩]
    · exact ⟨_, _, rfl⟩
    · simp only [length_singleton]
      omega
    · simp only [length_singleton]
      omega

theorem headerStops_seen (hft : a.Fits)
    (h : AtField endp (a.bytes ++ rest) st) (hse : a.type ∈ seen) : HeaderStops endp seen st := by
  rw [bytes, append_assoc] at h
  exact headerStops_header hft h (.inl hse)

section

variable (h : AtField endp (a.bytes ++ rest) st)
include h

theorem AtField.atValue : AtValue a (argsAt st a) (SdnQuagga.atValue st a) := by
  have hby : a.header ++ a.value <+: st.input.unread := prefix_of_append h.ahead.unread
  have hgp := getp_advance (prefix_of_append hby)
  have hin := h.ahead.left.inField
  rw [bytes, length_append] at hin
  refine ⟨rfl, rfl, rfl, ?_, unread_advance hby, ?_⟩
  · simp only [hgp, bytes, length_append]
    omega
  · simp only [hgp]
    omega

/-- Behind an attribute the parser is in the rest of the field. -/
theorem AtField.behind {view : As4View} {st' : ParseState}
    (hbh : Behind (SdnQuagga.atValue st a) a.value.length view st') : AtField endp rest st' := by
  obtain ⟨hinp, hfd, -⟩ := hbh
  have hst : st'.input = st.input.advance a.bytes.length := by
    rw [hinp, bytes, length_append]
    exact advance_advance ..
  have hgp := getp_advance h.ahead.left.unread
  have hin := h.ahead.inField
  have hep := h.endp
  rw [length_append] at hin hep
  refine ⟨⟨?_, ?_⟩, ?_⟩
  · rw [hst]
    exact unread_advance h.ahead.unread
  · simp only [hst, hfd, hgp]
    omega
  · rw [hst, hgp]
    omega

theorem AtField.attrHeader_eq (hft : a.Fits) (hse : a.type ∉ seen) :
    attrHeader endp seen st = .ok (.inr (argsAt st a), SdnQuagga.atValue st a) := by
  have hep := h.endp
  rw [length_append] at hep
  exact attrHeader_ok hft hse h.ahead.left.unread (by omega) h.endp_le

/-- The turn for an attribute that lies in the field. -/
theorem AtField.attrStep_eq (hft : a.Fits) (hse : a.type ∉ seen) :
    attrStep peer uninit endp seen st = (do
          let ret ← attrBody peer uninit (argsAt st a)
          return (ret, a.type :: seen)) (SdnQuagga.atValue st a) := by
  rw [attrStep_split, bind_ok (h.attrHeader_eq hft hse)]

end

theorem attrStep_accepted (uninit : UInt8 → UInt16) (h : AtField endp (a.bytes ++ rest) st)
    (hwf : ParseWf st) (hft : a.Fits) (hse : a.type ∉ seen)
    (hflt : faulty a = false) (hac : accepted peer a = true) :
    ∃ st', attrStep peer uninit endp seen st = .ok ((none, a.type :: seen), st')
      ∧ AtField endp rest st' ∧ ParseWf st' ∧ st'.fieldEnd = st.fieldEnd
      ∧ as4View st' = (as4View st).add peer a := by
  have hbd := attrBody_spec peer uninit h.atValue ⟨hwf.asPath, hwf.as4Path, hwf.aggregator⟩ hflt
  rw [if_pos hac] at hbd
  obtain ⟨st', hr, hbh⟩ := hbd
  rw [h.attrStep_eq hft hse, bind_ok hr]
  exact ⟨st', rfl, h.behind hbh, hbh.2.2.1, hbh.2.1, hbh.2.2.2⟩

theorem stepStops_refused (h : AtField endp (a.bytes ++ rest) st)
    (hwf : ParseWf st) (hft : a.Fits) (hse : a.type ∉ seen)
    (hflt : faulty a = false) (hac : accepted peer a = false) :
    StepStops peer uninit endp seen st := by
  have hbd := attrBody_spec peer uninit h.atValue ⟨hwf.asPath, hwf.as4Path, hwf.aggregator⟩ hflt
  rw [hac, if_neg (by decide)] at hbd
  obtain ⟨ret, st', hr, hrt⟩ := hbd
  rw [StepStops, h.attrStep_eq hft hse, bind_ok hr]
  exact ⟨ret, _, st', rfl, hrt⟩

/-! ## The loop -/

variable {bound : Nat}

theorem AtField.not_lt (h : AtField endp [] st) : ¬ st.input.getp < endp := by
  have hep := h.endp
  rw [length_nil] at hep
  omega

section

variable (h : AtField endp bs st)
include h

theorem AtField.getp_lt (hne : bs ≠ []) : st.input.getp < endp := by
  have hep := h.endp
  have hp := length_pos_iff.mpr hne
  omega

theorem attrLoop_stops (hne : bs ≠ []) (hst : StepStops peer uninit endp seen st) :
    ∃ ret st', attrLoop peer uninit endp (bound + 1) seen st = .ok (ret, st') ∧ ret ≠ .proceed := by
  obtain ⟨ret, seen', st', hr, hrt⟩ := hst
  rw [attrLoop, get_bind, if_pos (h.getp_lt hne), bind_ok hr]
  exact ⟨ret, st', rfl, hrt⟩

theorem attrLoop_error {e : Fault} (hne : bs ≠ [])
    (hst : attrStep peer uninit endp seen st = .error e) :
    attrLoop peer uninit endp (bound + 1) seen st = .error e := by
  rw [attrLoop, get_bind, if_pos (h.getp_lt hne)]
  exact bind_error hst

end

end

/-- The loop gets through the field. -/
def LoopReads (peer : Peer) (as : List RawAttr) (endp : Nat) (st : ParseState)
    (res : Except Fault (ParseRet × ParseState)) : Prop :=
  ∃ st', res = .ok (.proceed, st') ∧ st'.input.getp = endp ∧ ParseWf st'
    ∧ as4View st' = as.foldl (As4View.add peer) (as4View st)

variable {peer : Peer} {endp : Nat} {st : ParseState}

/-- The loop from any point of the field, without a faulty attribute
ahead. -/
theorem attrLoop_spec (uninit : UInt8 → UInt16)
    (bound : Nat) : ∀ {bs seen st},
    bs.length ≤ bound → AtField endp bs st → ParseWf st →
    (∀ a ∈ reached peer seen (splitField bs).1, faulty a = false) →
    if (splitField bs).2 && readsThrough peer seen (splitField bs).1 then
      LoopReads peer (splitField bs).1 endp st (attrLoop peer uninit endp bound seen st)
    else ∃ ret st', attrLoop peer uninit endp bound seen st = .ok (ret, st') ∧ ret ≠ .proceed := by
  induction bound with
  | zero =>
    intro bs seen st hlen h hwf _
    obtain rfl := length_eq_zero_iff.mp (Nat.le_zero.mp hlen)
    rw [splitField_none rfl]
    exact ⟨st, attrLoop_done h.not_lt, h.endp, hwf, rfl⟩
  | succ bound ih =>
    intro bs seen st hlen h hwf hflt
    by_cases hne : bs = []
    · subst hne
      rw [splitField_none rfl]
      exact ⟨st, attrLoop_done h.not_lt, h.endp, hwf, rfl⟩
    cases hnx : nextAttr bs with
    | none =>
      rw [splitField_none hnx, isEmpty_eq_false_iff.mpr hne]
      exact attrLoop_stops h hne (headerStops_none h hnx hne).step
    | some next =>
      obtain ⟨a, rest⟩ := next
      obtain ⟨rfl, hft⟩ := nextAttr_bytes hnx
      rw [splitField_some hnx] at hflt ⊢
      by_cases hse : a.type ∈ seen
      · rw [if_neg (by simp [readsThrough, hse])]
        exact attrLoop_stops h hne (headerStops_seen hft h hse).step
      simp only [reached, if_neg hse] at hflt
      cases hac : accepted peer a with
      | false =>
        rw [hac, if_neg (by decide)] at hflt
        rw [if_neg (by simp [readsThrough, hac])]
        exact attrLoop_stops h hne (stepStops_refused h hwf hft hse
          (hflt a (mem_singleton_self a)) hac)
      | true =>
        rw [hac, if_pos rfl] at hflt
        obtain ⟨st', hr, h', hwf', -, hvw⟩ :=
          attrStep_accepted uninit h hwf hft hse (hflt a mem_cons_self) hac
        have hp := bytes_pos a
        rw [length_append] at hlen
        have hrs := ih (by omega) h' hwf' fun b hb =>
          hflt b (mem_cons_of_mem _ hb)
        rw [attrLoop_step (h.getp_lt hne) hr]
        simpa [readsThrough, hse, hac, LoopReads, hvw] using hrs

/-- The loop with a faulty attribute ahead. -/
theorem attrLoop_faulty (bound : Nat) :
    ∀ {bs seen st}, bs.length ≤ bound →
    AtField endp bs st → ParseWf st → st.fieldEnd < st.input.getp + 65535 →
    (∃ a ∈ reached peer seen (splitField bs).1, faulty a = true) →
    attrLoop peer (fun _ => 65535) endp bound seen st = .error .outOfBounds := by
  induction bound with
  | zero =>
    intro bs seen st hlen _ _ _ hflt
    obtain rfl := length_eq_zero_iff.mp (Nat.le_zero.mp hlen)
    obtain ⟨a, hm, -⟩ := hflt
    rw [splitField_none rfl] at hm
    cases hm
  | succ bound ih =>
    intro bs seen st hlen h hwf hbig hflt
    obtain ⟨b, hm, hb⟩ := hflt
    cases hnx : nextAttr bs with
    | none =>
      rw [splitField_none hnx] at hm
      cases hm
    | some next =>
      obtain ⟨a, rest⟩ := next
      obtain ⟨rfl, hft⟩ := nextAttr_bytes hnx
      have hp := bytes_pos a
      have hne : a.bytes ++ rest ≠ [] := by
        intro heq
        rw [(append_eq_nil_iff.mp heq).1] at hp
        cases hp
      rw [splitField_some hnx] at hm
      by_cases hse : a.type ∈ seen
      · simp [reached, hse] at hm
      cases hfa : faulty a with
      | true =>
        refine attrLoop_error h hne ?_
        rw [h.attrStep_eq hft hse]
        exact bind_error (attrBody_faulty h.atValue hfa hbig)
      | false =>
        have hac : accepted peer a = true
            ∧ b ∈ reached peer (a.type :: seen) (splitField rest).1 := by
          simp only [reached, if_neg hse] at hm
          split at hm
          next hac =>
            refine ⟨hac, (mem_cons.mp hm).resolve_left ?_⟩
            rintro rfl
            rw [hb] at hfa
            cases hfa
          · rw [mem_singleton.mp hm, hfa] at hb
            cases hb
        obtain ⟨st', hr, h', hwf', hfd, -⟩ :=
          attrStep_accepted (fun _ => 65535) h hwf hft hse hfa hac.1
        have hep := h.endp
        have hep' := h'.endp
        rw [length_append] at hlen hep
        rw [attrLoop_step (h.getp_lt hne) hr]
        exact ih (by omega) h' hwf' (by omega) ⟨b, hac.2, hb⟩

/-! ## Behind the loop -/

theorem mungeAggregator_ok (hwf : ParseWf st) :
    ∃ st', mungeAggregator st = .ok ((as4View st).as4Aggregator
          && (as4View st).aggregator.any (· ≠ bgpAsTrans), st')
      ∧ st'.attr.aspath = st.attr.aspath ∧ st'.as4Path = st.as4Path
      ∧ st'.attr.flag.as4Path = st.attr.flag.as4Path
      ∧ st'.attr.flag.asPath = st.attr.flag.asPath := by
  rw [mungeAggregator, get_bind, as4View]
  cases has4 : st.attr.flag.as4Aggregator with
  | false => exact ⟨st, rfl, rfl, rfl, rfl, rfl⟩
  | true =>
    cases hagg : st.attr.flag.aggregator with
    | false => exact ⟨_, rfl, rfl, rfl, rfl, rfl⟩
    | true =>
      obtain ⟨attre, hextra⟩ := Option.isSome_iff_exists.mp (hwf.aggregator hagg)
      have hge : st.attr.extraGet.aggregatorAs = attre.aggregatorAs := by
        rw [Attr.extraGet, hextra]
        rfl
      simp only [hextra, hge, if_true]
      by_cases htrs : attre.aggregatorAs = bgpAsTrans
      · rw [if_neg (not_not.mpr htrs), Option.any_some,
          decide_eq_false (not_not.mpr htrs), Bool.and_false]
        exact ⟨_, rfl, rfl, rfl, rfl, rfl⟩
      · rw [if_pos htrs, Option.any_some, decide_eq_true htrs]
        exact ⟨st, rfl, rfl, rfl, rfl, rfl⟩

theorem bgpAttrMungeAs4Attrs_spec (peer : Peer) (hwf : ParseWf st) :
    if missingAspath peer (as4View st) then
      bgpAttrMungeAs4Attrs peer st = .error .nullDeref
    else ∃ st', bgpAttrMungeAs4Attrs peer st = .ok ((), st')
      ∧ (st'.attr.flag.asPath → st'.attr.aspath.isSome) := by
  unfold bgpAttrMungeAs4Attrs missingAspath
  cases peer.capAs4Rcv with
  | true => exact ⟨st, rfl, hwf.asPath⟩
  | false =>
    obtain ⟨st', hr, hap, has4, hfg, hasFlag⟩ := mungeAggregator_ok hwf
    simp only [Bool.false_eq_true, if_false]
    rw [bind_ok hr, get_bind, hfg, has4, hap]
    cases hign : (as4View st).as4Aggregator && (as4View st).aggregator.any (· ≠ bgpAsTrans) with
    | true =>
      rw [if_neg (by simp), if_neg (by simp)]
      exact ⟨st', rfl, by rw [hasFlag, hap]; exact hwf.asPath⟩
    | false =>
      cases hpt : st.attr.flag.as4Path with
      | false =>
        rw [if_neg (by simp [as4View, hpt]), if_neg (by simp)]
        exact ⟨st', rfl, by rw [hasFlag, hap]; exact hwf.asPath⟩
      | true =>
        obtain ⟨as4Path, hso⟩ := Option.isSome_iff_exists.mp (hwf.as4Path hpt)
        rw [if_pos (c := (!false && true) = true) rfl, hso]
        cases has : st.attr.aspath with
        | none =>
          rw [if_pos (by simp [as4View, hpt, has])]
          rfl
        | some aspath =>
          rw [if_neg (by simp [as4View, has])]
          exact ⟨_, rfl, fun _ => rfl⟩

theorem bgpAttrAspathCheck_ok (h : st.attr.aspath.isSome) :
    ∃ ret st', bgpAttrAspathCheck peer st = .ok (ret, st') := by
  obtain ⟨aspath, hso⟩ := Option.isSome_iff_exists.mp h
  rw [bgpAttrAspathCheck, get_bind, hso, derefParse, pure_bind]
  split
  · exact ⟨_, _, rfl⟩
  · split
    · exact ⟨_, _, rfl⟩
    · rw [whenever]
      split
      · exact ⟨_, _, rfl⟩
      · exact ⟨_, _, rfl⟩

theorem attrFinish_spec (peer : Peer) (hwf : ParseWf st) (hep : st.input.getp = endp) :
    if missingAspath peer (as4View st) then
      attrFinish peer endp st = .error .nullDeref
    else ∃ ret st', attrFinish peer endp st = .ok (ret, st') := by
  have hmun := bgpAttrMungeAs4Attrs_spec peer hwf
  rw [attrFinish, get_bind, if_neg (not_not.mpr hep)]
  cases hms : missingAspath peer (as4View st) with
  | true =>
    rw [hms, if_pos rfl] at hmun
    exact bind_error hmun
  | false =>
    rw [hms, if_neg (by decide)] at hmun
    obtain ⟨st', hr, hap⟩ := hmun
    rw [if_neg (by decide), bind_ok hr, get_bind]
    split
    next hfg => exact bgpAttrAspathCheck_ok (hap hfg)
    · exact ⟨_, _, rfl⟩

/-! ## The whole parser -/

section

variable {peer : Peer} {input : Stream} {bs : List UInt8}

theorem atField_start (h : bs <+: input.unread) :
    AtField (input.getp + bs.length) bs (.start input bs.length) :=
  ⟨⟨h, le_rfl⟩, rfl⟩

theorem parseWf_start (size : Nat) : ParseWf (.start input size) :=
  ⟨fun h => absurd h Bool.false_ne_true, fun h => absurd h Bool.false_ne_true,
    fun h => absurd h Bool.false_ne_true⟩

theorem parse_faulty (h : bs <+: input.unread) (hsize : bs.length ≤ 4096)
    (hflt : ∃ a ∈ reached peer [] (splitField bs).1, faulty a = true) :
    bgpAttrParse peer (fun _ => 65535) bs.length (.start input bs.length)
      = .error .outOfBounds := by
  rw [bgpAttrParse, get_bind]
  refine bind_error (attrLoop_faulty bs.length le_rfl (atField_start h) (parseWf_start _) ?_ hflt)
  simp only [ParseState.start]
  omega

/-- The parser on a field whose attributes are not faulty. -/
theorem parse_spec (uninit : UInt8 → UInt16) (h : bs <+: input.unread)
    (hflt : ∀ a ∈ reached peer [] (splitField bs).1, faulty a = false) :
    if (splitField bs).2 && readsThrough peer [] (splitField bs).1
        && missingAspath peer (fieldView peer (splitField bs).1) then
      bgpAttrParse peer uninit bs.length (.start input bs.length) = .error .nullDeref
    else ∃ ret st, bgpAttrParse peer uninit bs.length (.start input bs.length) = .ok (ret, st) := by
  have hlp := attrLoop_spec uninit bs.length le_rfl (atField_start h) (parseWf_start _) hflt
  rw [bgpAttrParse, get_bind]
  cases hrd : (splitField bs).2 && readsThrough peer [] (splitField bs).1 with
  | false =>
    rw [hrd, if_neg (by decide)] at hlp
    obtain ⟨ret, st, hr, hrt⟩ := hlp
    rw [Bool.false_and, if_neg (by decide)]
    rw [show (ParseState.start input bs.length).input.getp = input.getp
      from rfl, bind_ok hr]
    cases ret with
    | proceed => exact absurd rfl hrt
    | error | withdraw => exact ⟨_, _, rfl⟩
  | true =>
    rw [hrd, if_pos rfl] at hlp
    obtain ⟨st, hr, hep, hwf, hvw⟩ := hlp
    have hfin := attrFinish_spec peer hwf hep
    have hemp : as4View (.start input bs.length) = .empty := rfl
    rw [hvw, hemp] at hfin
    rwa [Bool.true_and, show (ParseState.start input bs.length).input.getp = input.getp
      from rfl, bind_ok hr]

/-- On every attribute field of an UPDATE the parser returns, without a
fault, exactly if the field is one of the safe ones. -/
theorem attr_parse_safe_iff (peer : Peer) (input : Stream) (bs : List UInt8)
    (h : bs <+: input.unread) (hsize : bs.length ≤ 4096) :
    ParseSafe peer input bs.length ↔ FieldSafe peer bs := by
  constructor
  · intro hsafe
    have hfaulty : ∀ a ∈ reached peer [] (splitField bs).1, faulty a = false := by
      intro a hmem
      by_contra hfa
      obtain ⟨ret, st, hrun⟩ := hsafe fun _ => 65535
      rw [parse_faulty h hsize ⟨a, hmem, Bool.eq_true_of_not_eq_false hfa⟩] at hrun
      cases hrun
    refine ⟨hfaulty, fun hall hread => ?_⟩
    obtain ⟨ret, st, hrun⟩ := hsafe fun _ => 0
    have hspec := parse_spec (fun _ => 0) h hfaulty
    rw [hall, hread, Bool.true_and, Bool.true_and] at hspec
    by_contra hmissing
    rw [if_pos (Bool.eq_true_of_not_eq_false hmissing), hrun] at hspec
    cases hspec
  · rintro ⟨hfaulty, hmissing⟩ uninit
    have hspec := parse_spec uninit h hfaulty
    rwa [if_neg] at hspec
    intro hbad
    simp only [Bool.and_eq_true] at hbad
    rw [hmissing hbad.1.1 hbad.1.2] at hbad
    exact absurd hbad.2 (by decide)

end

/-- An eBGP peer without four-byte AS numbers. -/
def oldPeer : Peer where
  bgp := ⟨false, false, false, 0, [], 0, 0x0a000001⟩
  as := 65002
  localAs := 65001
  changeLocalAs := 0
  localAsNoPrepend := false
  capAs4Rcv := false
  afFlags := fun _ _ => ⟨true, true, false, false⟩
  remoteId := 0x0a000002
  nexthopV4 := 0x0a000001

/-- An AS path of one two-byte AS number, and its AS4_PATH. -/
def oldAspath : RawAttr := ⟨attrFlagTrans, attrAsPath, [2, 1, 0xFD, 0xEA]⟩

def oldAs4Path : RawAttr :=
  ⟨attrFlagOptional ||| attrFlagTrans, attrAs4Path, [2, 1, 0, 0, 0xFD, 0xEA]⟩

theorem attr_parse_safe_merge :
    ParseSafe oldPeer (.ofBytes (attrsWire [oldAspath, oldAs4Path]))
      (attrsWire [oldAspath, oldAs4Path]).length := by
  refine (attr_parse_safe_iff oldPeer _ _ ?_ (by decide)).mpr ?_
  · exact (ofBytes_unread _).symm ▸ prefix_rfl
  · rw [FieldSafe, splitField_attrsWire _ (by decide)]
    exact ⟨by decide +kernel, fun _ _ => by decide +kernel⟩

/-- The three ways to a fault: the type code behind the flags table, an
unknown attribute to pass on, and an AS4_PATH alone. -/
theorem attr_parse_not_safe :
    ¬ ParseSafe oldPeer (.ofBytes [0xC0, 19, 0]) 3 ∧ ¬ ParseSafe oldPeer (.ofBytes [0xC0, 20, 0]) 3
      ∧ ¬ ParseSafe oldPeer (.ofBytes oldAs4Path.bytes)
        oldAs4Path.bytes.length := by
  refine ⟨fun hsafe => ?_, fun hsafe => ?_, fun hsafe => ?_⟩
  · obtain ⟨ret, st, hrun⟩ := hsafe fun _ => 0
    cases hrun.symm.trans (show _ = .error .outOfBounds from rfl)
  · obtain ⟨ret, st, hrun⟩ := hsafe fun _ => 65535
    cases hrun.symm.trans (show _ = .error .outOfBounds from rfl)
  · obtain ⟨ret, st, hrun⟩ := hsafe fun _ => 0
    have hfault : (bgpAttrParse oldPeer (fun _ => 0) oldAs4Path.bytes.length
        (.start (.ofBytes oldAs4Path.bytes) oldAs4Path.bytes.length)).isOk
        = false := by decide +kernel
    rw [hrun] at hfault
    cases hfault

end SdnQuagga
