import SdnQuagga.BgpAttrRead

/-!
# Which attributes the parser accepts

For one attribute with any value: `wellFormed` says on the bytes alone
whether the flags and the value are as the type code wants them, and
`accepted` adds the three attributes whose errors an eBGP session
ignores. The verdict lemmas, one for each handler, say that the handler
ends without a fault, goes on exactly with accepted attributes, and then
stands at the end of the attribute. The exceptions are the attributes
with a fault of their own, `faulty`.
-/

namespace SdnQuagga

open FaultM SdnQuagga.Stream List

/-! ## Acceptance -/

/-- Segments of `width` bytes an ASN, as `assegments_parse` takes them. -/
def segsOk (width : Nat) (bs : List UInt8) : Bool :=
  match bs with
  | [] => true
  | type :: n :: rest =>
    if (SegType.ofCode type).isSome ∧ n ≠ 0 ∧ n.toNat * width ≤ rest.length then
      segsOk width (rest.drop (n.toNat * width))
    else false
  | [_] => false
termination_by bs.length
decreasing_by
  rw [length_drop, length_cons, length_cons]
  omega

variable (use32bit : Bool)

def asnWidth : Nat := if use32bit then 4 else 2

variable (value : List UInt8)

def aspathOk : Bool :=
  value.length % 2 = 0 && segsOk (asnWidth use32bit) value

/-- The NLRI of the multiprotocol attributes; not looked at for labeled
VPN routes. -/
def nlriOk (afi : UInt16) (safi : UInt8) (nlri : List UInt8) : Bool :=
  safi = safiMplsLabeledVpn || nlriSanityCheck afi nlri

def mpNexthopLens : List UInt8 := [4, 12, 16, 32]

def mpReachOk : List UInt8 → Bool
  | a :: b :: safi :: nexthopLen :: rest =>
    nexthopLen ∈ mpNexthopLens && nexthopLen.toNat + 1 < rest.length
      && nlriOk (UInt16.ofNat (ofBE [a, b])) safi (rest.drop (nexthopLen.toNat + 1))
  | _ => false

def mpUnreachOk : List UInt8 → Bool
  | a :: b :: safi :: nlri => nlriOk (UInt16.ofNat (ofBE [a, b])) safi nlri
  | _ => false

def addrOf : UInt32 := UInt32.ofNat (ofBE value)

/-- The AS number at the start of an AGGREGATOR value. -/
def aggregatorAsOf : UInt32 :=
  if use32bit then addrOf (value.take 4)
  else (UInt16.ofNat (ofBE (value.take 2))).toUInt32

variable (peer : Peer) (a : RawAttr)

/-- Whether the handler for the type takes the value. -/
def valueOk : Bool :=
  let n := a.value.length
  if a.type = attrOrigin then n = 1 && ofBE a.value ≤ 2
  else if a.type = attrAsPath then aspathOk peer.capAs4Rcv a.value
  else if a.type = attrAs4Path then aspathOk true a.value
  else if a.type = attrNextHop then
    n = 4 && !martianNexthop (addrOf a.value)
  else if a.type = attrMultiExitDisc then n = 4
  else if a.type = attrLocalPref then n = 4
  else if a.type = attrAtomicAggregate then n = 0
  else if a.type = attrAggregator then n = if peer.capAs4Rcv then 8 else 6
  else if a.type = attrAs4Aggregator then n = 8
  else if a.type = attrCommunities then n % 4 = 0
  else if a.type = attrOriginatorId then n = 4
  else if a.type = attrClusterList then n % 4 = 0
  else if a.type = attrMpReachNlri then mpReachOk a.value
  else if a.type = attrMpUnreachNlri then mpUnreachOk a.value
  else if a.type = attrExtCommunities then n % 8 = 0
  else checkFlag (0xF0 &&& a.flags) attrFlagOptional

def flagsRight : Bool :=
  match attrFlagsValues[a.type.toNat]? with
  | none => true
  | some desired => desired = 0 || !flagsConflict (0xF0 &&& a.flags) desired

def wellFormed : Bool :=
  flagsRight a && valueOk peer a

/-- An error in this attribute is skipped. -/
def ignorable : Bool :=
  peerSort peer = .ebgp && a.type ∈ ignorableAttrs

def accepted : Bool :=
  wellFormed peer a || ignorable peer a

/-- The type code one past the flags table, and the unknown attributes
that have to be passed on. -/
def faulty : Bool :=
  a.type = 19 || (a.type ∉ knownAttrs && checkFlag (0xF0 &&& a.flags) attrFlagOptional
    && checkFlag (0xF0 &&& a.flags) attrFlagTrans)

/-! ## What the last step of the parser looks at -/

/-- Which attributes of the four-byte AS transition are there. -/
structure As4View where
  asPath : Bool
  as4Path : Bool
  aggregator : Option UInt32
  as4Aggregator : Bool
deriving DecidableEq, Repr

def As4View.empty : As4View := ⟨false, false, none, false⟩

/-- One more attribute, taken by its handler. -/
def As4View.take (view : As4View) (a : RawAttr) : As4View :=
  if a.type = attrAsPath then { view with asPath := true }
  else if a.type = attrAs4Path then { view with as4Path := true }
  else if a.type = attrAggregator then { view with
    aggregator := some (aggregatorAsOf peer.capAs4Rcv a.value) }
  else if a.type = attrAs4Aggregator then { view with as4Aggregator := true }
  else view

/-- One more accepted attribute. -/
def As4View.add (view : As4View) (a : RawAttr) : As4View :=
  if wellFormed peer a then view.take peer a else view

def as4View (st : ParseState) : As4View where
  asPath := st.attr.aspath.isSome
  as4Path := st.attr.flag.as4Path
  aggregator := if st.attr.flag.aggregator then
    some st.attr.extraGet.aggregatorAs else none
  as4Aggregator := st.attr.flag.as4Aggregator

/-- The flags are set for what is there. -/
structure ParseWf (st : ParseState) : Prop where
  asPath : st.attr.flag.asPath → st.attr.aspath.isSome
  as4Path : st.attr.flag.as4Path → st.as4Path.isSome
  aggregator : st.attr.flag.aggregator → st.attr.extra.isSome

/-! ## Verdicts -/

/-- The parser stands at the value of `a`, which lies in the field. -/
structure AtValue (a : RawAttr) (args : AttrArgs) (st : ParseState) :
    Prop where
  type : args.type = a.type
  flags : args.flags = 0xF0 &&& a.flags
  length : args.length = a.value.length
  endp : args.startp + args.total = st.input.getp + a.value.length
  value : a.value <+: st.input.unread
  inField : st.input.getp + a.value.length ≤ st.fieldEnd

variable (m : ParseM ParseRet) (st : ParseState) {use32bit : Bool} {v : List UInt8} {c : Prop}

/-- The run goes on behind `n` bytes. -/
def Accepts (n : Nat) (view : As4View) : Prop :=
  ∃ st', m st = .ok (.proceed, st') ∧ st'.input = st.input.advance n
    ∧ st'.fieldEnd = st.fieldEnd ∧ ParseWf st' ∧ as4View st' = view

/-- The run ends the parse. -/
def Refuses : Prop :=
  ∃ ret st', m st = .ok (ret, st') ∧ ret ≠ .proceed

/-- What a handler does with `a`. -/
def Verdict : Prop :=
  if valueOk peer a then
    Accepts m st a.value.length ((as4View st).take peer a)
  else if ignorable peer a then Accepts m st a.value.length (as4View st)
  else Refuses m st

theorem AtValue.le_endp {a : RawAttr} {args : AttrArgs} {st : ParseState} (h : AtValue a args st) :
    st.input.getp + a.value.length ≤ st.input.endp := by
  have hlen := h.value.length_le
  rw [unread_length, readable] at hlen
  have := st.input.getp_le_endp
  omega

section

variable {peer : Peer} {a : RawAttr} {args : AttrArgs} {st st' : ParseState}
  (subcode : UInt8) {n : Nat}

theorem malformed_ignored (hat : AtValue a args st) (hig : ignorable peer a = true) :
    bgpAttrMalformed peer args subcode n st = .ok (.proceed, { st with
      input := st.input.advance a.value.length }) := by
  simp only [ignorable, Bool.and_eq_true, decide_eq_true_eq] at hig
  obtain ⟨hsor, hty⟩ := hig
  have hs := setGetp_advance hat.endp (hat.endp ▸ hat.le_endp)
  have hgp := advance_getp (s := st.input) (n := a.value.length)
    (by have := hat.value.length_le; rwa [unread_length] at this)
  have hinp : input (setGetp (args.startp + args.total)) st
      = .ok ((), { st with input := st.input.advance a.value.length }) := by
    rw [input, hs]
    exact if_neg (Nat.not_lt_of_le (hgp ▸ hat.inField))
  rw [bgpAttrMalformed, if_neg (not_not.mpr hsor), bind_ok hinp, if_pos (hat.type ▸ hty)]
  rfl

theorem notifyAttr_ok (he : args.startp + args.total ≤ st.fieldEnd) (hn : n ≤ args.total) :
    ∃ st', notifyAttr args subcode n st = .ok ((), st') := by
  rw [notifyAttr]
  split
  · have hpoint : pointBytes args.startp n st = .ok ((st.input.data.drop args.startp).take n, st) :=
      if_neg (by omega)
    rw [bind_ok hpoint]
    exact ⟨_, rfl⟩
  · exact ⟨_, rfl⟩

/-- Any other error ends the parse, wherever in the attribute. -/
theorem malformed_refuses (hat : AtValue a args st)
    (hig : ignorable peer a = false) (hfd : st'.fieldEnd = st.fieldEnd)
    (hep : st'.input.endp = st.input.endp) (hn : n ≤ args.total) :
    Refuses (bgpAttrMalformed peer args subcode n) st' := by
  have hin : args.startp + args.total ≤ st'.fieldEnd := by
    rw [hfd, hat.endp]
    exact hat.inField
  have hle : args.startp + args.total ≤ st'.input.endp := by
    rw [hep, hat.endp]
    exact hat.le_endp
  rw [bgpAttrMalformed]
  by_cases hsor : peerSort peer = .ebgp
  · have hty : args.type ∉ ignorableAttrs := by simpa [ignorable, hsor, hat.type] using hig
    obtain ⟨st1, hst1, hfd1⟩ : ∃ st1, input (setGetp (args.startp + args.total)) st' = .ok ((), st1)
          ∧ st1.fieldEnd = st'.fieldEnd := by
      rw [input, setGetp, dif_pos hle]
      exact ⟨_, if_neg (Nat.not_lt_of_le hin), rfl⟩
    rw [if_neg (not_not.mpr hsor)]
    rw [Refuses, bind_ok hst1, if_neg hty]
    split
    · obtain ⟨st2, hst2⟩ := notifyAttr_ok subcode (hfd1 ▸ hin) hn
      rw [bind_ok hst2]
      exact ⟨_, _, rfl, by decide⟩
    · split
      · exact ⟨_, _, rfl, by decide⟩
      · exact ⟨_, _, rfl, by decide⟩
  · obtain ⟨st1, hst1⟩ := notifyAttr_ok subcode hin hn
    rw [if_pos hsor, Refuses, bind_ok hst1]
    exact ⟨_, _, rfl, by decide⟩

theorem verdict_malformed (hat : AtValue a args st) (hwf : ParseWf st)
    (hb : valueOk peer a = false) (hn : n ≤ args.total) :
    Verdict peer a (bgpAttrMalformed peer args subcode n) st := by
  rw [Verdict, if_neg (by simp [hb])]
  cases hig : ignorable peer a with
  | true =>
    exact ⟨_, malformed_ignored subcode hat hig, rfl, rfl,
      ⟨hwf.asPath, hwf.as4Path, hwf.aggregator⟩, rfl⟩
  | false => exact malformed_refuses subcode hat hig rfl rfl hn

end

/-! ## Runs that keep the view -/

/-- `st'` is `n` bytes behind `st`, with the same view. -/
structure Untouched (n : Nat) (st st' : ParseState) : Prop where
  input : st'.input = st.input.advance n
  fieldEnd : st'.fieldEnd = st.fieldEnd
  as4Path : st'.as4Path = st.as4Path
  aspath : st'.attr.aspath = st.attr.aspath
  extra : st.attr.extra.isSome → st'.attr.extra.isSome
  aggregatorAs : st'.attr.extraGet.aggregatorAs = st.attr.extraGet.aggregatorAs
  asPathFlag : st'.attr.flag.asPath = st.attr.flag.asPath
  as4PathFlag : st'.attr.flag.as4Path = st.attr.flag.as4Path
  aggregatorFlag : st'.attr.flag.aggregator = st.attr.flag.aggregator
  as4AggregatorFlag : st'.attr.flag.as4Aggregator = st.attr.flag.as4Aggregator

/-- `m` takes `n` bytes, leaves the view alone, and returns `b`. -/
def Walks {α : Type} (m : ParseM α) (st : ParseState) (n : Nat) (b : α) :
    Prop :=
  ∃ st', m st = .ok (b, st') ∧ Untouched n st st'

/-- The run takes all of the bytes ahead, or ends the parse. -/
def Decides (m : ParseM ParseRet) (st : ParseState) (n : Nat) (ok : Bool) :
    Prop :=
  if ok then Walks m st n .proceed else Refuses m st

/-- Bytes of the field that lie ahead. -/
structure Ahead (bs : List UInt8) (st : ParseState) : Prop where
  unread : bs <+: st.input.unread
  inField : st.input.getp + bs.length ≤ st.fieldEnd

section

variable {α β : Type} {st st' : ParseState} {a : α} {b : β} {m : ParseM α}
  {xs ys bs : List UInt8} {k l n : Nat} {ok : Bool}

theorem Untouched.trans {st1 st2 : ParseState} (h : Untouched k st st1) (h' : Untouched l st1 st2) :
    Untouched (k + l) st st2 where
  input := by rw [h'.input, h.input, advance_advance]
  fieldEnd := h'.fieldEnd.trans h.fieldEnd
  as4Path := h'.as4Path.trans h.as4Path
  aspath := h'.aspath.trans h.aspath
  extra := fun hso => h'.extra (h.extra hso)
  aggregatorAs := h'.aggregatorAs.trans h.aggregatorAs
  asPathFlag := h'.asPathFlag.trans h.asPathFlag
  as4PathFlag := h'.as4PathFlag.trans h.as4PathFlag
  aggregatorFlag := h'.aggregatorFlag.trans h.aggregatorFlag
  as4AggregatorFlag := h'.as4AggregatorFlag.trans h.as4AggregatorFlag

theorem accepts_walks {m : ParseM ParseRet} (hwf : ParseWf st)
    (h : Walks m st n .proceed) : Accepts m st n (as4View st) := by
  obtain ⟨st', hrn, hu⟩ := h
  refine ⟨st', hrn, hu.input, hu.fieldEnd, ⟨?_, ?_, ?_⟩, ?_⟩
  · rw [hu.asPathFlag, hu.aspath]
    exact hwf.asPath
  · rw [hu.as4PathFlag, hu.as4Path]
    exact hwf.as4Path
  · rw [hu.aggregatorFlag]
    exact fun h => hu.extra (hwf.aggregator h)
  · rw [as4View, hu.aspath, hu.as4PathFlag, hu.aggregatorFlag,
      hu.as4AggregatorFlag, hu.aggregatorAs]
    rfl

theorem Walks.pure (a : α) : Walks (pure a : ParseM α) st 0 a :=
  ⟨st, rfl, (advance_zero _).symm, rfl, rfl, rfl, id, rfl, rfl, rfl, rfl, rfl⟩

theorem Walks.get {f : ParseState → ParseM β}
    (h : Walks (f st) st n b) : Walks (get >>= f) st n b := h

variable {f : α → ParseM β}

theorem Walks.bind (hm : Walks m st k a) (hf : ∀ st', Untouched k st st' → Walks (f a) st' l b) :
    Walks (m >>= f) st (k + l) b := by
  obtain ⟨st1, hrn, hu⟩ := hm
  obtain ⟨st2, hr', hu'⟩ := hf st1 hu
  exact ⟨st2, (bind_ok hrn).trans hr', hu.trans hu'⟩

/-- Nothing is read after `m`. -/
theorem Walks.last (hm : Walks m st k a) (hf : ∀ st', Untouched k st st' → Walks (f a) st' 0 b) :
    Walks (m >>= f) st k b :=
  hm.bind hf

/-- `m` reads nothing. -/
theorem Walks.first (hm : Walks m st 0 a) (hf : ∀ st', Untouched 0 st st' → Walks (f a) st' n b) :
    Walks (m >>= f) st n b :=
  Nat.zero_add n ▸ hm.bind hf

/-- What the view and its flags are read from in the attributes. -/
def viewParts (attr : Attr) :=
  (attr.aspath, attr.extra, attr.flag.asPath, attr.flag.as4Path, attr.flag.aggregator,
    attr.flag.as4Aggregator)

theorem walks_modifyAttr {f : Attr → Attr} (hf : ∀ attr, viewParts (f attr) = viewParts attr) :
    Walks (modifyAttr f) st 0 () := by
  obtain ⟨h₁, h₂, h₃, h₄, h₅, h₆⟩ : _ ∧ _ ∧ _ ∧ _ ∧ _ ∧ _ := by
    simpa only [viewParts, Prod.mk.injEq] using hf st.attr
  refine ⟨_, rfl, (advance_zero _).symm, rfl, rfl, h₁, ?_, ?_, h₃, h₄, h₅, h₆⟩
  · exact fun h => h₂ ▸ h
  · simp only [Attr.extraGet, h₂]

theorem walks_modifyExtra {f : AttrExtra → AttrExtra}
    (hf : ∀ attre, (f attre).aggregatorAs = attre.aggregatorAs) : Walks (modifyExtra f) st 0 () :=
  ⟨_, rfl, (advance_zero _).symm, rfl, rfl, rfl, fun _ => rfl, hf _, rfl, rfl, rfl, rfl⟩

theorem walks_whenever [Decidable c] {m : ParseM Unit}
    (h : Walks m st 0 ()) : Walks (whenever c m) st 0 () := by
  rw [whenever]
  split
  · exact h
  · exact .pure ()

theorem Ahead.left (h : Ahead (xs ++ ys) st) : Ahead xs st where
  unread := prefix_of_append h.unread
  inField := by
    have := h.inField
    rw [length_append] at this
    omega

/-- What is ahead after a walk. -/
theorem Ahead.right (h : Ahead (xs ++ ys) st) (hu : Untouched xs.length st st') : Ahead ys st' where
  unread := by
    rw [hu.input]
    exact unread_advance h.unread
  inField := by
    have hgp := getp_advance (prefix_of_append h.unread)
    have := h.inField
    rw [length_append] at this
    rw [hu.input, hu.fieldEnd, hgp]
    omega

section

variable (h : Ahead bs st)
include h

theorem Ahead.stay (hu : Untouched 0 st st') : Ahead bs st' :=
  Ahead.right (show Ahead ([] ++ bs) st from h) hu

theorem Ahead.walks {m : StreamM α} (hm : Reads m bs a) : Walks (input m) st bs.length a :=
  ⟨_, input_reads hm h.unread h.inField, rfl, rfl, rfl, rfl, id, rfl, rfl, rfl, rfl, rfl⟩

/-- The bytes ahead, read through a pointer. -/
theorem Ahead.peek : Walks (inputBytes bs.length) st 0 bs :=
  ⟨st, inputBytes_ok h.unread h.inField, (advance_zero _).symm, rfl, rfl, rfl, id, rfl, rfl,
    rfl, rfl, rfl⟩

theorem Ahead.getp_eq (hu : Untouched bs.length st st') :
    st'.input.getp = st.input.getp + bs.length := by
  rw [hu.input, getp_advance h.unread]

theorem Ahead.readable_le : bs.length ≤ st.input.readable :=
  h.unread.length_le.trans_eq (unread_length _)

end

variable {f : α → ParseM ParseRet}

theorem Decides.walk (hm : Walks m st k a)
    (hf : ∀ st', Untouched k st st' → Decides (f a) st' l ok) :
    Decides (m >>= f) st (k + l) ok := by
  cases ok with
  | true => exact hm.bind hf
  | false =>
    obtain ⟨st1, hrn, hu⟩ := hm
    show Refuses (m >>= f) st
    rw [Refuses, bind_ok hrn]
    exact hf st1 hu

theorem Decides.first (hm : Walks m st 0 a)
    (hf : ∀ st', Untouched 0 st st' → Decides (f a) st' n ok) : Decides (m >>= f) st n ok :=
  Nat.zero_add n ▸ .walk hm hf

theorem Decides.last (hm : Walks m st k a)
    (hf : ∀ st', Untouched k st st' → Decides (f a) st' 0 ok) : Decides (m >>= f) st k ok :=
  Decides.walk hm hf

theorem Decides.get {f : ParseState → ParseM ParseRet}
    (h : Decides (f st) st n ok) : Decides (get >>= f) st n ok := h

theorem decides_proceed : Decides (return ParseRet.proceed) st 0 true := Walks.pure _

theorem decides_flag {f : AttrFlags → AttrFlags} (hf : ∀ attr : Attr,
      viewParts { attr with flag := f attr.flag } = viewParts attr) :
    Decides (modifyFlag f >>= fun _ => return .proceed) st 0 true :=
  Decides.first (walks_modifyAttr hf) fun _ _ => decides_proceed

theorem decides_error : Decides (return ParseRet.error) st n false := ⟨_, _, rfl, by decide⟩

end

/-! ## The handlers -/

theorem reads_bytes1 (h : v.length = 1) : Reads getc v (UInt8.ofNat (ofBE v)) := by
  have hrd := (reads_getBytes v).map fun bs => UInt8.ofNat (ofBE bs)
  rwa [h] at hrd

theorem take_other (peer : Peer) (view : As4View) {a : RawAttr}
    (h : a.type ∉ [attrAsPath, attrAs4Path, attrAggregator,
      attrAs4Aggregator]) : view.take peer a = view := by
  simp only [mem_cons, not_mem_nil, or_false, not_or] at h
  rw [As4View.take, if_neg h.1, if_neg h.2.1, if_neg h.2.2.1, if_neg h.2.2.2]

theorem not_ignorable (peer : Peer) {a : RawAttr}
    (h : a.type ∉ ignorableAttrs) : ignorable peer a = false := by
  simp [ignorable, h]

section

variable {peer : Peer} {a : RawAttr} {args : AttrArgs} {st st' : ParseState}
  {m : ParseM ParseRet} {ok : Bool} {k n : Nat} {subcode : UInt8}

theorem Verdict.ite [Decidable c] {m n : ParseM ParseRet}
    (hm : c → Verdict peer a m st) (hn : ¬ c → Verdict peer a n st) :
    Verdict peer a (if c then m else n) st := by
  split_ifs with hc
  · exact hm hc
  · exact hn hc

theorem AtValue.ahead (hat : AtValue a args st) : Ahead a.value st := ⟨hat.value, hat.inField⟩

theorem AtValue.decides_malformed (hat : AtValue a args st) (hu : Untouched k st st')
    (hig : a.type ∉ ignorableAttrs) (hn : n ≤ args.total) :
    Decides (bgpAttrMalformed peer args subcode n) st' l false :=
  malformed_refuses subcode hat (not_ignorable peer hig) hu.fieldEnd (by rw [hu.input]; rfl) hn

/-- A handler that leaves the view alone. -/
theorem verdict_decides (hwf : ParseWf st) (hvl : valueOk peer a = ok)
    (hvw : a.type ∉ [attrAsPath, attrAs4Path, attrAggregator, attrAs4Aggregator])
    (hig : ok = false → a.type ∉ ignorableAttrs)
    (h : Decides m st a.value.length ok) : Verdict peer a m st := by
  rw [Verdict, hvl, take_other _ _ hvw]
  cases ok with
  | true => exact accepts_walks hwf h
  | false => rwa [if_neg (by decide), if_neg (by simp [not_ignorable peer (hig rfl)])]

variable (hat : AtValue a args st) (hwf : ParseWf st)
include hat hwf

/-- A check that is made before anything is read. -/
theorem verdict_check [Decidable c] (hn : n ≤ args.total)
    (hb : c → valueOk peer a = false) (hm : ¬ c → Verdict peer a m st) :
    Verdict peer a (if c then bgpAttrMalformed peer args subcode n else m) st :=
  .ite (fun hc => verdict_malformed _ hat hwf (hb hc) hn) hm

/-- A value of the right length is taken. -/
theorem verdict_length [Decidable c] {type : UInt8} (hty : a.type = type)
    (hvl : valueOk peer { a with type := type } = decide c)
    (hvw : type ∉ [attrAsPath, attrAs4Path, attrAggregator, attrAs4Aggregator])
    (hm : c → Decides m st a.value.length true) :
    Verdict peer a (if ¬ c then bgpAttrMalformed peer args subcode args.total else m) st := by
  subst hty
  exact verdict_check hat hwf le_rfl (fun hc => hvl.trans (decide_eq_false hc)) fun hc =>
    verdict_decides hwf (hvl.trans (decide_eq_true (not_not.mp hc))) hvw nofun (hm (not_not.mp hc))

theorem verdict_origin (hty : a.type = attrOrigin) :
    Verdict peer a (bgpAttrOrigin peer args) st := by
  have hvl : valueOk peer a = (decide (a.value.length = 1) && decide (ofBE a.value ≤ 2)) := by
    rw [valueOk]
    simp only [hty]
    rfl
  have hig : a.type ∉ ignorableAttrs := by rw [hty]; decide
  rw [bgpAttrOrigin, hat.length]
  refine verdict_check hat hwf le_rfl (fun hlen => by simp [hvl, hlen]) fun hlen => ?_
  have hone := not_not.mp hlen
  have horg : ofBE a.value ≤ 2 ↔ ¬ (UInt8.ofNat (ofBE a.value) ≠ 0
      ∧ UInt8.ofNat (ofBE a.value) ≠ 1 ∧ UInt8.ofNat (ofBE a.value) ≠ 2) := by
    have hlt := ofBE_lt a.value
    rw [hone] at hlt
    simp only [ne_eq, ← UInt8.toNat_inj, UInt8.toNat_ofNat']
    simp
    omega
  rw [decide_eq_true hone, Bool.true_and] at hvl
  refine verdict_decides hwf hvl (by rw [hty]; decide) (fun _ => hig) ?_
  refine .last (hat.ahead.walks (reads_bytes1 hone)) fun st1 hu1 => ?_
  refine .first (walks_modifyAttr fun _ => rfl) fun st2 hu2 => ?_
  by_cases hle : ofBE a.value ≤ 2
  · rw [decide_eq_true hle, if_neg (horg.mp hle)]
    exact decides_flag fun _ => rfl
  · rw [decide_eq_false hle, if_pos (not_not.mp (mt horg.mpr hle))]
    exact hat.decides_malformed (hu1.trans hu2) hig le_rfl

theorem verdict_nexthop (hty : a.type = attrNextHop) :
    Verdict peer a (bgpAttrNexthop peer args) st := by
  have hvl : valueOk peer a = (decide (a.value.length = 4)
      && !martianNexthop (addrOf a.value)) := by
    rw [valueOk]
    simp only [hty]
    rfl
  have hig : a.type ∉ ignorableAttrs := by rw [hty]; decide
  rw [bgpAttrNexthop, hat.length]
  refine verdict_check hat hwf le_rfl (fun hlen => by simp [hvl, hlen]) fun hlen => ?_
  have hrd : Reads getIpv4 a.value (addrOf a.value) := reads_bytes4 (not_not.mp hlen)
  rw [decide_eq_true (not_not.mp hlen), Bool.true_and] at hvl
  refine verdict_decides hwf hvl (by rw [hty]; decide) (fun _ => hig) ?_
  refine .last (hat.ahead.walks hrd) fun st1 hu => ?_
  cases hmart : martianNexthop (addrOf a.value) with
  | false =>
    rw [if_neg Bool.false_ne_true]
    refine .first (walks_modifyAttr fun _ => rfl) fun st2 _ => ?_
    exact decides_flag fun _ => rfl
  | true =>
    rw [if_pos rfl]
    exact hat.decides_malformed hu hig le_rfl

theorem verdict_med (hty : a.type = attrMultiExitDisc) :
    Verdict peer a (bgpAttrMed peer args) st := by
  rw [bgpAttrMed, hat.length]
  refine verdict_length hat hwf hty rfl (by decide) fun hlen => ?_
  refine .last (hat.ahead.walks (reads_bytes4 hlen)) fun st1 _ => ?_
  refine .first (walks_modifyAttr fun _ => rfl) fun st2 _ => ?_
  exact decides_flag fun _ => rfl

theorem verdict_localPref (hty : a.type = attrLocalPref) :
    Verdict peer a (bgpAttrLocalPref peer args) st := by
  rw [bgpAttrLocalPref, hat.length]
  refine verdict_length hat hwf hty rfl (by decide) fun hlen => ?_
  split
  · exact .last (hat.ahead.walks (reads_forwardGetp a.value)) fun _ _ => decides_proceed
  · refine .last (hat.ahead.walks (reads_bytes4 hlen)) fun st1 _ => ?_
    refine .first (walks_modifyAttr fun _ => rfl) fun st2 _ => ?_
    exact decides_flag fun _ => rfl

theorem verdict_originatorId (hty : a.type = attrOriginatorId) :
    Verdict peer a (bgpAttrOriginatorId peer args) st := by
  rw [bgpAttrOriginatorId, hat.length]
  refine verdict_length hat hwf hty rfl (by decide) fun hlen => ?_
  have hrd : Reads getIpv4 a.value _ := reads_bytes4 hlen
  refine .last (hat.ahead.walks hrd) fun st1 _ => ?_
  refine .first (walks_modifyExtra fun _ => rfl) fun st2 _ => ?_
  exact decides_flag fun _ => rfl

theorem verdict_atomic (hty : a.type = attrAtomicAggregate) :
    Verdict peer a (bgpAttrAtomic peer args) st := by
  rw [bgpAttrAtomic, hat.length]
  refine verdict_length hat hwf hty rfl (by decide) fun hlen => ?_
  rw [hlen]
  exact decides_flag fun _ => rfl

theorem verdict_clusterList (hty : a.type = attrClusterList) :
    Verdict peer a (bgpAttrClusterList peer args) st := by
  rw [bgpAttrClusterList, hat.length]
  refine verdict_length hat hwf hty rfl (by decide) fun hlen => ?_
  refine .first hat.ahead.peek fun st1 hu1 => ?_
  refine .first (walks_modifyExtra fun _ => rfl) fun st2 hu2 => ?_
  refine .last (((hat.ahead.stay hu1).stay hu2).walks (reads_forwardGetp a.value)) fun st3 _ => ?_
  exact decides_flag fun _ => rfl

omit hwf in
/-- Both kinds of communities: what was parsed is looked at once it is
stored. -/
theorem decides_stored {δ : Type} {c : Option δ} [Decidable (c = none)]
    {f : AttrFlags → AttrFlags} (hu : Untouched 0 st st') (hig : a.type ∉ ignorableAttrs)
    (hf : ∀ attr : Attr, viewParts { attr with flag := f attr.flag } = viewParts attr) :
    Decides (do
      input (forwardGetp a.value.length)
      if c = none then bgpAttrMalformed peer args notifyUpdateOptAttrErr args.total
      else
        modifyFlag f
        return .proceed) st' a.value.length c.isSome := by
  refine .last ((hat.ahead.stay hu).walks (reads_forwardGetp a.value)) fun st1 hu1 => ?_
  cases c with
  | some c =>
    rw [if_neg (by simp)]
    exact decides_flag hf
  | none =>
    rw [if_pos rfl]
    exact hat.decides_malformed (hu.trans hu1) hig le_rfl

omit hat hwf in
/-- The parsers of the community attributes fail on a cut-off entry. -/
theorem communityParse_isSome (bs : List UInt8) :
    (communityParse bs).isSome = decide (bs.length % 4 = 0) := by
  rw [communityParse]
  by_cases h : bs.length % 4 = 0 <;> simp [h]

omit hat hwf in
theorem ecommunityParse_isSome (bs : List UInt8) :
    (ecommunityParse bs).isSome = decide (bs.length % 8 = 0) := by
  rw [ecommunityParse]
  by_cases h : bs.length % 8 = 0 <;> simp [h]

theorem verdict_community (hty : a.type = attrCommunities) :
    Verdict peer a (bgpAttrCommunity peer args) st := by
  have hvl : valueOk peer a = decide (a.value.length % 4 = 0) := by
    rw [valueOk]
    simp only [hty]
    rfl
  have hvw : a.type ∉ [attrAsPath, attrAs4Path, attrAggregator, attrAs4Aggregator] := by
    rw [hty]; decide
  have hig : a.type ∉ ignorableAttrs := by rw [hty]; decide
  rw [bgpAttrCommunity, hat.length]
  refine .ite (fun h0 => ?_) fun _ => ?_
  · refine verdict_decides hwf (hvl.trans (decide_eq_true (by rw [h0]))) hvw (fun _ => hig) ?_
    rw [h0]
    exact .first (walks_modifyAttr fun _ => rfl) fun _ _ => decides_proceed
  · refine verdict_decides hwf (hvl.trans (communityParse_isSome _).symm) hvw (fun _ => hig) ?_
    refine .first hat.ahead.peek fun st1 hu1 => ?_
    refine .first (walks_modifyAttr fun _ => rfl) fun st2 hu2 => ?_
    exact decides_stored hat (hu1.trans hu2) hig fun _ => rfl

theorem verdict_extCommunities (hty : a.type = attrExtCommunities) :
    Verdict peer a (bgpAttrExtCommunities peer args) st := by
  have hvl : valueOk peer a = decide (a.value.length % 8 = 0) := by
    rw [valueOk]
    simp only [hty]
    rfl
  have hvw : a.type ∉ [attrAsPath, attrAs4Path, attrAggregator, attrAs4Aggregator] := by
    rw [hty]; decide
  have hig : a.type ∉ ignorableAttrs := by rw [hty]; decide
  rw [bgpAttrExtCommunities, hat.length]
  refine .ite (fun h0 => ?_) fun _ => ?_
  · refine verdict_decides hwf (hvl.trans (decide_eq_true (by rw [h0]))) hvw (fun _ => hig) ?_
    rw [h0]
    refine ⟨_, rfl, (advance_zero _).symm, rfl, rfl, rfl, ?_, ?_, rfl, rfl, rfl, rfl⟩
    · simp
    · simp only [Attr.extraGet]
      cases st.attr.extra <;> rfl
  · refine verdict_decides hwf (hvl.trans (ecommunityParse_isSome _).symm) hvw (fun _ => hig) ?_
    refine .first hat.ahead.peek fun st1 hu1 => ?_
    refine .first (walks_modifyExtra fun _ => rfl) fun st2 hu2 => ?_
    exact decides_stored hat (hu1.trans hu2) hig fun _ => rfl

end

section

variable {peer : Peer} {a : RawAttr} {args : AttrArgs} {st : ParseState}

/-- A step in front that the view does not see. -/
theorem verdict_of_eq {m m' : ParseM ParseRet} {st' : ParseState}
    (hrn : m st = m' st') (hinp : st'.input = st.input)
    (hfd : st'.fieldEnd = st.fieldEnd) (hvw : as4View st' = as4View st)
    (h : Verdict peer a m' st') : Verdict peer a m st := by
  rwa [Verdict, Accepts, Accepts, Refuses, hrn, ← hinp, ← hfd, ← hvw]

theorem reads_bytes2 (h : v.length = 2) : Reads getw v (UInt16.ofNat (ofBE v)) := by
  have hrd := (reads_getBytes v).map fun bs => UInt16.ofNat (ofBE bs)
  rwa [h] at hrd

theorem reads_aggregatorAs {value : List UInt8}
    (h : (if use32bit then 4 else 2) ≤ value.length) :
    Reads (asnGet use32bit) (value.take (if use32bit then 4 else 2))
      (aggregatorAsOf use32bit value) := by
  cases use32bit with
  | true => exact reads_bytes4 (length_take_of_le h)
  | false => exact (reads_bytes2 (length_take_of_le h)).map UInt16.toUInt32

theorem verdict_aggregator (hat : AtValue a args st) (hwf : ParseWf st)
    (hty : a.type = attrAggregator) : Verdict peer a (bgpAttrAggregator peer args) st := by
  have hvl : valueOk peer a = decide (a.value.length = if peer.capAs4Rcv then 8 else 6) := by
    rw [valueOk]
    simp only [hty]
    rfl
  have hat' : AtValue a args { st with
      attr := { st.attr with extra := some st.attr.extraGet } } :=
    ⟨hat.type, hat.flags, hat.length, hat.endp, hat.value, hat.inField⟩
  rw [bgpAttrAggregator]
  refine verdict_of_eq (modifyExtra_bind id _ st) rfl rfl rfl ?_
  rw [hat.length]
  refine verdict_check hat' ⟨hwf.asPath, hwf.as4Path, fun _ => rfl⟩ le_rfl
    (fun hne => hvl.trans (decide_eq_false hne)) fun hne => ?_
  have hlen := not_not.mp hne
  have hsp : a.value.take (if peer.capAs4Rcv then 4 else 2)
      ++ a.value.drop (if peer.capAs4Rcv then 4 else 2) = a.value :=
    take_append_drop ..
  have htk : (if peer.capAs4Rcv then 4 else 2) ≤ a.value.length := by
    rw [hlen]
    split <;> decide
  have hdr : (a.value.drop (if peer.capAs4Rcv then 4 else 2)).length = 4 := by
    rw [length_drop, hlen]
    split <;> rfl
  have htot : (a.value.take (if peer.capAs4Rcv then 4 else 2)).length + 4 = a.value.length := by
    have hlens := congrArg List.length hsp
    rwa [length_append, hdr] at hlens
  have hv := hat.value
  have hin := hat.inField
  rw [← hsp] at hv
  have hgp := getp_advance (prefix_of_append hv)
  rw [Verdict, if_pos (hvl.trans (decide_eq_true hlen)), Accepts,
    bind_ok (input_reads (reads_aggregatorAs htk) ?_ ?_),
    modifyExtra_bind, bind_ok (show input getIpv4 _ = _ from
      input_reads (reads_bytes4 hdr) ?_ ?_), modifyExtra_bind]
  · refine ⟨_, rfl, ?_, rfl, ⟨hwf.asPath, hwf.as4Path, fun _ => rfl⟩, ?_⟩
    · simp only [advance_advance, hdr, htot]
    · simp only [As4View.take, hty]
      rfl
  · exact unread_advance hv
  · simp only [hgp, hdr]
    omega
  · exact prefix_of_append hv
  · simp only
    omega

theorem verdict_as4Aggregator (hat : AtValue a args st) (hwf : ParseWf st)
    (hty : a.type = attrAs4Aggregator) : Verdict peer a (bgpAttrAs4Aggregator peer args) st := by
  have hvl : valueOk peer a = decide (a.value.length = 8) := by
    rw [valueOk]
    simp only [hty]
    rfl
  rw [bgpAttrAs4Aggregator, hat.length]
  refine verdict_check hat hwf (Nat.zero_le _) (fun hne => by simp [hvl, hne]) fun hne => ?_
  have hlen := not_not.mp hne
  have hsp := take_append_drop 4 a.value
  have htk : (a.value.take 4).length = 4 := length_take_of_le (by omega)
  have hdr : (a.value.drop 4).length = 4 := by rw [length_drop, hlen]
  have hv := hat.value
  have hin := hat.inField
  rw [← hsp] at hv
  have hgp := getp_advance (prefix_of_append hv)
  rw [htk] at hgp
  rw [Verdict, if_pos (by simp [hvl, hlen]),
    Accepts, bind_ok (input_reads (reads_bytes4 htk) ?_ ?_), modify_bind,
    bind_ok (show input getIpv4 _ = _ from input_reads (reads_bytes4 hdr) ?_ ?_), modify_bind]
  · refine ⟨_, rfl, ?_, rfl, ⟨hwf.asPath, hwf.as4Path, hwf.aggregator⟩, ?_⟩
    · simp only [advance_advance, htk, hdr, hlen]
    · simp only [As4View.take, hty]
      rfl
  · exact unread_advance hv
  · simp only [htk, hdr, hgp]
    omega
  · exact prefix_of_append hv
  · simp only [htk]
    omega

end

/-! ## AS paths -/

theorem reads_asnGet_any (h : v.length = asnWidth use32bit) :
    ∃ asn, Reads (asnGet use32bit) v asn := by
  cases use32bit with
  | true => exact ⟨_, reads_bytes4 h⟩
  | false => exact ⟨_, (reads_bytes2 h).map UInt16.toUInt32⟩

theorem reads_asnsGet_any {n : Nat}
    (h : v.length = n * asnWidth use32bit) : ∃ as, Reads (asnsGet use32bit n) v as := by
  induction n generalizing v with
  | zero =>
    rw [Nat.zero_mul, length_eq_zero_iff] at h
    exact ⟨[], h ▸ .pure []⟩
  | succ n ih =>
    rw [Nat.succ_mul] at h
    have htk : (v.take (asnWidth use32bit)).length = asnWidth use32bit :=
      length_take_of_le (h ▸ Nat.le_add_left ..)
    have hdr : (v.drop (asnWidth use32bit)).length = n * asnWidth use32bit := by
      rw [length_drop, h, Nat.add_sub_cancel]
    obtain ⟨asn, hasn⟩ := reads_asnGet_any htk
    obtain ⟨as, has⟩ := ih hdr
    rw [← take_append_drop (asnWidth use32bit) v]
    exact ⟨asn :: as, hasn.bind (has.map fun as => asn :: as)⟩

/-- A reader that takes at most `v`, and all of it when `ok`; what it
answers does not depend on the bytes behind. -/
def Consumes {α : Type} (m : StreamM (Option α)) (v : List UInt8) (ok : Bool) : Prop :=
  ∃ r, r.isSome = ok ∧ ∀ s, v <+: s.unread → ∃ s', m s = .ok (r, s') ∧ s'.written = s.written
    ∧ s'.getp ≤ s.getp + v.length ∧ (ok → s' = s.advance v.length)

theorem Consumes.none {α : Type} (v : List UInt8) :
    Consumes (return none : StreamM (Option α)) v false :=
  ⟨_, rfl, fun s _ => ⟨s, rfl, rfl, Nat.le_add_right .., nofun⟩⟩

theorem Consumes.nil {α : Type} (a : α) : Consumes (return some a : StreamM (Option α)) [] true :=
  ⟨_, rfl, fun s _ => ⟨s, rfl, rfl, Nat.le_refl _, fun _ => (advance_zero s).symm⟩⟩

/-- A read in front. -/
theorem Consumes.bind {α β : Type} {m : StreamM β} {f : β → StreamM (Option α)}
    {us vs : List UInt8} {b : β} {ok : Bool} (hm : Reads m us b) (hf : Consumes (f b) vs ok) :
    Consumes (m >>= f) (us ++ vs) ok := by
  obtain ⟨r, hr, hf⟩ := hf
  refine ⟨r, hr, fun s hv => ?_⟩
  have hus := prefix_of_append hv
  obtain ⟨s', hrn, hwr, hgp, hal⟩ := hf (s.advance us.length) (unread_advance hv)
  rw [getp_advance hus] at hgp
  refine ⟨s', ?_, hwr, ?_, fun hok => ?_⟩
  · rw [bind_ok (hm s hus), hrn]
  · rw [length_append]
    omega
  · rw [hal hok, advance_advance, length_append]

theorem consumes_parseLoop (use32bit : Bool) (v : List UInt8)
    {length bytes : Nat} (head : List Assegment) (hlen : length = bytes + v.length) :
    Consumes (assegmentsParseLoop use32bit length bytes head) v (segsOk (asnWidth use32bit) v) := by
  induction hn : v.length using Nat.strong_induction_on generalizing v bytes head with
  | _ n ih =>
    have hwidth : 0 < asnWidth use32bit := by cases use32bit <;> decide
    match v, hlen, hn with
    | [], hlen, hn =>
      rw [assegmentsParseLoop, if_neg (by simp [hlen]), segsOk]
      exact .nil _
    | [x], hlen, hn =>
      rw [assegmentsParseLoop, if_pos (by simp [hlen]),
        if_pos (by simp [hlen, asHeaderSize]), segsOk]
      exact .none _
    | type :: k :: rest, hlen, hn =>
      have hsize : assegmentSize k.toNat use32bit = 2 + k.toNat * asnWidth use32bit := rfl
      rw [length_cons, length_cons] at hlen hn
      rw [assegmentsParseLoop, if_pos (by omega), segsOk]
      by_cases hsh : rest = []
      · have hb : ¬ ((SegType.ofCode type).isSome ∧ k ≠ 0
            ∧ k.toNat * asnWidth use32bit ≤ rest.length) := by
          rintro ⟨-, hk, hle⟩
          have hp : 0 < k.toNat := UInt8.pos_iff_ne_zero.mpr hk
          have := Nat.mul_pos hp hwidth
          simp only [hsh, length_nil] at hle
          omega
        rw [if_neg hb, if_pos (by simp [hlen, hsh, asHeaderSize])]
        exact .none _
      · have hp := length_pos_iff.mpr hsh
        rw [if_neg (by simp only [asHeaderSize]; omega)]
        refine .bind (reads_getc type) (.bind (reads_getc k) ?_)
        simp only [hsize]
        by_cases hk : length < bytes + (2 + k.toNat * asnWidth use32bit) ∨ k = 0
        · rw [if_pos hk, if_neg (fun h => by
            have hle := h.2.2
            rcases hk with hk | hk
            · omega
            · exact h.2.1 hk)]
          exact .none _
        · obtain ⟨hfit, hne⟩ := not_or.mp hk
          rw [if_neg hk]
          cases hco : SegType.ofCode type with
          | none =>
            rw [if_neg (by simp)]
            exact .none _
          | some type =>
            have hle : k.toNat * asnWidth use32bit ≤ rest.length := by omega
            obtain ⟨as, has⟩ := reads_asnsGet_any (length_take_of_le hle)
            have hdr : (rest.drop (k.toNat * asnWidth use32bit)).length
                = rest.length - k.toNat * asnWidth use32bit :=
              length_drop
            rw [if_pos ⟨rfl, hne, hle⟩]
            have hrec := ih _ (by omega) (rest.drop (k.toNat * asnWidth use32bit))
              (head ++ [Assegment.ofAsns type as])
              (show length = bytes + (2 + k.toNat * asnWidth use32bit) + _ by omega) rfl
            have hal : Consumes (do
                let as ← asnsGet use32bit k.toNat
                assegmentsParseLoop use32bit length (bytes + (2 + k.toNat * asnWidth use32bit))
                  (head ++ [.ofAsns type as])) _ _ :=
              .bind has hrec
            rwa [take_append_drop] at hal

theorem consumes_aspathParse (use32bit : Bool) (v : List UInt8) :
    Consumes (aspathParse v.length use32bit) v (aspathOk use32bit v) := by
  rw [aspathParse, aspathOk]
  by_cases heven : v.length % 2 = 0
  · rw [if_neg (not_not.mpr heven), decide_eq_true heven, Bool.true_and, assegmentsParse]
    by_cases h0 : v.length = 0
    · obtain rfl := length_eq_zero_iff.mp h0
      rw [if_pos h0, segsOk]
      exact .nil _
    · obtain ⟨r, hr, hlp⟩ := consumes_parseLoop use32bit v [] (Nat.zero_add v.length).symm
      refine ⟨r.map assegmentNormalise, by simpa using hr, fun s hv => ?_⟩
      obtain ⟨s', hrn, hrs⟩ := hlp s hv
      have hrd := hv.length_le
      rw [unread_length] at hrd
      refine ⟨s', ?_, hrs⟩
      rw [if_neg h0, get_bind, if_neg (by simp only [asHeaderSize]; omega), bind_ok hrn]
      rfl
  · rw [if_pos heven, decide_eq_false heven, Bool.false_and]
    exact .none v

section

variable {peer : Peer} {a : RawAttr} {args : AttrArgs} {st : ParseState}

section

variable (hat : AtValue a args st)
include hat

/-- A handler that stores what it has read of a path before it looks at it. -/
theorem verdict_path {store : Option (List Assegment) → ParseState → ParseState}
    {f : AttrFlags → AttrFlags} (hig : a.type ∉ ignorableAttrs)
    (hvl : valueOk peer a = aspathOk use32bit a.value)
    (hinp : ∀ path st, (store path st).input = st.input)
    (hfd : ∀ path st, (store path st).fieldEnd = st.fieldEnd)
    (hdn : ∀ segs s st', st' = store (some segs) { st with input := s } →
      ParseWf { st' with attr := { st'.attr with flag := f st'.attr.flag } }
        ∧ as4View { st' with attr := { st'.attr with flag := f st'.attr.flag } }
          = (as4View st).take peer a) :
    Verdict peer a (do
      let path ← input (aspathParse args.length use32bit)
      modify (store path)
      if path = none then bgpAttrMalformed peer args notifyUpdateMalAsPath 0
      else
        modifyFlag f
        return .proceed) st := by
  obtain ⟨r, hr, hcon⟩ := consumes_aspathParse use32bit a.value
  obtain ⟨s', hpa, hwr, hgp, hal⟩ := hcon st.input hat.value
  rw [← hr] at hal
  have hrn : input (aspathParse args.length use32bit) st = .ok (r, { st with input := s' }) := by
    rw [input, hat.length, hpa]
    exact if_neg (Nat.not_lt_of_le (hgp.trans hat.inField))
  rw [Verdict, hvl, ← hr]
  cases r with
  | some segs =>
    obtain ⟨hwf, hvw⟩ := hdn segs s' _ rfl
    rw [Option.isSome_some, if_pos rfl, Accepts, bind_ok hrn, modify_bind, if_neg (by simp)]
    exact ⟨_, rfl, (hinp ..).trans (hal rfl), hfd .., hwf, hvw⟩
  | none =>
    have hep : s'.endp = st.input.endp := by rw [← written_length, ← written_length, hwr]
    rw [if_neg (by simp), if_neg (by simp [not_ignorable peer hig]), Refuses, bind_ok hrn,
      modify_bind, if_pos rfl]
    exact malformed_refuses _ hat (not_ignorable peer hig) (hfd ..)
      ((congrArg Stream.endp (hinp ..)).trans hep) (Nat.zero_le _)

theorem verdict_aspath (hwf : ParseWf st) (hty : a.type = attrAsPath) :
    Verdict peer a (bgpAttrAspath peer args) st := by
  refine verdict_path hat (by rw [hty]; decide) (by rw [valueOk]; simp only [hty]; rfl)
    (fun _ _ => rfl) (fun _ _ => rfl) ?_
  rintro segs s _ rfl
  refine ⟨⟨fun _ => rfl, hwf.as4Path, hwf.aggregator⟩, ?_⟩
  simp only [As4View.take, hty]
  rfl

theorem verdict_as4Path (hwf : ParseWf st) (hty : a.type = attrAs4Path) :
    Verdict peer a (bgpAttrAs4Path peer args) st := by
  refine verdict_path hat (by rw [hty]; decide) (by rw [valueOk]; simp only [hty]; rfl)
    (fun _ _ => rfl) (fun _ _ => rfl) ?_
  rintro segs s _ rfl
  refine ⟨⟨hwf.asPath, fun _ => rfl, hwf.aggregator⟩, ?_⟩
  simp only [As4View.take, hty]
  rfl

end

end

/-! ## Multiprotocol attributes -/

theorem nlriSane_ok {st : ParseState} {nlri : List UInt8} (afi : UInt16)
    (safi : UInt8) (h : Ahead nlri st) :
    ∃ st', nlriSane afi safi nlri.length st = .ok (nlriOk afi safi nlri, st')
      ∧ (nlriOk afi safi nlri → st' = st) := by
  rw [nlriSane, nlriOk]
  by_cases hsafi : safi = safiMplsLabeledVpn
  · rw [if_neg (not_not.mpr hsafi), decide_eq_true hsafi, Bool.true_or]
    exact ⟨st, rfl, fun _ => rfl⟩
  · rw [if_pos hsafi, decide_eq_false hsafi, Bool.false_or,
      bgpNlriSanityCheck, bind_ok (inputBytes_ok h.unread h.inField)]
    cases nlriSanityCheck afi nlri with
    | true => exact ⟨st, rfl, fun _ => rfl⟩
    | false => exact ⟨_, rfl, nofun⟩

section

variable {st : ParseState} {nlri : List UInt8}

theorem walks_nlri (h : Ahead nlri st)
    (store : List UInt8 → ParseState → ParseState) (hstr : ∀ st, Untouched 0 st (store nlri st)) :
    Walks (do
      let nlri' ← inputBytes nlri.length
      modify (store nlri')
      input (forwardGetp nlri.length)
      return ParseRet.proceed) st nlri.length .proceed := by
  have hu := hstr st
  have hahd : Ahead nlri (store nlri st) := .right (show Ahead ([] ++ nlri) st from h) hu
  obtain ⟨st', hrn, hu'⟩ := hahd.walks (reads_forwardGetp nlri)
  refine ⟨st', ?_, by simpa using hu.trans hu'⟩
  rw [bind_ok (inputBytes_ok h.unread h.inField), modify_bind, bind_ok hrn]
  rfl

variable {α β : Type} {ok : Bool} {n : Nat} {v : List UInt8} {args : AttrArgs} {m : ParseM α}
  {a : α} {b : β}

theorem decides_nlri (afi : UInt16) (safi : UInt8)
    (h : Ahead nlri st) (store : List UInt8 → ParseState → ParseState)
    (hstr : ∀ st, Untouched 0 st (store nlri st)) :
    Decides (do
      if !(← nlriSane afi safi nlri.length) then return .error
      else
        let nlri' ← inputBytes nlri.length
        modify (store nlri')
        input (forwardGetp nlri.length)
        return ParseRet.proceed) st nlri.length (nlriOk afi safi nlri) := by
  obtain ⟨st', hrn, hsm⟩ := nlriSane_ok afi safi h
  cases hok : nlriOk afi safi nlri with
  | true =>
    obtain rfl := hsm hok
    rw [hok] at hrn
    obtain ⟨st1, hwk, hu⟩ := walks_nlri h store hstr
    exact ⟨st1, (bind_ok hrn).trans hwk, hu⟩
  | false =>
    rw [hok] at hrn
    exact ⟨_, st', bind_ok hrn, by decide⟩

theorem decides_mpUnreach (h : Ahead v st) (hlen : args.length = v.length) :
    Decides (bgpMpUnreachParse args) st v.length (mpUnreachOk v) := by
  have hrd := h.readable_le
  have hsh (hlt : v.length < 3) :
      Decides (bgpMpUnreachParse args) st v.length false := by
    refine ⟨.error, st, ?_, by decide⟩
    rw [bgpMpUnreachParse, get_bind, hlen, if_pos (.inr hlt)]
    rfl
  match v, h, hlen, hrd, hsh with
  | [], _, _, _, hsh => exact hsh (by decide)
  | [_], _, _, _, hsh | [_, _], _, _, _, hsh => exact hsh (by simp)
  | x :: y :: safi :: nlri, h, hlen, hrd, _ =>
    have hsp : x :: y :: safi :: nlri = [x, y] ++ ([safi] ++ nlri) := rfl
    have hguard : ¬ (args.length > st.input.readable ∨ args.length < bgpMpUnreachMinSize) := by
      rw [hlen]
      simp only [bgpMpUnreachMinSize, length_cons] at *
      omega
    have hnlri : args.length - bgpMpUnreachMinSize = nlri.length := by
      rw [hlen]
      rfl
    rw [hsp] at h ⊢
    rw [length_append, length_append, bgpMpUnreachParse]
    refine .get ?_
    simp only [hnlri]
    rw [if_neg hguard]
    refine .walk (h.left.walks (reads_bytes2 rfl)) fun st1 h₁ => ?_
    have ha := h.right h₁
    refine .walk (ha.left.walks (reads_getc safi)) fun st2 h₂ => ?_
    exact decides_nlri _ safi (ha.right h₂) _ fun st => ⟨(advance_zero _).symm,
      rfl, rfl, rfl, id, rfl, rfl, rfl, rfl, rfl⟩

theorem reads_getIpv6 (h : v.length = 16) : Reads getIpv6 v (BitVec.ofNat 128 (ofBE v)) := by
  have hrd := (reads_getBytes v).map fun bs => BitVec.ofNat 128 (ofBE bs)
  rwa [h] at hrd

variable {nexthopLen : UInt8}

theorem walks_mpNexthop {us : List UInt8}
    (h : Ahead us st) (hlen : us.length = nexthopLen.toNat) (hmb : nexthopLen ∈ mpNexthopLens) :
    Walks (mpNexthop nexthopLen) st us.length true := by
  simp only [mpNexthopLens, mem_cons, not_mem_nil, or_false] at hmb
  rw [mpNexthop]
  rcases hmb with rfl | rfl | rfl | rfl
  · have hrd : Reads getIpv4 us _ := reads_bytes4 hlen
    rw [if_pos rfl]
    refine (h.walks hrd).last fun st1 _ => ?_
    refine (walks_modifyExtra (by intro _; rfl)).last fun st2 _ => ?_
    refine .get ?_
    exact .last (walks_whenever (walks_modifyAttr (by intro _; rfl))) fun _ _ => .pure _
  · have hsp : us.take 4 ++ ((us.drop 4).take 4 ++ us.drop 8) = us := by
      rw [← drop_drop (i := 4) (j := 4), take_append_drop, take_append_drop]
    have h1 : (us.take 4).length = 4 := by simp [hlen]
    have h2 : ((us.drop 4).take 4).length = 4 := by simp [hlen]
    have h3 : (us.drop 8).length = 4 := by simp [hlen]
    have hrd : Reads getIpv4 (us.drop 8) _ := reads_bytes4 h3
    rw [if_neg (by decide), if_pos rfl]
    rw [← hsp] at h
    rw [← congrArg List.length hsp, length_append, length_append]
    refine (h.left.walks (reads_bytes4 h1)).bind fun st1 hu1 => ?_
    have ha := h.right hu1
    refine (ha.left.walks (reads_bytes4 h2)).bind fun st2 hu2 => ?_
    refine ((ha.right hu2).walks hrd).last fun st3 _ => ?_
    exact (walks_modifyExtra (by intro _; rfl)).last fun _ _ => .pure _
  · rw [if_neg (by decide), if_neg (by decide), if_pos rfl]
    refine (h.walks (reads_getIpv6 hlen)).last fun st1 _ => ?_
    exact (walks_modifyExtra (by intro _; rfl)).last fun _ _ => .pure _
  · have hsp := take_append_drop 16 us
    have h1 : (us.take 16).length = 16 := by simp [hlen]
    have h2 : (us.drop 16).length = 16 := by simp [hlen]
    rw [if_neg (by decide), if_neg (by decide), if_neg (by decide), if_pos rfl]
    rw [← hsp] at h
    rw [← congrArg List.length hsp, length_append]
    refine (h.left.walks (reads_getIpv6 h1)).bind fun st1 hu1 => ?_
    refine (walks_modifyExtra (by intro _; rfl)).first fun st2 hu2 => ?_
    refine (((h.right hu1).stay hu2).walks (reads_getIpv6 h2)).last fun st3 _ => ?_
    refine (walks_modifyExtra (by intro _; rfl)).last fun st4 _ => ?_
    exact .last (walks_whenever (walks_modifyExtra (by intro _; rfl)))
      fun _ _ => .pure _

theorem decides_mpReachNlri {rest : List UInt8}
    {start : Nat} (afi : UInt16) (safi : UInt8) (h : Ahead rest st)
    (he : st.input.getp + rest.length = start + args.length) (hst : start ≤ st.input.getp) :
    Decides (mpReachNlri args afi safi start) st rest.length
      (decide (1 < rest.length) && nlriOk afi safi (rest.drop 1)) := by
  have hlf : args.length - (st.input.getp - start) = rest.length := by omega
  rw [mpReachNlri]
  refine .get ?_
  rw [hlf]
  cases rest with
  | nil => exact decides_error
  | cons x nlri =>
    have hsp : x :: nlri = [x] ++ nlri := rfl
    rw [hsp] at h
    rw [if_neg (by simp), hsp, length_append]
    refine .walk (h.left.walks (reads_getc x)) fun st1 hu => ?_
    have hgp := h.left.getp_eq hu
    have ha := h.right hu
    have hrd := ha.readable_le
    have hnlri : args.length - (st1.input.getp - start) = nlri.length := by
      rw [length_cons] at he
      rw [length_singleton] at hgp
      omega
    refine .get ?_
    simp only [hnlri]
    by_cases h0 : nlri.length = 0
    · rw [if_pos (.inl h0), decide_eq_false (by simp [h0])]
      exact decides_error
    · rw [if_neg (by omega), decide_eq_true (by simp; omega)]
      exact decides_nlri afi safi ha _ fun st => ⟨(advance_zero _).symm,
        rfl, rfl, rfl, id, rfl, rfl, rfl, rfl, rfl⟩

theorem mpNexthop_bad (h : nexthopLen ∉ mpNexthopLens) :
    Walks (mpNexthop nexthopLen) st 0 false := by
  simp only [mpNexthopLens, mem_cons, not_mem_nil, or_false, not_or] at h
  rw [mpNexthop, if_neg h.1, if_neg h.2.1, if_neg h.2.2.1, if_neg h.2.2.2]
  exact .pure false

theorem decides_mpReach (h : Ahead v st) (hlen : args.length = v.length) :
    Decides (bgpMpReachParse args) st v.length (mpReachOk v) := by
  have hrd := h.readable_le
  have hsh (hlt : v.length < 5) :
      Decides (bgpMpReachParse args) st v.length false := by
    show Refuses (bgpMpReachParse args) st
    rw [Refuses, bgpMpReachParse, modifyExtra_bind, get_bind, hlen, if_pos (.inr hlt)]
    exact ⟨_, _, rfl, by decide⟩
  match v, h, hlen, hrd, hsh with
  | [], _, _, _, hsh => exact hsh (by simp)
  | [_], _, _, _, hsh | [_, _], _, _, _, hsh | [_, _, _], _, _, _, hsh => exact hsh (by simp)
  | x :: y :: safi :: nh :: rest, h, hlen, hrd, hsh =>
    by_cases hrs : rest = []
    · have hb : mpReachOk (x :: y :: safi :: nh :: rest) = false := by simp [mpReachOk, hrs]
      rw [hb]
      exact hsh (by simp [hrs])
    · have hp := length_pos_iff.mpr hrs
      have hsp : x :: y :: safi :: nh :: rest = [x, y] ++ ([safi] ++ ([nh] ++ rest)) := rfl
      have htot : args.length = 4 + rest.length := by
        rw [hlen]
        simp only [length_cons]
        omega
      rw [hsp] at h ⊢
      rw [length_append, length_append, length_append, bgpMpReachParse]
      refine .first (walks_modifyExtra (by intro _; rfl))
        fun st0 hu0 => .get ?_
      have h₀ := h.stay hu0
      have hguard : ¬ (args.length > st0.input.readable ∨ args.length < bgpMpReachMinSize) := by
        have := h₀.readable_le
        simp only [bgpMpReachMinSize, length_append, length_cons, length_nil] at *
        omega
      simp only
      rw [if_neg hguard]
      refine .walk (h₀.left.walks (reads_bytes2 rfl)) fun st1 hu1 => ?_
      have h₁ := h₀.right hu1
      refine .walk (h₁.left.walks (reads_getc safi)) fun st2 hu2 => ?_
      have h₂ := h₁.right hu2
      refine .walk (h₂.left.walks (reads_getc nh)) fun st3 hu3 => ?_
      refine .first (walks_modifyExtra (by intro _; rfl))
        fun st4 hu4 => .get ?_
      have h₄ := (h₂.right hu3).stay hu4
      have hgp : st4.input.getp = st0.input.getp + 4 :=
        (show Ahead ([x, y, safi, nh] ++ rest) st0 from h₀).left.getp_eq
          (hu1.trans (hu2.trans (hu3.trans hu4)))
      have hlf : args.length - (st4.input.getp - st0.input.getp) = rest.length := by omega
      rw [hlf]
      by_cases hnh : rest.length < nh.toNat
      · have hb : mpReachOk ([x, y] ++ ([safi] ++ ([nh] ++ rest))) = false := by
          simp only [mpReachOk, cons_append, nil_append]
          simp only [Bool.and_eq_false_iff, decide_eq_false_iff_not]
          omega
        rw [if_pos hnh, hb]
        exact decides_error
      · rw [if_neg hnh]
        by_cases hmb : nh ∈ mpNexthopLens
        · have hus : (rest.take nh.toNat).length = nh.toNat :=
            length_take_of_le (Nat.le_of_not_lt hnh)
          have hrs' := take_append_drop nh.toNat rest
          have hsu := congrArg List.length hrs'
          rw [length_append] at hsu
          rw [← hrs'] at h₄
          rw [← hsu]
          refine .walk (walks_mpNexthop h₄.left hus hmb) fun st5 hu5 => ?_
          have hgp5 := h₄.left.getp_eq hu5
          rw [if_pos rfl]
          have hok : mpReachOk ([x, y] ++ ([safi] ++ ([nh] ++ rest)))
              = (decide (1 < (rest.drop nh.toNat).length)
                && nlriOk (UInt16.ofNat (ofBE [x, y])) safi ((rest.drop nh.toNat).drop 1)) := by
            have hdec : decide (nh.toNat + 1 < rest.length) = decide (1 < rest.length - nh.toNat) :=
              decide_eq_decide.mpr (by omega)
            simp [mpReachOk, hmb, drop_drop, hdec]
          rw [hok]
          exact decides_mpReachNlri _ safi (h₄.right hu5) (by omega)
            (by omega)
        · have hb : mpReachOk ([x, y] ++ ([safi] ++ ([nh] ++ rest))) = false := by
            simp [mpReachOk, hmb]
          rw [hb]
          exact .first (mpNexthop_bad hmb) fun _ _ => decides_error

end

/-! ## All attributes -/

variable {peer : Peer} {a : RawAttr} {args : AttrArgs} {st : ParseState}

theorem valueOk_unknown (peer : Peer) (hkn : a.type ∉ knownAttrs) :
    valueOk peer a = checkFlag (0xF0 &&& a.flags) attrFlagOptional := by
  have hne : ∀ t ∈ knownAttrs, a.type ≠ t := fun t ht heq =>
    hkn (heq ▸ ht)
  simp only [knownAttrs, mem_cons, not_mem_nil, or_false, forall_eq_or_imp, forall_eq] at hne
  simp [valueOk, hne]

theorem verdict_unknown {uninit : UInt16} (hat : AtValue a args st)
    (hwf : ParseWf st) (hkn : a.type ∉ knownAttrs) (hft : faulty a = false) :
    Verdict peer a (bgpAttrUnknown peer args uninit) st := by
  have hvl := valueOk_unknown peer hkn
  have hvw : a.type ∉ [attrAsPath, attrAs4Path, attrAggregator, attrAs4Aggregator] := fun hmb =>
    hkn ((by decide +kernel : ∀ t ∈ [attrAsPath, attrAs4Path,
      attrAggregator, attrAs4Aggregator], t ∈ knownAttrs) _ hmb)
  have hig : a.type ∉ ignorableAttrs := fun hmb =>
    hkn ((by decide +kernel : ∀ t ∈ ignorableAttrs, t ∈ knownAttrs) _ hmb)
  rw [bgpAttrUnknown, hat.length, hat.flags]
  refine verdict_decides hwf hvl hvw (fun _ => hig) ?_
  refine .last (hat.ahead.walks (reads_forwardGetp a.value)) fun st1 hu => ?_
  cases hopt : checkFlag (0xF0 &&& a.flags) attrFlagOptional with
  | true =>
    have hpln : a.type ≠ 19 ∧ checkFlag (0xF0 &&& a.flags) attrFlagTrans = false := by
      simpa [faulty, hkn, hopt] using hft
    rw [hpln.2]
    exact decides_proceed
  | false => exact hat.decides_malformed hu hig le_rfl

theorem verdict_dispatch {uninit : UInt8 → UInt16} (hat : AtValue a args st)
    (hwf : ParseWf st) (hft : faulty a = false) :
    Verdict peer a (attrDispatch peer args uninit) st := by
  rw [attrDispatch, hat.type]
  refine .ite (verdict_origin hat hwf) fun h1 => .ite (verdict_aspath hat hwf)
    fun h2 => .ite (verdict_as4Path hat hwf) fun h3 =>
    .ite (verdict_nexthop hat hwf) fun h4 => .ite (verdict_med hat hwf)
    fun h5 => .ite (verdict_localPref hat hwf) fun h6 =>
    .ite (verdict_atomic hat hwf) fun h7 =>
    .ite (verdict_aggregator hat hwf) fun h8 =>
    .ite (verdict_as4Aggregator hat hwf) fun h9 =>
    .ite (verdict_community hat hwf) fun h10 =>
    .ite (verdict_originatorId hat hwf) fun h11 =>
    .ite (verdict_clusterList hat hwf) fun h12 =>
    .ite (fun hty => ?_) fun h13 => .ite (fun hty => ?_) fun h14 =>
    .ite (verdict_extCommunities hat hwf) fun h15 => ?_
  · exact verdict_decides hwf (by rw [valueOk]; simp only [hty]; rfl)
      (by rw [hty]; decide) (fun _ => by rw [hty]; decide)
      (decides_mpReach hat.ahead hat.length)
  · exact verdict_decides hwf (by rw [valueOk]; simp only [hty]; rfl)
      (by rw [hty]; decide) (fun _ => by rw [hty]; decide)
      (decides_mpUnreach hat.ahead hat.length)
  · refine verdict_unknown hat hwf ?_ hft
    simp only [knownAttrs, mem_cons, not_mem_nil, or_false, not_or]
    exact ⟨h1, h2, h3, h4, h5, h6, h7, h8, h9, h10, h11, h12, h13, h14, h15⟩

end SdnQuagga
