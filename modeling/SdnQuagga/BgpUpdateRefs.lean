import SdnQuagga.BgpAttrErase
import SdnQuagga.BgpAttrField
import SdnQuagga.BgpUpdate

/-!
# The references of an UPDATE, part by part

Each part of `bgp_update_receive` on the bytes it reads: what it returns and
what it leaves in the intern tables. `Parsed` is what holds behind the
attribute parser.
-/

namespace SdnQuagga

open FaultM SdnQuagga.Stream RefTable List

/-! ## Tables -/

section

instance : Add Interns :=
  ⟨fun i j => ⟨i.aspath + j.aspath, i.community + j.community,
    i.ecommunity + j.ecommunity, i.cluster + j.cluster, i.transit + j.transit⟩⟩

instance : Zero Interns := ⟨⟨0, 0, 0, 0, 0⟩⟩

instance : AddCommMonoid Interns where
  add_assoc i j k := by
    ext : 1 <;> exact add_assoc _ _ _
  zero_add i := by
    ext : 1 <;> exact zero_add _
  add_zero i := by
    ext : 1 <;> exact add_zero _
  add_comm i j := by
    ext : 1 <;> exact add_comm _ _
  nsmul := nsmulRec

/-- The references of the parts; the AS4_PATH is not one of the attribute
set. -/
def HeldParts.refs (h : HeldParts) : Interns :=
  ⟨held h.aspath, held h.community, held h.ecommunity, held h.cluster, held h.transit⟩

def sumRefs (hs : List HeldParts) : Interns := (hs.map HeldParts.refs).sum

variable {st : RefState} {i : Interns} {h : HeldParts}

/-- References that are held can be given back. -/
theorem uninternParts_ok (his : st.interns = i + h.refs) :
    uninternParts h st = .ok ((), { st with interns := i }) := by
  obtain ⟨parse, interns, interned⟩ := st
  obtain rfl : interns = i + h.refs := his
  rw [uninternParts, bind_ok (uninternIn_ok aspathSlot (by exact rfl)),
    bind_ok (uninternIn_ok communitySlot (by exact rfl)),
    bind_ok (uninternIn_ok ecommunitySlot (by exact rfl)),
    bind_ok (uninternIn_ok clusterSlot (by exact rfl)),
    uninternIn_ok transitSlot (by exact rfl)]
  rfl

theorem forM_uninternParts {hs : List HeldParts} (his : st.interns = i + sumRefs hs) :
    hs.forM uninternParts st = .ok ((), { st with interns := i }) := by
  induction hs generalizing st with
  | nil =>
    obtain ⟨parse, interns, interned⟩ := st
    obtain rfl : interns = i := his.trans (add_zero i)
    rfl
  | cons h hs ih =>
    have hfst : st.interns = i + sumRefs hs + h.refs := by
      rw [his, sumRefs, map_cons, sum_cons, add_right_comm, add_assoc]
      rfl
    exact (bind_ok (uninternParts_ok hfst)).trans (ih rfl)

/-- The tables without the transit attributes, equal to some or not. -/
def Interns.dropTransit (val : Option (List UInt8)) (i : Interns) : Interns :=
  match val with
  | none => i
  | some val => { i with transit := fun v => if v = val then 0 else i.transit v }

/-- The references that the parser has left for the attribute set. -/
def keptParts (ret : ParseRet) (st : ParseState) : HeldParts :=
  { heldParts st with
    transit := if ret = .proceed then (heldParts st).transit else none }

theorem kept_eq (ret : ParseRet) (st : ParseState) (base : Interns) :
    (heldParts st).kept ret base = base + (keptParts ret st).refs := by
  ext : 1
  · show base.aspath + held (heldParts st).aspath + held none = _
    rw [held_none, add_zero]
    rfl
  · rfl
  · rfl
  · rfl
  · show base.transit + (if ret = .proceed then held (heldParts st).transit
      else 0) = base.transit + held (if ret = .proceed then (heldParts st).transit else none)
    split
    · rfl
    · rfl

/-- What the parser has left in the tables. -/
structure Held (before : Interns) (ret : ParseRet) (st : RefState) : Prop where
  interns : st.interns = before + (keptParts ret st.parse).refs
  transit : st.transitInterned = (decide (ret = .proceed) && (heldParts st.parse).transit.isSome)

/-- `bgp_attr_unintern_sub` takes an unknown attribute out of the table that
was never put in, unless the parser has gone through. -/
theorem bgpAttrUninternSub_ok {ret : ParseRet} (hhl : Held i ret st) :
    bgpAttrUninternSub st = .ok ((), { st with
      interns := if ret = .proceed then i
        else i.dropTransit (heldParts st.parse).transit }) := by
  have his := hhl.interns
  have hintd := hhl.transit
  rw [bgpAttrUninternSub, get_bind]
  unfold keptParts at his
  split_ifs at his with hrt
  · rw [decide_eq_true hrt, Bool.true_and] at hintd
    rw [if_pos hrt]
    cases htr : (heldParts st.parse).transit with
    | none =>
      rw [htr] at his hintd
      rw [if_neg (by rw [hintd]; decide)]
      exact bind_ok (uninternParts_ok his)
    | some val =>
      rw [htr] at hintd
      rw [if_pos (by exact hintd)]
      exact uninternParts_ok his
  · rw [decide_eq_false hrt, Bool.false_and] at hintd
    rw [if_neg (by rw [hintd]; decide), bind_ok (uninternParts_ok his), if_neg hrt]
    cases (heldParts st.parse).transit with
    | none => rfl
    | some val => rfl

end

/-! ## The fields of the message -/

/-- A field behind its length of two bytes. -/
def takeField : List UInt8 → Option (List UInt8 × List UInt8)
  | a :: b :: rest =>
    if rest.length < ofBE [a, b] then none
    else some (rest.take (ofBE [a, b]), rest.drop (ofBE [a, b]))
  | _ => none

theorem takeField_some {bs f rest : List UInt8} (h : takeField bs = some (f, rest)) :
    ∃ a b, bs = a :: b :: (f ++ rest) ∧ f.length = ofBE [a, b] := by
  unfold takeField at h
  split at h
  next a b tail =>
    split at h
    · cases h
    next hlen =>
      cases h
      refine ⟨a, b, ?_, length_take_of_le (Nat.not_lt.mp hlen)⟩
      rw [take_append_drop]
  · cases h

section

variable {input : Stream} {body : List UInt8} {before : Interns}

/-- The message with `k` bytes read. -/
def messageAt (input : Stream) (size : Nat) (before : Interns) (k : Nat) :
    UpdateState where
  ref := ⟨{ ParseState.start input size with input := input.advance k }, before, false⟩
  fsmError := false
  eorReceived := []

theorem messageAt_zero (input : Stream) (size : Nat) (before : Interns) :
    messageAt input size before 0 = .start input size before := by
  unfold messageAt
  rw [advance_zero]
  rfl

variable {st : UpdateState}

theorem inRef_ok {α : Type} {m : RefM α} {x : α} {ref : RefState} (h : m st.ref = .ok (x, ref)) :
    inRef m st = .ok (x, { st with ref := ref }) := by
  rw [inRef, h]

theorem inMessage_ok {α : Type} {m : ParseM α} {x : α} {p : ParseState}
    (h : m st.ref.parse = .ok (x, p)) :
    inMessage m st = .ok (x, { st with ref := { st.ref with parse := p } }) :=
  inRef_ok (inParse_ok h)

theorem messageAt_unread (h : body <+: input.unread) (k : Nat) :
    body.drop k <+: (input.advance k).unread := by
  rw [advance_unread]
  obtain ⟨tail, htl⟩ := h
  rw [← htl, drop_append]
  exact prefix_append _ _

variable {k : Nat} {rest f : List UInt8}

theorem messageAt_getp (h : body <+: input.unread) (hk : k ≤ body.length) :
    (messageAt input body.length before k).ref.parse.input.getp = input.getp + k := by
  have hlen := h.length_le
  rw [unread_length] at hlen
  exact advance_getp (hk.trans hlen)

theorem message_ahead (before : Interns) (h : body <+: input.unread) (hk : k ≤ body.length)
    (hbd : body.drop k = f ++ rest) :
    f <+: (messageAt input body.length before k).ref.parse.input.unread
      ∧ (messageAt input body.length before k).ref.parse.input.getp + f.length
        ≤ (messageAt input body.length before k).ref.parse.fieldEnd := by
  have hlen : f.length ≤ body.length - k := by
    rw [← length_drop, hbd, length_append]
    omega
  refine ⟨prefix_of_append (hbd ▸ messageAt_unread h k), ?_⟩
  rw [messageAt_getp h hk]
  show input.getp + k + f.length ≤ input.getp + body.length
  omega

theorem takeField_size (hfd : takeField (body.drop k) = some (f, rest)) :
    k + 2 + (f.length + rest.length) = body.length := by
  obtain ⟨a, b, hdr, -⟩ := takeField_some hfd
  have hlen := congrArg List.length hdr
  rw [length_drop] at hlen
  simp only [length_cons, length_append] at hlen
  omega

theorem message_reads {α : Type} {m : StreamM α} {x : α} {bs : List UInt8} (before : Interns)
    (h : body <+: input.unread) (hm : Reads m bs x)
    (hbd : body.drop k = bs ++ rest) (hk : k ≤ body.length) :
    inMessage (SdnQuagga.input m) (messageAt input body.length before k)
      = .ok (x, messageAt input body.length before (k + bs.length)) := by
  obtain ⟨hbs, he⟩ := message_ahead before h hk hbd
  rw [inMessage_ok (input_reads hm hbs he)]
  simp only [messageAt, advance_advance]

theorem toNat_two (a b : UInt8) : (UInt16.ofNat (ofBE [a, b])).toNat = ofBE [a, b] := by
  have hlt : ofBE [a, b] < 256 ^ 2 := ofBE_lt [a, b]
  rw [UInt16.toNat_ofNat', Nat.mod_eq_of_lt (by omega)]

variable (before)

theorem updateFieldLength_some (h : body <+: input.unread) (hk : k ≤ body.length)
    (hfd : takeField (body.drop k) = some (f, rest)) :
    updateFieldLength (input.getp + body.length) (messageAt input body.length before k)
      = .ok (some f.length, messageAt input body.length before (k + 2))
      ∧ body.drop (k + 2) = f ++ rest := by
  obtain ⟨a, b, hbd, hlen⟩ := takeField_some hfd
  have hdr : body.drop (k + 2) = f ++ rest := by
    rw [← drop_drop, hbd]
    rfl
  have hsize := takeField_size hfd
  have hgp := @messageAt_getp input body before (k + 2) h (by omega)
  have hrd := message_reads before h (reads_bytes2 rfl)
    (show body.drop k = [a, b] ++ (f ++ rest) from hbd) hk
  have hnat : (UInt16.ofNat (ofBE [a, b])).toNat = f.length := (toNat_two a b).trans hlen.symm
  refine ⟨?_, hdr⟩
  rw [updateFieldLength, get_bind, messageAt_getp h hk, if_neg (by omega), bind_ok hrd, hnat,
    get_bind]
  rw [if_neg (by
    show ¬ (messageAt input body.length before (k + 2)).ref.parse.input.getp
      + f.length > input.getp + body.length
    omega)]
  rfl

theorem updateFieldLength_none (h : body <+: input.unread)
    (hk : k ≤ body.length) (hfd : takeField (body.drop k) = none) :
    ∃ st, updateFieldLength (input.getp + body.length)
        (messageAt input body.length before k) = .ok (none, st) ∧ st.ref.interns = before := by
  rw [updateFieldLength, get_bind, messageAt_getp h hk]
  split_ifs with hsh
  · exact ⟨_, rfl, rfl⟩
  obtain ⟨a, b, tail, hbd⟩ : ∃ a b tail, body.drop k = a :: b :: tail := by
    have hlen : (body.drop k).length = body.length - k := length_drop
    match hdr : body.drop k with
    | [] => rw [hdr] at hlen; simp only [length_nil] at hlen; omega
    | [a] => rw [hdr] at hlen; simp only [length_singleton] at hlen; omega
    | a :: b :: tail => exact ⟨a, b, tail, rfl⟩
  have hrd := message_reads before h (reads_bytes2 rfl)
    (show body.drop k = [a, b] ++ tail from hbd) hk
  have hnat := toNat_two a b
  have hgp := @messageAt_getp input body before (k + 2) h (by omega)
  have htl : tail.length < ofBE [a, b] := by
    rw [hbd, takeField] at hfd
    by_contra hle
    rw [if_neg hle] at hfd
    cases hfd
  have hlen : body.length - k = tail.length + 2 := by
    rw [← length_drop, hbd]
    rfl
  rw [bind_ok hrd, hnat, get_bind]
  rw [if_pos (by
    show (messageAt input body.length before (k + 2)).ref.parse.input.getp
      + ofBE [a, b] > input.getp + body.length
    omega)]
  exact ⟨_, rfl, rfl⟩

variable {before}

theorem sanityCheck_ok {p : ParseState}
    (hf : f <+: p.input.unread) (he : p.input.getp + f.length ≤ p.fieldEnd) :
    ∃ notified, bgpNlriSanityCheck 1 f.length p
      = .ok (nlriSanityCheck 1 f, { p with notified := notified })
      ∧ (nlriSanityCheck 1 f = true → notified = p.notified) := by
  rw [bgpNlriSanityCheck, bind_ok (inputBytes_ok hf he)]
  cases hsa : nlriSanityCheck 1 f with
  | true => exact ⟨_, rfl, fun _ => rfl⟩
  | false => exact ⟨_, rfl, fun h => by cases h⟩

theorem readNlri_ok (hf : f <+: st.ref.parse.input.unread)
    (he : st.ref.parse.input.getp + f.length ≤ st.ref.parse.fieldEnd)
    (hsa : nlriSanityCheck 1 f = true) :
    inMessage (bgpNlriSanityCheck 1 f.length) st = .ok (true, st)
      ∧ inMessage (inputBytes f.length) st = .ok (f, st)
      ∧ inMessage (SdnQuagga.input (forwardGetp f.length)) st
        = .ok ((), { st with ref := { st.ref with parse := { st.ref.parse with
          input := st.ref.parse.input.advance f.length } } }) := by
  obtain ⟨notified, hck, hsm⟩ := sanityCheck_ok hf he
  rw [hsm hsa, hsa] at hck
  exact ⟨inMessage_ok hck, inMessage_ok (inputBytes_ok hf he),
    inMessage_ok (input_reads (reads_forwardGetp f) hf he)⟩

variable (before)

section

variable (h : body <+: input.unread)
include h

theorem updateWithdrawn_some
    (hfd : takeField body = some (f, rest)) (hsa : nlriSanityCheck 1 f = true) :
    updateWithdrawn (input.getp + body.length) (messageAt input body.length before 0)
      = .ok (some f, messageAt input body.length before (2 + f.length))
      ∧ body.drop (2 + f.length) = rest := by
  obtain ⟨hln, hbd⟩ := updateFieldLength_some before h (Nat.zero_le _) hfd
  have hsize := @takeField_size body 0 rest f hfd
  refine ⟨?_, ?_⟩
  · rw [updateWithdrawn, bind_ok hln]
    cases f with
    | nil => rfl
    | cons b f =>
      obtain ⟨hf, he⟩ := message_ahead before h (by omega) hbd
      obtain ⟨hck, hby, hfwd⟩ := readNlri_ok hf he hsa
      refine (bind_ok hck).trans ((bind_ok hby).trans ((bind_ok hfwd).trans ?_))
      simp only [messageAt, advance_advance]
      rfl
  · rw [← drop_drop, hbd, drop_left]

theorem updateWithdrawn_none
    (hfd : ∀ f rest, takeField body = some (f, rest) → nlriSanityCheck 1 f = false) :
    ∃ st, updateWithdrawn (input.getp + body.length)
        (messageAt input body.length before 0) = .ok (none, st) ∧ st.ref.interns = before := by
  rw [updateWithdrawn]
  cases htk : takeField body with
  | none =>
    obtain ⟨st, hln, his⟩ := updateFieldLength_none before h (Nat.zero_le _) htk
    rw [bind_ok hln]
    exact ⟨st, rfl, his⟩
  | some field =>
    obtain ⟨f, rest⟩ := field
    have hsa := hfd f rest htk
    obtain ⟨hln, hbd⟩ := updateFieldLength_some before h (Nat.zero_le _) htk
    have hsize := @takeField_size body 0 rest f htk
    cases f with
    | nil =>
      rw [nlriSanityCheck] at hsa
      cases hsa
    | cons b f =>
      obtain ⟨hf, he⟩ := message_ahead before h (by omega) hbd
      obtain ⟨notified, hck, -⟩ := sanityCheck_ok hf he
      rw [hsa] at hck
      refine ⟨_, (bind_ok hln).trans (bind_ok (inMessage_ok hck)), rfl⟩

end

variable {before}

end

/-! ## The attributes -/

/-- The attributes of the field that the parser passes. -/
def passedIn (peer : Peer) (attrs : List UInt8) : List RawAttr :=
  passed peer [] (splitField attrs).1

/-- What is taken for the announced routes: behind a withdrawal the rest of
the attribute field comes first. -/
def updateBytes (peer : Peer) (attrs nlri : List UInt8) : List UInt8 :=
  attrs.drop (fieldRead peer [] attrs) ++ nlri

/-- Behind the attribute parser, which has not returned an error. -/
structure Parsed (peer : Peer) (endp : Nat) (before : Interns)
    (attrs nlri : List UInt8) (ret : ParseRet) (st : UpdateState) : Prop where
  held : Held before ret st.ref
  mandatory : mandatoryOf st.ref.parse = mandatoryIn peer (passedIn peer attrs)
  transit : (heldParts st.ref.parse).transit.isSome = (passedIn peer attrs).any unknownTransitive
  unread : updateBytes peer attrs nlri <+: st.ref.parse.input.unread
  getp : st.ref.parse.input.getp + (updateBytes peer attrs nlri).length = endp
  fieldEnd : st.ref.parse.fieldEnd = endp

section

variable {up : UpdatePeer} {uninit : UInt8 → UInt16} {input : Stream}
  {body attrs nlri : List UInt8} {before : Interns} {k : Nat} (peer : Peer)

theorem passedIn_nil : passedIn peer [] = [] := by
  rw [passedIn, splitField_none rfl]
  rfl

theorem updateBytes_nil (nlri : List UInt8) : updateBytes peer [] nlri = nlri := by
  rw [updateBytes, drop_nil, nil_append]

theorem fieldVerdict_nil : fieldVerdict peer [] = .proceed := by
  rw [fieldVerdict, splitField_none rfl]
  rfl

theorem updateAttributes_nil (up : UpdatePeer) (uninit : UInt8 → UInt16)
    (before : Interns) (h : body <+: input.unread) (hk : k ≤ body.length)
    (hfd : takeField (body.drop k) = some ([], nlri)) :
    ∃ st, updateAttributes up uninit (input.getp + body.length)
        (messageAt input body.length before k) = .ok (some (0, .proceed), st)
      ∧ Parsed up.peer (input.getp + body.length) before [] nlri .proceed st := by
  obtain ⟨hln, hbd⟩ := updateFieldLength_some before h hk hfd
  have hsize := takeField_size hfd
  rw [length_nil, Nat.zero_add] at hsize
  refine ⟨_, (bind_ok hln).trans rfl, ⟨?_, rfl⟩, ?_, ?_, ?_, ?_, rfl⟩
  · exact (add_zero before).symm
  · rw [passedIn_nil]
    rfl
  · rw [passedIn_nil]
    rfl
  · rw [updateBytes_nil, ← nil_append nlri, ← hbd]
    exact messageAt_unread h (k + 2)
  · rw [updateBytes_nil]
    have hgp := @messageAt_getp input body before (k + 2) h (by omega)
    omega

theorem reached_prefix (seen : List UInt8) (as : List RawAttr) : reached peer seen as <+: as := by
  induction as generalizing seen with
  | nil => exact prefix_rfl
  | cons a as ih =>
    rw [reached]
    split
    · exact nil_prefix
    split
    · exact cons_prefix_cons.mpr ⟨rfl, ih _⟩
    · exact cons_prefix_cons.mpr ⟨rfl, nil_prefix⟩

theorem attrsWire_splitField_le (bs : List UInt8) :
    (attrsWire (splitField bs).1).length ≤ bs.length := by
  induction hn : bs.length using Nat.strong_induction_on generalizing bs with
  | _ n ih =>
    subst hn
    cases hnx : nextAttr bs with
    | none =>
      rw [splitField_none hnx]
      exact Nat.zero_le _
    | some next =>
      obtain ⟨a, rest⟩ := next
      obtain ⟨rfl, -⟩ := nextAttr_bytes hnx
      have hp := bytes_pos a
      rw [splitField_some hnx, attrsWire_cons, length_append, length_append]
      have hrs := ih rest.length (by rw [length_append]; omega) rest rfl
      omega

theorem fieldRead_le (seen bs : List UInt8) : fieldRead peer seen bs ≤ bs.length := by
  obtain ⟨more, hmo⟩ := reached_prefix peer seen (splitField bs).1
  have hle := attrsWire_splitField_le bs
  rw [← hmo, attrsWire_append, length_append] at hle
  rw [fieldRead]
  omega

/-- The parser's error: nothing is given back. -/
theorem updateAttributes_error (before : Interns) (h : body <+: input.unread) (hk : k ≤ body.length)
    (hfd : takeField (body.drop k) = some (attrs, nlri)) {p : ParseState}
    (hr : bgpAttrParse up.peer uninit attrs.length
      (.start (input.advance (k + 2)) attrs.length) = .ok (.error, p)) :
    ∃ st, updateAttributes up uninit (input.getp + body.length)
        (messageAt input body.length before k) = .ok (none, st)
      ∧ st.ref.interns = (if fieldLeaks up.peer attrs
        then (heldParts p).counted before else (heldParts p).kept .error before)
      ∧ (fieldLeaks up.peer attrs = true → p.as4Path.isSome = true) := by
  obtain ⟨hln, hbd⟩ := updateFieldLength_some before h hk hfd
  have hats : attrs <+: (input.advance (k + 2)).unread :=
    prefix_of_append (hbd ▸ messageAt_unread h (k + 2))
  obtain ⟨rs, hrf, rfl, hlf⟩ := refAttrParse_ok before hats hr
  cases attrs with
  | nil =>
    have hv := (parse_facts hats hr).verdict
    rw [fieldVerdict_nil] at hv
    cases hv
  | cons b attrs =>
    refine ⟨_, (bind_ok hln).trans ((modify_bind _ _ _).trans
      ((bind_ok (inRef_ok hrf)).trans rfl)), hlf.interns, fun hlk => (hlf.as4Path hlk).1⟩

/-- A withdrawal is an exit that releases the AS4_PATH. -/
theorem leaks_withdraw {peer : Peer} (h : fieldVerdict peer attrs = .withdraw) :
    fieldLeaks peer attrs = false := by
  have hlp complete as seen
      read (hv : loopVerdict peer complete seen as = .withdraw) :
      leaksAs4Path peer complete read seen as = false := by
    induction as generalizing seen read with
    | nil =>
      rw [loopVerdict] at hv
      split at hv
      · cases hv
      · cases hv
    | cons a as ih =>
      rw [loopVerdict] at hv
      rw [leaksAs4Path]
      split at hv
      · cases hv
      rename_i hmb
      rw [if_neg hmb]
      split at hv
      next hac =>
        rw [if_pos hac]
        exact ih _ _ hv
      rename_i hac
      rw [if_neg hac]
      split at hv
      next hwds =>
        simp only [withdraws, Bool.and_eq_true] at hwds
        rw [hwds.1.2, Bool.not_true, Bool.and_false]
      · cases hv
  refine hlp _ _ _ _ ?_
  rw [fieldVerdict] at h
  split at h
  · split at h
    · cases h
    · cases h
  · exact h

/-- The parser goes through, or withdraws the routes. -/
theorem updateAttributes_cons (before : Interns) (h : body <+: input.unread) (hk : k ≤ body.length)
    (hfd : takeField (body.drop k) = some (attrs, nlri)) {ret : ParseRet}
    {p : ParseState} (hne : attrs ≠ []) (hrt : ret ≠ .error)
    (hr : bgpAttrParse up.peer uninit attrs.length
      (.start (input.advance (k + 2)) attrs.length) = .ok (ret, p)) :
    ∃ st, updateAttributes up uninit (input.getp + body.length)
        (messageAt input body.length before k) = .ok (some (attrs.length, ret), st)
      ∧ Parsed up.peer (input.getp + body.length) before attrs nlri ret st := by
  obtain ⟨hln, hbd⟩ := updateFieldLength_some before h hk hfd
  have hats : attrs <+: (input.advance (k + 2)).unread :=
    prefix_of_append (hbd ▸ messageAt_unread h (k + 2))
  have hfc := parse_facts hats hr
  obtain ⟨rs, hrf, rfl, hlf⟩ := refAttrParse_ok before hats hr
  have hsize := takeField_size hfd
  have hgp : (input.advance (k + 2)).getp = input.getp + (k + 2) :=
    @messageAt_getp input body before (k + 2) h (by omega)
  have hrd := fieldRead_le up.peer [] attrs
  have hrunAttrs : updateAttributes up uninit (input.getp + body.length)
      (messageAt input body.length before k) = .ok (some (attrs.length, ret),
        { messageAt input body.length before (k + 2) with
          ref := { rs with parse := { rs.parse with
            fieldEnd := input.getp + body.length } } }) := by
    cases attrs with
    | nil => exact absurd rfl hne
    | cons b attrs =>
      rw [updateAttributes]
      refine (bind_ok hln).trans ((modify_bind _ _ _).trans
        ((bind_ok (inRef_ok hrf)).trans ((modify_bind _ _ _).trans ?_)))
      rw [if_neg hrt]
      rfl
  refine ⟨_, hrunAttrs, ⟨?_, hlf.transit⟩, hfc.mandatory hrt, hfc.transit, ?_, ?_, rfl⟩
  · have his := hlf.interns
    have hlk : fieldLeaks up.peer attrs = false := by
      by_contra hne
      have hprc := (hlf.as4Path (Bool.eq_true_of_not_eq_false hne)).2
      have hwd : ret = .withdraw := by
        cases ret with
        | proceed => exact absurd rfl hprc
        | error => exact absurd rfl hrt
        | withdraw => rfl
      exact hne (leaks_withdraw (hfc.verdict.symm.trans hwd))
    rwa [hlk, if_neg Bool.false_ne_true, kept_eq] at his
  · show updateBytes up.peer attrs nlri <+: rs.parse.input.unread
    rw [hfc.unread hrt, updateBytes, ← drop_append_of_le_length hrd]
    obtain ⟨tail, htl⟩ := messageAt_unread h (k + 2)
    have hdr : (attrs ++ nlri ++ tail).drop (fieldRead up.peer [] attrs)
        = (attrs ++ nlri).drop (fieldRead up.peer [] attrs) ++ tail :=
      drop_append_of_le_length (by rw [length_append]; omega)
    rw [← htl, hbd, hdr]
    exact prefix_append _ _
  · show rs.parse.input.getp + (updateBytes up.peer attrs nlri).length = _
    have he := hfc.getp hrt
    rw [updateBytes, length_append]
    omega

end

/-! ## The routes -/

/-- The attribute that `bgp_attr_check` misses. -/
def missing (peer : Peer) (flags : Mandatory) : Option UInt8 :=
  if peerSort peer = .ibgp ∧ ¬ flags.localPref then some attrLocalPref
  else if ¬ flags.nextHop then some attrNextHop
  else if ¬ flags.asPath then some attrAsPath
  else if ¬ flags.origin then some attrOrigin
  else none

/-- `bgp_attr_check` is made and fails. -/
def checkFails (up : UpdatePeer) (attrs nlri : List UInt8) : Bool :=
  up.afc .ip .unicast && updateBytes up.peer attrs nlri ≠ []
    && (missing up.peer (mandatoryIn up.peer (passedIn up.peer attrs))).isSome

variable {up : UpdatePeer} {rib : Rib} {endp : Nat}
  {attrs nlri withdraw : List UInt8} {before : Interns} {ret : ParseRet}
  {st st' : UpdateState}

/-- Whatever has been notified, the parts are given back. -/
theorem uninternSub_notified (hhl : Held before ret st.ref) (notified : List UpdateNotify) :
    ∃ st', inRef bgpAttrUninternSub { st with ref := { st.ref with
        parse := { st.ref.parse with notified := notified } } } = .ok ((), st')
      ∧ st'.ref.interns = if ret = .proceed then before
        else before.dropTransit (heldParts st.ref.parse).transit := by
  have hnotified : Held before ret { st.ref with parse := { st.ref.parse with
      notified := notified } } := ⟨hhl.interns, hhl.transit⟩
  exact ⟨_, inRef_ok (bgpAttrUninternSub_ok hnotified), rfl⟩

section

variable (h : Parsed up.peer endp before attrs nlri ret st)
include h

theorem updateNlri_none (hsa : nlriSanityCheck 1 (updateBytes up.peer attrs nlri) = false) :
    ∃ st', updateNlri endp st = .ok (none, st') ∧ st'.ref.interns = if ret = .proceed then before
        else before.dropTransit (heldParts st.ref.parse).transit := by
  have hgp := h.getp
  have hlen : endp - st.ref.parse.input.getp = (updateBytes up.peer attrs nlri).length := by omega
  have hne : (updateBytes up.peer attrs nlri).length ≠ 0 := by
    intro hz
    rw [length_eq_zero_iff.mp hz, nlriSanityCheck] at hsa
    cases hsa
  obtain ⟨notified, hck, -⟩ := sanityCheck_ok h.unread (h.getp.trans h.fieldEnd.symm).le
  rw [hsa] at hck
  obtain ⟨st', hrl, his⟩ := uninternSub_notified h.held notified
  rw [updateNlri, get_bind, hlen, if_neg hne]
  exact ⟨st', (bind_ok (inMessage_ok hck)).trans (bind_ok hrl), his⟩

theorem updateNlri_some (hsa : nlriSanityCheck 1 (updateBytes up.peer attrs nlri) = true) :
    updateNlri endp st = .ok (some (updateBytes up.peer attrs nlri), { st with
      ref := { st.ref with parse := { st.ref.parse with
        input := st.ref.parse.input.advance (updateBytes up.peer attrs nlri).length } } }) := by
  have hgp := h.getp
  have hlen : endp - st.ref.parse.input.getp = (updateBytes up.peer attrs nlri).length := by omega
  rw [updateNlri, get_bind, hlen]
  by_cases hz : (updateBytes up.peer attrs nlri).length = 0
  · rw [if_pos hz, hz, advance_zero, length_eq_zero_iff.mp hz]
    rfl
  · obtain ⟨hck, hby, hfwd⟩ := readNlri_ok h.unread (h.getp.trans h.fieldEnd.symm).le hsa
    rw [if_neg hz]
    exact (bind_ok hck).trans ((bind_ok hby).trans (bind_ok hfwd))

end

theorem bgpAttrCheck_ok (peer : Peer) (p : ParseState) :
    bgpAttrCheck peer p = match missing peer (mandatoryOf p) with
      | some type => .ok (false, { p with
          notified := p.notified ++ [⟨notifyUpdateMissAttr, [type]⟩] })
      | none => .ok (true, p) := by
  rw [bgpAttrCheck, get_bind]
  have hms : missingAttr peer p.attr.flag = missing peer (mandatoryOf p) := rfl
  rw [hms]
  cases missing peer (mandatoryOf p) with
  | none => rfl
  | some type => rfl

variable {update : List UInt8} {len : Nat} {attr : Option Attr}

/-- -1 from the announced routes: the check of the well-known attributes was
made and failed. -/
theorem announceRoutes_false (hr : announceRoutes up rib attr update st = .ok (false, st')) :
    update ≠ [] ∧ (missing up.peer (mandatoryOf st.ref.parse)).isSome = true := by
  unfold announceRoutes at hr
  by_cases hupd : update ≠ []
  · refine ⟨hupd, ?_⟩
    rw [if_pos hupd] at hr
    obtain ⟨ok, st1, hck, hrs⟩ := bind_eq_ok hr
    have hal := bgpAttrCheck_ok up.peer st.ref.parse
    cases hms : missing up.peer (mandatoryOf st.ref.parse) with
    | some type => rfl
    | none =>
      rw [hms] at hal
      rw [inMessage_ok hal] at hck
      cases hck
      cases hrs
  · rw [if_neg hupd] at hr
    cases hr

/-- The check fails: the attribute set is given back. -/
theorem announceRoutes_missing (up : UpdatePeer) (rib : Rib) (attr : Option Attr) (st : UpdateState)
    (hhl : Held before ret st.ref) (hupd : update ≠ [])
    (hms : (missing up.peer (mandatoryOf st.ref.parse)).isSome = true) :
    ∃ st', announceRoutes up rib attr update st = .ok (false, st')
      ∧ st'.ref.interns = if ret = .proceed then before
        else before.dropTransit (heldParts st.ref.parse).transit := by
  obtain ⟨type, hty⟩ := Option.isSome_iff_exists.mp hms
  have hck := bgpAttrCheck_ok up.peer st.ref.parse
  rw [hty] at hck
  obtain ⟨st', hrl, his⟩ := uninternSub_notified hhl
    (st.ref.parse.notified ++ [⟨notifyUpdateMissAttr, [type]⟩])
  unfold announceRoutes
  rw [if_pos hupd]
  exact ⟨st', (bind_ok (inMessage_ok hck)).trans (bind_ok hrl), his⟩

/-- The references of the routes that the message withdraws. -/
def withdrawnRefs (rib : Rib) (withdraw : List UInt8) : Interns :=
  if withdraw ≠ [] then sumRefs (rib.withdrawn withdraw) else 0

theorem withdrawRoutes_ok (his : st.ref.interns = before + withdrawnRefs rib withdraw) :
    withdrawRoutes rib withdraw st = .ok ((), { st with
      ref := { st.ref with interns := before } }) := by
  unfold withdrawRoutes
  unfold withdrawnRefs at his
  split_ifs at his with hwd
  · rw [if_pos hwd, ribWithdraw, inRef, forM_uninternParts his]
  · rw [add_zero] at his
    rw [if_neg hwd, ← his]
    rfl

theorem preserves_uninternParts (h : HeldParts) : Preserves RefState.parse (uninternParts h) :=
  (preserves_uninternIn _ _).bind fun _ => (preserves_uninternIn _ _).bind
    fun _ => (preserves_uninternIn _ _).bind fun _ =>
      (preserves_uninternIn _ _).bind fun _ => preserves_uninternIn _ _

theorem preserves_forM (hs : List HeldParts) :
    Preserves RefState.parse (hs.forM uninternParts) := by
  induction hs with
  | nil => exact .pure _
  | cons h hs ih => exact (preserves_uninternParts h).bind fun _ => ih

theorem withdrawRoutes_parse (hr : withdrawRoutes rib withdraw st = .ok ((), st')) :
    st'.ref.parse = st.ref.parse := by
  unfold withdrawRoutes at hr
  split_ifs at hr with hwd
  · rw [ribWithdraw, inRef] at hr
    cases hrf : (rib.withdrawn withdraw).forM uninternParts st.ref with
    | error e =>
      rw [hrf] at hr
      cases hr
    | ok r =>
      obtain ⟨u, ref⟩ := r
      rw [hrf] at hr
      cases hr
      exact preserves_forM _ _ _ _ hrf
  · cases hr
    rfl

theorem updateUnicast_false
    (hr : updateUnicast up rib attr len withdraw update st = .ok (false, st')) :
    up.afc .ip .unicast = true ∧ update ≠ []
      ∧ (missing up.peer (mandatoryOf st.ref.parse)).isSome = true := by
  unfold updateUnicast at hr
  split_ifs at hr with hafc
  · obtain ⟨_, st1, hwd, hrs⟩ := bind_eq_ok hr
    obtain ⟨ok, st2, hrts, he⟩ := bind_eq_ok hrs
    cases ok with
    | true =>
      obtain ⟨_, st3, -, hrt⟩ := bind_eq_ok he
      cases hrt
    | false =>
      rw [← withdrawRoutes_parse hwd]
      exact ⟨hafc, announceRoutes_false hrts⟩
  · cases hr

/-- Only the section for IPv4 unicast returns -1. -/
theorem updateFamilies_false
    (hr : updateFamilies up rib ret len withdraw update st = .ok (false, st')) :
    up.afc .ip .unicast = true ∧ update ≠ []
      ∧ (missing up.peer (mandatoryOf st.ref.parse)).isSome = true := by
  rw [updateFamilies, get_bind] at hr
  obtain ⟨ok, st1, huni, hrs⟩ := bind_eq_ok hr
  cases ok with
  | true =>
    have htrue : Returns (· = true) (do
        updateOthers up rib (if ret ≠ .withdraw then some st.ref.parse.attr
          else none) withdraw.length
        inRef bgpAttrUninternSub
        return true) :=
      .bind fun _ => .bind fun _ => .pure rfl
    cases htrue _ _ _ hrs
  | false => exact updateUnicast_false huni

/-- The check of the well-known attributes fails when the withdrawn routes
are gone. -/
theorem updateFamilies_missing (hhl : Held (before + withdrawnRefs rib withdraw) ret st.ref)
    (hafc : up.afc .ip .unicast = true) (hupd : update ≠ [])
    (hms : (missing up.peer (mandatoryOf st.ref.parse)).isSome = true) :
    ∃ st', updateFamilies up rib ret len withdraw update st = .ok (false, st')
      ∧ st'.ref.interns = if ret = .proceed then before
        else before.dropTransit (heldParts st.ref.parse).transit := by
  have his : st.ref.interns = before + (keptParts ret st.ref.parse).refs
        + withdrawnRefs rib withdraw := by rw [hhl.interns, add_right_comm]
  have hlf : Held before ret { st.ref with
      interns := before + (keptParts ret st.ref.parse).refs } :=
    ⟨rfl, hhl.transit⟩
  obtain ⟨st', hannounce, hresult⟩ := announceRoutes_missing up rib
    (if ret ≠ .withdraw then some st.ref.parse.attr else none) { st with ref := { st.ref with
      interns := before + (keptParts ret st.ref.parse).refs } }
    hlf hupd hms
  have huni : updateUnicast up rib
      (if ret ≠ .withdraw then some st.ref.parse.attr else none) len withdraw
      update st = .ok (false, st') := by
    unfold updateUnicast
    rw [if_pos hafc]
    exact (bind_ok (withdrawRoutes_ok his)).trans ((bind_ok hannounce).trans rfl)
  refine ⟨st', ?_, hresult⟩
  rw [updateFamilies, get_bind]
  exact (bind_ok huni).trans rfl

end SdnQuagga
