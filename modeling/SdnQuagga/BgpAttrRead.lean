import SdnQuagga.BgpAttrPut

/-!
# What the attribute parser makes of well-formed attributes

The parser as a fold over a list of attributes. `Handles` says that the
handler of one attribute consumes its value and changes the attribute set
by a function.
-/

namespace SdnQuagga

open FaultM SdnQuagga.Stream List

/-! ## Reads inside the field -/

variable {bs : List UInt8} {st : ParseState}

theorem input_reads {α : Type} {m : StreamM α} {a : α}
    (hm : Reads m bs a) (hbs : bs <+: st.input.unread)
    (he : st.input.getp + bs.length ≤ st.fieldEnd) :
    input m st = .ok (a, { st with input := st.input.advance bs.length }) := by
  have hlen := hbs.length_le
  rw [unread_length] at hlen
  have hgp := advance_getp hlen
  simp only [input, hm st.input hbs]
  rw [if_neg (by omega)]

variable {s : Stream}

theorem getp_advance (h : bs <+: s.unread) : (s.advance bs.length).getp = s.getp + bs.length :=
  advance_getp (h.length_le.trans_eq (unread_length s))

variable {xs ys : List UInt8}

/-- After a read the stream goes on with what followed. -/
theorem unread_advance (h : xs ++ ys <+: s.unread) : ys <+: (s.advance xs.length).unread := by
  obtain ⟨t, ht⟩ := h
  rw [advance_unread, ← ht, append_assoc, drop_left]
  exact prefix_append ..

theorem prefix_of_append (h : xs ++ ys <+: s.unread) : xs <+: s.unread :=
  (prefix_append xs ys).trans h

theorem unread_take {n : Nat} (h : n ≤ s.readable) :
    (s.data.drop s.getp).take n = s.unread.take n := by
  rw [unread, written, drop_take, take_take]
  exact congrArg (List.take · _) (Nat.min_eq_left h).symm

theorem inputBytes_ok {v : List UInt8} (hv : v <+: st.input.unread)
    (he : st.input.getp + v.length ≤ st.fieldEnd) : inputBytes v.length st = .ok (v, st) := by
  have hlen := hv.length_le
  rw [unread_length] at hlen
  rw [inputBytes, get_bind, pointBytes, if_neg (by omega), unread_take hlen,
    ← prefix_iff_eq_take.mp hv]

theorem reads_bytes4 {v : List UInt8} (h : v.length = 4) :
    Reads getl v (UInt32.ofNat (ofBE v)) := by
  have hrd := (reads_getBytes v).map fun bs => UInt32.ofNat (ofBE bs)
  rwa [h] at hrd

theorem modifyAttr_bind {β : Type} (f : Attr → Attr) (g : Unit → ParseM β) (st : ParseState) :
    (modifyAttr f >>= g) st = g () { st with attr := f st.attr } := rfl

theorem modifyExtra_bind {β : Type} (f : AttrExtra → AttrExtra)
    (g : Unit → ParseM β) (st : ParseState) : (modifyExtra f >>= g) st = g () { st with attr :=
      { st.attr with extra := some (f st.attr.extraGet) } } := rfl

/-! ## One attribute -/

/-- The handler of `a` consumes its value, accepts it, and changes the
attribute set by `f`. -/
def Handles (peer : Peer) (uninit : UInt8 → UInt16) (a : RawAttr) (f : Attr → Attr) : Prop :=
  ∀ (args : AttrArgs) (st : ParseState), args.type = a.type →
    args.flags = a.flags → args.length = a.value.length → a.value <+: st.input.unread →
    st.input.getp + a.value.length ≤ st.fieldEnd →
    attrDispatch peer args uninit st = .ok (.proceed, { st with
      input := st.input.advance a.value.length, attr := f st.attr })

/-- The flag byte is one the sender may set, and right for the type. -/
def FlagsOk (a : RawAttr) : Prop :=
  0xF0 &&& a.flags = a.flags ∧ ∃ desired, attrFlagsValues[a.type.toNat]? = some desired
      ∧ (desired = 0 ∨ flagsConflict a.flags desired = false)

theorem bgpAttrFlagInvalid_ok {a : RawAttr} (h : FlagsOk a)
    {args : AttrArgs} (hty : args.type = a.type) (hfl : args.flags = a.flags) :
    bgpAttrFlagInvalid args = pure false := by
  obtain ⟨-, desired, hge, hok⟩ := h
  have hlt : a.type.toNat < attrFlagsValues.length := (List.getElem?_eq_some_iff.mp hge).1
  rw [bgpAttrFlagInvalid, hty, if_neg (by omega), hge, hfl]
  rcases hok with h0 | hconf
  · simp only [h0, if_true]
  · simp only [hconf]
    split <;> rfl

section

variable {peer : Peer} {uninit : UInt8 → UInt16} {flags : UInt8}

theorem handles_origin {origin : UInt8} (h : origin = 0 ∨ origin = 1 ∨ origin = 2) :
    Handles peer uninit ⟨flags, attrOrigin, [origin]⟩ fun attr => { attr with
      origin := origin, flag := { attr.flag with origin := true } } := by
  intro args st hty _ hlen hv he
  rw [attrDispatch, hty]
  change bgpAttrOrigin peer args st = _
  rw [bgpAttrOrigin, hlen, if_neg (by simp),
    bind_ok (input_reads (reads_getc origin) hv he), modifyAttr_bind,
    if_neg (by rcases h with rfl | rfl | rfl <;> decide)]
  rfl

variable {value : List UInt8}

theorem handles_aspath {segs : List Assegment} (has4 : peer.capAs4Rcv)
    (hpa : Reads (assegmentsParse value.length [] true) value (some segs))
    (heven : value.length % 2 = 0) :
    Handles peer uninit ⟨flags, attrAsPath, value⟩ fun attr => { attr with
      aspath := some segs, flag := { attr.flag with asPath := true } } := by
  intro args st hty _ hlen hv he
  rw [attrDispatch, hty]
  change bgpAttrAspath peer args st = _
  have hrd : Reads (aspathParse value.length true) value (some segs) := by
    rwa [aspathParse, if_neg (by omega)]
  rw [bgpAttrAspath, hlen, has4, bind_ok (input_reads hrd hv he), modifyAttr_bind, if_neg (by simp)]
  rfl

theorem handles_nexthop {nexthop : UInt32} (h : martianNexthop nexthop = false) :
    Handles peer uninit ⟨flags, attrNextHop, be32 nexthop⟩ fun attr =>
      { attr with nexthop := nexthop
                  flag := { attr.flag with nextHop := true } } := by
  intro args st hty _ hlen hv he
  rw [attrDispatch, hty]
  change bgpAttrNexthop peer args st = _
  rw [bgpAttrNexthop, hlen, if_neg (by simp),
    bind_ok (input_reads (reads_getIpv4 nexthop) hv he), h]
  rfl

theorem handles_med (med : UInt32) :
    Handles peer uninit ⟨flags, attrMultiExitDisc, be32 med⟩ fun attr =>
      { attr with med := med
                  flag := { attr.flag with multiExitDisc := true } } := by
  intro args st hty _ hlen hv he
  rw [attrDispatch, hty]
  change bgpAttrMed peer args st = _
  rw [bgpAttrMed, hlen, if_neg (by simp), bind_ok (input_reads (reads_getl med) hv he)]
  rfl

theorem handles_localPref (localPref : UInt32) (h : peerSort peer ≠ .ebgp) :
    Handles peer uninit ⟨flags, attrLocalPref, be32 localPref⟩ fun attr =>
      { attr with localPref := localPref
                  flag := { attr.flag with localPref := true } } := by
  intro args st hty _ hlen hv he
  rw [attrDispatch, hty]
  change bgpAttrLocalPref peer args st = _
  rw [bgpAttrLocalPref, hlen, if_neg (by simp), if_neg h,
    bind_ok (input_reads (reads_getl localPref) hv he)]
  rfl

theorem handles_atomic :
    Handles peer uninit ⟨flags, attrAtomicAggregate, []⟩ fun attr =>
      { attr with flag := { attr.flag with atomicAggregate := true } } := by
  intro args st hty _ hlen _ _
  rw [attrDispatch, hty]
  change bgpAttrAtomic peer args st = _
  rw [bgpAttrAtomic, hlen, if_neg (by simp), length_nil, advance_zero]
  rfl

theorem handles_aggregator (asn addr : UInt32) (has4 : peer.capAs4Rcv) :
    Handles peer uninit ⟨flags, attrAggregator, be32 asn ++ be32 addr⟩ fun attr => { attr with
        extra := some { attr.extraGet with
          aggregatorAs := asn, aggregatorAddr := addr }
        flag := { attr.flag with aggregator := true } } := by
  intro args st hty _ hlen hv he
  rw [attrDispatch, hty]
  change bgpAttrAggregator peer args st = _
  have hasn := prefix_of_append hv
  simp only [length_append, be32_length] at he
  rw [bgpAttrAggregator, hlen, has4, modifyExtra_bind, if_neg (by simp),
    show asnGet true = getl from rfl,
    bind_ok (input_reads (reads_getl asn) ?_ ?_), modifyExtra_bind,
    bind_ok (input_reads (reads_getIpv4 addr) ?_ ?_)]
  · simp only [advance_advance, length_append]
    rfl
  · exact unread_advance hv
  · show (st.input.advance (be32 asn).length).getp + _ ≤ st.fieldEnd
    rw [getp_advance hasn, be32_length, be32_length]
    omega
  · exact hasn
  · simp only [be32_length]
    omega

theorem handles_community {com : Community} (hne : com.val ≠ []) :
    Handles peer uninit ⟨flags, attrCommunities, com.bytes⟩ fun attr =>
      { attr with community := some com
                  flag := { attr.flag with communities := true } } := by
  intro args st hty _ hlen hv he
  rw [attrDispatch, hty]
  change bgpAttrCommunity peer args st = _
  have hp : com.bytes.length ≠ 0 := by
    rw [Community.bytes_length]
    have := length_pos_iff.mpr hne
    omega
  rw [bgpAttrCommunity, hlen, if_neg hp, bind_ok (inputBytes_ok hv he)]
  simp only [communityParse_bytes]
  rw [modifyAttr_bind, bind_ok (input_reads (reads_forwardGetp com.bytes) ?_ ?_), if_neg (by simp)]
  · rfl
  · exact hv
  · exact he

theorem handles_originatorId (originatorId : UInt32) :
    Handles peer uninit ⟨flags, attrOriginatorId, be32 originatorId⟩ fun attr => { attr with
        extra := some { attr.extraGet with originatorId := originatorId }
        flag := { attr.flag with originatorId := true } } := by
  intro args st hty _ hlen hv he
  rw [attrDispatch, hty]
  change bgpAttrOriginatorId peer args st = _
  rw [bgpAttrOriginatorId, hlen, if_neg (by simp),
    bind_ok (input_reads (reads_getIpv4 originatorId) hv he)]
  rfl

theorem handles_clusterList (h : value.length % 4 = 0) :
    Handles peer uninit ⟨flags, attrClusterList, value⟩ fun attr => { attr with
        extra := some { attr.extraGet with cluster := some (clusterParse value) }
        flag := { attr.flag with clusterList := true } } := by
  intro args st hty _ hlen hv he
  rw [attrDispatch, hty]
  change bgpAttrClusterList peer args st = _
  rw [bgpAttrClusterList, hlen, if_neg (by simpa using h),
    bind_ok (inputBytes_ok hv he), modifyExtra_bind,
    bind_ok (input_reads (reads_forwardGetp value) ?_ ?_)]
  · rfl
  · exact hv
  · exact he

theorem clusterParse_flatMap (cluster : List UInt32) :
    clusterParse (cluster.flatMap be32) = cluster := by
  rw [clusterParse, flatMap_length_of_width be32_length,
    Nat.mul_div_cancel_left _ (by decide), ofBEs_be32]

theorem handles_extCommunities {ecom : Ecommunity} (hne : ecom.val ≠ []) :
    Handles peer uninit ⟨flags, attrExtCommunities, ecom.val.flatMap be64⟩ fun attr => { attr with
        extra := some { attr.extraGet with ecommunity := some ecom }
        flag := { attr.flag with extCommunities := true } } := by
  intro args st hty _ hlen hv he
  rw [attrDispatch, hty]
  change bgpAttrExtCommunities peer args st = _
  have hp : (ecom.val.flatMap be64).length ≠ 0 := by
    rw [flatMap_length_of_width be64_length]
    have := length_pos_iff.mpr hne
    omega
  rw [bgpAttrExtCommunities, hlen, if_neg hp, bind_ok (inputBytes_ok hv he)]
  simp only [ecommunityParse_flatMap]
  rw [modifyExtra_bind, bind_ok (input_reads (reads_forwardGetp (ecom.val.flatMap be64)) ?_ ?_),
    if_neg (by simp)]
  · rfl
  · exact hv
  · exact he

end

/-! ## One turn of the loop -/

theorem header_length (a : RawAttr) : a.header.length = if a.extlen then 4 else 3 := by
  rw [RawAttr.header, RawAttr.lengthField]
  split <;> simp

variable {a : RawAttr} {st : ParseState} {endp : Nat} {seen : List UInt8} {peer : Peer}
  {uninit : UInt8 → UInt16}

theorem attrLength_ok (hft : a.Fits) (hv : a.lengthField <+: st.input.unread)
    (he : st.input.getp + a.lengthField.length ≤ st.fieldEnd) :
    attrLength a.extlen st = .ok (a.value.length,
      { st with input := st.input.advance a.lengthField.length }) := by
  rw [attrLength]
  rw [RawAttr.Fits] at hft
  rw [RawAttr.lengthField] at hv he ⊢
  split
  next hext =>
    simp only [hext, if_true] at hv he hft ⊢
    rw [bind_ok (input_reads (reads_getw _) hv he)]
    simp only [UInt16.toNat_ofNat', Nat.mod_eq_of_lt hft]
    rfl
  next hext =>
    simp only [Bool.not_eq_true] at hext
    simp only [hext, Bool.false_eq_true, if_false] at hv he hft ⊢
    rw [bind_ok (input_reads (reads_getc _) hv he)]
    simp only [UInt8.toNat_ofNat', Nat.mod_eq_of_lt hft]
    rfl

/-- The bits that the parser masks out do not concern the length. -/
theorem checkFlag_extlen_masked (flags : UInt8) :
    checkFlag (0xF0 &&& flags) attrFlagExtlen = checkFlag flags attrFlagExtlen := by
  have hmk : 0xF0 &&& flags &&& attrFlagExtlen = flags &&& attrFlagExtlen := by
    rw [UInt8.and_comm 0xF0 flags, UInt8.and_assoc]
    rfl
  rw [checkFlag, checkFlag, hmk]

theorem lengthField_length (a : RawAttr) : a.lengthField.length = if a.extlen then 2 else 1 := by
  rw [RawAttr.lengthField]
  split <;> simp

theorem header_length_eq (a : RawAttr) : a.header.length = 2 + a.lengthField.length := by
  rw [RawAttr.header, length_cons, length_cons]
  omega

/-- A header error: the types seen, for the next turn that never comes. -/
def headerError (subcode : UInt8) (seen : List UInt8) :
    ParseM (List UInt8 ⊕ AttrArgs) := do
  let _ ← attrError subcode
  return .inl seen

/-- The part of a turn before the flags are checked: an error, or an
attribute that lies in the field. -/
def attrHeader (endp : Nat) (seen : List UInt8) :
    ParseM (List UInt8 ⊕ AttrArgs) := do
  let startp := (← get).input.getp
  if endp - startp < bgpAttrMinLen then
    headerError notifyUpdateAttrLengErr seen
  else
    let flag := 0xF0 &&& (← input getc)
    let type ← input getc
    if checkFlag flag attrFlagExtlen ∧ endp - startp < bgpAttrMinLen + 1 then
      headerError notifyUpdateAttrLengErr seen
    else
      let length ← attrLength (checkFlag flag attrFlagExtlen)
      if type ∈ seen then headerError notifyUpdateMalAttr seen
      else
        let attrEndp := (← get).input.getp + length
        if attrEndp > endp then
          headerError notifyUpdateAttrLengErr (type :: seen)
        else return .inr ⟨type, flag, length, startp, attrEndp - startp⟩

/-- A turn is its header and, behind it, the body. -/
theorem attrStep_split (peer : Peer) (uninit : UInt8 → UInt16) (endp : Nat) (seen : List UInt8) :
    attrStep peer uninit endp seen = (do
      match ← attrHeader endp seen with
      | .inl seen' => return (some .error, seen')
      | .inr args => return (← attrBody peer uninit args, args.type :: seen)) := by
  unfold attrStep attrHeader
  rw [bind_assoc]
  refine bind_congr fun st => ?_
  by_cases hsh : endp - st.input.getp < bgpAttrMinLen
  · simp only [if_pos hsh]
    rfl
  simp only [if_neg hsh, bind_assoc]
  refine bind_congr fun flag => bind_congr fun type => ?_
  by_cases hext : checkFlag (0xF0 &&& flag) attrFlagExtlen
      ∧ endp - st.input.getp < bgpAttrMinLen + 1
  · simp only [if_pos hext]
    rfl
  simp only [if_neg hext, bind_assoc]
  refine bind_congr fun length => ?_
  by_cases hse : type ∈ seen
  · simp only [if_pos hse]
    rfl
  simp only [if_neg hse, bind_assoc]
  refine bind_congr fun st1 => ?_
  by_cases hlg : st1.input.getp + length > endp
  · simp only [if_pos hlg]
    rfl
  simp only [if_neg hlg, pure_bind]

/-- The argument record of a turn. -/
abbrev argsAt (st : ParseState) (a : RawAttr) : AttrArgs :=
  ⟨a.type, 0xF0 &&& a.flags, a.value.length, st.input.getp, a.bytes.length⟩

/-- The state at the value of the next attribute. -/
abbrev atValue (st : ParseState) (a : RawAttr) : ParseState :=
  { st with input := st.input.advance a.header.length }

theorem attrHeader_length (hft : a.Fits) (hv : a.header <+: st.input.unread)
    (hep : st.input.getp + a.header.length ≤ endp) (hfd : endp ≤ st.fieldEnd) :
    attrHeader endp seen st = (if a.type ∈ seen then headerError notifyUpdateMalAttr seen
        else do
          let attrEndp := (← get).input.getp + a.value.length
          if attrEndp > endp then
            headerError notifyUpdateAttrLengErr (a.type :: seen)
          else return .inr ⟨a.type, 0xF0 &&& a.flags, a.value.length,
            st.input.getp, attrEndp - st.input.getp⟩) (atValue st a) := by
  have hh : a.header = [a.flags] ++ ([a.type] ++ a.lengthField) := rfl
  have hlen := header_length_eq a
  have hfieldlen := lengthField_length a
  have hp : 0 < a.lengthField.length := by rw [hfieldlen]; split <;> decide
  rw [hh] at hv
  have hfl := prefix_of_append hv
  have hv1 := unread_advance hv
  have hty := prefix_of_append hv1
  have hln := unread_advance hv1
  have hg1 := getp_advance hfl
  have hg2 := getp_advance hty
  simp only [length_singleton, advance_advance] at hg1 hg2 hty hln
  rw [attrHeader, get_bind, if_neg (by simp only [bgpAttrMinLen]; omega),
    bind_ok (input_reads (reads_getc a.flags) hfl ?_),
    bind_ok (input_reads (reads_getc a.type) ?_ ?_), if_neg ?_,
    checkFlag_extlen_masked,
    show checkFlag a.flags attrFlagExtlen = a.extlen from rfl,
    bind_ok (attrLength_ok hft ?_ ?_)]
  · simp only [length_singleton, advance_advance, hlen, atValue]
  · simpa only [length_singleton, advance_advance] using hln
  · simp only [length_singleton, advance_advance]
    omega
  · rintro ⟨hext, hsh⟩
    rw [checkFlag_extlen_masked] at hext
    rw [show a.extlen = true from hext, if_pos rfl] at hfieldlen
    simp only [bgpAttrMinLen] at hsh
    omega
  · exact hty
  · simp only [length_singleton]
    omega
  · simp only [length_singleton]
    omega

theorem attrHeader_ok (hft : a.Fits) (hse : a.type ∉ seen) (hv : a.bytes <+: st.input.unread)
    (hep : st.input.getp + a.bytes.length ≤ endp) (hfd : endp ≤ st.fieldEnd) :
    attrHeader endp seen st = .ok (.inr (argsAt st a), atValue st a) := by
  have hlen : a.bytes.length = a.header.length + a.value.length := length_append
  have hh : a.header <+: st.input.unread := prefix_of_append hv
  have hgp := getp_advance hh
  have htot : st.input.getp + a.header.length + a.value.length
      - st.input.getp = a.bytes.length := by omega
  rw [attrHeader_length hft hh (by omega) hfd, if_neg hse, get_bind,
    if_neg (by simp only [hgp]; omega)]
  simp only [hgp, htot]
  rfl

variable {f : Attr → Attr}

theorem attrBody_of_handles {args : AttrArgs} (hfl : FlagsOk a) (hhan : Handles peer uninit a f)
    (hty : args.type = a.type) (hfg : args.flags = a.flags)
    (hlen : args.length = a.value.length) (hv : a.value <+: st.input.unread)
    (he : st.input.getp + a.value.length ≤ st.fieldEnd)
    (htot : args.startp + args.total = st.input.getp + a.value.length) :
    attrBody peer uninit args st = .ok (none, { st with
      input := st.input.advance a.value.length, attr := f st.attr }) := by
  rw [attrBody, bgpAttrFlagInvalid_ok hfl hty hfg, pure_bind,
    if_neg (by decide), bind_ok (hhan args st hty hfg hlen hv he)]
  have hgp := getp_advance hv
  rw [attrFetched, get_bind, if_neg (not_not.mpr (hgp.trans htot.symm))]
  rfl

/-- The loop turn for an attribute that lies in the field: the handler is
called on its value. -/
theorem attrStep_of_handles (hft : a.Fits) (hfl : FlagsOk a)
    (hhan : Handles peer uninit a f) (hse : a.type ∉ seen) (hv : a.bytes <+: st.input.unread)
    (hep : st.input.getp + a.bytes.length ≤ endp) (hfd : endp ≤ st.fieldEnd) :
    attrStep peer uninit endp seen st = .ok ((none, a.type :: seen), { st with
        input := st.input.advance a.bytes.length, attr := f st.attr }) := by
  have hlen : a.bytes.length = a.header.length + a.value.length := length_append
  have hh : a.header <+: st.input.unread := prefix_of_append hv
  have hgp := getp_advance hh
  rw [attrStep_split, bind_ok (attrHeader_ok hft hse hv hep hfd)]
  dsimp only
  rw [bind_ok (attrBody_of_handles hfl hhan rfl hfl.1 rfl (unread_advance hv) ?_ ?_)]
  · simp only [advance_advance, hlen]
    rfl
  · show (st.input.advance a.header.length).getp + _ ≤ st.fieldEnd
    omega
  · show st.input.getp + a.bytes.length = (st.input.advance a.header.length).getp + _
    omega

/-! ## A run of attributes -/

/-- Attributes with what each does to the attribute set. -/
abbrev Effects := List (RawAttr × (Attr → Attr))

namespace Effects

def attrs (es : Effects) : List RawAttr := es.map Prod.fst

theorem attrs_cons (a : RawAttr) (f : Attr → Attr) (es : Effects) :
    attrs ((a, f) :: es) = a :: attrs es := rfl

/-- The attribute set after all of them. -/
def apply (es : Effects) (attr : Attr) : Attr :=
  es.foldl (fun attr e => e.2 attr) attr

/-- The parser takes each of them, and no type comes twice. -/
structure Ok (es : Effects) (peer : Peer) (uninit : UInt8 → UInt16) : Prop where
  fits : ∀ e ∈ es, e.1.Fits
  flags : ∀ e ∈ es, FlagsOk e.1
  handles : ∀ e ∈ es, Handles peer uninit e.1 e.2
  distinct : (es.attrs.map RawAttr.type).Nodup

theorem Ok.tail {e : RawAttr × (Attr → Attr)} {es : Effects} {peer : Peer}
    {uninit : UInt8 → UInt16} (h : Ok (e :: es) peer uninit) : Ok es peer uninit where
  fits := fun x hx => h.fits x (mem_cons_of_mem _ hx)
  flags := fun x hx => h.flags x (mem_cons_of_mem _ hx)
  handles := fun x hx => h.handles x (mem_cons_of_mem _ hx)
  distinct := (nodup_cons.mp h.distinct).2

end Effects

theorem bytes_pos (a : RawAttr) : 0 < a.bytes.length := by
  simp [RawAttr.bytes, RawAttr.header]

variable {peer : Peer} {uninit : UInt8 → UInt16} {endp bound : Nat} {seen : List UInt8}

theorem attrLoop_step {seen' : List UInt8} {st st' : ParseState} (hlt : st.input.getp < endp)
    (hst : attrStep peer uninit endp seen st = .ok ((none, seen'), st')) :
    attrLoop peer uninit endp (bound + 1) seen st = attrLoop peer uninit endp bound seen' st' := by
  rw [attrLoop, get_bind, if_pos hlt, bind_ok hst]

theorem attrLoop_done {st : ParseState} (h : ¬ st.input.getp < endp) :
    attrLoop peer uninit endp bound seen st = .ok (.proceed, st) := by
  unfold attrLoop
  rw [get_bind, if_neg h]
  rfl

/-- The loop goes through the attributes and on with what follows. -/
theorem attrLoop_append {es : Effects} (hes : es.Ok peer uninit) (st : ParseState)
    (hse : ∀ a ∈ es.attrs, a.type ∉ seen) (hv : attrsWire es.attrs <+: st.input.unread)
    (hep : st.input.getp + (attrsWire es.attrs).length ≤ endp) (hfd : endp ≤ st.fieldEnd) :
    attrLoop peer uninit endp (es.length + bound) seen st = attrLoop peer uninit endp bound
        ((es.attrs.map RawAttr.type).reverse ++ seen) { st with
          input := st.input.advance (attrsWire es.attrs).length
          attr := es.apply st.attr } := by
  induction es generalizing seen st with
  | nil => simp [Effects.attrs, Effects.apply]
  | cons e es ih =>
    obtain ⟨a, f⟩ := e
    rw [Effects.attrs_cons, attrsWire_cons] at hv hep
    have hp := bytes_pos a
    have hgp := getp_advance (prefix_of_append hv)
    rw [length_append] at hep
    have hst := attrStep_of_handles (hes.fits _ mem_cons_self)
      (hes.flags _ mem_cons_self) (hes.handles _ mem_cons_self)
      (hse a mem_cons_self) (prefix_of_append hv)
      (Nat.le_trans (Nat.add_le_add_left (Nat.le_add_right ..) _) hep) hfd
    have hn : ∀ b ∈ Effects.attrs es, b.type ∉ a.type :: seen := by
      intro b hb hmb
      rcases mem_cons.mp hmb with heq | hmb
      · exact (nodup_cons.mp hes.distinct).1 (heq ▸ mem_map_of_mem hb)
      · exact hse b (mem_cons_of_mem _ hb) hmb
    have hlp := ih hes.tail { st with
        input := st.input.advance a.bytes.length, attr := f st.attr }
      hn (unread_advance hv)
      (show (st.input.advance a.bytes.length).getp + _ ≤ endp by omega)
      hfd
    rw [length_cons, Nat.add_right_comm, attrLoop_step (by omega) hst, hlp]
    simp only [advance_advance, Effects.attrs_cons, attrsWire_cons,
      length_append, map_cons, reverse_cons, append_assoc, singleton_append]
    rfl

end SdnQuagga
