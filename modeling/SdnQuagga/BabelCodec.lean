import SdnQuagga.BabelParseSafe
import SdnQuagga.BabelSend

/-!
# The TLVs of a Babel update

What `really_send_update` writes and what `parse_packet` makes of it, TLV by TLV. `Hears` says
that the parser goes over some bytes from one state to another, and `Writes` that a computation
of the sender adds them to its buffer.
-/

namespace SdnQuagga

open FaultM List BabelSender

/-! ## Reading TLVs -/

/-- A TLV as it lies in a packet. -/
def tlv (type : UInt8) (body : List UInt8) : List UInt8 := type :: .ofNat body.length :: body

/-- The parser goes over the bytes from one state to another, whatever follows them. -/
def Hears (peer : BabelPeer) (bytes : List UInt8) (st st' : BabelParser) : Prop :=
  ∀ rest, parseBody peer (bytes ++ rest) (bytes.length + rest.length) st
    = parseBody peer rest rest.length st'

section

variable {peer : BabelPeer} {bytes more : List UInt8} {st st' st'' : BabelParser}

theorem Hears.nil : Hears peer [] st st := by
  intro rest
  rw [nil_append, length_nil, Nat.zero_add]

theorem Hears.append (h : Hears peer bytes st st') (hmo : Hears peer more st' st'') :
    Hears peer (bytes ++ more) st st'' := by
  intro rest
  rw [append_assoc, length_append, Nat.add_assoc, ← length_append, h, length_append, hmo]

theorem parseBody_nil : parseBody peer [] 0 st = .ok ((), st) := by
  rw [parseBody]
  rfl

theorem Hears.all (h : Hears peer bytes st st') :
    parseBody peer bytes bytes.length st = .ok ((), st') := by
  have hal := h []
  rwa [append_nil, length_nil, Nat.add_zero, parseBody_nil] at hal

theorem reads_tlv {type : UInt8} {body : List UInt8} (hty : type ≠ 0) (hlen : body.length < 256)
    (h : ∀ rest, parseMessage peer (tlv type body ++ rest) body.length type st = .ok ((), st')) :
    Hears peer (tlv type body) st st' := by
  intro rest
  have hln : (UInt8.ofNat body.length).toNat = body.length := by
    rw [UInt8.toNat_ofNat']
    exact Nat.mod_eq_of_lt hlen
  have htot : (tlv type body).length = body.length + 2 := rfl
  rw [parseBody, if_neg (by omega), bind_ok (readByte_ok (by simp [tlv]))]
  rw [show (tlv type body ++ rest).getD 0 0 = type from rfl, if_neg hty,
    bind_ok (readByte_ok (by simp [tlv])),
    show (tlv type body ++ rest).getD 1 0 = UInt8.ofNat body.length from rfl, hln,
    if_neg (by omega), bind_ok (h rest), htot, Nat.add_sub_cancel_left, ← htot,
    drop_left]

end

/-! ## Prefixes -/

/-- The bits after the first `plen` ones are 0. -/
def HostBitsZero (pfx : List UInt8) (plen : Nat) : Prop := maskPrefix pfx plen = pfx

instance (pfx : List UInt8) (plen : Nat) : Decidable (HostBitsZero pfx plen) :=
  inferInstanceAs (Decidable (_ = _))

section

variable {pfx : List UInt8} {plen : Nat}

theorem padded_full (h : pfx.length = 16) : padded pfx = pfx := by
  rw [padded, h]
  exact append_nil pfx

theorem maskPrefix_padded_take (hlen : pfx.length = 16) (hpn : plen ≤ 128) :
    maskPrefix (padded (pfx.take ((plen + 7) / 8))) plen = maskPrefix pfx plen := by
  have htk : ∀ n ≤ (plen + 7) / 8, (padded (pfx.take ((plen + 7) / 8))).take n = pfx.take n := by
    intro n hn
    rw [padded, take_append_of_le_length (by rw [length_take]; omega), take_take,
      Nat.min_eq_left hn]
  unfold maskPrefix
  by_cases hfu : 128 ≤ plen
  · rw [if_pos hfu, if_pos hfu, take_of_length_le (by omega), padded_full hlen]
  rw [if_neg hfu, if_neg hfu]
  by_cases hmod : plen % 8 = 0
  · rw [if_pos hmod, if_pos hmod, htk _ (by omega)]
  · have hge : (padded (pfx.take ((plen + 7) / 8))).getD (plen / 8) 0 = pfx.getD (plen / 8) 0 := by
      have hlt : plen / 8 < (plen + 7) / 8 := by omega
      rw [getD_eq_getElem?_getD, getD_eq_getElem?_getD, padded,
        getElem?_append_left (by rw [length_take]; omega), getElem?_take_of_lt hlt]
    rw [if_neg hmod, if_neg hmod, htk _ (by omega), hge]

theorem and_mask_ne (b : UInt8) {r : Nat} (hp : 0 < r) (hlt : r < 8) :
    b &&& .ofNat (0xff <<< (8 - r)) ≠ 0xff := by
  have hmasks : ∀ r < 8, 0 < r → (UInt8.ofNat (0xff <<< (8 - r))) &&& 1 = 0 := by decide
  have heven := hmasks r hlt hp
  intro h
  have hodd := congrArg (· &&& 1) h
  simp only [UInt8.and_assoc, heven, UInt8.and_zero] at hodd
  exact absurd hodd (by decide)

/-- A masked prefix of fewer than 96 bits is not a mapped IPv4 address. -/
theorem not_v4mapped_of_short (hlen : pfx.length = 16) (hz : HostBitsZero pfx plen)
    (hsh : plen < 96) : ¬ v4mapped pfx := by
  intro hmp
  have hbt : pfx[11]? = some 0xff := by
    rw [← getElem?_take_of_lt (show 11 < 12 by decide), hmp]
    rfl
  have htk : (pfx.take (plen / 8)).length = plen / 8 := by
    rw [length_take]
    omega
  rw [← hz, maskPrefix, if_neg (by omega)] at hbt
  by_cases hmod : plen % 8 = 0
  · rw [if_pos hmod, getElem?_append_right (by omega), getElem?_replicate, if_pos (by omega)] at hbt
    exact absurd hbt (by decide)
  · rw [if_neg hmod, append_assoc, getElem?_append_right (by omega), htk] at hbt
    by_cases hla : plen / 8 = 11
    · rw [hla] at hbt
      exact and_mask_ne _ (Nat.pos_of_ne_zero hmod) (Nat.mod_lt _ (by decide))
        (Option.some.inj hbt)
    · rw [getElem?_append_right (by rw [length_singleton]; omega),
        getElem?_replicate, length_singleton, if_pos (by omega)] at hbt
      exact absurd hbt (by decide)

theorem omittedBytes_le (n : Nat) (a b : List UInt8) : omittedBytes n a b ≤ n := by
  fun_induction omittedBytes n a b with
  | case1 n a as bs ih => omega
  | case2 n a as b bs h => omega
  | case3 => omega

theorem take_omittedBytes (n : Nat) (a b : List UInt8) :
    a.take (omittedBytes n a b) = b.take (omittedBytes n a b) := by
  fun_induction omittedBytes n a b with
  | case1 n a as bs ih => rw [take_succ_cons, take_succ_cons, ih]
  | case2 n a as b bs h => rfl
  | case3 => rfl

end

/-! ## What the TLVs of an update tell -/

section

variable {peer : BabelPeer} {st : BabelParser} {σ : Type} {s : σ}

theorem readBytes_ok {p : List UInt8} {i n : Nat} (h : i + n ≤ p.length) :
    (readBytes p i n : FaultM σ _) s = .ok ((p.drop i).take n, s) := by
  unfold readBytes
  rw [if_pos (Or.inr h)]
  rfl

theorem networkPrefix_ok {ae : UInt8} {plen : Option UInt8} {omitted len i k : Nat}
    {p : List UInt8} {dp : Option (List UInt8)}
    (hsize : prefixSize ae plen omitted dp len = some k) (hin : i + k ≤ p.length) :
    (networkPrefix ae plen omitted p i dp len : FaultM σ _) s
      = .ok (some (k, prefixValue ae plen omitted dp ((p.drop i).take k)), s) := by
  rw [networkPrefix_eq, hsize]
  exact (bind_ok (readBytes_ok hin)).trans rfl

theorem reads_nh {ipv4 : List UInt8} (hlen : ipv4.length = 4) :
    Hears peer (tlv 7 ([1, 0] ++ ipv4)) st { st with v4Nh := some (v4pfx ++ ipv4) } := by
  have hbd : ([1, 0] ++ ipv4).length = 6 := by
    rw [length_append, hlen]
    rfl
  refine reads_tlv (by decide) (by omega) fun rest => ?_
  have hby : ((tlv 7 ([1, 0] ++ ipv4) ++ rest).drop 4).take 4 = ipv4 := by
    show (ipv4 ++ rest).take 4 = ipv4
    rw [← hlen, take_left]
  have hfu : (v4pfx ++ ipv4).length = 16 := by
    rw [length_append, hlen]
    rfl
  have hadr : (networkAddress 1 (tlv 7 ([1, 0] ++ ipv4) ++ rest) 4 4 : BabelM _) st
      = .ok (some (4, v4pfx ++ ipv4), st) := by
    rw [networkAddress, networkPrefix_ok (k := 4) (by decide) (by simp [tlv]; omega), hby]
    show Except.ok (some (4, padded (v4pfx ++ ipv4)), st) = _
    rw [padded_full hfu]
  rw [hbd]
  show parseNh (tlv 7 ([1, 0] ++ ipv4) ++ rest) 6 st = _
  unfold parseNh
  rw [if_neg (by decide), bind_ok (readByte_ok (by simp [tlv]))]
  exact (bind_ok hadr).trans rfl

theorem reads_routerId {id : List UInt8} (hlen : id.length = 8) :
    Hears peer (tlv 6 (be16 0 ++ id)) st { st with routerId := some id } := by
  have hbd : (be16 0 ++ id).length = 10 := by rw [length_append, be16_length, hlen]
  refine reads_tlv (by decide) (by omega) fun rest => ?_
  have hby : ((tlv 6 (be16 0 ++ id) ++ rest).drop 4).take 8 = id := by
    show (id ++ rest).take 8 = id
    rw [← hlen, take_left]
  rw [hbd]
  show parseRouterId (tlv 6 (be16 0 ++ id) ++ rest) 10 st = _
  unfold parseRouterId
  rw [if_neg (by decide), bind_ok (readBytes_ok (by simp [tlv]; omega)), hby]
  rfl

def channelsTlv : Option (List UInt8) → List UInt8
  | none => []
  | some channels => tlv 2 channels

theorem parseRouteAttributes_channels {c rest assumed : List UInt8}
    (hlen : c.length ≤ diversityHops) (hz : 0 ∉ c) :
    (parseRouteAttributes (tlv 2 c ++ rest) (c.length + 2) assumed : FaultM σ _) s
      = .ok (c, s) := by
  have hln : (UInt8.ofNat c.length).toNat = c.length := by
    rw [UInt8.toNat_ofNat']
    exact Nat.mod_eq_of_lt (Nat.lt_of_le_of_lt hlen (by decide))
  have hrd : (readNonzero ((tlv 2 c ++ rest).drop 2) c.length : FaultM σ _) s
      = .ok (some c, s) := by
    show readNonzero (c ++ rest) c.length s = _
    rw [readNonzero_ok _ _ (Or.inl (by simp)), take_left, if_neg hz]
  rw [parseRouteAttributes, if_neg (by omega), bind_ok (readByte_ok (by simp [tlv])),
    show (tlv 2 c ++ rest).getD 0 0 = 2 from rfl, if_neg (by decide),
    bind_ok (readByte_ok (by simp [tlv])),
    show (tlv 2 c ++ rest).getD 1 0 = UInt8.ofNat c.length from rfl, hln,
    if_neg (by omega), if_pos rfl, Nat.min_eq_left hlen, bind_ok hrd]
  show parseRouteAttributes _ _ c s = _
  rw [Nat.sub_self, parseRouteAttributes, if_pos rfl]
  rfl

/-- The body of an `Update` TLV. -/
def updateBody (ae flags plen omitted : UInt8) (interval seqno metric : UInt16)
    (bytes : List UInt8) (channels : Option (List UInt8)) : List UInt8 :=
  [ae, flags, plen, omitted]
    ++ (be16 interval ++ (be16 seqno ++ (be16 metric ++ (bytes ++ channelsTlv channels))))

/-- The channels that a receiver takes an update to have. -/
def seenChannels (peer : BabelPeer) (metric : UInt16) (channels : Option (List UInt8)) :
    List UInt8 :=
  if peer.faraway = true then [] else channels.getD (if metric < 256 then [] else [255])

theorem shortAt_be16 (before after : List UInt8) (w : UInt16) :
    shortAt (before ++ (be16 w ++ after)) before.length = w := by
  have hw : be16 w = [(be16 w).getD 0 0, (be16 w).getD 1 0] := rfl
  have hge : ∀ i < 2,
      (before ++ (be16 w ++ after)).getD (before.length + i) 0 = (be16 w).getD i 0 := by
    intro i hi
    rw [getD_eq_getElem?_getD, getD_eq_getElem?_getD,
      getElem?_append_right (by omega), Nat.add_sub_cancel_left,
      getElem?_append_left (by simpa using hi)]
  have hofBE : ofBE (be16 w) = ((be16 w).getD 0 0).toNat * 256 + ((be16 w).getD 1 0).toNat := by
    rw [hw]
    simp [ofBE]
  rw [shortAt, show before.length = before.length + 0 from rfl, hge 0 (by decide),
    show before.length + 0 + 1 = before.length + 1 from rfl, hge 1 (by decide), ← hofBE,
    ofNat_ofBE_be16]

section

variable {ae flags plen omitted : UInt8} {interval seqno metric : UInt16}
  {bytes rest : List UInt8} {channels : Option (List UInt8)}

theorem updateBody_length :
    (updateBody ae flags plen omitted interval seqno metric bytes channels).length
      = 10 + bytes.length + (channelsTlv channels).length := by
  simp [updateBody]
  omega

variable {pfx nh message id : List UInt8} {len : Nat}

section

variable
  (hlen : len = (updateBody ae flags plen omitted interval seqno metric bytes channels).length)
include hlen

/-- An update with a prefix that is taken is accepted with what it has. -/
theorem parseUpdate_ok (hkn : omitted = 0 ∨ flags ≠ 1 ∧ st.haveV6Prefix = true)
    (hsize : prefixSize ae (some plen) omitted.toNat
      (some (if ae = 1 then st.v4Prefix else st.v6Prefix)) (len - 10) = some bytes.length)
    (hv : prefixValue ae (some plen) omitted.toNat
      (some (if ae = 1 then st.v4Prefix else st.v6Prefix)) bytes = pfx) :
    parseUpdate peer
        (tlv 8 (updateBody ae flags plen omitted interval seqno metric bytes channels) ++ rest)
        len st = acceptUpdate peer
        (tlv 8 (updateBody ae flags plen omitted interval seqno metric bytes channels) ++ rest)
        len ae flags plen interval seqno metric (bytes.length, pfx) st := by
  set message :=
    tlv 8 (updateBody ae flags plen omitted interval seqno metric bytes channels) ++ rest
    with hmessage
  have hmi : 10 + bytes.length ≤ len := by
    rw [hlen, updateBody_length]
    omega
  have hlg : 12 + bytes.length ≤ message.length := by
    rw [hmessage, length_append, tlv, length_cons, length_cons, updateBody_length]
    omega
  have hivl : shortAt message 6 = interval :=
    shortAt_be16 [8, _, ae, flags, plen, omitted] _ interval
  have hseqno : shortAt message 8 = seqno :=
    shortAt_be16 ([8, _, ae, flags, plen, omitted] ++ be16 interval) _ seqno
  have hmetric : shortAt message 10 = metric :=
    shortAt_be16 ([8, _, ae, flags, plen, omitted] ++ be16 interval ++ be16 seqno) _ metric
  have hby : (message.drop 12).take bytes.length = bytes := by
    show (bytes ++ channelsTlv channels ++ rest).take bytes.length = bytes
    rw [append_assoc, take_left]
  unfold parseUpdate
  rw [if_neg (by omega), if_neg (by omega), bind_ok (readShort_ok (by omega)),
    bind_ok (readShort_ok (by omega)), bind_ok (readShort_ok (by omega)),
    bind_ok (readByte_ok (by omega)), bind_ok (readByte_ok (by omega)),
    bind_ok (readByte_ok (by omega)), bind_ok (readByte_ok (by omega)), get_bind, hivl,
    hseqno, hmetric, show message.getD 2 0 = ae from rfl, show message.getD 3 0 = flags from rfl,
    show message.getD 4 0 = plen from rfl, show message.getD 5 0 = omitted from rfl]
  have hrch : omitted = 0 ∨ (if flags = 1 then st.haveV4Prefix else st.haveV6Prefix) = true := by
    rcases hkn with h | ⟨hfl, h⟩
    · exact Or.inl h
    · rw [if_neg hfl]
      exact Or.inr h
  rw [if_pos hrch, bind_ok (networkPrefix_ok hsize hlg), hby, hv]

theorem finishUpdate_ok {u : BabelUpdateCall}
    (hch : ∀ c ∈ channels, c.length ≤ diversityHops ∧ 0 ∉ c) :
    finishUpdate peer
        (tlv 8 (updateBody ae flags plen omitted interval seqno metric bytes channels) ++ rest)
        len (10 + bytes.length) nh u st
      = .ok ((), { st with calls := st.calls ++ [.updateRoute
          { u with nexthop := nh, channels := seenChannels peer u.metric channels }] }) := by
  rw [updateBody_length] at hlen
  unfold finishUpdate seenChannels
  dsimp only
  cases channels with
  | none =>
    rw [if_neg (by simp [channelsTlv] at hlen; omega), pure_bind]
    by_cases hfar : peer.faraway = true
    · rw [if_pos (Or.inl hfar), if_pos hfar]
      rfl
    · simp only [hfar, false_or, Bool.false_eq_true, ↓reduceIte]
      rfl
  | some c =>
    obtain ⟨hsh, hz⟩ := hch c rfl
    by_cases hfar : peer.faraway = true
    · rw [if_neg (by simp [hfar]), pure_bind, if_pos (Or.inl hfar), if_pos hfar]
      rfl
    · have hrs : (tlv 8 (updateBody ae flags plen omitted interval seqno metric bytes
          (some c)) ++ rest).drop (2 + (10 + bytes.length)) = tlv 2 c ++ rest := by
        rw [show 2 + (10 + bytes.length) = 12 + bytes.length by omega, ← drop_drop]
        show (bytes ++ tlv 2 c ++ rest).drop bytes.length = _
        rw [append_assoc, drop_left]
      have hln : len - (10 + bytes.length) = c.length + 2 := by
        rw [hlen]
        exact Nat.add_sub_cancel_left (10 + bytes.length) (c.length + 2)
      have hnear : peer.faraway = false ∧ 10 + bytes.length < len := by
        refine ⟨by simpa using hfar, ?_⟩
        omega
      rw [if_pos hnear, hrs, hln, bind_ok (parseRouteAttributes_channels hsh hz), if_neg hfar]
      rfl

end

/-- The call for an update that is accepted. -/
def acceptedUpdate (peer : BabelPeer) (id pfx nh : List UInt8) (plen : Nat)
    (interval seqno metric : UInt16) (channels : Option (List UInt8)) : BabelUpdateCall :=
  ⟨id, pfx, .ofNat plen, seqno, metric, interval, nh, seenChannels peer metric channels⟩

theorem channelsTlv_length_le (hch : ∀ c ∈ channels, c.length ≤ diversityHops ∧ 0 ∉ c) :
    (channelsTlv channels).length ≤ 10 := by
  cases channels with
  | none => simp [channelsTlv]
  | some c => exact Nat.add_le_add_right (hch c rfl).1 2

theorem parseMessage_update : parseMessage peer message len 8 = parseUpdate peer message len := rfl

variable {parsed : Nat × List UInt8}

theorem acceptUpdate_v4 (hid : st.routerId = some id) (hnh : st.v4Nh = some nh)
    (hpe : peer.ipv4 = true) :
    acceptUpdate peer message len 1 0 plen interval seqno metric parsed st
      = finishUpdate peer message len (10 + parsed.1) nh
        ⟨id, parsed.2, plen + 96, seqno, metric, interval, [], []⟩ st := by
  unfold acceptUpdate
  rw [modify_bind, get_bind, show rememberUpdate 1 0 parsed.2 st = st from rfl,
    if_neg (by rw [hid]; exact fun h => Option.some_ne_none id h.1), if_neg (by decide),
    if_pos rfl, hnh]
  dsimp only
  rw [when, if_pos hpe, hid]
  rfl

theorem acceptUpdate_v6 (hid : (rememberUpdate 2 flags parsed.2 st).routerId = some id)
    (hnh : (rememberUpdate 2 flags parsed.2 st).v6Nh = none) :
    acceptUpdate peer message len 2 flags plen interval seqno metric parsed st
      = finishUpdate peer message len (10 + parsed.1) peer.address
        ⟨id, parsed.2, plen, seqno, metric, interval, [], []⟩
        (rememberUpdate 2 flags parsed.2 st) := by
  unfold acceptUpdate
  rw [modify_bind, get_bind, if_neg (by rw [hid]; exact fun h => Option.some_ne_none id h.1),
    if_neg (by decide), if_neg (by decide), hid, hnh, if_neg (by decide), UInt8.add_zero]
  rfl

theorem reads_update_v4 {plen : Nat}
    (hpfx : pfx.length = 16) (hmp : v4mapped pfx) (hlow : 96 ≤ plen) (hhigh : plen ≤ 128)
    (hch : ∀ c ∈ channels, c.length ≤ diversityHops ∧ 0 ∉ c)
    (hid : st.routerId = some id) (hnh : st.v4Nh = some nh) (hpe : peer.ipv4 = true) :
    Hears peer (tlv 8 (updateBody 1 0 (.ofNat (plen - 96)) 0 interval seqno metric
        ((pfx.drop 12).take ((plen - 96 + 7) / 8)) channels)) st
      { st with calls := st.calls ++ [.updateRoute (acceptedUpdate peer id (maskPrefix pfx plen)
          nh plen interval seqno metric channels)] } := by
  have hpn : (UInt8.ofNat (plen - 96)).toNat = plen - 96 := by
    rw [UInt8.toNat_ofNat']
    omega
  generalize hb : (pfx.drop 12).take ((plen - 96 + 7) / 8) = bytes
  have hct : bytes.length = (plen - 96 + 7) / 8 := by
    rw [← hb, length_take, length_drop]
    omega
  have hatts := channelsTlv_length_le hch
  refine reads_tlv (by decide) (by rw [updateBody_length, hct]; omega) fun rest => ?_
  have hv : prefixValue 1 (some (.ofNat (plen - 96))) 0 (some st.v4Prefix) bytes
      = maskPrefix pfx plen := by
    have hjn : v4pfx ++ bytes = pfx.take ((plen + 7) / 8) := by
      rw [← hb, ← hmp, show (plen + 7) / 8 = 12 + (plen - 96 + 7) / 8 by omega, take_add]
    have hmk : maskLength 1 (some (.ofNat (plen - 96))) = plen := by
      show (UInt8.ofNat (plen - 96)).toNat + 96 = plen
      omega
    show maskPrefix (padded (v4pfx ++ bytes)) (maskLength 1 (some (.ofNat (plen - 96)))) = _
    rw [hmk, hjn, maskPrefix_padded_take hpfx hhigh]
  have hsize : prefixSize 1 (some (.ofNat (plen - 96))) 0 (some st.v4Prefix)
      ((updateBody 1 0 (.ofNat (plen - 96)) 0 interval seqno metric bytes channels).length - 10)
      = some bytes.length := by
    have hby : prefixBytes 1 (some (.ofNat (plen - 96))) = (plen - 96 + 7) / 8 := by
      rw [prefixBytes, hpn]
    unfold prefixSize
    dsimp only
    rw [hby, updateBody_length, hct, if_neg (by omega), if_neg (by decide),
      if_pos rfl, if_neg (by omega), if_neg (fun h => h.1 rfl), if_neg (by omega)]
    rfl
  have hsu : UInt8.ofNat (plen - 96) + 96 = UInt8.ofNat plen := by
    rw [show (96 : UInt8) = UInt8.ofNat 96 from rfl, ← UInt8.ofNat_add, Nat.sub_add_cancel hlow]
  rw [parseMessage_update, parseUpdate_ok rfl (Or.inl rfl) hsize hv,
    acceptUpdate_v4 hid hnh hpe, finishUpdate_ok rfl hch, hsu]
  rfl

/-- An IPv6 update with a prefix that is taken. -/
theorem reads_update
    (hsh : (updateBody 2 flags plen omitted interval seqno metric bytes channels).length < 256)
    (hkn : omitted = 0 ∨ flags ≠ 1 ∧ st.haveV6Prefix = true)
    (hsize : prefixSize 2 (some plen) omitted.toNat (some st.v6Prefix)
      ((updateBody 2 flags plen omitted interval seqno metric bytes channels).length - 10)
      = some bytes.length) (hv : prefixValue 2 (some plen) omitted.toNat
      (some st.v6Prefix) bytes = pfx) (hch : ∀ c ∈ channels, c.length ≤ diversityHops ∧ 0 ∉ c)
    (hid : (rememberUpdate 2 flags pfx st).routerId = some id)
    (hnh : (rememberUpdate 2 flags pfx st).v6Nh = none) :
    Hears peer (tlv 8 (updateBody 2 flags plen omitted interval seqno metric bytes channels)) st
      { rememberUpdate 2 flags pfx st with
        calls := (rememberUpdate 2 flags pfx st).calls
          ++ [.updateRoute ⟨id, pfx, plen, seqno, metric, interval, peer.address,
            seenChannels peer metric channels⟩] } := by
  refine reads_tlv (by decide) hsh fun rest => ?_
  rw [parseMessage_update, parseUpdate_ok rfl hkn hsize hv, acceptUpdate_v6 hid hnh,
    finishUpdate_ok rfl hch]

theorem reads_update_v6 {plen omitted : Nat}
    (hpfx : pfx.length = 16) (hhigh : plen ≤ 128) (homitted : omitted ≤ plen / 8)
    (hkn : omitted = 0 ∨ st.haveV6Prefix = true ∧ ¬ v4mapped st.v6Prefix
      ∧ st.v6Prefix.take omitted = pfx.take omitted) (hfl : flags ≠ 1)
    (hch : ∀ c ∈ channels, c.length ≤ diversityHops ∧ 0 ∉ c)
    (hid : (rememberUpdate 2 flags (maskPrefix pfx plen) st).routerId = some id)
    (hnh : (rememberUpdate 2 flags (maskPrefix pfx plen) st).v6Nh = none) :
    Hears peer (tlv 8 (updateBody 2 flags (.ofNat plen) (.ofNat omitted) interval seqno metric
        ((pfx.drop omitted).take ((plen + 7) / 8 - omitted)) channels)) st
      { rememberUpdate 2 flags (maskPrefix pfx plen) st with
        calls := (rememberUpdate 2 flags (maskPrefix pfx plen) st).calls
          ++ [.updateRoute (acceptedUpdate peer id (maskPrefix pfx plen) peer.address plen
            interval seqno metric channels)] } := by
  have hpn : (UInt8.ofNat plen).toNat = plen := by
    rw [UInt8.toNat_ofNat']
    omega
  have hom : (UInt8.ofNat omitted).toNat = omitted := by
    rw [UInt8.toNat_ofNat']
    omega
  generalize hb : (pfx.drop omitted).take ((plen + 7) / 8 - omitted) = bytes
  have hct : bytes.length = (plen + 7) / 8 - omitted := by
    rw [← hb, length_take, length_drop]
    omega
  have hatts := channelsTlv_length_le hch
  have hv : prefixValue 2 (some (.ofNat plen)) (UInt8.ofNat omitted).toNat
      (some st.v6Prefix) bytes = maskPrefix pfx plen := by
    have htk : st.v6Prefix.take omitted = pfx.take omitted := by
      rcases hkn with h | h
      · rw [h, take_zero, take_zero]
      · exact h.2.2
    have hjn : st.v6Prefix.take omitted ++ bytes = pfx.take ((plen + 7) / 8) := by
      rw [← hb, htk, ← take_add]
      congr 1
      omega
    rw [hom]
    show maskPrefix (padded (st.v6Prefix.take omitted ++ bytes)) (UInt8.ofNat plen).toNat = _
    rw [hpn, hjn, maskPrefix_padded_take hpfx hhigh]
  have hsize : prefixSize 2 (some (.ofNat plen)) (UInt8.ofNat omitted).toNat (some st.v6Prefix)
      ((updateBody 2 flags (.ofNat plen) (.ofNat omitted) interval seqno metric
        bytes channels).length - 10) = some bytes.length := by
    have hby : prefixBytes 2 (some (.ofNat plen)) = (plen + 7) / 8 := by rw [prefixBytes, hpn]
    have hdp : ¬ (omitted ≠ 0 ∧ (some st.v6Prefix).all
        (fun dp => decide (v4mapped dp)) = true) := by
      rcases hkn with h | h
      · exact fun hne => hne.1 h
      · simp [h.2.1]
    unfold prefixSize
    dsimp only
    rw [hby, hom, updateBody_length, hct, if_neg (by omega), if_neg (by decide),
      if_neg (by decide), if_pos rfl, if_neg (by omega), if_neg hdp,
      if_neg (by omega)]
  have hom0 : UInt8.ofNat omitted = 0 ∨ flags ≠ 1 ∧ st.haveV6Prefix = true := by
    rcases hkn with h | h
    · exact Or.inl (by rw [h]; rfl)
    · exact Or.inr ⟨hfl, h.1⟩
  exact reads_update (by rw [updateBody_length, hct]; omega) hom0 hsize hv hch hid hnh

theorem reads_retraction :
    Hears peer (tlv 8 (updateBody 0 0x40 0 0 0xffff seqno 0xffff [] none)) st { st with
        routerId := some (replicate 8 0)
        calls := st.calls ++ [.retractNeighbourRoutes] } := by
  refine reads_tlv (by decide) (by rw [updateBody_length]; decide) fun rest => ?_
  have hv : prefixValue 0 (some 0) 0 (some st.v6Prefix) [] = replicate 16 0 := rfl
  rw [parseMessage_update, parseUpdate_ok rfl (Or.inl rfl) rfl hv]
  rfl

end

end

/-! ## Writing TLVs -/

def BabelSender.wrote (s : BabelSender) (bytes : List UInt8) : BabelSender :=
  { s with sendbuf := s.sendbuf ++ bytes }

/-- The computation adds the bytes to a buffer that has space for them. -/
def Writes (m : BabelSendM Unit) (bytes : List UInt8) : Prop :=
  ∀ s, s.sendbuf.length + bytes.length ≤ s.bufsize → m s = .ok ((), s.wrote bytes)

variable {m m' : BabelSendM Unit} {bytes more : List UInt8}

theorem writes_bytes (bytes : List UInt8) : Writes (accumulateBytes bytes) bytes := by
  intro s hspc
  unfold accumulateBytes
  rw [get_bind, if_pos hspc]
  rfl

theorem writes_pure : Writes (pure ()) [] := by
  intro s _
  rw [wrote, append_nil]
  rfl

theorem Writes.bind (h : Writes m bytes) (hmo : Writes m' more) :
    Writes (m >>= fun _ => m') (bytes ++ more) := by
  intro s hspc
  rw [length_append, ← Nat.add_assoc] at hspc
  rw [bind_ok (h s (by omega)), hmo (s.wrote bytes)]
  · rw [wrote, wrote, append_assoc]
    rfl
  · rwa [wrote, length_append]

theorem writes_channels (channels : Option (List UInt8)) :
    Writes (accumulateChannels channels) (channelsTlv channels) := by
  cases channels with
  | none => exact writes_pure
  | some c => exact (writes_bytes [2]).bind ((writes_bytes [.ofNat c.length]).bind (writes_bytes c))

theorem ensureSpace_enough {bucket : Bool} {space : Nat} {s : BabelSender}
    (h : space ≤ s.bufsize - s.sendbuf.length) : ensureSpace bucket space s = .ok ((), s) := by
  unfold ensureSpace
  rw [get_bind, when, if_neg (Nat.not_lt.mpr h)]
  rfl

theorem writes_message {bucket : Bool} {type : UInt8} {len : Nat} (h : Writes m bytes)
    (hlen : bytes.length = len) (hbt : len < 256) :
    Writes (sendMessage bucket type len m) (tlv type bytes) := by
  subst hlen
  intro s hspc
  have htot : (tlv type bytes).length = bytes.length + 2 := rfl
  have hst : startMessage bucket type bytes.length s
      = .ok ((), s.wrote [type, .ofNat bytes.length]) := by
    unfold startMessage
    rw [bind_ok (ensureSpace_enough (by omega))]
    exact (writes_bytes [type]).bind (writes_bytes [.ofNat bytes.length]) s (by simp; omega)
  have hbd : m (s.wrote [type, .ofNat bytes.length]) = .ok ((), s.wrote (tlv type bytes)) := by
    rw [h _ (by simp [wrote]; omega)]
    simp [wrote, tlv]
  have he : endMessage type bytes.length (s.wrote (tlv type bytes))
      = .ok ((), s.wrote (tlv type bytes)) := by
    have hln : (s.wrote (tlv type bytes)).sendbuf.length = s.sendbuf.length + bytes.length + 2 := by
      rw [wrote, length_append, htot, Nat.add_assoc]
    have hbyteLen : (UInt8.ofNat bytes.length).toNat = bytes.length := by
      rw [UInt8.toNat_ofNat']
      exact Nat.mod_eq_of_lt hbt
    unfold endMessage
    rw [get_bind, hln, check, if_pos]
    · rfl
    · refine ⟨by omega, ?_, ?_⟩
      · rw [show s.sendbuf.length + bytes.length + 2 - bytes.length - 2 = s.sendbuf.length by omega,
          wrote, getElem?_append_right (Nat.le_refl _), Nat.sub_self]
        rfl
      · rw [show s.sendbuf.length + bytes.length + 2 - bytes.length - 1 = s.sendbuf.length + 1 by
            omega, wrote, getElem?_append_right (by omega),
          Nat.add_sub_cancel_left]
        exact congrArg some hbyteLen
  rw [sendMessage, bind_ok hst, bind_ok hbd, he]

end SdnQuagga
