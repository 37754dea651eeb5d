import SdnQuagga.BabelPacket

/-!
# Which Babel packets are read within their bounds

The checks of `parse_packet` against the end of the body forget the two bytes that stand in
front of a message, and those of `parse_route_attributes` the two bytes in front of an
attribute. A read beyond the end is possible for what ends the packet. `PacketInside` says for
each message that is reached whether the bytes that its kind needs are there.
-/

namespace SdnQuagga

open FaultM List

/-! ## Reads -/

section

variable {σ α : Type} {p : List UInt8} {i n : Nat} {s : σ}

theorem readByte_ok (h : i < p.length) :
    (readByte p i : FaultM σ UInt8) s = .ok (p.getD i 0, s) := by
  unfold readByte
  rw [getD_eq_getElem?_getD, getElem?_eq_getElem h]
  rfl

theorem readByte_error (h : ¬ i < p.length) :
    (readByte p i : FaultM σ UInt8) s = .error .outOfBounds := by
  unfold readByte
  rw [getElem?_eq_none (Nat.not_lt.mp h)]
  rfl

theorem readByte_bind {f : UInt8 → FaultM σ α} :
    Ends (readByte p i >>= f) s ↔ i < p.length ∧ Ends (f (p.getD i 0)) s := by
  by_cases h : i < p.length
  · rw [and_iff_right h, Ends, bind_ok (readByte_ok h)]
    exact Iff.rfl
  · refine iff_of_false (not_ends_error (bind_error (readByte_error h))) fun hen => h hen.1

def shortAt (p : List UInt8) (i : Nat) : UInt16 :=
  .ofNat ((p.getD i 0).toNat * 256 + (p.getD (i + 1) 0).toNat)

theorem readShort_ok (h : i + 1 < p.length) :
    (readShort p i : FaultM σ UInt16) s = .ok (shortAt p i, s) := by
  unfold readShort
  rw [bind_ok (readByte_ok (Nat.lt_of_succ_lt h)), bind_ok (readByte_ok h)]
  rfl

theorem readShort_bind {f : UInt16 → FaultM σ α} :
    Ends (readShort p i >>= f) s ↔ i + 1 < p.length ∧ Ends (f (shortAt p i)) s := by
  by_cases h : i + 1 < p.length
  · rw [and_iff_right h, Ends, bind_ok (readShort_ok h)]
    exact Iff.rfl
  · refine iff_of_false (fun hen => ?_) fun hen => h hen.1
    unfold readShort at hen
    rw [bind_assoc, readByte_bind, bind_assoc, readByte_bind] at hen
    exact h hen.2.1

theorem readBytes_bind {f : List UInt8 → FaultM σ α} :
    Ends (readBytes p i n >>= f) s
      ↔ (n = 0 ∨ i + n ≤ p.length) ∧ Ends (f ((p.drop i).take n)) s := by
  unfold readBytes
  split_ifs with h
  · rw [pure_bind, and_iff_right h]
  · exact iff_of_false (not_ends_error (bind_error rfl)) fun hen => h hen.1

end

/-! ## Prefixes -/

variable (ae : UInt8) (plen : Option UInt8) (omitted : Nat) (dp : Option (List UInt8))

/-- What `network_prefix` answers: how many bytes it copies from the packet, none if it
refuses the prefix. -/
def prefixSize (len : Nat) : Option Nat :=
  let pb := prefixBytes ae plen
  if pb > 16 then none
  else if ae = 0 then some 0
  else if ae = 1 then
    if omitted > 4 ∨ pb > 4 ∨ (pb > omitted ∧ len < pb - omitted) then none
    else if omitted ≠ 0 ∧ dp.all (fun dp => decide (¬ v4mapped dp)) then none
    else if pb < omitted then none else some (pb - omitted)
  else if ae = 2 then
    if omitted > 16 ∨ (pb > omitted ∧ len < pb - omitted) then none
    else if omitted ≠ 0 ∧ dp.all (fun dp => decide (v4mapped dp)) then none
    else if pb < omitted then none else some (pb - omitted)
  else if ae = 3 then
    if pb > 8 ∧ len < pb - 8 then none
    else if pb < 8 then none else some (pb - 8)
  else none

/-- The prefix that the bytes of a packet and the omitted ones give. -/
def prefixValue (bytes : List UInt8) : List UInt8 :=
  let start :=
    if ae = 0 then []
    else if ae = 1 then if omitted = 0 then v4pfx else (dp.getD []).take (12 + omitted)
    else if ae = 2 then (dp.getD []).take omitted
    else [0xfe, 0x80, 0, 0, 0, 0, 0, 0]
  maskPrefix (padded (start ++ bytes)) (maskLength ae plen)

/-- The copied bytes are in the packet. -/
def PrefixInside (p : List UInt8) (i : Nat) (dp : Option (List UInt8)) (len : Nat) : Prop :=
  ∀ k ∈ prefixSize ae plen omitted dp len, k = 0 ∨ i + k ≤ p.length

section

variable {σ α : Type} {ae : UInt8} {plen : Option UInt8} {omitted len i : Nat} {p : List UInt8}
  {dp : Option (List UInt8)} {s : σ}

theorem readBytes_zero : (readBytes p i 0 : FaultM σ (List UInt8)) = pure [] := by
  unfold readBytes
  rw [if_pos (Or.inl rfl), take_zero]

/-- A prefix that is shorter than what it omits is refused after a copy of no byte. -/
theorem readBytes_sub (n : Nat) (f : List UInt8 → List UInt8) :
    (do
      let bytes ← readBytes p i (n - omitted)
      if n < omitted then return none else return some (n - omitted, f bytes) :
      FaultM σ (Option (Nat × List UInt8)))
    = match (if n < omitted then none else some (n - omitted)) with
      | none => pure none
      | some k => do
        let bytes ← readBytes p i k
        return some (k, f bytes) := by
  by_cases h : n < omitted
  · simp only [if_pos h, Nat.sub_eq_zero_of_le (Nat.le_of_lt h), readBytes_zero, pure_bind]
  · simp only [if_neg h]

theorem networkPrefix_eq :
    (networkPrefix ae plen omitted p i dp len : FaultM σ _) =
      match prefixSize ae plen omitted dp len with
      | none => pure none
      | some k => do
        let bytes ← readBytes p i k
        return some (k, prefixValue ae plen omitted dp bytes) := by
  unfold networkPrefix prefixSize prefixValue
  dsimp only
  by_cases hlg : prefixBytes ae plen > 16
  · rw [if_pos hlg, if_pos hlg]
  rw [if_neg hlg, if_neg hlg]
  by_cases h0 : ae = 0
  · simp only [if_pos h0, readBytes_zero, pure_bind, nil_append]
  by_cases h1 : ae = 1
  · simp only [if_neg h0, if_pos h1]
    by_cases hsh : omitted > 4 ∨ prefixBytes ae plen > 4
        ∨ (prefixBytes ae plen > omitted ∧ len < prefixBytes ae plen - omitted)
    · rw [if_pos hsh, if_pos hsh]
    by_cases hdp : omitted ≠ 0 ∧ dp.all (fun dp => decide (¬ v4mapped dp)) = true
    · rw [if_neg hsh, if_neg hsh, if_pos hdp, if_pos hdp]
    rw [if_neg hsh, if_neg hsh, if_neg hdp, if_neg hdp]
    exact readBytes_sub _ _
  by_cases h2 : ae = 2
  · simp only [if_neg h0, if_neg h1, if_pos h2]
    by_cases hsh : omitted > 16
        ∨ (prefixBytes ae plen > omitted ∧ len < prefixBytes ae plen - omitted)
    · rw [if_pos hsh, if_pos hsh]
    by_cases hdp : omitted ≠ 0 ∧ dp.all (fun dp => decide (v4mapped dp)) = true
    · rw [if_neg hsh, if_neg hsh, if_pos hdp, if_pos hdp]
    rw [if_neg hsh, if_neg hsh, if_neg hdp, if_neg hdp]
    exact readBytes_sub _ _
  by_cases h3 : ae = 3
  · simp only [if_neg h0, if_neg h1, if_neg h2, if_pos h3]
    by_cases hsh : prefixBytes ae plen > 8 ∧ len < prefixBytes ae plen - 8
    · rw [if_pos hsh, if_pos hsh]
    rw [if_neg hsh, if_neg hsh]
    exact readBytes_sub _ _
  simp only [if_neg h0, if_neg h1, if_neg h2, if_neg h3]

variable {f : Option (Nat × List UInt8) → FaultM σ α}

theorem networkPrefix_bind :
    Ends (networkPrefix ae plen omitted p i dp len >>= f) s
      ↔ PrefixInside ae plen omitted p i dp len
        ∧ Ends (f ((prefixSize ae plen omitted dp len).map fun k =>
            (k, prefixValue ae plen omitted dp ((p.drop i).take k)))) s := by
  rw [networkPrefix_eq, PrefixInside]
  cases prefixSize ae plen omitted dp len with
  | none => simp
  | some k =>
    simp only [Option.mem_def, Option.some.injEq, forall_eq', Option.map_some]
    rw [bind_assoc, readBytes_bind]
    simp only [pure_bind]

/-- What follows does not read. -/
theorem networkPrefix_bind_ends (hf : ∀ r, Ends (f r) s) :
    Ends (networkPrefix ae plen omitted p i dp len >>= f) s
      ↔ PrefixInside ae plen omitted p i dp len := by
  rw [networkPrefix_bind, and_iff_left (hf _)]

/-! ## Attributes -/

variable (p) (n : Nat)

/-- `memchr` finds a 0 or its bytes are all there. -/
def ChannelsInside : Prop := n ≤ p.length ∨ 0 ∈ p

theorem channelsInside_cons {b : UInt8} {bs : List UInt8} (hb : b ≠ 0) :
    ChannelsInside (b :: bs) (n + 1) ↔ ChannelsInside bs n := by
  simp [ChannelsInside, Ne.symm hb]

theorem readNonzero_ok (h : ChannelsInside p n) :
    (readNonzero p n : FaultM σ _) s = .ok (if 0 ∈ p.take n then none else some (p.take n), s) := by
  induction n generalizing p with
  | zero => simp [readNonzero, pure_apply]
  | succ n ih =>
    cases p with
    | nil => simp [ChannelsInside] at h
    | cons b bs =>
      rw [readNonzero, bind_ok (readByte_ok (by simp))]
      by_cases hb : b = 0
      · subst hb
        simp [pure_apply]
      · rw [channelsInside_cons n hb] at h
        rw [show (b :: bs).getD 0 0 = b from rfl, if_neg hb, drop_one, tail_cons,
          bind_ok (ih bs h), take_succ_cons]
        by_cases hm : 0 ∈ bs.take n
        · rw [if_pos hm, if_pos (mem_cons_of_mem b hm)]
          rfl
        · rw [if_neg hm, if_neg (by simp [hm, Ne.symm hb])]
          rfl

theorem readNonzero_error (h : ¬ ChannelsInside p n) :
    (readNonzero p n : FaultM σ _) s = .error .outOfBounds := by
  induction n generalizing p with
  | zero => exact (h (.inl (Nat.zero_le _))).elim
  | succ n ih =>
    rw [readNonzero]
    cases p with
    | nil => exact bind_error (readByte_error (by simp))
    | cons b bs =>
      have hb : b ≠ 0 := fun hb => h (.inr (by simp [hb]))
      rw [channelsInside_cons n hb] at h
      rw [bind_ok (readByte_ok (by simp)), show (b :: bs).getD 0 0 = b from rfl, if_neg hb,
        drop_one, tail_cons, bind_error (ih bs h)]

variable {p}

/-- The bytes that `parse_route_attributes` needs are there. -/
def AttributesInside (a : List UInt8) (alen : Nat) : Prop :=
  if alen = 0 then True
  else
    0 < a.length ∧
    if a.getD 0 0 = 0 then AttributesInside (a.drop 1) (alen - 1)
    else
      1 < a.length ∧
      let len := (a.getD 1 0).toNat
      if alen < len then True
      else if a.getD 0 0 = 2 then
        let len := min len diversityHops
        ChannelsInside (a.drop 2) len ∧
          (0 ∉ (a.drop 2).take len → AttributesInside (a.drop (len + 2)) (alen - (len + 2)))
      else AttributesInside (a.drop (len + 2)) (alen - (len + 2))
termination_by alen

theorem attributes_ends_iff (a : List UInt8) (alen : Nat) (channels : List UInt8) :
    Ends (parseRouteAttributes a alen channels) s ↔ AttributesInside a alen := by
  induction alen using Nat.strong_induction_on generalizing a channels with
  | _ alen ih =>
    rw [parseRouteAttributes, AttributesInside]
    by_cases h0 : alen = 0
    · rw [if_pos h0, if_pos h0]
      exact iff_of_true (ends_pure _ _) trivial
    rw [if_neg h0, if_neg h0, readByte_bind]
    refine and_congr_right fun _ => ?_
    by_cases hty : a.getD 0 0 = 0
    · rw [if_pos hty, if_pos hty]
      exact ih _ (by omega) _ _
    rw [if_neg hty, if_neg hty, readByte_bind]
    refine and_congr_right fun _ => ?_
    dsimp only
    by_cases hsh : alen < (a.getD 1 0).toNat
    · rw [if_pos hsh, if_pos hsh]
      exact iff_of_true (ends_pure _ _) trivial
    rw [if_neg hsh, if_neg hsh]
    by_cases h2 : a.getD 0 0 = 2
    · rw [if_pos h2, if_pos h2]
      by_cases hin : ChannelsInside (a.drop 2) (min (a.getD 1 0).toNat diversityHops)
      · rw [and_iff_right hin, Ends, bind_ok (readNonzero_ok _ _ hin)]
        by_cases hm : 0 ∈ (a.drop 2).take (min (a.getD 1 0).toNat diversityHops)
        · rw [if_pos hm]
          exact iff_of_true (ends_pure _ _) fun hno => (hno hm).elim
        · rw [if_neg hm, imp_iff_right hm]
          exact ih _ (by omega) _ _
      · exact iff_of_false (not_ends_error (bind_error (readNonzero_error _ _ hin)))
          fun hen => hin hen.1
    · rw [if_neg h2, if_neg h2]
      exact ih _ (by omega) _ _

end

/-! ## Messages -/

section

variable (peer : BabelPeer) (message : List UInt8) (len : Nat) (st : BabelParser)

/-- The prefix of an update is parsed: the ones that it is compressed with are known. -/
def updatePrefixSize : Option Nat :=
  let ae := message.getD 2 0
  let flags := message.getD 3 0
  let omitted := message.getD 5 0
  if omitted = 0 ∨ (if flags = 1 then st.haveV4Prefix else st.haveV6Prefix) = true then
    prefixSize ae (some (message.getD 4 0)) omitted.toNat
      (some (if ae = 1 then st.v4Prefix else st.v6Prefix)) (len - 10)
  else none

/-- The attributes of an update are parsed: it has a router id and a next hop. -/
def AttributesReached : Prop :=
  let ae := message.getD 2 0
  let flags := message.getD 3 0
  (st.routerId ≠ none ∨ flags &&& 0x40 ≠ 0) ∧ ae ≠ 0
    ∧ (ae = 1 → st.v4Nh ≠ none ∧ peer.ipv4 = true) ∧ peer.faraway = false

/-- The bytes that an update needs are there. -/
def UpdateInside : Prop :=
  12 ≤ message.length ∧ ∀ k ∈ updatePrefixSize message len st, (k = 0 ∨ 12 + k ≤ message.length) ∧
      (AttributesReached peer message st → 10 + k < len →
        AttributesInside (message.drop (2 + (10 + k))) (len - (10 + k)))

/-- The bytes that a message needs are there. -/
def MessageInside (type : UInt8) : Prop :=
  if type = 2 then len < 6 ∨ 8 ≤ message.length
  else if type = 4 then len < 6 ∨ 8 ≤ message.length
  else if type = 5 then len < 6 ∨ 8 ≤ message.length
      ∧ PrefixInside (message.getD 2 0) none 0 message 8 none (len - 6)
  else if type = 6 then len < 10 ∨ 12 ≤ message.length
  else if type = 7 then len < 2 ∨ 3 ≤ message.length
      ∧ PrefixInside (message.getD 2 0) none 0 message 4 none (len - 2)
  else if type = 8 then len < 2 ∨ (len < 10 ∧ 4 ≤ message.length)
      ∨ ¬ len < 10 ∧ UpdateInside peer message len st
  else if type = 9 then len < 2 ∨ 4 ≤ message.length
      ∧ PrefixInside (message.getD 2 0) (some (message.getD 3 0)) 0 message 4 none (len - 2)
  else if type = 10 then len < 14 ∨ 6 ≤ message.length
      ∧ PrefixInside (message.getD 2 0) (some (message.getD 3 0)) 0 message 16 none (len - 14)
      ∧ (prefixSize (message.getD 2 0) (some (message.getD 3 0)) 0 none (len - 14) = none
        ∨ 16 ≤ message.length)
  else True

variable {peer message len st}

theorem ends_call (c : BabelCall) : Ends (call c) st := ends_modify _ _

theorem parseAckReq_ends : Ends (parseAckReq message len) st ↔ len < 6 ∨ 8 ≤ message.length := by
  rw [parseAckReq, ends_when, readShort_bind, readShort_bind]
  have hca : ∀ a b, Ends (call (.sendAck a b)) st := fun a b => ends_call _
  simp only [hca, and_true]
  omega

theorem parseHello_ends : Ends (parseHello message len) st ↔ len < 6 ∨ 8 ≤ message.length := by
  rw [parseHello, ends_when, readShort_bind, readShort_bind]
  have hca : ∀ a b, Ends (call (.hello a b)) st := fun a b => ends_call _
  simp only [hca, and_true]
  omega

theorem parseIhu_ends :
    Ends (parseIhu peer message len) st ↔ len < 6 ∨ 8 ≤ message.length
      ∧ PrefixInside (message.getD 2 0) none 0 message 8 none (len - 6) := by
  rw [parseIhu, ends_when, readShort_bind, readShort_bind, readByte_bind, networkAddress,
    networkPrefix_bind_ends]
  · grind
  · rintro (_ | ⟨k, address⟩)
    · exact ends_pure _ _
    · exact ends_when.mpr fun _ => ends_call _

theorem parseRouterId_ends :
    Ends (parseRouterId message len) st ↔ len < 10 ∨ 12 ≤ message.length := by
  unfold parseRouterId
  split_ifs with h
  · exact iff_of_true (ends_modify _ _) (.inl h)
  · rw [readBytes_bind, and_iff_left (ends_modify _ _)]
    omega

theorem parseNh_ends :
    Ends (parseNh message len) st ↔ len < 2 ∨ 3 ≤ message.length
      ∧ PrefixInside (message.getD 2 0) none 0 message 4 none (len - 2) := by
  unfold parseNh
  split_ifs with h
  · exact iff_of_true (ends_modify _ _) (.inl h)
  · rw [readByte_bind, networkAddress, networkPrefix_bind_ends]
    · grind
    · rintro (_ | ⟨k, nh⟩)
      · exact ends_modify _ _
      · exact ends_ite (ends_modify _ _) (ends_modify _ _)

theorem parseRequest_ends :
    Ends (parseRequest message len) st ↔ len < 2 ∨ 4 ≤ message.length
      ∧ PrefixInside (message.getD 2 0) (some (message.getD 3 0)) 0 message 4 none (len - 2) := by
  rw [parseRequest, ends_when, readByte_bind, readByte_bind, networkPrefix_bind_ends]
  · grind
  · rintro (_ | ⟨k, pfx⟩)
    · exact ends_pure _ _
    · exact ends_ite (ends_call _) (ends_call _)

theorem parseMhRequest_ends :
    Ends (parseMhRequest message len) st ↔ len < 14 ∨ 6 ≤ message.length
      ∧ PrefixInside (message.getD 2 0) (some (message.getD 3 0)) 0 message 16 none (len - 14)
      ∧ (prefixSize (message.getD 2 0) (some (message.getD 3 0)) 0 none (len - 14) = none
        ∨ 16 ≤ message.length) := by
  rw [parseMhRequest, ends_when, readShort_bind, readByte_bind, readByte_bind, networkPrefix_bind]
  cases hsize : prefixSize (message.getD 2 0) (some (message.getD 3 0)) 0 none (len - 14) with
  | none =>
    have hen : Ends (pure () : BabelM Unit) st := ends_pure _ _
    simp only [Option.map_none, hen]
    grind
  | some k =>
    simp only [Option.map_some]
    rw [readByte_bind, readBytes_bind, and_iff_left (ends_call _)]
    simp only [reduceCtorEq, false_or]
    grind

theorem finishUpdate_ends {parsedLen : Nat} {nh : List UInt8} {u : BabelUpdateCall} :
    Ends (finishUpdate peer message len parsedLen nh u) st
      ↔ (peer.faraway = false → parsedLen < len →
          AttributesInside (message.drop (2 + parsedLen)) (len - parsedLen)) := by
  unfold finishUpdate
  dsimp only
  by_cases h : peer.faraway = false ∧ parsedLen < len
  · rw [if_pos h, ends_bind, ← attributes_ends_iff (s := st) _ _
      (if peer.faraway = true ∨ u.metric < 256 then [] else [255])]
    constructor
    · rintro ⟨channels, st', hok, -⟩ - -
      exact ⟨channels, st', hok⟩
    · intro hen
      obtain ⟨channels, st', hok⟩ := hen h.1 h.2
      exact ⟨channels, st', hok, ends_call _⟩
  · rw [if_neg h, pure_bind]
    exact iff_of_true (ends_call _) fun hnear hlen => (h ⟨hnear, hlen⟩).elim

theorem rememberUpdate_routerId (st : BabelParser) (ae flags : UInt8) (pfx : List UInt8) :
    (rememberUpdate ae flags pfx st).routerId = none ↔ st.routerId = none ∧ flags &&& 0x40 = 0 := by
  unfold rememberUpdate
  by_cases hid : flags &&& 0x40 = 0
  · rw [and_iff_left hid, if_pos hid]
    split_ifs <;> rfl
  · rw [if_neg hid]
    refine iff_of_false ?_ fun h => hid h.2
    split_ifs <;> simp

theorem rememberUpdate_v4Nh (st : BabelParser) (ae flags : UInt8) (pfx : List UInt8) :
    (rememberUpdate ae flags pfx st).v4Nh = st.v4Nh := by
  unfold rememberUpdate
  split_ifs <;> rfl

theorem acceptUpdate_ends {interval seqno metric : UInt16} {parsed : Nat × List UInt8} :
    Ends (acceptUpdate peer message len (message.getD 2 0) (message.getD 3 0) (message.getD 4 0)
        interval seqno metric parsed) st
      ↔ (AttributesReached peer message st → 10 + parsed.1 < len →
          AttributesInside (message.drop (2 + (10 + parsed.1))) (len - (10 + parsed.1))) := by
  unfold acceptUpdate AttributesReached
  rw [Ends, modify_bind, get_bind, ← Ends]
  have hv4 := rememberUpdate_v4Nh st (message.getD 2 0) (message.getD 3 0) parsed.2
  have hid := rememberUpdate_routerId st (message.getD 2 0) (message.getD 3 0) parsed.2
  revert hv4 hid
  generalize rememberUpdate (message.getD 2 0) (message.getD 3 0) parsed.2 st = st'
  intro hv4 hid
  dsimp only
  by_cases hae : message.getD 2 0 = 0
  · rw [if_neg fun h => h.2 hae, if_pos hae]
    exact iff_of_true (ends_when.mpr fun _ => ends_call _) fun h => (h.2.1 hae).elim
  by_cases hnoid : st'.routerId = none
  · rw [if_pos ⟨hnoid, hae⟩]
    refine iff_of_true (ends_pure _ _) fun h => ?_
    obtain ⟨hno, hfg⟩ := hid.mp hnoid
    exact (h.1.elim (fun hso => hso hno) fun hs => hs hfg).elim
  have hkn : st.routerId ≠ none ∨ message.getD 3 0 &&& 0x40 ≠ 0 := by
    rw [hid] at hnoid
    exact not_and_or.mp hnoid
  rw [if_neg fun h => hnoid h.1, if_neg hae]
  split_ifs with h1
  · rw [hv4]
    cases hnh : st.v4Nh with
    | none => exact iff_of_true (ends_pure _ _) fun h => ((h.2.2.1 h1).1 rfl).elim
    | some nh =>
      dsimp only
      rw [ends_when, finishUpdate_ends]
      constructor
      · intro h hrch
        exact h (hrch.2.2.1 h1).2 hrch.2.2.2
      · intro h hv4 hnear
        exact h ⟨hkn, hae, fun _ => ⟨Option.some_ne_none nh, hv4⟩, hnear⟩
  · rw [finishUpdate_ends]
    constructor
    · intro h hrch
      exact h hrch.2.2.2
    · intro h hnear
      exact h ⟨hkn, hae, fun hone => (h1 hone).elim, hnear⟩

theorem parseUpdate_ends :
    Ends (parseUpdate peer message len) st ↔ len < 2 ∨ (len < 10 ∧ 4 ≤ message.length)
      ∨ ¬ len < 10 ∧ UpdateInside peer message len st := by
  unfold parseUpdate
  by_cases h2 : len < 2
  · rw [if_pos h2]
    exact iff_of_true (ends_modify _ _) (.inl h2)
  by_cases h10 : len < 10
  · have hwhen : Ends (when (message.getD 3 0 &&& 0x80 ≠ 0) forgetPrefixes) st :=
      ends_when.mpr fun _ => ends_modify _ _
    rw [if_neg h2, if_pos h10, readByte_bind, and_iff_left hwhen]
    omega
  have hforget : Ends (when (message.getD 3 0 &&& 0x80 ≠ 0) forgetPrefixes) st :=
    ends_when.mpr fun _ => ends_modify _ _
  rw [if_neg h2, if_neg h10, readShort_bind, readShort_bind, readShort_bind, readByte_bind,
    readByte_bind, readByte_bind, readByte_bind, Ends, get_bind, ← Ends, UpdateInside,
    updatePrefixSize]
  dsimp only
  by_cases hkn : message.getD 5 0 = 0
      ∨ (if message.getD 3 0 = 1 then st.haveV4Prefix else st.haveV6Prefix) = true
  · rw [if_pos hkn, if_pos hkn, networkPrefix_bind, PrefixInside]
    cases prefixSize (message.getD 2 0) (some (message.getD 4 0)) (message.getD 5 0).toNat
        (some (if message.getD 2 0 = 1 then st.v4Prefix else st.v6Prefix)) (len - 10) with
    | none =>
      simp only [Option.map_none, hforget]
      grind
    | some k =>
      simp only [Option.map_some, acceptUpdate_ends]
      grind
  · rw [if_neg hkn, if_neg hkn, pure_bind]
    simp only [hforget]
    grind

theorem parseMessage_ends (type : UInt8) :
    Ends (parseMessage peer message len type) st ↔ MessageInside peer message len st type := by
  unfold parseMessage MessageInside
  refine ends_ite_iff parseAckReq_ends <| ends_ite_iff parseHello_ends <|
    ends_ite_iff parseIhu_ends <| ends_ite_iff parseRouterId_ends <|
    ends_ite_iff parseNh_ends <| ends_ite_iff parseUpdate_ends <|
    ends_ite_iff parseRequest_ends <| ends_ite_iff parseMhRequest_ends ?_
  exact iff_of_true (ends_pure _ _) trivial

end

/-! ## Packets -/

variable (peer : BabelPeer)

/-- The bytes that the messages of a body need are there. A message is read with what the ones
before it have told. -/
def BodyInside (message : List UInt8) (left : Nat) (st : BabelParser) : Prop :=
  if left = 0 then True
  else if message.getD 0 0 = 0 then BodyInside (message.drop 1) (left - 1) st
  else
    1 < message.length ∧
    let len := (message.getD 1 0).toNat
    left < len ∨ MessageInside peer message len st (message.getD 0 0) ∧
      ∀ st', parseMessage peer message len (message.getD 0 0) st = .ok ((), st') →
        BodyInside (message.drop (len + 2)) (left - (len + 2)) st'
termination_by left

theorem parseBody_ends_iff (message : List UInt8) (left : Nat)
    (st : BabelParser) (hlf : left ≤ message.length) :
    Ends (parseBody peer message left) st ↔ BodyInside peer message left st := by
  induction left using Nat.strong_induction_on generalizing message st with
  | _ left ih =>
    rw [parseBody, BodyInside]
    by_cases h0 : left = 0
    · rw [if_pos h0, if_pos h0]
      exact iff_of_true (ends_pure _ _) trivial
    rw [if_neg h0, if_neg h0, readByte_bind, and_iff_right (by omega)]
    by_cases hty : message.getD 0 0 = 0
    · rw [if_pos hty, if_pos hty]
      exact ih _ (by omega) _ _ (by rw [length_drop]; omega)
    rw [if_neg hty, if_neg hty, readByte_bind]
    refine and_congr_right fun _ => ?_
    dsimp only
    by_cases hsh : left < (message.getD 1 0).toNat
    · rw [if_pos hsh]
      exact iff_of_true (ends_pure _ _) (.inl hsh)
    rw [if_neg hsh, or_iff_right hsh, ends_bind, ← parseMessage_ends]
    have hrs : ∀ st', Ends (parseBody peer (message.drop ((message.getD 1 0).toNat + 2))
          (left - ((message.getD 1 0).toNat + 2))) st'
        ↔ BodyInside peer (message.drop ((message.getD 1 0).toNat + 2))
          (left - ((message.getD 1 0).toNat + 2)) st' :=
      fun st' => ih _ (by omega) _ _ (by rw [length_drop]; omega)
    constructor
    · rintro ⟨⟨⟩, st', hok, hen⟩
      refine ⟨⟨(), st', hok⟩, fun st'' hok' => ?_⟩
      rw [hok] at hok'
      cases hok'
      exact (hrs st').mp hen
    · rintro ⟨⟨⟨⟩, st', hok⟩, hn⟩
      exact ⟨(), st', hok, (hrs st').mpr (hn st' hok)⟩

/-- The bytes that a packet's parser needs are there. -/
def PacketInside (packet : List UInt8) (st : BabelParser) : Prop :=
  peer.linklocal = true → 0 < packet.length ∧ (packet.getD 0 0 = 42 → 1 < packet.length ∧
      (packet.getD 1 0 = 2 ∧ peer.known = true → 3 < packet.length ∧
        BodyInside peer (packet.drop 4) (min (shortAt packet 2).toNat (packet.length - 4)) st))

/-- `parse_packet` reads within the packet exactly if the bytes that its messages need are
there. -/
theorem parsePacket_ends_iff (peer : BabelPeer) (packet : List UInt8) (st : BabelParser) :
    Ends (parsePacket peer packet) st ↔ PacketInside peer packet st := by
  rw [parsePacket, PacketInside, ends_when]
  refine imp_congr_right fun _ => ?_
  rw [readByte_bind, ends_when]
  refine and_congr_right fun _ => imp_congr_right fun _ => ?_
  rw [readByte_bind, ends_when]
  refine and_congr_right fun _ => imp_congr_right fun _ => ?_
  rw [readShort_bind]
  refine and_congr_right fun _ => parseBody_ends_iff _ _ _ _ ?_
  rw [length_drop]
  exact Nat.min_le_right _ _

/-- A neighbor on a link with IPv4. -/
def nearPeer : BabelPeer := ⟨true, true, replicate 16 1, fun _ => true, true, false⟩

/-- A `Hello` of which only the first byte was received, and one of which the check of its length
misses the last two bytes. -/
theorem short_packets_fault :
    parsePacket nearPeer [42, 2, 0, 1, 4] (.start [] []) = .error .outOfBounds
      ∧ parsePacket nearPeer [42, 2, 0, 6, 4, 6, 0, 0, 0, 1] (.start [] [])
        = .error .outOfBounds := by
  constructor
  · have hbody : parseBody nearPeer [4] 1 (.start [] []) = .error .outOfBounds := by
      rw [parseBody]
      rfl
    exact hbody
  · have hbody : parseBody nearPeer [4, 6, 0, 0, 0, 1] 6 (.start [] []) = .error .outOfBounds := by
      rw [parseBody]
      rfl
    exact hbody

end SdnQuagga
