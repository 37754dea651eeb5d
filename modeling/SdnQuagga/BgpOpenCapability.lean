import SdnQuagga.BgpOpenOrf

/-!
# One option of an OPEN message

`bgp_capability_parse` on the bytes of an option: each capability is read
inside its own bytes as long as the ORF capabilities are readable, and
one that is not readable leaves its mark on the record.
-/

namespace SdnQuagga

open FaultM SdnQuagga.Stream List OpenState

/-! ## The other capabilities -/

section

variable {st st' : OpenState} {code : UInt8} {value more : List UInt8}
  {k n endp bound : Nat}

/-- What a capability of `n` bytes leaves: at most `k` of its bytes are
read, and it may be stored as an error. -/
structure Switched (st st' : OpenState) (k n : Nat) : Prop where
  le : k ≤ n
  input : st'.input = st.input.advance k
  entries : st'.entries = st.entries
  parsed : st'.parsed = st.parsed
  error : st'.error.length ≤ st.error.length + (n + 2)

theorem Moved.switched (h : Moved st st' k) (hk : k ≤ n) : Switched st st' k n :=
  ⟨hk, h.input, h.entries, h.parsed, by rw [h.error]; omega⟩

theorem moved_modifyPeer (f : OpenPeer → OpenPeer) (st : OpenState) :
    ∃ st', modifyPeer f st = .ok ((), st') ∧ Moved st st' 0 :=
  ⟨_, rfl, (advance_zero _).symm, rfl, rfl, rfl⟩

theorem storeError_switched {st1 : OpenState} (h : Moved st st1 k) (hk : k ≤ n) (start : Nat)
    (hrm : st.error.length + (n + 2) ≤ errorDataSize) :
    ∃ st', storeError start n st1 = .ok ((), st') ∧ Switched st st' k n := by
  have hlen : ((st1.input.data.drop (start - 2)).take (n + 2)).length ≤ n + 2 := by
    rw [length_take]
    exact Nat.min_le_left ..
  refine ⟨{ st1 with
    error := st1.error ++ (st1.input.data.drop (start - 2)).take (n + 2) },
    ?_, hk, h.input, h.entries, h.parsed, ?_⟩
  · rw [storeError, get_bind, if_neg (by rw [h.error]; omega)]
    rfl
  · rw [length_append, h.error]
    omega

variable {rest : List UInt8}

theorem bgpCapabilityMp_ok {a1 a2 r safi : UInt8}
    (h : st.input.unread = a1 :: a2 :: r :: safi :: rest) :
    ∃ b st', bgpCapabilityMp st = .ok (b, st') ∧ Moved st st' 4 := by
  have hmv := Moved.moved st 4
  unfold bgpCapabilityMp
  rw [bind_ok (bgpCapabilityMpData_ok h)]
  cases hfam : bgpAfiSafiValidIndices (UInt16.ofNat (ofBE [a1, a2])) safi with
  | none =>
    simp only [hfam]
    exact ⟨false, _, rfl, hmv⟩
  | some family =>
    obtain ⟨afi, safi'⟩ := family
    obtain ⟨st1, hs, hmv1⟩ := moved_modifyPeer (fun peer => { peer with
      afcRecv := setFamily peer.afcRecv afi safi' true }) (st.moved 4)
    simp only [hfam]
    rw [bind_ok hs, get_bind]
    split
    · obtain ⟨st2, hs2, hmv2⟩ :=
        moved_modifyPeer (fun peer => { peer with
          afcNego := setFamily peer.afcNego afi safi' true }) st1
      rw [bind_ok hs2]
      exact ⟨true, st2, rfl, (hmv.trans hmv1).trans hmv2⟩
    · exact ⟨false, st1, rfl, hmv.trans hmv1⟩

theorem restartFamily_ok (afi : UInt16) (safi flag : UInt8) (st : OpenState) :
    ∃ st', restartFamily afi safi flag st = .ok ((), st') ∧ Moved st st' 0 := by
  unfold restartFamily
  cases hfam : bgpAfiSafiValidIndices afi safi with
  | none => exact ⟨st, rfl, .refl st⟩
  | some family =>
    simp only
    rw [get_bind]
    split
    · exact moved_modifyPeer _ st
    · exact ⟨st, rfl, .refl st⟩

theorem restartTurn_ok {a1 a2 safi flag : UInt8}
    (h : st.input.unread = a1 :: a2 :: safi :: flag :: rest) :
    ∃ st', restartTurn st = .ok (true, st') ∧ Moved st st' 4 := by
  have hsafi : (st.moved 2).input.unread = safi :: flag :: rest := by simp [h]
  have hfg : ((st.moved 2).moved 1).input.unread = flag :: rest := by simp [h]
  obtain ⟨st', hfam, hmv⟩ := restartFamily_ok
    (UInt16.ofNat (ofBE [a1, a2])) safi flag (((st.moved 2).moved 1).moved 1)
  refine ⟨st', ?_, ?_⟩
  · rw [restartTurn, bind_ok (openIn_getw h), bind_ok (openIn_getc hsafi),
      bind_ok (openIn_getc hfg), bind_ok hfam]
    rfl
  · rw [moved_moved, moved_moved] at hmv
    exact (Moved.moved st 4).trans hmv

theorem restartLoop_ok (hep : endp ≤ st.input.getp + bound)
    (hrm : endp ≤ st.input.getp + st.input.readable) :
    ∃ st' k, whileTurns (before 4 endp) restartTurn bound st = .ok (true, st')
      ∧ Moved st st' k ∧ (k = 0 ∨ st.input.getp + k ≤ endp) := by
  induction bound generalizing st with
  | zero =>
    have hcd : before 4 endp st = false := decide_eq_false (by omega)
    exact ⟨st, 0, whileTurns_done hcd 0, .refl st, .inl rfl⟩
  | succ bound ih =>
    by_cases hfo : st.input.getp + 4 ≤ endp
    · match hu : st.input.unread with
      | [] | [_] | [_, _] | [_, _, _] =>
        have hlen := congrArg List.length hu
        simp only [unread_length, length_cons, length_nil] at hlen
        omega
      | a1 :: a2 :: safi :: flag :: rest =>
        obtain ⟨st1, htn, hmv⟩ := restartTurn_ok hu
        have hgp := hmv.getp (by omega)
        have hrd : st1.input.readable = st.input.readable - 4 := by
          rw [hmv.input, advance_readable]
        have hlf : endp ≤ st1.input.getp + bound := by omega
        have hrm' : endp ≤ st1.input.getp + st1.input.readable := by omega
        obtain ⟨st', k, hr, hmv', hk⟩ := ih hlf hrm'
        have hcd : before 4 endp st = true := decide_eq_true hfo
        refine ⟨st', 4 + k, ?_, hmv.trans hmv', .inr (by omega)⟩
        rw [whileTurns_next hcd htn, hr]
    · have hcd : before 4 endp st = false := decide_eq_false hfo
      exact ⟨st, 0, whileTurns_done hcd _, .refl st, .inl rfl⟩

theorem bgpCapabilityRestart_ok (hu : st.input.unread = value ++ more) (hmi : 2 ≤ value.length) :
    ∃ st' k, bgpCapabilityRestart value.length st = .ok (true, st')
      ∧ Moved st st' k ∧ k ≤ value.length := by
  match value with
  | [] | [_] =>
    simp only [length_cons, length_nil] at hmi
    omega
  | b1 :: b2 :: rest =>
    have hrd : st.input.readable = (b1 :: b2 :: rest).length + more.length := by
      rw [← unread_length, hu, length_append]
    obtain ⟨st1, hs, hmv1⟩ := moved_modifyPeer (fun peer => { peer with
      cap := { peer.cap with restartRcv := true } }) st
    have hu1 : st1.input.unread = b1 :: b2 :: (rest ++ more) := by
      rw [hmv1.unread, hu]
      rfl
    obtain ⟨st2, htime, hmv2⟩ := moved_modifyPeer (fun peer => { peer with
      vGrRestart := UInt16.ofNat (ofBE [b1, b2]) &&& 0x0FFF })
      (st1.moved 2)
    have hmv := (hmv1.trans (.moved st1 2)).trans hmv2
    have hgp := hmv.getp (by
      rw [hrd, length_cons, length_cons]
      omega)
    have hlf : st.input.getp + (b1 :: b2 :: rest).length
        ≤ st2.input.getp + (b1 :: b2 :: rest).length := by omega
    have hrm : st.input.getp + (b1 :: b2 :: rest).length ≤ st2.input.getp + st2.input.readable := by
      rw [hgp, hmv.input, advance_readable]
      omega
    obtain ⟨st', k, hr, hmv', hk⟩ := restartLoop_ok hlf hrm
    refine ⟨st', _, ?_, hmv.trans hmv', ?_⟩
    · rw [bgpCapabilityRestart, get_bind]
      refine (bind_ok hs).trans ?_
      rw [bind_ok (openIn_getw hu1)]
      refine (bind_ok htime).trans ?_
      exact hr
    · simp only [length_cons] at *
      omega

theorem bgpCapabilityAs4_ok (hu : st.input.unread = value ++ more) :
    ∃ st' k, bgpCapabilityAs4 value.length st
        = .ok (if value.length ≠ 4 then 0 else UInt32.ofNat (ofBE value), st')
      ∧ Moved st st' k ∧ k ≤ value.length := by
  obtain ⟨st1, hs, hmv⟩ := moved_modifyPeer (fun peer => { peer with
    cap := { peer.cap with as4Rcv := true } }) st
  by_cases hfo : value.length ≠ 4
  · refine ⟨st1, 0, ?_, hmv, Nat.zero_le _⟩
    rw [bgpCapabilityAs4, if_pos hfo, if_pos hfo]
    exact (bind_ok hs).trans rfl
  · have hge : Reads getl value (UInt32.ofNat (ofBE value)) := by
      have h := (reads_getBytes value).map fun bs => UInt32.ofNat (ofBE bs)
      rwa [not_not.mp hfo] at h
    have hprefix : value <+: st1.input.unread := by
      rw [hmv.unread, hu]
      exact prefix_append ..
    refine ⟨st1.moved value.length, value.length, ?_, ?_, le_rfl⟩
    · rw [bgpCapabilityAs4, if_neg hfo, if_neg hfo]
      exact (bind_ok hs).trans (openIn_reads hge hprefix)
    · have h := hmv.trans (.moved st1 value.length)
      rwa [Nat.zero_add] at h

theorem capabilityStops_of_ne (hco : ¬ isOrf code)
    (has4 : code ≠ capabilityCodeAs4) : capabilityStops code value = false := by
  simp [capabilityStops, hco, has4]

/-- A capability other than ORF is read from its own bytes. -/
theorem capabilitySwitch_plain (hco : ¬ isOrf code) (hu : st.input.unread = value ++ more)
    (hmi : capMinsize code ≤ value.length)
    (herr : st.error.length + (value.length + 2) ≤ errorDataSize) (start : Nat) :
    ∃ st' k, capabilitySwitch code start value.length st = .ok (!capabilityStops code value, st')
      ∧ Switched st st' k value.length := by
  have hpe f : ∃ st' k, (do
      modifyPeer f
      return true : OpenM Bool) st = .ok (true, st') ∧ Switched st st' k value.length := by
    obtain ⟨st', hs, hmv⟩ := moved_modifyPeer f st
    exact ⟨st', 0, (bind_ok hs).trans rfl, hmv.switched (Nat.zero_le _)⟩
  unfold capabilitySwitch
  split
  next hmp =>
    subst hmp
    rw [capabilityStops_of_ne hco (by decide), modify_bind, get_bind]
    have hmv0 : Moved st { st with mpCapability := true } 0 :=
      ⟨(advance_zero _).symm, rfl, rfl, rfl⟩
    split
    · exact ⟨_, 0, rfl, hmv0.switched (Nat.zero_le _)⟩
    · match value with
      | [] | [_] | [_, _] | [_, _, _] => exact absurd hmi (by simp [capMinsize])
      | a1 :: a2 :: r :: safi :: rest =>
        have hmp : ({ st with mpCapability := true } : OpenState).input.unread
            = a1 :: a2 :: r :: safi :: (rest ++ more) := hu
        obtain ⟨b, st1, hr, hmv⟩ := bgpCapabilityMp_ok hmp
        have hmv1 := hmv0.trans hmv
        have hfo : 0 + 4 ≤ (a1 :: a2 :: r :: safi :: rest).length := hmi
        rw [bind_ok hr]
        cases b with
        | true => exact ⟨st1, _, rfl, hmv1.switched hfo⟩
        | false =>
          obtain ⟨st', hstr, hsw⟩ := storeError_switched hmv1 hfo start herr
          exact ⟨st', _, (bind_ok hstr).trans rfl, hsw⟩
  split
  next hrefreshOld =>
    rw [capabilityStops_of_ne hco (by rw [hrefreshOld]; decide)]
    exact hpe _
  split
  next hrefresh =>
    rw [capabilityStops_of_ne hco (by rw [hrefresh]; decide)]
    exact hpe _
  split
  next hrestart =>
    subst hrestart
    obtain ⟨st', k, hr, hmv, hk⟩ := bgpCapabilityRestart_ok hu hmi
    rw [capabilityStops_of_ne hco (by decide), hr]
    exact ⟨st', k, rfl, hmv.switched hk⟩
  split
  next hdynamic =>
    rw [capabilityStops_of_ne hco (by rw [hdynamic]; decide)]
    exact hpe _
  split
  next has4 =>
    subst has4
    obtain ⟨st', k, hr, hmv, hk⟩ := bgpCapabilityAs4_ok hu
    rw [bind_ok hr]
    refine ⟨st', k, ?_, hmv.switched hk⟩
    rw [pure_apply]
    by_cases hfo : value.length = 4
    · simp [capabilityStops, hco, hfo]
    · simp [capabilityStops, hco, hfo]
  next has4 =>
    rw [capabilityStops_of_ne hco has4]
    split
    · exact ⟨st, 0, rfl, (Moved.refl st).switched (Nat.zero_le _)⟩
    · obtain ⟨st', hstr, hsw⟩ := storeError_switched (Moved.refl st) (Nat.zero_le _) start herr
      exact ⟨st', 0, (bind_ok hstr).trans rfl, hsw⟩

/-! ## One capability -/

theorem capabilitySwitch_orf (hco : isOrf code)
    (hmi : capMinsize code ≤ value.length) (start : Nat) :
    capabilitySwitch code start value.length st
      = orfEntries code value.length (st.input.getp + value.length) value.length st := by
  have hfive : orfEntrySize ≤ value.length := by
    rcases hco with rfl | rfl <;> exact hmi
  have hswt : capabilitySwitch code start value.length = bgpCapabilityOrf code value.length := by
    rcases hco with rfl | rfl <;> rfl
  rw [hswt, bgpCapabilityOrf, get_bind, get_bind, if_pos (Nat.add_le_add_left hfive _)]

/-- Between two capabilities: nothing is open, and all that were read are
inside. -/
structure Settled (st : OpenState) (errors : Nat) : Prop where
  entries : st.entries = []
  inside : AllInside st
  error : st.error.length ≤ errors

/-- What is recorded of a capability, and where the parser goes on. -/
theorem capabilityTaken_ok {errors k : Nat} {b : Bool} {es : List (Nat × Nat)}
    (hst : Settled st errors) (hu : st.input.unread = value ++ more)
    (hswt : capabilitySwitch code st.input.getp value.length st = .ok (b, st'))
    (hk : k ≤ value.length) (hinp : st'.input = st.input.advance k)
    (hes : st'.entries = es) (hcn : Consecutive st.input.getp es) (hpd : st'.parsed = st.parsed)
    (herr : st'.error.length ≤ st.error.length + (value.length + 2)) :
    ∃ st'', capabilityTaken code st.input.getp value.length st = .ok (b, st'')
      ∧ Settled st'' (errors + (value.length + 2))
      ∧ (b = true → st''.input = st.input.advance value.length) := by
  have hrd : value.length ≤ st.input.readable := by
    rw [← unread_length, hu, length_append]
    exact Nat.le_add_right ..
  have hgp : st'.input.getp = st.input.getp + k := by
    rw [hinp, advance_getp (hk.trans hrd)]
  have hsettled s : Settled { st' with
      input := s
      entries := []
      parsed := st'.parsed ++ [⟨st.input.getp, value.length, st'.entries,
        st'.input.getp⟩] } (errors + (value.length + 2)) := by
    refine ⟨rfl, ?_, ?_⟩
    · intro c hc
      rw [hpd] at hc
      rcases mem_append.mp hc with hc | hc
      · exact hst.inside c hc
      · rw [mem_singleton] at hc
        subst hc
        refine ⟨?_, ?_, ?_⟩
        · show st.input.getp ≤ st'.input.getp
          omega
        · show st'.input.getp ≤ st.input.getp + value.length
          omega
        · show Consecutive st.input.getp st'.entries
          rwa [hes]
    · have := hst.error
      exact herr.trans (by omega)
  rw [capabilityTaken, bind_ok hswt, recordCapability, modify_bind]
  cases b with
  | false => exact ⟨_, rfl, hsettled st'.input, fun h => by cases h⟩
  | true =>
    have he := st.input.getp_le_endp
    have hs : setGetp (st.input.getp + value.length) st'.input
        = .ok ((), st.input.advance value.length) := by
      rw [setGetp_advance (n := value.length - k) (by omega), hinp, advance_advance]
      · congr 3
        omega
      · rw [hinp, advance_endp]
        rw [readable] at hrd
        omega
    refine ⟨_, ?_, hsettled (st.input.advance value.length), fun _ => rfl⟩
    rw [if_pos rfl]
    refine (bind_ok (a := ()) (openIn_ok ?_)).trans rfl
    exact hs

/-- Behind a capability, an option or all of them: the answer, and where
the parser goes on. -/
structure Past (st : OpenState) (goesOn : Bool) (errors n : Nat) (b : Bool) (st' : OpenState) :
    Prop where
  answer : b = goesOn
  settled : Settled st' errors
  next : b = true → st'.input = st.input.advance n

/-- A run that ends as it should if `ok`, and otherwise outside if it
ends. -/
structure InsideIf (ok : Prop) (run : Except Fault (Bool × OpenState))
    (good : Bool → OpenState → Prop) : Prop where
  inside : ok → ∃ b st', run = .ok (b, st') ∧ good b st'
  outside : ¬ ok → ∀ b st', run = .ok (b, st') → ¬ AllInside st'

theorem capabilityTaken_inside {errors : Nat} (hst : Settled st errors)
    (hu : st.input.unread = value ++ more) (hmi : capMinsize code ≤ value.length)
    (herrs : errors + (value.length + 2) ≤ errorDataSize) :
    InsideIf (isOrf code → OrfReadable value) (capabilityTaken code st.input.getp value.length st)
      (Past st (!capabilityStops code value) (errors + (value.length + 2)) value.length) := by
  have herr := hst.error
  by_cases hco : isOrf code
  swap
  · obtain ⟨st1, k, hr, hsw⟩ := capabilitySwitch_plain hco hu hmi (by omega) st.input.getp
    obtain ⟨st', htak, hsettled, hnx⟩ := capabilityTaken_ok hst hu
      hr hsw.le hsw.input (hsw.entries.trans hst.entries)
      trivial hsw.parsed hsw.error
    exact ⟨fun _ => ⟨_, st', htak, rfl, hsettled, hnx⟩, fun h => absurd (absurd · hco) h⟩
  have hfive : orfEntrySize ≤ value.length := by
    rcases hco with rfl | rfl <;> exact hmi
  have hrds : OrfReads (orfOutcome value.length value) _ _ _
      (orfEntries code value.length _ value.length st) :=
    orfEntries_reads hu rfl hfive le_rfl
  rw [← capabilitySwitch_orf hco hmi st.input.getp, OrfReads] at hrds
  split at hrds
  next hbad =>
    refine ⟨fun h => absurd hbad (h hco), fun _ b st' hr hal => ?_⟩
    rw [capabilityTaken] at hr
    obtain ⟨b1, st1, hf, hrs⟩ := bind_eq_ok hr
    have hm : (⟨st.input.getp, value.length, st1.entries, st1.input.getp⟩ :
        CapabilityRead) ∈ st'.parsed := by
      have hpd : Preserves parsed (if b1 then do
          openIn (setGetp (st.input.getp + value.length))
          return true
        else return false) :=
        .ite ((openIn_preserves (fun _ _ => rfl) _).bind fun _ => .pure _) (.pure _)
      rw [recordCapability, modify_bind] at hrs
      rw [hpd _ _ _ hrs]
      exact mem_append_right _ (mem_singleton_self _)
    have hn := hal _ hm
    rcases hrds _ _ hf with hlate | ⟨es, hes, hnt⟩
    · exact absurd hn.stop_le (Nat.not_le.mpr hlate)
    · rw [hst.entries, nil_append] at hes
      exact hnt (hes ▸ hn.consecutive)
  next hok =>
    obtain ⟨st1, k, hr, hk, hrea⟩ := hrds
    obtain ⟨es, hes, hcn⟩ := hrea.entries
    rw [hst.entries, nil_append] at hes
    have hstp : (!capabilityStops code value)
        = decide (orfOutcome value.length value = .done) := by simp [capabilityStops, hco]
    obtain ⟨st', htak, hsettled, hnx⟩ := capabilityTaken_ok hst hu
      hr hk hrea.input hes hcn hrea.parsed (by rw [hrea.error]; omega)
    rw [← hstp] at htak hnx
    exact ⟨fun _ => ⟨_, st', htak, rfl, hsettled, hnx⟩, fun h => absurd (fun _ => hok) h⟩

end

/-! ## The capabilities of an option -/

variable {st st' : OpenState} {cs more : List UInt8} {endp errors bound : Nat}

section

variable (h : Settled st errors)
include h

theorem Settled.stay (hmv : Moved st st' 0) : Settled st' errors where
  entries := hmv.entries.trans h.entries
  inside := by
    intro c hc
    rw [hmv.parsed] at hc
    exact h.inside c hc
  error := hmv.error ▸ h.error

theorem Settled.moved (k : Nat) :
    Settled (st.moved k) errors := ⟨h.entries, h.inside, h.error⟩

theorem Settled.mono {errors' : Nat} (hle : errors ≤ errors') : Settled st errors' :=
  ⟨h.entries, h.inside, h.error.trans hle⟩

end

theorem Past.moved {goesOn b : Bool} {n : Nat} (h : Past (st.moved 2) goesOn errors n b st') :
    Past st goesOn errors (2 + n) b st' :=
  ⟨h.answer, h.settled, fun hb => (h.next hb).trans (advance_advance ..)⟩

theorem capabilityParseTurn_header {code length : UInt8} {rest : List UInt8}
    (hu : st.input.unread = (code :: length :: rest) ++ more)
    (hep : endp = st.input.getp + (rest.length + 2)) :
    capabilityParseTurn endp st
      = (if rest.length < length.toNat ∨ length.toNat < capMinsize code then
          openRefuse notifyCease 0 []
        else capabilityTaken code (st.moved 2).input.getp length.toNat)
        (st.moved 2) := by
  have hrd : st.input.readable = rest.length + 2 + more.length := by
    rw [← unread_length, hu, length_append]
    rfl
  have hgp : (st.moved 2).input.getp = st.input.getp + 2 := advance_getp (by omega)
  have hln : (st.moved 1).input.unread = length :: (rest ++ more) := by simp [hu]
  rw [capabilityParseTurn, get_bind, if_neg (by omega),
    bind_ok (openIn_getc hu), bind_ok (openIn_getc hln), moved_moved,
    get_bind]
  by_cases hlg : rest.length < length.toNat
  · have hov : (st.moved 2).input.getp + length.toNat > endp := by omega
    rw [if_pos hov, if_pos (.inl hlg)]
  · have hov : ¬ (st.moved 2).input.getp + length.toNat > endp := by omega
    rw [if_neg hov]
    by_cases hmi : length.toNat < capMinsize code
    · rw [if_pos hmi, if_pos (.inr hmi)]
    · rw [if_neg hmi, if_neg (not_or.mpr ⟨hlg, hmi⟩)]

theorem modifyPeer_parsed (f : OpenPeer → OpenPeer) : Preserves parsed (modifyPeer f) :=
  .modify fun _ => rfl

theorem openIn_parsed {α : Type} (m : StreamM α) : Preserves parsed (openIn m) :=
  openIn_preserves (fun _ _ => rfl) m

theorem bgpCapabilityMp_parsed : Preserves parsed bgpCapabilityMp := by
  refine (bgpCapabilityMpData_preserves fun _ _ => rfl).bind fun ⟨afi, safi⟩ => ?_
  dsimp only
  split
  · exact .pure _
  · exact (modifyPeer_parsed _).bind fun _ => Preserves.get.bind fun st =>
      .ite ((modifyPeer_parsed _).bind fun _ => .pure _) (.pure _)

theorem restartTurn_parsed : Preserves parsed restartTurn := by
  refine (openIn_parsed _).bind fun afi => (openIn_parsed _).bind fun safi =>
    (openIn_parsed _).bind fun flag => Preserves.bind ?_ fun _ => .pure _
  unfold restartFamily
  split
  · exact .pure _
  · exact Preserves.get.bind fun st => .ite (modifyPeer_parsed _) (.pure _)

theorem storeError_parsed (start length : Nat) :
    Preserves parsed (storeError start length) := by
  intro st a st' h
  rw [storeError, get_bind] at h
  split at h
  · cases h
  · cases h
    rfl

theorem capabilitySwitch_parsed (code : UInt8) (start length : Nat) :
    Preserves parsed (capabilitySwitch code start length) := by
  have hpe f : Preserves parsed (do
      modifyPeer f
      return true) := (modifyPeer_parsed f).bind fun _ => .pure _
  have hstr : Preserves parsed (do
      storeError start length
      return true) := (storeError_parsed start length).bind fun _ => .pure _
  refine .ite ?_ (.ite (hpe _) (.ite (hpe _) (.ite ?_ (.ite ?_
    (.ite (hpe _) (.ite ?_ (.ite (.pure _) hstr)))))))
  · exact Preserves.bind (.modify fun _ => rfl) fun _ =>
      Preserves.get.bind fun st => .ite (.pure _)
        (bgpCapabilityMp_parsed.bind fun b => .ite (.pure _) hstr)
  · exact Preserves.get.bind fun st => Preserves.get.bind fun _ =>
      .ite (orfEntries_parsed _ _ _ _) (.throw _)
  · exact Preserves.get.bind fun st => (modifyPeer_parsed _).bind fun _ =>
      (openIn_parsed _).bind fun time => (modifyPeer_parsed _).bind fun _ =>
        restartTurn_parsed.whileTurns _
  · exact Preserves.bind ((modifyPeer_parsed _).bind fun _ =>
      .ite (.pure _) (openIn_parsed _)) fun _ => .pure _

theorem capabilityParseTurn_grows (endp : Nat) :
    Grows parsed (capabilityParseTurn endp) := by
  have hrfs subcode : Grows parsed (openRefuse notifyCease subcode []) :=
    (openRefuse_preserves (fun _ _ => rfl) _ _ _).grows
  refine Preserves.get.grows.bind fun st => .ite (hrfs _) ((openIn_parsed _).grows.bind fun code =>
      (openIn_parsed _).grows.bind fun length =>
        Preserves.get.grows.bind fun st1 => .ite (hrfs _) (.ite (hrfs _) ?_))
  refine (capabilitySwitch_parsed _ _ _).grows.bind fun ret => Grows.bind
    (.modify fun _ => prefix_append ..) fun _ => .ite ?_ (Preserves.pure _).grows
  exact ((openIn_parsed _).bind fun _ => .pure _).grows

/-! ### Runs that stay inside -/

section

variable {ok ok' : Prop} {run : Except Fault (Bool × OpenState)}
  {good good' : Bool → OpenState → Prop} {turn : OpenM Bool} {c : OpenState → Bool}

theorem InsideIf.of_ok {b : Bool} (h : ok) (hgo : good b st) : InsideIf ok (.ok (b, st)) good :=
  ⟨fun _ => ⟨b, st, rfl, hgo⟩, fun hno => absurd h hno⟩

theorem InsideIf.mono (h : InsideIf ok run good) (hgo : ∀ b st', good b st' → good' b st') :
    InsideIf ok run good' := by
  refine ⟨fun hok => ?_, h.outside⟩
  obtain ⟨b, st', hr, hst'⟩ := h.inside hok
  exact ⟨b, st', hr, hgo b st' hst'⟩

/-- The capabilities that were recorded stay recorded. -/
theorem not_inside_of_grows {α : Type} {m : OpenM α} {a : α}
    (hgrw : Grows parsed m) (hbad : ¬ AllInside st)
    (hr : m st = .ok (a, st')) : ¬ AllInside st' := by
  intro hal
  exact hbad fun c hc => hal c ((hgrw _ _ _ hr).subset hc)

theorem InsideIf.while_cons (h : InsideIf ok (turn st) good) (hc : c st = true)
    (hgrw : Grows parsed turn) (hnx : ∀ b st', good b st' →
      InsideIf ok' ((if b then whileTurns c turn bound else pure false) st') good') :
    InsideIf (ok ∧ ok') (whileTurns c turn (bound + 1) st) good' := by
  rw [whileTurns, get_bind, hc, if_pos rfl]
  by_cases hok : ok
  · obtain ⟨b, st1, htn, hgo⟩ := h.inside hok
    have hrs := hnx b st1 hgo
    rw [bind_ok htn]
    exact ⟨fun h => hrs.inside h.2, fun hno => hrs.outside fun h => hno ⟨hok, h⟩⟩
  · refine ⟨fun h => absurd h.1 hok, fun _ b st' hr => ?_⟩
    obtain ⟨b1, st1, htn, hrs⟩ := bind_eq_ok hr
    exact not_inside_of_grows (.ite (hgrw.whileTurns bound) (Preserves.pure _).grows)
      (h.outside hok b1 st1 htn) hrs

end

/-! ### A turn -/

section

variable {code length : UInt8} {rest : List UInt8}

theorem moved_value (hu : st.input.unread = (code :: length :: rest) ++ more) :
    (st.moved 2).input.unread = rest.take length.toNat ++ (rest.drop length.toNat ++ more) := by
  rw [moved_unread, hu, ← append_assoc, take_append_drop]
  rfl

theorem take_value (hlg : ¬ rest.length < length.toNat) :
    (rest.take length.toNat).length = length.toNat :=
  length_take_of_le (Nat.not_lt.mp hlg)

theorem capabilityParseTurn_inside (hst : Settled st errors)
    (hu : st.input.unread = (code :: length :: rest) ++ more)
    (hep : endp = st.input.getp + (rest.length + 2))
    (hfm : ¬ (rest.length < length.toNat ∨ length.toNat < capMinsize code))
    (herrs : errors + (length.toNat + 2) ≤ errorDataSize) :
    InsideIf (isOrf code → OrfReadable (rest.take length.toNat)) (capabilityParseTurn endp st)
      (Past st (!capabilityStops code (rest.take length.toNat)) (errors + (length.toNat + 2))
        (2 + length.toNat)) := by
  obtain ⟨hlg, hmi⟩ := not_or.mp hfm
  have hv := take_value hlg
  have hmi' : capMinsize code ≤ (rest.take length.toNat).length := by omega
  have htak := capabilityTaken_inside (hst.moved 2) (moved_value hu) hmi' (by rw [hv]; omega)
  rw [hv] at htak
  rw [capabilityParseTurn_header hu hep, if_neg hfm]
  exact htak.mono fun _ _ h => h.moved

theorem unread_next (hu : st.input.unread = (code :: length :: rest) ++ more)
    (hlg : ¬ rest.length < length.toNat) (hnx : st'.input = st.input.advance (2 + length.toNat)) :
    st'.input.unread = rest.drop length.toNat ++ more
      ∧ st'.input.getp = st.input.getp + (2 + length.toNat) := by
  have hrd : 2 + length.toNat ≤ st.input.readable := by
    rw [← unread_length, hu, length_append, length_cons, length_cons]
    omega
  refine ⟨?_, by rw [hnx, advance_getp hrd]⟩
  rw [hnx, ← advance_advance, advance_unread]
  show ((st.moved 2).input.unread).drop length.toNat = _
  rw [moved_value hu]
  exact drop_left' (take_value hlg)

end

/-! ### The loop -/

theorem before_nil (hep : endp = st.input.getp + ([] : List UInt8).length) :
    before 1 endp st = false := by
  refine decide_eq_false ?_
  rw [length_nil] at hep
  omega

theorem capabilityLoop_nil (hst : Settled st errors)
    (hep : endp = st.input.getp + ([] : List UInt8).length) :
    InsideIf (∀ c ∈ (openCapabilities []).1, isOrf c.1 → OrfReadable c.2)
      (whileTurns (before 1 endp) (capabilityParseTurn endp) bound st)
      (Past st (openCapabilities []).2 errors 0) := by
  rw [whileTurns_done (before_nil hep), openCapabilities]
  exact .of_ok (forall_mem_nil _) ⟨rfl, hst, fun _ => (advance_zero _).symm⟩

theorem capabilityLoop_inside (hst : Settled st errors) (hu : st.input.unread = cs ++ more)
    (hep : endp = st.input.getp + cs.length) (hbd : cs.length ≤ bound)
    (herrs : errors + cs.length ≤ errorDataSize) :
    InsideIf (∀ c ∈ (openCapabilities cs).1, isOrf c.1 → OrfReadable c.2)
      (whileTurns (before 1 endp) (capabilityParseTurn endp) bound st)
      (Past st (openCapabilities cs).2 (errors + cs.length) cs.length) := by
  induction bound generalizing st cs errors with
  | zero =>
    obtain rfl : cs = [] := length_eq_zero_iff.mp (by omega)
    exact capabilityLoop_nil hst hep
  | succ bound ih =>
    match cs with
    | [] => exact capabilityLoop_nil hst hep
    | [b] =>
      rw [length_singleton] at hep
      have hcd : before 1 endp st = true := decide_eq_true (by omega)
      obtain ⟨st', hrfs, hmv⟩ := openRefuse_ok notifyCease 0 [] st
      have htn : capabilityParseTurn endp st = .ok (false, st') := by
        rw [capabilityParseTurn, get_bind, if_pos (by omega), hrfs]
      rw [whileTurns_stop hcd htn, openCapabilities]
      exact .of_ok (forall_mem_nil _)
        ⟨rfl, (hst.stay hmv).mono (Nat.le_add_right ..), fun h => by cases h⟩
    | code :: length :: rest =>
      rw [length_cons, length_cons] at hep hbd herrs ⊢
      have hcd : before 1 endp st = true := decide_eq_true (by omega)
      rw [openCapabilities]
      by_cases hfm : rest.length < length.toNat ∨ length.toNat < capMinsize code
      · obtain ⟨st', hrfs, hmv⟩ :=
          openRefuse_ok notifyCease 0 [] (st.moved 2)
        have htn := capabilityParseTurn_header hu hep
        rw [if_pos hfm, hrfs] at htn
        rw [if_pos hfm, whileTurns_stop hcd htn]
        exact .of_ok (forall_mem_nil _)
          ⟨rfl, ((hst.moved 2).stay hmv).mono (Nat.le_add_right ..), fun h => by cases h⟩
      · rw [if_neg hfm]
        have hlg := (not_or.mp hfm).1
        have htn := capabilityParseTurn_inside hst hu hep hfm (by omega)
        have hgrw := capabilityParseTurn_grows endp
        cases hstp : capabilityStops code (rest.take length.toNat) with
        | true =>
          rw [hstp] at htn
          simp only [hstp, if_true, forall_mem_singleton]
          rw [← and_true (isOrf code → _)]
          refine htn.while_cons hcd hgrw fun b st1 hps => ?_
          obtain rfl := hps.answer
          exact .of_ok trivial ⟨rfl, hps.settled.mono (by omega), fun h => by cases h⟩
        | false =>
          rw [hstp] at htn
          simp only [hstp, Bool.false_eq_true, if_false, forall_mem_cons]
          refine htn.while_cons hcd hgrw fun b st1 hps => ?_
          obtain rfl := hps.answer
          obtain ⟨hu1, hgp⟩ := unread_next hu hlg (hps.next rfl)
          have hlen : (rest.drop length.toNat).length = rest.length - length.toNat := length_drop ..
          refine (ih hps.settled hu1 (by omega) (by omega) (by omega)).mono
            fun b st' he => ⟨he.answer, he.settled.mono (by omega), fun h => ?_⟩
          rw [he.next h, hps.next rfl, advance_advance]
          congr 1
          omega

end SdnQuagga
