import SdnQuagga.BgpOpenCapability

/-!
# The optional parameters of an OPEN message

`bgp_open_option_parse` goes from option to option. It stays inside every
capability exactly if each ORF capability that is taken up is readable
(`OrfReadable`): the number of ORFs of an entry is compared with the
length of the capability and not with what is left of it, and the ORFs of
an entry of an unknown family are not skipped.
-/

namespace SdnQuagga

open FaultM SdnQuagga.Stream List

section

variable {st st' : OpenState} {optType optLength : UInt8}
  {rest : List UInt8} {endp errors bound : Nat}

/-- The ORF capabilities among these are readable. -/
def OrfsReadable (cs : List (UInt8 × List UInt8)) : Prop :=
  ∀ c ∈ cs, isOrf c.1 → OrfReadable c.2

/-! ## One option -/

theorem openOptionTurn_header (hu : st.input.unread = optType :: optLength :: rest) :
    openOptionTurn st = (if rest.length < optLength.toNat then openRefuse notifyCease 0 []
        else if optType = bgpOpenOptAuth then
          openRefuse notifyOpenErr notifyOpenAuthFailure []
        else if optType = bgpOpenOptCap then
          bgpCapabilityParse optLength.toNat
        else openRefuse notifyOpenErr notifyOpenUnsupParam [])
        (st.moved 2) := by
  have hrd : st.input.readable = rest.length + 2 := by
    rw [← unread_length, hu]
    rfl
  have hlen : (st.moved 1).input.unread = optLength :: rest := by
    rw [moved_unread, hu]
    rfl
  have hrs : (st.moved 2).input.readable = rest.length := by
    rw [← unread_length, moved_unread, hu]
    rfl
  rw [openOptionTurn, get_bind, if_neg (by omega),
    bind_ok (openIn_getc hu), bind_ok (openIn_getc hlen), moved_moved,
    get_bind, hrs]

theorem openOptionTurn_refused (hst : Settled st errors)
    (hu : st.input.unread = optType :: optLength :: rest)
    (hfm : rest.length < optLength.toNat ∨ optType ≠ bgpOpenOptCap) :
    ∃ st', openOptionTurn st = .ok (false, st') ∧ AllInside st' := by
  have hrfs code subcode : ∃ st',
      openRefuse code subcode [] (st.moved 2) = .ok (false, st') ∧ AllInside st' := by
    obtain ⟨st', hr, hmv⟩ := openRefuse_ok code subcode [] (st.moved 2)
    exact ⟨st', hr, ((hst.moved 2).stay hmv).inside⟩
  rw [openOptionTurn_header hu]
  by_cases hlg : rest.length < optLength.toNat
  · rw [if_pos hlg]
    exact hrfs _ _
  · rw [if_neg hlg]
    by_cases hau : optType = bgpOpenOptAuth
    · rw [if_pos hau]
      exact hrfs _ _
    · rw [if_neg hau, if_neg (hfm.resolve_left hlg)]
      exact hrfs _ _

theorem openOptionTurn_short (hst : Settled st errors) (hsh : st.input.unread.length < 2) :
    ∃ st', openOptionTurn st = .ok (false, st') ∧ AllInside st' := by
  obtain ⟨st', hr, hmv⟩ := openRefuse_ok notifyCease 0 [] st
  refine ⟨st', ?_, (hst.stay hmv).inside⟩
  rw [unread_length] at hsh
  rw [openOptionTurn, get_bind, if_pos hsh, hr]

theorem openOptionTurn_capabilities (hu : st.input.unread = bgpOpenOptCap :: optLength :: rest)
    (hlg : ¬ rest.length < optLength.toNat) :
    ∃ endp, endp = (st.moved 2).input.getp + (rest.take optLength.toNat).length ∧ openOptionTurn st
        = whileTurns (before 1 endp) (capabilityParseTurn endp) optLength.toNat (st.moved 2) := by
  have hrd : ¬ (st.moved 2).input.readable < optLength.toNat := by
    rwa [← unread_length, moved_unread, hu]
  refine ⟨_, rfl, ?_⟩
  rw [openOptionTurn_header hu, if_neg hlg, if_neg (by decide),
    if_pos rfl, bgpCapabilityParse, get_bind, get_bind, if_neg hrd,
    take_value hlg]

theorem moved_option (hu : st.input.unread = optType :: optLength :: rest) :
    (st.moved 2).input.unread = rest.take optLength.toNat ++ rest.drop optLength.toNat := by
  rw [moved_unread, hu, take_append_drop]
  rfl

theorem openOptionTurn_inside (hst : Settled st errors)
    (hu : st.input.unread = bgpOpenOptCap :: optLength :: rest)
    (hlg : ¬ rest.length < optLength.toNat) (herrs : errors + optLength.toNat ≤ errorDataSize) :
    InsideIf (OrfsReadable (openCapabilities (rest.take optLength.toNat)).1) (openOptionTurn st)
      (Past st (openCapabilities (rest.take optLength.toNat)).2 (errors + optLength.toNat)
        (2 + optLength.toNat)) := by
  obtain ⟨endp, hep, htn⟩ := openOptionTurn_capabilities hu hlg
  have hv := take_value hlg
  have hlp := capabilityLoop_inside (hst.moved 2) (moved_option hu) hep hv.le
    (by rw [hv]; exact herrs)
  rw [hv] at hlp
  rw [htn]
  exact hlp.mono fun _ _ h => h.moved

theorem openOptionTurn_grows : Grows OpenState.parsed openOptionTurn := by
  have hrfs code subcode : Grows OpenState.parsed (openRefuse code subcode []) :=
    (openRefuse_preserves (fun _ _ => rfl) _ _ _).grows
  refine Preserves.get.grows.bind fun st => .ite (hrfs _ _)
    ((openIn_parsed _).grows.bind fun optType =>
      (openIn_parsed _).grows.bind fun optLength =>
        Preserves.get.grows.bind fun st1 => .ite (hrfs _ _) (.ite (hrfs _ _) (.ite ?_ (hrfs _ _))))
  exact Preserves.get.grows.bind fun st => Preserves.get.grows.bind fun _ =>
    .ite (Preserves.throw _).grows ((capabilityParseTurn_grows _).whileTurns _)

/-! ## All options -/

theorem option_next (hu : st.input.unread = optType :: optLength :: rest)
    (hlg : ¬ rest.length < optLength.toNat)
    (hnx : st'.input = st.input.advance (2 + optLength.toNat)) :
    st'.input.unread = rest.drop optLength.toNat
      ∧ st'.input.getp = st.input.getp + (2 + optLength.toNat) := by
  rw [← List.append_nil (optType :: optLength :: rest)] at hu
  have h := unread_next hu hlg hnx
  rwa [List.append_nil] at h

theorem openOptions_zero (bs : List UInt8) : openOptions 0 bs = [] := by
  match bs with
  | [] | [_] | _ :: _ :: _ => rw [openOptions]; simp

variable {length : Nat}

theorem openOptions_cons (hlen : length ≠ 0) (hlg : ¬ rest.length < optLength.toNat) :
    openOptions length (bgpOpenOptCap :: optLength :: rest)
      = (openCapabilities (rest.take optLength.toNat)).1
        ++ (if (openCapabilities (rest.take optLength.toNat)).2 then
            openOptions (length - (2 + optLength.toNat)) (rest.drop optLength.toNat)
          else []) := by
  rw [openOptions, if_neg (by simp [hlen, Nat.not_lt.mp hlg])]
  dsimp only
  split
  · rfl
  · rw [List.append_nil]

theorem openOptions_short {bs : List UInt8} (hsh : bs.length < 2) : openOptions length bs = [] := by
  match bs with
  | [] | [_] => rw [openOptions]; simp
  | _ :: _ :: _ =>
    rw [length_cons, length_cons] at hsh
    omega

theorem orfsReadable_nil : OrfsReadable [] := forall_mem_nil _

theorem optionLoop_done (hst : Settled st errors) (hge : ¬ st.input.getp < endp) :
    InsideIf (OrfsReadable (openOptions (endp - st.input.getp) st.input.unread))
      (whileTurns (before 1 endp) openOptionTurn bound st) fun _ => AllInside := by
  have hcd : before 1 endp st = false := decide_eq_false (by omega)
  rw [whileTurns_done hcd, Nat.sub_eq_zero_of_le (by omega), openOptions_zero]
  exact .of_ok orfsReadable_nil hst.inside

/-- The options are read inside their capabilities exactly if the ORF
capabilities are readable. -/
theorem optionLoop_inside (hst : Settled st errors) (hbd : endp ≤ st.input.getp + bound)
    (herrs : st.input.getp < endp → errors + (endp - st.input.getp) ≤ 255) :
    InsideIf (OrfsReadable (openOptions (endp - st.input.getp) st.input.unread))
      (whileTurns (before 1 endp) openOptionTurn bound st) fun _ => AllInside := by
  induction bound generalizing st errors with
  | zero => exact optionLoop_done hst (by omega)
  | succ bound ih =>
    by_cases hlt : st.input.getp < endp
    swap
    · exact optionLoop_done hst hlt
    have hcd : before 1 endp st = true := decide_eq_true hlt
    have hsp {st'} (htn : openOptionTurn st = .ok (false, st'))
        (hn : AllInside st') : InsideIf (OrfsReadable [])
          (whileTurns (before 1 endp) openOptionTurn (bound + 1) st) fun _ => AllInside := by
      rw [whileTurns_stop hcd htn]
      exact .of_ok orfsReadable_nil hn
    match hu : st.input.unread with
    | [] | [_] =>
      have hsh : st.input.unread.length < 2 := by
        rw [hu]
        simp
      obtain ⟨st', htn, hn⟩ := openOptionTurn_short hst hsh
      rw [← hu, openOptions_short hsh]
      exact hsp htn hn
    | optType :: optLength :: rest =>
      by_cases hfm : rest.length < optLength.toNat ∨ optType ≠ bgpOpenOptCap
      · obtain ⟨st', htn, hn⟩ := openOptionTurn_refused hst hu hfm
        rw [openOptions, if_pos (.inr hfm)]
        exact hsp htn hn
      obtain ⟨hlg, hcap⟩ := not_or.mp hfm
      obtain rfl := not_not.mp hcap
      have hlen := optLength.toNat_lt
      have hrm := herrs hlt
      rw [openOptions_cons (by omega) hlg, OrfsReadable, forall_mem_append]
      refine (openOptionTurn_inside hst hu hlg (by rw [errorDataSize]; omega)).while_cons
        hcd openOptionTurn_grows fun b st1 hps => ?_
      rw [← hps.answer]
      cases b with
      | false => exact .of_ok orfsReadable_nil hps.settled.inside
      | true =>
        obtain ⟨hu1, hgp⟩ := option_next hu hlg (hps.next rfl)
        have hmo := ih hps.settled (by omega) fun _ => by omega
        rwa [hu1, hgp, ← Nat.sub_sub] at hmo

theorem openOptionCheck_ok (st : OpenState) :
    ∃ b st', openOptionCheck st = .ok (b, st') ∧ st'.parsed = st.parsed := by
  rw [openOptionCheck, get_bind]
  split
  · exact ⟨_, _, rfl, rfl⟩
  · split
    · exact ⟨_, _, rfl, rfl⟩
    · split
      · exact ⟨_, _, rfl, rfl⟩
      · exact ⟨_, _, rfl, rfl⟩

/-- What is done behind the loop always comes to an end, and reads
nothing. -/
theorem openOptionEnd_ok (b : Bool) (st : OpenState) :
    ∃ ret st', (if b then do
        if ← openOptionCheck then return 0 else return -1
      else return -1 : OpenM Int) st = .ok (ret, st')
      ∧ st'.parsed = st.parsed := by
  cases b with
  | false => exact ⟨-1, st, rfl, rfl⟩
  | true =>
    obtain ⟨b, st', hck, hpd⟩ := openOptionCheck_ok st
    refine ⟨if b then 0 else -1, st', ?_, hpd⟩
    rw [if_pos rfl, bind_ok hck]
    cases b <;> rfl

end

/-- The options of an OPEN message: an ORF capability of 12 bytes with an
entry without ORFs, and an entry that announces three ORFs and has the
bytes of one. -/
def orfOverrun : List UInt8 :=
  [2, 14, 3, 12, 0, 1, 0, 1, 0, 0, 1, 0, 1, 3, 0x40, 3]

/-- A peer with IPv4 unicast configured. -/
def plainOpenPeer : OpenPeer where
  overrideCapability := false
  strictCapMatch := false
  afc := fun afi safi => afi = .ip ∧ safi = .unicast
  afcRecv := fun _ _ => false
  afcNego := fun _ _ => false
  cap := ⟨false, false, false, false, false⟩
  afCap := fun _ _ => ⟨false, false, false, false, false, false⟩
  vGrRestart := 0
  notified := []

end SdnQuagga
