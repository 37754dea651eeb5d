import SdnQuagga.BgpAttr

/-!
# The CAPABILITY message

`bgp_capability_msg_parse` of `bgpd/bgp_packet.c`, with
`bgp_afi_safi_valid_indices` of `bgpd/bgp_open.c`. The message is walked
with a pointer, here an index, and reading a byte that is not in the
message is a fault. A turn of the loop need not move the pointer: the
loop of the model has a bound, and the parser ends if some bound is
enough.
-/

namespace SdnQuagga

open FaultM List

/-! ## Address families -/

/-- `bgp_afi_safi_valid_indices`: the indices of a known family, with the
code of labeled VPN routes mapped to its index. -/
def bgpAfiSafiValidIndices (afi : UInt16) (safi : UInt8) :
    Option (Afi × Safi) :=
  let afi? := if afi = 1 then some Afi.ip else if afi = 2 then some .ip6
    else none
  let safi? := if safi = safiMplsLabeledVpn ∨ safi = 4 then some Safi.mplsVpn
    else if safi = 1 then some .unicast
    else if safi = 2 then some .multicast else none
  match afi?, safi? with
  | some afi, some safi => some (afi, safi)
  | _, _ => none

/-! ## The parser -/

/-- What the parser sets off. -/
inductive CapabilityEffect where
  | announceRoute (afi : Afi) (safi : Safi)
  | clearRoute (afi : Afi) (safi : Safi)
  | stop
  | notify (code subcode : UInt8)
deriving DecidableEq, Repr

/-- `struct peer`, the fields that the parser uses. -/
structure CapabilityPeer where
  /-- `PEER_FLAG_OVERRIDE_CAPABILITY` -/
  overrideCapability : Bool
  afc : Afi → Safi → Bool
  afcRecv : Afi → Safi → Bool
  afcNego : Afi → Safi → Bool
  effects : List CapabilityEffect

abbrev CapabilityM := FaultM CapabilityPeer

def capabilityActionSet : UInt8 := 0
def capabilityActionUnset : UInt8 := 1
def capabilityCodeMp : UInt8 := 1
def notifyCease : UInt8 := 6

def setFamily (table : Afi → Safi → Bool) (afi : Afi) (safi : Safi)
    (value : Bool) : Afi → Safi → Bool :=
  fun a s => if a = afi ∧ s = safi then value else table a s

def peerActiveNego (nego : Afi → Safi → Bool) : Bool :=
  nego .ip .unicast || nego .ip .multicast || nego .ip .mplsVpn
    || nego .ip6 .unicast || nego .ip6 .multicast

def capabilityEffect (e : CapabilityEffect) : CapabilityM Unit :=
  modify fun peer => { peer with effects := peer.effects ++ [e] }

variable (msg : List UInt8)

def msgByte (i : Nat) : CapabilityM UInt8 :=
  match msg[i]? with
  | some b => return b
  | none => throw .outOfBounds

/-- `n` bytes of the message. -/
def msgBytes (i n : Nat) : CapabilityM (List UInt8) :=
  if i + n ≤ msg.length then return (msg.drop i).take n
  else throw .outOfBounds

/-- A multiprotocol capability of a known family is set or unset. -/
def capabilityMpSet (action : UInt8) (afi : Afi) (safi : Safi) :
    CapabilityM Unit := do
  if action = capabilityActionSet then
    modify fun peer => { peer with
      afcRecv := setFamily peer.afcRecv afi safi true }
    if (← get).afc afi safi then
      modify fun peer => { peer with
        afcNego := setFamily peer.afcNego afi safi true }
      capabilityEffect (.announceRoute afi safi)
    else return
  else
    modify fun peer => { peer with
      afcRecv := setFamily peer.afcRecv afi safi false
      afcNego := setFamily peer.afcNego afi safi false }
    if peerActiveNego (← get).afcNego then
      capabilityEffect (.clearRoute afi safi)
    else capabilityEffect .stop

/-- The family in `struct capability_mp_data`. -/
def mpDataFamily (data : List UInt8) : Option (Afi × Safi) :=
  bgpAfiSafiValidIndices (UInt16.ofNat (ofBE (data.take 2))) (data.getD 3 0)

/-- An error ends the parser. -/
def capabilityCease : CapabilityM (Option Nat) := do
  capabilityEffect (.notify notifyCease 0)
  return none

/-- One turn of the loop at `pnt`: where the next one starts, or `none`
for `return -1`. Both `continue` leave `pnt` as it is. -/
def capabilityTurn (pnt : Nat) :
    CapabilityM (Option Nat) := do
  if pnt + 3 > msg.length then capabilityCease
  else
    let action ← msgByte msg pnt
    if action ≠ capabilityActionSet ∧ action ≠ capabilityActionUnset then
      capabilityCease
    else
      let length := (← msgByte msg (pnt + 2)).toNat
      if pnt + length + 3 > msg.length then capabilityCease
      else
        let mpc ← msgBytes msg (pnt + 3) 4
        if (← msgByte msg (pnt + 1)) = capabilityCodeMp then
          if (← get).overrideCapability then return some pnt
          else
            match mpDataFamily mpc with
            | none => return some pnt
            | some (afi, safi) =>
              capabilityMpSet action afi safi
              return some (pnt + (length + 3))
        else return some (pnt + (length + 3))

/-- The loop, at most `bound` turns of it. -/
def capabilityLoop (msg : List UInt8) : Nat → Nat → CapabilityM Int
  | bound, pnt =>
    if pnt < msg.length then
      match bound with
      | 0 => throw .loopBound
      | bound + 1 => do
        match ← capabilityTurn msg pnt with
        | none => return -1
        | some pnt => capabilityLoop msg bound pnt
    else return 0

def bgpCapabilityMsgParse (bound : Nat) (msg : List UInt8) :
    CapabilityM Int :=
  capabilityLoop msg bound 0

/-- The parser ends, and without a fault. -/
def CapabilityEnds (pnt : Nat) (peer : CapabilityPeer) :
    Prop :=
  ∃ bound r, capabilityLoop msg bound pnt peer = .ok r

/-! ## The capabilities of a message -/

/-- The codes of the capabilities up to the first malformed one, each
with the message from its value on. -/
def capabilities : List UInt8 → List (UInt8 × List UInt8)
  | action :: code :: length :: rest =>
    if (action = capabilityActionSet ∨ action = capabilityActionUnset)
        ∧ length.toNat ≤ rest.length then
      (code, rest) :: capabilities (rest.drop length.toNat)
    else []
  | _ => []
termination_by bs => bs.length
decreasing_by
  simp only [length_drop, length_cons]
  omega

/-- A capability that the parser can handle: four bytes can be read, and
a multiprotocol one is neither overridden nor of an unknown family. -/
def CapabilityOk (overrideCapability : Bool) (c : UInt8 × List UInt8) :
    Prop :=
  4 ≤ c.2.length ∧ (c.1 = capabilityCodeMp →
    overrideCapability = false ∧ (mpDataFamily (c.2.take 4)).isSome)

section

variable {msg : List UInt8} {pnt pnt' : Nat} {peer peer' : CapabilityPeer}

theorem capabilityEnds_done (h : msg.length ≤ pnt) : CapabilityEnds msg pnt peer := by
  refine ⟨0, (0, peer), ?_⟩
  rw [capabilityLoop, if_neg (Nat.not_lt.mpr h)]
  rfl

section

variable (h : pnt < msg.length)
include h

theorem capabilityEnds_stop (htn : capabilityTurn msg pnt peer = .ok (none, peer')) :
    CapabilityEnds msg pnt peer := by
  refine ⟨1, (-1, peer'), ?_⟩
  rw [capabilityLoop, if_pos h]
  exact (bind_ok htn).trans rfl

theorem not_capabilityEnds_of_error {e : Fault} (htn : capabilityTurn msg pnt peer = .error e) :
    ¬ CapabilityEnds msg pnt peer := by
  rintro ⟨_ | bound, r, hr⟩
  · rw [capabilityLoop, if_pos h] at hr
    cases hr
  · rw [capabilityLoop, if_pos h, bind_error htn] at hr
    cases hr

theorem capabilityEnds_step (htn : capabilityTurn msg pnt peer = .ok (some pnt', peer')) :
    CapabilityEnds msg pnt peer ↔ CapabilityEnds msg pnt' peer' := by
  have hlp bound : capabilityLoop msg (bound + 1) pnt peer
      = capabilityLoop msg bound pnt' peer' := by
    rw [capabilityLoop, if_pos h]
    exact bind_ok htn
  constructor
  · rintro ⟨_ | bound, r, hr⟩
    · rw [capabilityLoop, if_pos h] at hr
      cases hr
    · exact ⟨bound, r, (hlp bound).symm.trans hr⟩
  · rintro ⟨bound, r, hr⟩
    exact ⟨bound + 1, r, (hlp bound).trans hr⟩

/-- A turn that changes nothing is made again and again. -/
theorem not_capabilityEnds_of_stuck (htn : capabilityTurn msg pnt peer = .ok (some pnt, peer)) :
    ¬ CapabilityEnds msg pnt peer := by
  rintro ⟨bound, r, hr⟩
  induction bound with
  | zero =>
    rw [capabilityLoop, if_pos h] at hr
    cases hr
  | succ bound ih =>
    rw [capabilityLoop, if_pos h, bind_ok htn] at hr
    exact ih hr

end

/-! ## One capability -/

variable {action code length : UInt8} {rest : List UInt8}

theorem capabilityCease_ok (peer : CapabilityPeer) :
    ∃ peer', capabilityCease peer = .ok (none, peer') := ⟨_, rfl⟩

theorem msgByte_drop {k : Nat} {b : UInt8} (h : (msg.drop pnt)[k]? = some b) :
    msgByte msg (pnt + k) peer = .ok (b, peer) := by
  rw [getElem?_drop] at h
  rw [msgByte, h]
  rfl

/-- A turn at a capability, behind the reads of its header. -/
theorem capabilityTurn_header (peer : CapabilityPeer)
    (hdr : msg.drop pnt = action :: code :: length :: rest) :
    capabilityTurn msg pnt peer
      = (if action ≠ capabilityActionSet ∧ action ≠ capabilityActionUnset then
          capabilityCease
        else if rest.length < length.toNat then capabilityCease
        else if rest.length < 4 then throw .outOfBounds
        else if code = capabilityCodeMp then do
          if (← get).overrideCapability then return some pnt
          else
            match mpDataFamily (rest.take 4) with
            | none => return some pnt
            | some (afi, safi) =>
              capabilityMpSet action afi safi
              return some (pnt + (length.toNat + 3))
        else return some (pnt + (length.toNat + 3))) peer := by
  have hlen := congrArg List.length hdr
  simp only [length_drop, length_cons] at hlen
  have hrs : msg.drop (pnt + 3) = rest := by
    rw [← drop_drop, hdr]
    rfl
  have hact : msgByte msg pnt peer = .ok (action, peer) := msgByte_drop (k := 0) (by rw [hdr]; rfl)
  have hco : msgByte msg (pnt + 1) peer = .ok (code, peer) := msgByte_drop (by rw [hdr]; rfl)
  have hln : msgByte msg (pnt + 2) peer = .ok (length, peer) := msgByte_drop (by rw [hdr]; rfl)
  unfold capabilityTurn
  rw [if_neg (by omega), bind_ok hact]
  split
  · rfl
  · rw [bind_ok hln]
    by_cases hlg : rest.length < length.toNat
    · rw [if_pos hlg, if_pos (by omega)]
    · rw [if_neg hlg, if_neg (by omega)]
      by_cases hsh : rest.length < 4
      · rw [if_pos hsh, msgBytes, if_neg (by omega)]
        rfl
      · rw [if_neg hsh, msgBytes, if_pos (by omega), hrs]
        refine (bind_ok rfl).trans ?_
        rw [bind_ok hco]

theorem capabilityMpSet_ok (action : UInt8) (afi : Afi) (safi : Safi) (peer : CapabilityPeer) :
    ∃ peer', capabilityMpSet action afi safi peer = .ok ((), peer')
      ∧ peer'.overrideCapability = peer.overrideCapability := by
  unfold capabilityMpSet
  split
  · rw [modify_bind, get_bind]
    split <;> exact ⟨_, rfl, rfl⟩
  · rw [modify_bind, get_bind]
    split <;> exact ⟨_, rfl, rfl⟩

section

variable (hdr : msg.drop pnt = action :: code :: length :: rest)
include hdr

section

variable (hact : action = capabilityActionSet ∨ action = capabilityActionUnset)
include hact

/-- A turn at a capability that the parser can handle goes on behind
it. -/
theorem capabilityTurn_next (hln : length.toNat ≤ rest.length)
    (hok : CapabilityOk peer.overrideCapability (code, rest)) :
    ∃ peer', capabilityTurn msg pnt peer = .ok (some (pnt + (length.toNat + 3)), peer')
      ∧ peer'.overrideCapability = peer.overrideCapability := by
  obtain ⟨hfo, hmp⟩ := hok
  have hs : ¬ (action ≠ capabilityActionSet ∧ action ≠ capabilityActionUnset) := by
    rcases hact with rfl | rfl <;> decide
  rw [capabilityTurn_header _ hdr, if_neg hs,
    if_neg (Nat.not_lt.mpr hln), if_neg (Nat.not_lt.mpr hfo)]
  split
  next hco =>
    obtain ⟨hov, hso⟩ := hmp hco
    obtain ⟨⟨afi, safi⟩, hfam⟩ := Option.isSome_iff_exists.mp hso
    obtain ⟨peer', hr, hsm⟩ := capabilityMpSet_ok action afi safi peer
    refine ⟨peer', ?_, hsm⟩
    rw [get_bind, hov, if_neg Bool.false_ne_true]
    simp only [hfam]
    rw [bind_ok hr]
    rfl
  · exact ⟨peer, rfl, rfl⟩

/-- Any other capability ends in a fault or in the same turn again. -/
theorem not_capabilityEnds_of_not_ok (hln : length.toNat ≤ rest.length)
    (hok : ¬ CapabilityOk peer.overrideCapability (code, rest)) :
    ¬ CapabilityEnds msg pnt peer := by
  have hpnt : pnt < msg.length := by
    have hlen := congrArg List.length hdr
    simp only [length_drop, length_cons] at hlen
    omega
  have hs : ¬ (action ≠ capabilityActionSet ∧ action ≠ capabilityActionUnset) := by
    rcases hact with rfl | rfl <;> decide
  have htn := capabilityTurn_header peer hdr
  rw [if_neg hs, if_neg (Nat.not_lt.mpr hln)] at htn
  by_cases hfo : rest.length < 4
  · rw [if_pos hfo] at htn
    exact not_capabilityEnds_of_error hpnt htn
  · have hmp : ¬ (code = capabilityCodeMp → peer.overrideCapability = false
          ∧ (mpDataFamily (rest.take 4)).isSome) :=
      fun hmp => hok ⟨Nat.not_lt.mp hfo, hmp⟩
    rw [Classical.not_imp] at hmp
    obtain ⟨hco, hmp⟩ := hmp
    rw [if_neg hfo, if_pos hco, get_bind] at htn
    refine not_capabilityEnds_of_stuck hpnt (htn.trans ?_)
    cases hov : peer.overrideCapability with
    | true => rfl
    | false =>
      cases hfam : mpDataFamily (rest.take 4) with
      | none => rfl
      | some family =>
        refine absurd ⟨hov, ?_⟩ hmp
        rw [hfam]
        rfl

end

end

/-! ## The whole message -/

theorem capabilities_eq_nil {bs : List UInt8} (hsh : bs.length < 3) : capabilities bs = [] := by
  match bs with
  | [] | [_] | [_, _] => rw [capabilities]; simp
  | _ :: _ :: _ :: rest =>
    simp only [length_cons] at hsh
    omega

theorem capabilityEnds_iff (msg : List UInt8) (pnt : Nat) (peer : CapabilityPeer) :
    CapabilityEnds msg pnt peer ↔ ∀ c ∈ capabilities (msg.drop pnt),
      CapabilityOk peer.overrideCapability c := by
  -- on the number of bytes that are left
  induction hn : msg.length - pnt using Nat.strong_induction_on generalizing pnt peer with
  | _ n ih =>
    by_cases hpnt : msg.length ≤ pnt
    · rw [drop_eq_nil_of_le hpnt, capabilities_eq_nil (by simp)]
      simp [capabilityEnds_done hpnt]
    have hpnt := Nat.not_le.mp hpnt
    match hdr : msg.drop pnt with
    | [] | [_] | [_, _] =>
      have hlen := congrArg List.length hdr
      simp only [length_drop, length_cons, length_nil] at hlen
      obtain ⟨peer', hcease⟩ := capabilityCease_ok peer
      have htn : capabilityTurn msg pnt peer = .ok (none, peer') := by
        rw [capabilityTurn, if_pos (by omega), hcease]
      rw [capabilities_eq_nil (by simp)]
      simp [capabilityEnds_stop hpnt htn]
    | action :: code :: length :: rest =>
      have hlen := congrArg List.length hdr
      simp only [length_drop, length_cons] at hlen
      rw [capabilities]
      by_cases hfm : (action = capabilityActionSet
          ∨ action = capabilityActionUnset) ∧ length.toNat ≤ rest.length
      · obtain ⟨hact, hln⟩ := hfm
        rw [if_pos ⟨hact, hln⟩, forall_mem_cons]
        have hbh : rest.drop length.toNat = msg.drop (pnt + (length.toNat + 3)) := by
          rw [← drop_drop, hdr]
          rfl
        by_cases hok : CapabilityOk peer.overrideCapability (code, rest)
        · obtain ⟨peer', htn, hsm⟩ :=
            capabilityTurn_next hdr hact hln hok
          rw [capabilityEnds_step hpnt htn, ih _ (by omega) _ peer' rfl, hsm, hbh]
          simp [hok]
        · have hnt :=
            not_capabilityEnds_of_not_ok hdr hact hln hok
          simp [hok, hnt]
      · rw [if_neg hfm]
        obtain ⟨peer', hcease⟩ := capabilityCease_ok peer
        have htn : capabilityTurn msg pnt peer = .ok (none, peer') := by
          rw [capabilityTurn_header _ hdr]
          split
          · exact hcease
          next hact =>
            rw [if_pos, hcease]
            by_contra hln
            refine hfm ⟨?_, Nat.not_lt.mp hln⟩
            by_contra hne
            exact hact (not_or.mp hne)
        simp [capabilityEnds_stop hpnt htn]

end

/-- A CAPABILITY message is parsed to an end and inside its bounds exactly
if the parser can handle each capability up to the first malformed one. -/
theorem capability_msg_parse_ends_iff (msg : List UInt8) (peer : CapabilityPeer) :
    (∃ bound ret peer', bgpCapabilityMsgParse bound msg peer = .ok (ret, peer'))
      ↔ ∀ c ∈ capabilities msg, CapabilityOk peer.overrideCapability c := by
  have hiff := capabilityEnds_iff msg 0 peer
  rw [drop_zero] at hiff
  rw [← hiff]
  constructor
  · rintro ⟨bound, ret, peer', hrun⟩
    exact ⟨bound, (ret, peer'), hrun⟩
  · rintro ⟨bound, ⟨ret, peer'⟩, hrun⟩
    exact ⟨bound, ret, peer', hrun⟩

/-- A peer with nothing configured. -/
def plainCapabilityPeer : CapabilityPeer :=
  ⟨false, fun _ _ => false, fun _ _ => false, fun _ _ => false, []⟩

/-- A multiprotocol capability of AFI 25 is never left. -/
theorem capability_msg_parse_not_ends :
    ¬ ∃ bound ret peer', bgpCapabilityMsgParse bound [0, 1, 4, 0, 25, 0, 1]
      plainCapabilityPeer = .ok (ret, peer') := by
  rintro ⟨bound, ret, peer', hrun⟩
  have hturn : capabilityTurn [0, 1, 4, 0, 25, 0, 1] 0 plainCapabilityPeer
      = .ok (some 0, plainCapabilityPeer) := rfl
  exact not_capabilityEnds_of_stuck (by decide) hturn
    ⟨bound, (ret, peer'), hrun⟩

end SdnQuagga
