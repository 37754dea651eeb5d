import SdnQuagga.OspfLsAck

/-!
# Acknowledgements that reach their neighbor

What the two flushes of the acknowledgement lists send to each address. Given room in a
packet, two more things decide whether what is owed arrives:

- the list of direct acknowledgements has the address of the neighbor that was first, also
  for those that follow;
- on an NBMA network the first neighbor gets all that the others should get as well, and
  without a neighbor in state `Exchange` the list stays as it is.
-/

namespace SdnQuagga

open FaultM List

variable {mem : Nat → LsaData} {oi : OspfIf}

/-! ## What each address gets -/

def acksTo (pkts : List OspfPacket) (a : UInt32) : List (List UInt8) :=
  (pkts.filter (·.dst = a)).flatMap OspfPacket.acks

variable {dst : UInt32} {st : OspfIfState}

/-- Packets that all go to one address. -/
theorem acksTo_same {pkts : List OspfPacket} (h : ∀ op ∈ pkts, op.dst = dst)
    (a : UInt32) : acksTo pkts a = if a = dst then pkts.flatMap OspfPacket.acks else [] := by
  unfold acksTo
  split
  next heq => rw [filter_eq_self.mpr fun op hop => decide_eq_true ((h op hop).trans heq.symm)]
  next hne =>
    rw [filter_eq_nil_iff.mpr, flatMap_nil]
    intro op hop hdst
    exact hne ((of_decide_eq_true hdst).symm.trans (h op hop))

/-! ## Direct acknowledgements -/

/-- The interface after a call of `ospf_ls_ack_send`. -/
@[simps]
def OspfIfState.queue (st : OspfIfState) (send : OspfNbr × Nat) : OspfIfState :=
  { st with
    lock := fun r => if r = send.2 then st.lock r + 1 else st.lock r
    lsAckDirect := st.lsAckDirect ++ [send.2]
    lsAckDirectDst := if st.lsAckDirect = [] then send.1.address else st.lsAckDirectDst }

theorem lsAckSend_queue (send : OspfNbr × Nat) (st : OspfIfState) :
    ospfLsAckSend send.1 send.2 st = .ok ((), st.queue send) := by
  rw [ospfLsAckSend, get_bind, when]
  by_cases h : st.lsAckDirect = []
  · rw [if_pos h, modify_bind, ospfLsaLock, modify_bind, OspfIfState.queue, if_pos h]
    rfl
  · rw [if_neg h, OspfIfState.queue, if_neg h]
    rfl

/-- All direct acknowledgements waiting are for one address. -/
structure DirectQueue (st : OspfIfState) (dst : UInt32) (refs : List Nat) (lock : Nat → Int)
    (obuf : List OspfPacket) : Prop where
  lock : ∀ r, st.lock r = lock r + refs.count r
  lsAckDirect : st.lsAckDirect = refs
  lsAckDirectDst : refs ≠ [] → st.lsAckDirectDst = dst
  obuf : st.obuf = obuf

variable {obuf : List OspfPacket} {lock : Nat → Int} {refs : List Nat}

theorem DirectQueue.queue (h : DirectQueue st dst refs lock obuf) (send : OspfNbr × Nat)
    (hdst : refs = [] → send.1.address = dst) :
    DirectQueue (st.queue send) dst (refs ++ [send.2]) lock obuf where
  lock r := by
    rw [OspfIfState.queue_lock, count_append, count_singleton, h.lock r]
    split
    next heq =>
      rw [heq, beq_self_eq_true, if_pos rfl]
      omega
    next hne =>
      rw [beq_eq_false_iff_ne.mpr (Ne.symm hne)]
      rfl
  lsAckDirect := by rw [OspfIfState.queue_lsAckDirect, h.lsAckDirect]
  lsAckDirectDst _ := by
    rw [OspfIfState.queue_lsAckDirectDst, h.lsAckDirect]
    split
    next hemp => exact hdst hemp
    next hne => exact h.lsAckDirectDst hne
  obuf := h.obuf

theorem sends_queue (sends : List (OspfNbr × Nat)) (h : DirectQueue st dst refs lock obuf)
    (hdst : refs = [] → ∀ p ∈ sends.head?, p.1.address = dst) :
    ∃ st', (sends.forM fun p => ospfLsAckSend p.1 p.2) st = .ok ((), st')
      ∧ DirectQueue st' dst (refs ++ sends.map Prod.snd) lock obuf := by
  induction sends generalizing st refs with
  | nil => exact ⟨st, rfl, by rwa [map_nil, append_nil]⟩
  | cons send sends ih =>
    have hnx := h.queue send fun hemp => hdst hemp send rfl
    obtain ⟨st', hr, hqu⟩ := ih hnx fun hemp => by simp at hemp
    refine ⟨st', (bind_ok (lsAckSend_queue send st)).trans hr, ?_⟩
    rwa [append_assoc] at hqu

/-- After these calls the event sends to each address what is owed to it, and leaves
nothing. -/
def DirectDelivered (mem : Nat → LsaData) (oi : OspfIf) (st : OspfIfState)
    (sends : List (OspfNbr × Nat)) : Prop :=
  ∃ bound st' pkts, (do
        sends.forM fun p => ospfLsAckSend p.1 p.2
        ospfLsAckSendEvent mem oi bound) st = .ok ((), st')
      ∧ st'.lsAckDirect = [] ∧ st'.obuf = st.obuf ++ pkts
      ∧ ∀ a, acksTo pkts a = (sends.filter (·.1.address = a)).map fun p => (mem p.2).header

/-- The acknowledgements fit, and they are all for one address. -/
def DirectFits (oi : OspfIf) (sends : List (OspfNbr × Nat)) : Prop :=
  sends ≠ [] → AckRoom oi sends.length ∧ ∀ p ∈ sends, ∀ q ∈ sends, p.1.address = q.1.address

theorem direct_delivered_iff (hmt : 68 ≤ oi.mtu.toNat)
    (hhl : LsaHeld mem st.lock []) (hemp : st.lsAckDirect = []) (sends : List (OspfNbr × Nat)) :
    DirectDelivered mem oi st sends ↔ DirectFits oi sends := by
  obtain ⟨dst, hdst⟩ : ∃ dst, ∀ p ∈ sends.head?, p.1.address = dst := by
    cases sends with
    | nil => exact ⟨0, nofun⟩
    | cons send sends => exact ⟨send.1.address, fun p hp => by cases hp; rfl⟩
  have hst : DirectQueue st dst [] st.lock st.obuf :=
    ⟨fun r => (Int.add_zero _).symm, hemp, nofun, rfl⟩
  obtain ⟨st1, hsends, hqu⟩ := sends_queue sends hst fun _ => hdst
  rw [nil_append] at hqu
  have hhl1 : LsaHeld mem st1.lock (sends.map Prod.snd) := hhl.queued hqu.lock
  have hev bound : (do
        sends.forM fun p => ospfLsAckSend p.1 p.2
        ospfLsAckSendEvent mem oi bound) st
      = (do let rest ← ospfLsAckSendAll mem oi st1.lsAckDirectDst bound (sends.map Prod.snd)
            modify fun st : OspfIfState => { st with lsAckDirect := rest }) st1 := by
    rw [bind_ok hsends, ospfLsAckSendEvent, get_bind, hqu.lsAckDirect]
  unfold DirectDelivered
  simp only [hev]
  constructor
  · rintro ⟨bound, st', pkts, hr, -, hob, hak⟩ hne
    obtain ⟨rest, st2, hal, hmod⟩ := bind_eq_ok hr
    obtain ⟨rfl, pkts', rfl, hto, hle, hrm⟩ := sendAll_ok hmt hhl1 hal
    cases hmod
    obtain rfl : pkts' = pkts := by
      have hap : st.obuf ++ pkts' = st.obuf ++ pkts := by
        rw [← hob, ← hqu.obuf]
        rfl
      exact append_cancel_left hap
    have hdst1 : st1.lsAckDirectDst = dst := hqu.lsAckDirectDst (by simpa using hne)
    rw [hdst1] at hto
    have hsm : ∀ p ∈ sends, p.1.address = dst := by
      intro p hp
      by_contra ho
      have hno := hak p.1.address
      rw [acksTo_same hto, if_neg ho] at hno
      have hm : p ∈ sends.filter (·.1.address = p.1.address) :=
        mem_filter.mpr ⟨hp, decide_eq_true rfl⟩
      rw [map_eq_nil_iff.mp hno.symm] at hm
      cases hm
    refine ⟨?_, fun p hp q hq => (hsm p hp).trans (hsm q hq).symm⟩
    have hct := congrArg List.length (hak dst)
    rw [acksTo_same hto, if_pos rfl, length_map,
      filter_eq_self.mpr fun p hp => decide_eq_true (hsm p hp)] at hct
    simpa using hrm (by simpa using hne) (by rw [hct, length_map])
  · intro hft
    have hrm : sends.map Prod.snd ≠ [] → AckRoom oi (sends.map Prod.snd).length := by
      intro hne
      rw [length_map]
      exact (hft (by simpa using hne)).1
    obtain ⟨pkts, hal, hto, hak⟩ :=
      sendAll_room hmt st1.lsAckDirectDst (Nat.le_refl _) hrm hhl1
    refine ⟨_, _, pkts, bind_ok hal, rfl, ?_, ?_⟩
    · rw [← hqu.obuf]
      rfl
    · intro a
      rw [acksTo_same hto, hak, map_map]
      rcases eq_nil_or_concat sends with rfl | ⟨_, _, hcat⟩
      · simp
      · have hne : sends ≠ [] := by simp [hcat]
        have hdst1 : st1.lsAckDirectDst = dst := hqu.lsAckDirectDst (by simpa using hne)
        have hsm : ∀ p ∈ sends, p.1.address = dst := by
          intro p hp
          rw [(hft hne).2 p hp _ (head_mem hne)]
          exact hdst _ (head?_eq_some_head hne)
        rw [hdst1]
        split
        next heq =>
          rw [filter_eq_self.mpr fun p hp => decide_eq_true ((hsm p hp).trans heq.symm)]
          rfl
        next ho =>
          rw [filter_eq_nil_iff.mpr, map_nil]
          intro p hp hp'
          exact ho ((of_decide_eq_true hp').symm.trans (hsm p hp))

/-! ## Delayed acknowledgements -/

variable {st' : OspfIfState}

theorem sendAll_nil {bound : Nat} {ack rest : List Nat}
    (h : ospfLsAckSendAll mem oi dst bound ack st = .ok (rest, st')) : rest = [] := by
  induction bound generalizing ack st with
  | zero =>
    cases ack with
    | nil =>
      cases h
      rfl
    | cons lsa ack => cases h
  | succ bound ih =>
    cases ack with
    | nil =>
      cases h
      rfl
    | cons lsa ack =>
      obtain ⟨left, st1, -, hrs⟩ := bind_eq_ok h
      exact ih hrs

theorem sendDelayedTo_done {bound : Nat}
    (h : sendDelayedTo mem oi bound dst st = .ok ((), st')) : st'.lsAck = [] := by
  rw [sendDelayedTo, get_bind] at h
  obtain ⟨rest, st1, hal, hmod⟩ := bind_eq_ok h
  cases hmod
  exact sendAll_nil hal

variable (bound : Nat)

theorem sendDelayedTo_empty (dst : UInt32)
    (h : st.lsAck = []) : sendDelayedTo mem oi bound dst st = .ok ((), st) := by
  rw [sendDelayedTo, get_bind, h]
  cases st
  cases h
  cases bound <;> rfl

/-- Where the delayed acknowledgements belong. -/
def delayedTargets (oi : OspfIf) : List UInt32 :=
  if oi.type = .nbma then (oi.nbrs.filter OspfNbr.adjacent).map OspfNbr.address
  else [delayedDst oi]

theorem nodup_delayedTargets (oi : OspfIf) : (delayedTargets oi).Nodup := by
  unfold delayedTargets
  split
  · exact oi.nodup_nbrs.sublist (filter_sublist.map _)
  · exact nodup_singleton _

/-- The loop over the neighbors finds the list empty after the first that it sends to. -/
theorem forM_sendDelayedTo (nbrs : List OspfNbr) (st : OspfIfState) :
    (nbrs.forM fun nbr =>
        when (nbr.adjacent = true) (sendDelayedTo mem oi bound nbr.address)) st
      = match (nbrs.filter OspfNbr.adjacent).map OspfNbr.address with
        | [] => .ok ((), st)
        | dst :: _ => sendDelayedTo mem oi bound dst st := by
  induction nbrs generalizing st with
  | nil => rfl
  | cons nbr nbrs ih =>
    cases hadj : nbr.adjacent with
    | false =>
      rw [filter_cons_of_neg (by rw [hadj]; exact nofun), ← ih]
      show (when _ _ >>= fun _ => nbrs.forM _) st = _
      rw [when, if_neg (by rw [hadj]; exact nofun)]
      rfl
    | true =>
      rw [filter_cons_of_pos hadj, map_cons]
      show (when _ _ >>= fun _ => nbrs.forM _) st = sendDelayedTo mem oi bound nbr.address st
      rw [when, if_pos hadj]
      cases hsd : sendDelayedTo mem oi bound nbr.address st with
      | error e => rw [bind_error hsd]
      | ok r =>
        obtain ⟨u, st'⟩ := r
        have hemp := sendDelayedTo_done hsd
        rw [bind_ok hsd, ih]
        split
        · rfl
        · exact sendDelayedTo_empty bound _ hemp

theorem sendDelayed_eq (st : OspfIfState) :
    ospfLsAckSendDelayed mem oi bound st = match delayedTargets oi with
      | [] => .ok ((), st)
      | dst :: _ => sendDelayedTo mem oi bound dst st := by
  unfold ospfLsAckSendDelayed delayedTargets
  split
  · exact forM_sendDelayedTo bound oi.nbrs st
  · rfl

/-- Each address that the delayed acknowledgements belong to gets all of them once, and the
list is empty. -/
def DelayedDelivered (mem : Nat → LsaData) (oi : OspfIf) (st : OspfIfState) : Prop :=
  ∃ bound st' pkts, ospfLsAckSendDelayed mem oi bound st = .ok ((), st')
    ∧ st'.lsAck = [] ∧ st'.obuf = st.obuf ++ pkts ∧ ∀ a, acksTo pkts a
      = if a ∈ delayedTargets oi then st.lsAck.map fun r => (mem r).header else []

/-- The acknowledgements fit, and an NBMA network has just one neighbor for them. -/
def DelayedFits (oi : OspfIf) (st : OspfIfState) : Prop :=
  st.lsAck ≠ [] → AckRoom oi st.lsAck.length
    ∧ (oi.type = .nbma → (oi.nbrs.filter OspfNbr.adjacent).length = 1)

theorem one_target_iff (oi : OspfIf) :
    (∃ dst, delayedTargets oi = [dst])
      ↔ (oi.type = .nbma → (oi.nbrs.filter OspfNbr.adjacent).length = 1) := by
  rw [← length_eq_one_iff, delayedTargets]
  split
  next h => simp [h]
  next h => simp [h]

theorem delayed_delivered_iff (hmt : 68 ≤ oi.mtu.toNat) (hhl : LsaHeld mem st.lock st.lsAck) :
    DelayedDelivered mem oi st ↔ DelayedFits oi st := by
  unfold DelayedDelivered DelayedFits
  simp only [sendDelayed_eq, ← one_target_iff]
  constructor
  · rintro ⟨bound, st', pkts, hr, hemp, hob, hak⟩ hne
    have hnd := nodup_delayedTargets oi
    cases htgs : delayedTargets oi with
    | nil =>
      rw [htgs] at hr
      cases hr
      exact (hne hemp).elim
    | cons dst targets =>
      rw [htgs] at hr hak hnd
      dsimp only at hr
      rw [sendDelayedTo, get_bind] at hr
      obtain ⟨rest, st1, hal, hmod⟩ := bind_eq_ok hr
      obtain ⟨rfl, pkts', rfl, hto, hle, hrm⟩ := sendAll_ok hmt hhl hal
      cases hmod
      obtain rfl : pkts' = pkts := append_cancel_left hob
      have hmine := hak dst
      rw [acksTo_same hto, if_pos rfl, if_pos mem_cons_self] at hmine
      refine ⟨hrm hne (by rw [hmine, length_map]), dst, ?_⟩
      cases targets with
      | nil => rfl
      | cons other targets =>
        have ho := hak other
        have hdf : other ≠ dst := by
          rintro rfl
          exact (nodup_cons.mp hnd).1 mem_cons_self
        rw [acksTo_same hto, if_neg hdf, if_pos (by simp)] at ho
        exact (hne (map_eq_nil_iff.mp ho.symm)).elim
  · intro hft
    by_cases hne : st.lsAck = []
    · refine ⟨0, st, [], ?_, hne, (append_nil _).symm, ?_⟩
      · split
        · rfl
        · exact sendDelayedTo_empty 0 _ hne
      · intro a
        rw [hne, map_nil, ite_self]
        rfl
    · obtain ⟨hrm, dst, htgs⟩ := hft hne
      obtain ⟨pkts, hal, hto, hak⟩ :=
        sendAll_room hmt dst (Nat.le_refl _) (fun _ => hrm) hhl
      refine ⟨st.lsAck.length, { st.sent st.lsAck pkts with lsAck := [] }, pkts, ?_, rfl, rfl, ?_⟩
      · rw [htgs]
        dsimp only
        rw [sendDelayedTo, get_bind, bind_ok hal]
        rfl
      · intro a
        rw [acksTo_same hto, hak, htgs]
        simp only [mem_singleton]

/-! ## Both lists -/

/-- Every acknowledgement reaches the neighbor it is owed to exactly when the lists fit. -/
theorem acks_delivered_iff_fits (hmtu : 68 ≤ oi.mtu.toNat) {st : OspfIfState}
    (hheld : LsaHeld mem st.lock st.lsAck) (hempty : st.lsAckDirect = [])
    (sends : List (OspfNbr × Nat)) :
    (DirectDelivered mem oi st sends ∧ DelayedDelivered mem oi st)
      ↔ DirectFits oi sends ∧ DelayedFits oi st :=
  and_congr (direct_delivered_iff hmtu hheld.nil hempty sends) (delayed_delivered_iff hmtu hheld)

/-- One delayed acknowledgement waits. -/
def oneDelayed : OspfIfState := ⟨fun _ => 2, [], [], 0, [0], []⟩

theorem held_oneDelayed : LsaHeld (fun _ => bareLsa) oneDelayed.lock oneDelayed.lsAck := by
  intro r
  have hct : oneDelayed.lsAck.count r ≤ 1 := count_le_length
  have hlo : oneDelayed.lock r = 2 := rfl
  rw [hlo]
  exact ⟨by omega, fun h => by omega⟩

theorem acks_delivered_broadcast :
    DirectDelivered (fun _ => bareLsa) (twoNbrs 1500 .broadcast) oneDelayed
        [(fullNbr 2, 0), (fullNbr 2, 1)]
      ∧ DelayedDelivered (fun _ => bareLsa) (twoNbrs 1500 .broadcast) oneDelayed :=
  (acks_delivered_iff_fits (show 68 ≤ (twoNbrs 1500 .broadcast).mtu.toNat by decide)
      held_oneDelayed rfl _).mpr
    ⟨fun _ => ⟨by unfold AckRoom; decide, by simp⟩, fun _ => ⟨by unfold AckRoom; decide, nofun⟩⟩

/-- What goes astray: the acknowledgement for the second of two neighbors, all of them with a
small MTU, and on an NBMA network those for all neighbors but one. -/
theorem acks_go_astray :
    ¬ DirectDelivered (fun _ => bareLsa) (twoNbrs 1500 .broadcast) oneDelayed
        [(fullNbr 2, 0), (fullNbr 3, 1)]
      ∧ ¬ DirectDelivered (fun _ => bareLsa) (twoNbrs 80 .broadcast) oneDelayed [(fullNbr 2, 0)]
      ∧ ¬ DelayedDelivered (fun _ => bareLsa) (twoNbrs 1500 .nbma) oneDelayed := by
  have hheld := held_oneDelayed.nil
  refine ⟨fun h => ?_, fun h => ?_, fun h => ?_⟩
  · have hfits := (direct_delivered_iff (by decide) hheld rfl _).mp h (cons_ne_nil _ _)
    exact absurd (hfits.2 (fullNbr 2, 0) (by simp) (fullNbr 3, 1) (by simp)) (by decide)
  · have hfits := (direct_delivered_iff (by decide) hheld rfl _).mp h (cons_ne_nil _ _)
    exact absurd hfits.1.1 (by decide)
  · have hfits := (delayed_delivered_iff (by decide) held_oneDelayed).mp h (cons_ne_nil _ _)
    exact absurd (hfits.2 rfl) (by decide)

end SdnQuagga
