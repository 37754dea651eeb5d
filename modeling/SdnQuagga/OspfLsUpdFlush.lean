import SdnQuagga.OspfLsUpdQueue

/-!
# The updates that leave an interface

`ospf_ls_upd_send` and `ospf_ls_upd_send_queue_event` of `ospfd/ospf_packet.c`. The event
sends a packet from each list of the queue and comes again while there is a list that is not
empty. Every run of it takes something from each list, so it comes to an end, and then each
LSA has been sent once.

All this needs that no LSA is so large that there is no packet for it, and that the MTU is
not larger than a packet can be: else the event goes on without a packet.
-/

namespace SdnQuagga

open FaultM List

/-! ## The code -/

/-- The destination that `ospf_ls_upd_send` decides on. -/
def lsUpdTarget (oi : OspfIf) (nbr : OspfNbr) (direct : Bool) : UInt32 :=
  if oi.type = .virtuallink then oi.peerAddr
  else if oi.type = .pointopoint then ospfAllspfrouters
  else if direct = true then nbr.address
  else if oi.state = .dr ∨ oi.state = .backup then ospfAllspfrouters
  else if oi.type = .pointomultipoint then ospfAllspfrouters
  else ospfAlldrouters

/-- `route_node_get` on the queue, and the LSAs added to the list of the node. The nodes
stand in the order of their addresses. -/
def enqueue (addr : UInt32) (update : List Nat) :
    List (UInt32 × List Nat) → List (UInt32 × List Nat)
  | [] => [(addr, update)]
  | (a, u) :: queue =>
    if a = addr then (a, u ++ update) :: queue
    else if addr < a then (addr, update) :: (a, u) :: queue
    else (a, u) :: enqueue addr update queue

def ospfLsUpdSend (oi : OspfIf) (nbr : OspfNbr) (update : List Nat) (direct : Bool) :
    OspfIfM Unit := do
  update.forM ospfLsaLock
  modify fun st =>
    { st with lsUpdQueue := enqueue (lsUpdTarget oi nbr direct) update st.lsUpdQueue }

variable (mem : Nat → LsaData) (oi : OspfIf)

/-- The loop of the event; a list that has become empty is taken out. -/
def sendQueues (now : Int) :
    List (UInt32 × List Nat) → OspfIfM (List (UInt32 × List Nat))
  | [] => return []
  | (addr, update) :: queue => do
    let rest ← ospfLsUpdQueueSend mem oi now update addr
    let left ← sendQueues now queue
    return if rest = [] then left else (addr, rest) :: left

/-- `ospf_ls_upd_send_queue_event`; it comes again if the result is true. -/
def ospfLsUpdSendQueueEvent (now : Int) :
    OspfIfM Bool := do
  let st ← get
  let queue ← sendQueues mem oi now st.lsUpdQueue
  modify fun st => { st with lsUpdQueue := queue }
  return !queue.isEmpty

/-- The event, as often as it comes again. Run `i` is at time `clock i`. -/
def lsUpdEvents : (clock : Nat → Int) → Nat → OspfIfM Unit
  | _, 0 => throw .loopBound
  | clock, bound + 1 => do
    let again ← ospfLsUpdSendQueueEvent mem oi (clock 0)
    when (again = true) (lsUpdEvents (fun i => clock (i + 1)) bound)

/-! ## The queue -/

variable (queue : List (UInt32 × List Nat))

def queueRefs : List Nat := queue.flatMap Prod.snd

/-- The LSAs that a queue has for an address. -/
def queueTo (a : UInt32) : List Nat :=
  (queue.filter (·.1 = a)).flatMap Prod.snd

/-- The queue has one list for each address, none of them empty, and holds a reference to
each LSA. -/
structure UpdReady (mem : Nat → LsaData) (st : OspfIfState) : Prop where
  sorted : (st.lsUpdQueue.map Prod.fst).Pairwise (· < ·)
  nonempty : ∀ e ∈ st.lsUpdQueue, e.2 ≠ []
  held : LsaHeld mem st.lock (queueRefs st.lsUpdQueue)

section

variable {mem : Nat → LsaData} {oi : OspfIf} {addr : UInt32} {update : List Nat}

theorem mem_keys_enqueue {queue : List (UInt32 × List Nat)} {a : UInt32} :
    a ∈ (enqueue addr update queue).map Prod.fst ↔ a = addr ∨ a ∈ queue.map Prod.fst := by
  induction queue with
  | nil => simp [enqueue]
  | cons e queue ih =>
    obtain ⟨b, u⟩ := e
    unfold enqueue
    split
    next h => simp [h]
    next h =>
      split
      · simp
      · simp [ih, or_left_comm]

theorem sorted_enqueue {queue : List (UInt32 × List Nat)}
    (h : (queue.map Prod.fst).Pairwise (· < ·)) :
    ((enqueue addr update queue).map Prod.fst).Pairwise (· < ·) := by
  induction queue with
  | nil => simp [enqueue]
  | cons e queue ih =>
    obtain ⟨b, u⟩ := e
    obtain ⟨hf, hrs⟩ := pairwise_cons.mp h
    unfold enqueue
    split
    · exact h
    next hne =>
      split
      next hlt =>
        refine pairwise_cons.mpr ⟨fun a ha => ?_, h⟩
        rcases mem_cons.mp ha with rfl | ha
        · exact hlt
        · exact UInt32.lt_trans hlt (hf a ha)
      next hge =>
        refine pairwise_cons.mpr ⟨fun a ha => ?_, ih hrs⟩
        rcases mem_keys_enqueue.mp ha with rfl | ha
        · exact UInt32.lt_of_le_of_ne (UInt32.not_lt.mp hge) hne
        · exact hf a ha

theorem nonempty_enqueue {queue : List (UInt32 × List Nat)} (hne : update ≠ [])
    (h : ∀ e ∈ queue, e.2 ≠ []) : ∀ e ∈ enqueue addr update queue, e.2 ≠ [] := by
  induction queue with
  | nil =>
    intro e he
    rw [enqueue, mem_singleton] at he
    rwa [he]
  | cons e queue ih =>
    obtain ⟨b, u⟩ := e
    obtain ⟨hf, hrs⟩ := forall_mem_cons.mp h
    unfold enqueue
    split
    · refine forall_mem_cons.mpr ⟨?_, hrs⟩
      exact fun hap => hne (append_eq_nil_iff.mp hap).2
    · split
      · exact forall_mem_cons.mpr ⟨hne, h⟩
      · exact forall_mem_cons.mpr ⟨hf, ih hrs⟩

theorem count_enqueue (queue : List (UInt32 × List Nat)) (r : Nat) :
    (queueRefs (enqueue addr update queue)).count r
      = (queueRefs queue).count r + update.count r := by
  induction queue with
  | nil => simp [enqueue, queueRefs]
  | cons e queue ih =>
    obtain ⟨b, u⟩ := e
    unfold enqueue
    split
    · simp only [queueRefs, flatMap_cons, count_append]
      omega
    · split
      · simp only [queueRefs, flatMap_cons, count_append]
        omega
      · simp only [queueRefs, flatMap_cons, count_append] at ih ⊢
        omega

/-- `ospf_ls_upd_send` keeps the queue ready. -/
theorem lsUpdSend_ready (nbr : OspfNbr) (direct : Bool) {st : OspfIfState}
    (h : UpdReady mem st) (hne : update ≠ []) :
    ∃ st', ospfLsUpdSend oi nbr update direct st = .ok ((), st') ∧ UpdReady mem st' := by
  refine ⟨_, bind_ok (forM_ospfLsaLock update st), sorted_enqueue h.sorted,
    nonempty_enqueue hne h.nonempty, ?_⟩
  intro r
  have hr := h.held r
  show 0 ≤ (st.lock r + update.count r) - _ ∧ ((st.lock r + update.count r) - _ = 0 → _)
  rw [count_enqueue]
  have hsb : (st.lock r + update.count r)
      - ((queueRefs st.lsUpdQueue).count r + update.count r : Nat)
      = st.lock r - (queueRefs st.lsUpdQueue).count r := by omega
  rwa [hsb]

end

/-! ## One run of the event -/

/-- A packet of the output queue, with what went into it. -/
structure UpdRecord where
  addr : UInt32
  now : Int
  lsas : List Nat
  op : OspfPacket

/-- The packet is what it should be. -/
structure UpdRecord.Good (mem : Nat → LsaData) (oi : OspfIf) (rec : UpdRecord) : Prop where
  dst : rec.op.dst = lsUpdDst oi rec.addr
  carries : CarriesUpdate mem oi rec.now rec.lsas rec.op
  fits : ∀ r ∈ rec.lsas, UpdFits oi (mem r)

variable (log : List UpdRecord)

/-- The LSAs sent, and those of them sent to an address. -/
def sentRefs : List Nat := log.flatMap UpdRecord.lsas

def sentTo (a : UInt32) : List Nat :=
  (log.filter (·.addr = a)).flatMap UpdRecord.lsas

/-- A run has sent the front of each list. -/
structure EventDone (mem : Nat → LsaData) (oi : OspfIf) (now : Int)
    (queue left : List (UInt32 × List Nat)) (log : List UpdRecord) : Prop where
  good : ∀ rec ∈ log, rec.Good mem oi ∧ rec.now = now
  lists : ∀ a, queueTo queue a = sentTo log a ++ queueTo left a
  refs : ∀ r, (queueRefs queue).count r = (sentRefs log).count r + (queueRefs left).count r
  keys : (left.map Prod.fst).Sublist (queue.map Prod.fst)
  nonempty : ∀ e ∈ left, e.2 ≠ []
  less : queue ≠ [] → (queueRefs left).length < (queueRefs queue).length
  mtu : queue ≠ [] → oi.mtu.toNat ≤ ospfMaxPacketSize

/-- There is a packet for each LSA. -/
def QueueFits (mem : Nat → LsaData) (oi : OspfIf) (queue : List (UInt32 × List Nat)) : Prop :=
  ∀ r ∈ queueRefs queue, oi.mtu.toNat ≤ ospfMaxPacketSize ∧ UpdFits oi (mem r)

variable {mem : Nat → LsaData} {oi : OspfIf} {now : Int}

theorem queueTo_eq_nil {queue : List (UInt32 × List Nat)} {a : UInt32}
    (h : a ∉ queue.map Prod.fst) : queueTo queue a = [] := by
  rw [queueTo, filter_eq_nil_iff.mpr, flatMap_nil]
  intro e he ha
  exact h (mem_map.mpr ⟨e, he, of_decide_eq_true ha⟩)

theorem queueTo_cons (addr a : UInt32) (update : List Nat) (queue : List (UInt32 × List Nat)) :
    queueTo ((addr, update) :: queue) a
      = if addr = a then update ++ queueTo queue a else queueTo queue a := by
  unfold queueTo
  split
  next h => rw [filter_cons_of_pos (by simpa using h), flatMap_cons]
  next h => rw [filter_cons_of_neg (by simpa using h)]

theorem sentTo_cons (rec : UpdRecord) (log : List UpdRecord) (a : UInt32) :
    sentTo (rec :: log) a = if rec.addr = a then rec.lsas ++ sentTo log a else sentTo log a := by
  unfold sentTo
  split
  next h => rw [filter_cons_of_pos (by simpa using h), flatMap_cons]
  next h => rw [filter_cons_of_neg (by simpa using h)]

/-- The packet for one list, in front of what the run did to the others. -/
theorem EventDone.cons {queue left : List (UInt32 × List Nat)} {log : List UpdRecord}
    {rec : UpdRecord} {rest : List Nat} (h : EventDone mem oi now queue left log)
    (hgo : rec.Good mem oi) (hnow : rec.now = now) (hne : rec.lsas ≠ [])
    (hmt : oi.mtu.toNat ≤ ospfMaxPacketSize) (hk : rec.addr ∉ queue.map Prod.fst) :
    EventDone mem oi now ((rec.addr, rec.lsas ++ rest) :: queue)
      (if rest = [] then left else (rec.addr, rest) :: left) (rec :: log) := by
  have hp := length_pos_iff.mpr hne
  have hlf a : queueTo (if rest = [] then left else (rec.addr, rest) :: left) a
      = if rec.addr = a then rest ++ queueTo left a else queueTo left a := by
    split
    next hrs => simp [hrs]
    next hrs => rw [queueTo_cons]
  have hrefs : queueRefs (if rest = [] then left else (rec.addr, rest) :: left)
      = rest ++ queueRefs left := by
    split
    next hrs => simp [hrs]
    next hrs => rfl
  refine ⟨forall_mem_cons.mpr ⟨⟨hgo, hnow⟩, h.good⟩, ?_, ?_, ?_, ?_, ?_, fun _ => hmt⟩
  · intro a
    rw [queueTo_cons, sentTo_cons, hlf]
    split
    next heq =>
      have hno := queueTo_eq_nil (heq ▸ hk)
      have hlists := h.lists a
      rw [hno] at hlists
      obtain ⟨hsn, hqu⟩ := append_eq_nil_iff.mp hlists.symm
      rw [hno, hsn, hqu, append_nil, append_nil, append_nil]
    next ho => exact h.lists a
  · intro r
    have hr := h.refs r
    rw [hrefs]
    simp only [queueRefs, sentRefs, flatMap_cons, count_append] at hr ⊢
    omega
  · split
    · exact h.keys.cons _
    · exact h.keys.cons_cons _
  · split
    · exact h.nonempty
    next hrs => exact forall_mem_cons.mpr ⟨hrs, h.nonempty⟩
  · intro _
    rw [hrefs]
    have hle : (queueRefs left).length ≤ (queueRefs queue).length := by
      cases queue with
      | nil =>
        have hni : left = [] := map_eq_nil_iff.mp (sublist_nil.mp h.keys)
        rw [hni]
      | cons e queue => exact Nat.le_of_lt (h.less (cons_ne_nil _ _))
    simp only [queueRefs, flatMap_cons, length_append] at hle ⊢
    omega

/-- A run of the event ends with all lists shorter, or there is an LSA without a packet. -/
theorem sendQueues_outcome (hmt : 68 ≤ oi.mtu.toNat) (queue : List (UInt32 × List Nat))
    (st : OspfIfState) (hhl : LsaHeld mem st.lock (queueRefs queue))
    (hne : ∀ e ∈ queue, e.2 ≠ []) (hks : (queue.map Prod.fst).Pairwise (· < ·)) :
    (∃ left log, sendQueues mem oi now queue st
        = .ok (left, st.sent (sentRefs log) (log.map UpdRecord.op))
      ∧ EventDone mem oi now queue left log)
    ∨ ∃ e, sendQueues mem oi now queue st = .error e ∧ ¬ QueueFits mem oi queue := by
  induction queue generalizing st with
  | nil =>
    refine .inl ⟨[], [], ?_, nofun, fun _ => rfl, fun _ => rfl, .slnil, nofun, nofun, nofun⟩
    simp [sendQueues, OspfIfState.sent, sentRefs]
    rfl
  | cons e queue ih =>
    obtain ⟨addr, update⟩ := e
    obtain ⟨hf, hrs⟩ := forall_mem_cons.mp hne
    obtain ⟨hk, hsrt⟩ := pairwise_cons.mp hks
    have hk' : addr ∉ queue.map Prod.fst := fun hm => UInt32.lt_irrefl _ (hk addr hm)
    cases update with
    | nil => exact (hf rfl).elim
    | cons lsa update =>
      have hm : lsa ∈ queueRefs ((addr, lsa :: update) :: queue) := by simp [queueRefs]
      by_cases hsize : lsUpdPacketSize oi (mem lsa).data.length ≤ ospfMaxPacketSize
      · have hli : LsaHeld mem st.lock (lsa :: update) := hhl.mono fun r => by
          simp only [queueRefs, flatMap_cons, count_append]
          omega
        obtain ⟨batch, rest, op, hap, hb, hsd, hdst, hblt, hft⟩ :=
          @queueSend_built mem oi now hmt lsa update addr st hli hsize
        have hoths : LsaHeld mem (st.sent batch [op]).lock (queueRefs queue) := by
          have hap' : queueRefs ((addr, lsa :: update) :: queue)
              = batch ++ (rest ++ queueRefs queue) := by
            rw [queueRefs, flatMap_cons, hap, append_assoc]
            rfl
          rw [hap'] at hhl
          refine (hhl.drop batch).mono fun r => ?_
          rw [count_append]
          omega
        rcases ih (st.sent batch [op]) hoths hrs hsrt with
          ⟨left, log, hrn, hdn⟩ | ⟨e, hrn, hov⟩
        · have hgo : UpdRecord.Good mem oi ⟨addr, now, batch, op⟩ :=
            ⟨hdst, hblt.carriesUpdate, hft⟩
          have hsm := mtu_le_of_packetSize hmt hsize
          refine .inl ⟨if rest = [] then left else (addr, rest) :: left,
            ⟨addr, now, batch, op⟩ :: log, ?_, ?_⟩
          · rw [sendQueues, bind_ok hsd, bind_ok hrn, sent_sent]
            rfl
          · rw [hap]
            exact hdn.cons hgo rfl hb hsm hk'
        · refine .inr ⟨e, by rw [sendQueues, bind_ok hsd, bind_error hrn], fun hft => ?_⟩
          refine hov fun r hr => hft r ?_
          rw [queueRefs, flatMap_cons]
          exact mem_append_right _ hr
      · refine .inr ⟨.nullDeref, ?_, fun hft => hsize ?_⟩
        · rw [sendQueues, bind_error (queueSend_missing addr st (Nat.lt_of_not_le hsize))]
        · exact lsUpdPacketSize_le hmt (hft lsa hm).2 (hft lsa hm).1

/-- The queue after a run that has left these lists. -/
def OspfIfState.flushed (st : OspfIfState) (left : List (UInt32 × List Nat))
    (log : List UpdRecord) : OspfIfState :=
  { st.sent (sentRefs log) (log.map UpdRecord.op) with lsUpdQueue := left }

theorem event_outcome (hmt : 68 ≤ oi.mtu.toNat) {st : OspfIfState} (h : UpdReady mem st) :
    (∃ left log, ospfLsUpdSendQueueEvent mem oi now st = .ok (!left.isEmpty, st.flushed left log)
      ∧ EventDone mem oi now st.lsUpdQueue left log)
    ∨ ∃ e, ospfLsUpdSendQueueEvent mem oi now st = .error e ∧ ¬ QueueFits mem oi st.lsUpdQueue := by
  rw [ospfLsUpdSendQueueEvent, get_bind]
  rcases @sendQueues_outcome mem oi now hmt st.lsUpdQueue st h.held h.nonempty h.sorted with
    ⟨left, log, hrn, hdn⟩ | ⟨e, hrn, hov⟩
  · exact .inl ⟨left, log, bind_ok hrn, hdn⟩
  · exact .inr ⟨e, bind_error hrn, hov⟩

variable {log : List UpdRecord} {st : OspfIfState}

theorem EventDone.ready {left : List (UInt32 × List Nat)}
    (hdn : EventDone mem oi now st.lsUpdQueue left log)
    (h : UpdReady mem st) : UpdReady mem (st.flushed left log) where
  sorted := h.sorted.sublist hdn.keys
  nonempty := hdn.nonempty
  held r := by
    have hr := h.held r
    have hrefs := hdn.refs r
    have hlo : (st.flushed left log).lock r - (queueRefs left).count r
        = st.lock r - (queueRefs st.lsUpdQueue).count r := by
      show st.lock r - (sentRefs log).count r - _ = _
      omega
    show 0 ≤ (st.flushed left log).lock r - (queueRefs left).count r
      ∧ ((st.flushed left log).lock r - (queueRefs left).count r = 0 → _)
    rwa [hlo]

theorem EventDone.fits_iff {queue left : List (UInt32 × List Nat)}
    (h : EventDone mem oi now queue left log) : QueueFits mem oi queue ↔ QueueFits mem oi left := by
  have hm r : r ∈ queueRefs queue ↔ r ∈ sentRefs log ∨ r ∈ queueRefs left := by
    have hr := h.refs r
    rw [← count_pos_iff, ← count_pos_iff, ← count_pos_iff]
    omega
  constructor
  · exact fun hft r hr => hft r ((hm r).mpr (.inr hr))
  · intro hft r hr
    rcases (hm r).mp hr with hsn | hlf
    · obtain ⟨rec, hrec, hr'⟩ := mem_flatMap.mp hsn
      refine ⟨h.mtu ?_, (h.good rec hrec).1.fits r hr'⟩
      rintro rfl
      cases hr
    · exact hft r hlf

/-! ## All runs -/

/-- The queue is empty, and what was in it has been sent. -/
structure EventsDone (mem : Nat → LsaData) (oi : OspfIf) (clock : Nat → Int) (st : OspfIfState)
    (log : List UpdRecord) : Prop where
  good : ∀ rec ∈ log, rec.Good mem oi ∧ ∃ i, rec.now = clock i
  lists : ∀ a, sentTo log a = queueTo st.lsUpdQueue a
  refs : ∀ r, (sentRefs log).count r = (queueRefs st.lsUpdQueue).count r

theorem sentTo_append (log log' : List UpdRecord) (a : UInt32) :
    sentTo (log ++ log') a = sentTo log a ++ sentTo log' a := by
  rw [sentTo, filter_append, flatMap_append, sentTo, sentTo]

theorem sentRefs_append (log log' : List UpdRecord) :
    sentRefs (log ++ log') = sentRefs log ++ sentRefs log' :=
  flatMap_append

theorem flushed_flushed (st : OspfIfState) (left left' : List (UInt32 × List Nat))
    (log log' : List UpdRecord) :
    (st.flushed left log).flushed left' log' = st.flushed left' (log ++ log') := by
  have hsn := sent_sent st (sentRefs log) (sentRefs log')
    (log.map UpdRecord.op) (log'.map UpdRecord.op)
  rw [← sentRefs_append, ← map_append] at hsn
  exact congrArg (fun st : OspfIfState => { st with lsUpdQueue := left' }) hsn

variable {clock : Nat → Int}

theorem EventDone.done
    (h : EventDone mem oi (clock 0) st.lsUpdQueue [] log) : EventsDone mem oi clock st log where
  good rec hrec := ⟨(h.good rec hrec).1, 0, (h.good rec hrec).2⟩
  lists a := by
    rw [h.lists a]
    exact (append_nil _).symm
  refs r := (h.refs r).symm

theorem EventDone.next {clock : Nat → Int} {st : OspfIfState}
    {left : List (UInt32 × List Nat)} {log log' : List UpdRecord}
    (h : EventDone mem oi (clock 0) st.lsUpdQueue left log)
    (h' : EventsDone mem oi (fun i => clock (i + 1)) (st.flushed left log) log') :
    EventsDone mem oi clock st (log ++ log') where
  good rec hrec := by
    rcases mem_append.mp hrec with hrec | hrec
    · exact ⟨(h.good rec hrec).1, 0, (h.good rec hrec).2⟩
    · obtain ⟨hgo, i, hi⟩ := h'.good rec hrec
      exact ⟨hgo, i + 1, hi⟩
  lists a := by
    rw [sentTo_append, h'.lists a, h.lists a]
    rfl
  refs r := by
    have hr := h'.refs r
    have hf := h.refs r
    rw [sentRefs_append, count_append, hr]
    exact hf.symm

theorem events_sent (hmt : 68 ≤ oi.mtu.toNat) {bound : Nat}
    {st st' : OspfIfState} (h : UpdReady mem st)
    (hrn : lsUpdEvents mem oi clock bound st = .ok ((), st')) :
    QueueFits mem oi st.lsUpdQueue
      ∧ ∃ log, st' = st.flushed [] log ∧ EventsDone mem oi clock st log := by
  induction bound generalizing clock st with
  | zero => cases hrn
  | succ bound ih =>
    rw [lsUpdEvents] at hrn
    rcases @event_outcome mem oi (clock 0) hmt st h with
      ⟨left, log, hev, hdn⟩ | ⟨e, hev, -⟩
    · rw [bind_ok hev] at hrn
      cases left with
      | nil =>
        cases hrn
        exact ⟨hdn.fits_iff.mpr nofun, log, rfl, hdn.done⟩
      | cons e left =>
        obtain ⟨hft, log', rfl, hdn'⟩ := ih (hdn.ready h) hrn
        exact ⟨hdn.fits_iff.mpr hft, log ++ log', flushed_flushed .., hdn.next hdn'⟩
    · rw [bind_error hev] at hrn
      cases hrn

theorem events_end (hmt : 68 ≤ oi.mtu.toNat) {clock : Nat → Int} {bound : Nat}
    {st : OspfIfState} (h : UpdReady mem st) (hft : QueueFits mem oi st.lsUpdQueue)
    (hbd : (queueRefs st.lsUpdQueue).length < bound) :
    ∃ st', lsUpdEvents mem oi clock bound st = .ok ((), st') := by
  induction bound generalizing clock st with
  | zero => omega
  | succ bound ih =>
    rw [lsUpdEvents]
    rcases @event_outcome mem oi (clock 0) hmt st h with
      ⟨left, log, hev, hdn⟩ | ⟨e, -, hov⟩
    · rw [bind_ok hev]
      cases left with
      | nil => exact ⟨_, rfl⟩
      | cons e left =>
        have hne : st.lsUpdQueue ≠ [] := by
          intro hni
          have hks := hdn.keys
          rw [hni] at hks
          cases hks
        have hless := hdn.less hne
        refine @ih (fun i => clock (i + 1)) (st.flushed (e :: left) log) (hdn.ready h)
          (hdn.fits_iff.mp hft) ?_
        show (queueRefs (e :: left)).length < bound
        omega
    · exact (hov hft).elim

/-! ## The updates of an interface -/

/-- The queue is empty. Each LSA with a packet that is not too large has been sent once, in
the order of the queue, in a packet to where it belongs, that counts its LSAs and has their
ages increased. Each LSA has lost the references of the queue. -/
structure UpdFlushed (mem : Nat → LsaData) (oi : OspfIf) (clock : Nat → Int)
    (st st' : OspfIfState) (log : List UpdRecord) : Prop where
  empty : st'.lsUpdQueue = []
  obuf : st'.obuf = st.obuf ++ log.map UpdRecord.op
  good : ∀ rec ∈ log, rec.Good mem oi ∧ ∃ i, rec.now = clock i
  lists : ∀ a, sentTo log a = (queueTo st.lsUpdQueue a).filter fun r => UpdFits oi (mem r)
  lock : ∀ r, st'.lock r = st.lock r - (queueRefs st.lsUpdQueue).count r

/-- The event comes to an end, and the queue has been sent. -/
def UpdDelivered (mem : Nat → LsaData) (oi : OspfIf) (clock : Nat → Int) (st : OspfIfState) :
    Prop :=
  ∃ bound st' log, lsUpdEvents mem oi clock bound st = .ok ((), st')
    ∧ UpdFlushed mem oi clock st st' log

theorem mem_queueRefs_of_queueTo {queue : List (UInt32 × List Nat)} {a : UInt32} {r : Nat}
    (h : r ∈ queueTo queue a) : r ∈ queueRefs queue := by
  obtain ⟨e, he, hr⟩ := mem_flatMap.mp h
  exact mem_flatMap.mpr ⟨e, mem_of_mem_filter he, hr⟩

/-- Flooded LSAs leave the queue exactly once if and only if there is a packet for each. -/
theorem updates_delivered_iff_fits (hmtu : 68 ≤ oi.mtu.toNat) {st : OspfIfState}
    (h : UpdReady mem st) (clock : Nat → Int) :
    UpdDelivered mem oi clock st ↔ QueueFits mem oi st.lsUpdQueue := by
  constructor
  · rintro ⟨bound, st', log, hrun, -⟩
    exact (events_sent hmtu h hrun).1
  · intro hfits
    obtain ⟨st', hrun⟩ := @events_end mem oi hmtu clock _ st h hfits (Nat.lt_succ_self _)
    obtain ⟨-, log, rfl, hdone⟩ := events_sent hmtu h hrun
    refine ⟨_, _, log, hrun, rfl, rfl, hdone.good, ?_, ?_⟩
    · intro a
      rw [hdone.lists a, filter_eq_self.mpr]
      exact fun r hr => decide_eq_true (hfits r (mem_queueRefs_of_queueTo hr)).2
    · intro r
      rw [← hdone.refs r]
      rfl

/-- Two LSAs wait for all routers. -/
def oneUpdate : OspfIfState := ⟨fun _ => 3, [(ospfAllspfrouters, [0, 1])], [], 0, [], []⟩

theorem ready_oneUpdate (mem : Nat → LsaData) : UpdReady mem oneUpdate where
  sorted := pairwise_singleton _ _
  nonempty := by simp [oneUpdate]
  held r := by
    have hct : (queueRefs oneUpdate.lsUpdQueue).count r ≤ 2 := count_le_length
    have hlo : oneUpdate.lock r = 3 := rfl
    rw [hlo]
    exact ⟨by omega, fun h => by omega⟩

theorem update_delivered_bare :
    UpdDelivered (fun _ => bareLsa) (twoNbrs 1500 .broadcast) (fun _ => 0) oneUpdate :=
  (updates_delivered_iff_fits (show 68 ≤ (twoNbrs 1500 .broadcast).mtu.toNat by decide)
      (ready_oneUpdate _) _).mpr fun _ _ => ⟨by decide, by
    rw [UpdFits, bareLsa, length_zeroLsa]
    decide⟩

def largeLsa : LsaData := zeroLsa 65500 (by decide)

theorem length_largeLsa : largeLsa.data.length = 65500 := length_zeroLsa 65500 _

/-- With an LSA of 65500 bytes in the queue the event goes on without a packet. -/
theorem large_lsa_without_packet :
    ¬ UpdDelivered (fun _ => largeLsa) (twoNbrs 1500 .broadcast) (fun _ => 0) oneUpdate := by
  rintro ⟨bound, st', log, hrun, -⟩
  have hmem : 0 ∈ queueRefs oneUpdate.lsUpdQueue := by simp [oneUpdate, queueRefs]
  have hfits : UpdFits _ largeLsa := ((events_sent (by decide) (ready_oneUpdate _) hrun).1 0 hmem).2
  have hlength := length_largeLsa
  unfold UpdFits ospfMaxPacketSize at hfits
  omega

/-! ## Flooding while the queue is sent -/

inductive FloodStep where
  | send (nbr : OspfNbr) (lsa : Nat) (lsas : List Nat) (direct : Bool)
  | event (now : Int)

def FloodStep.run (mem : Nat → LsaData) (oi : OspfIf) : FloodStep → OspfIfM Unit
  | .send nbr lsa lsas direct => ospfLsUpdSend oi nbr (lsa :: lsas) direct
  | .event now => do let _ ← ospfLsUpdSendQueueEvent mem oi now

/-- What a step queues for an address. -/
def FloodStep.queued (oi : OspfIf) (a : UInt32) : FloodStep → List Nat
  | .send nbr lsa lsas direct => if lsUpdTarget oi nbr direct = a then lsa :: lsas else []
  | .event _ => []

theorem queueTo_enqueue {queue : List (UInt32 × List Nat)} (addr a : UInt32) (update : List Nat)
    (h : (queue.map Prod.fst).Pairwise (· < ·)) : queueTo (enqueue addr update queue) a
      = queueTo queue a ++ if addr = a then update else [] := by
  induction queue with
  | nil =>
    rw [enqueue, queueTo_cons]
    simp [queueTo]
  | cons e queue ih =>
    obtain ⟨b, u⟩ := e
    obtain ⟨hf, hrs⟩ := pairwise_cons.mp h
    -- No node behind this one has an address up to its own.
    have hnil c (hc : c ≤ b) : queueTo queue c = [] :=
      queueTo_eq_nil fun hm => UInt32.not_lt.mpr hc (hf c hm)
    grind [enqueue, queueTo_cons, UInt32.le_of_lt, UInt32.le_refl]

/-- In any order of the steps, what is queued for an address is sent there once and in its
order, but for what is still in the queue. -/
theorem flooding_in_order (hmtu : 68 ≤ oi.mtu.toNat)
    (hfits : ∀ r, oi.mtu.toNat ≤ ospfMaxPacketSize ∧ UpdFits oi (mem r)) (h : UpdReady mem st)
    (steps : List FloodStep) :
    ∃ st' log, steps.forM (FloodStep.run mem oi) st = .ok ((), st') ∧ UpdReady mem st'
      ∧ st'.obuf = st.obuf ++ log.map UpdRecord.op ∧ (∀ rec ∈ log, rec.Good mem oi)
      ∧ ∀ a, queueTo st.lsUpdQueue a ++ steps.flatMap (·.queued oi a)
        = sentTo log a ++ queueTo st'.lsUpdQueue a := by
  induction steps generalizing st with
  | nil => exact ⟨st, [], rfl, h, by simp, by simp, by simp [sentTo]⟩
  | cons step steps ih =>
    cases step with
    | send nbr lsa lsas direct =>
      obtain ⟨st1, hrn, hrd⟩ := @lsUpdSend_ready mem oi _ nbr direct st h (cons_ne_nil lsa lsas)
      obtain ⟨st', log, hrun, hrd', hob, hgd, hls⟩ := ih hrd
      cases hrn.symm.trans (bind_ok (forM_ospfLsaLock (lsa :: lsas) st))
      have hst : FloodStep.run mem oi (.send nbr lsa lsas direct) st = _ := hrn
      refine ⟨st', log, (forM_cons_ok hst).trans hrun, hrd', hob, hgd, fun a => ?_⟩
      rw [flatMap_cons, ← append_assoc, ← hls a]
      congr 1
      exact (queueTo_enqueue _ a _ h.sorted).symm
    | event now =>
      rcases @event_outcome mem oi now hmtu st h with ⟨left, log, hrn, hdn⟩ | ⟨e, -, hov⟩
      · obtain ⟨st', log', hrun, hrd, hob, hgd, hls⟩ := ih (hdn.ready h)
        refine ⟨st', log ++ log', (forM_cons_ok (bind_ok hrn)).trans hrun, hrd, ?_, ?_,
          fun a => ?_⟩
        · rw [hob, map_append, ← append_assoc]
          rfl
        · intro rec hrec
          exact (mem_append.mp hrec).elim (fun hl => (hdn.good rec hl).1) (hgd rec)
        · rw [hdn.lists a, append_assoc, sentTo_append, append_assoc, ← hls a]
          rfl
      · exact absurd (fun r _ => hfits r) hov

theorem flooding_in_order_between :
    ∃ st' log, [.event 0, .send ⟨2, 2, .full, 1, 1, false⟩ 1 [] true, .event 1].forM
      (FloodStep.run (fun _ => bareLsa) (twoNbrs 1500 .broadcast)) oneUpdate = .ok ((), st')
      ∧ [1] = sentTo log 2 ++ queueTo st'.lsUpdQueue 2 :=
  have ⟨st', log, hrun, _, _, _, hls⟩ := flooding_in_order
    (show 68 ≤ (twoNbrs 1500 .broadcast).mtu.toNat by decide)
    (fun _ => ⟨by decide, by rw [UpdFits, bareLsa, length_zeroLsa]; decide⟩) (ready_oneUpdate _) _
  ⟨st', log, hrun, hls 2⟩

end SdnQuagga
