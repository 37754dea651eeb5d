import SdnQuagga.HeapOrder

/-!
# Priority queues

`lib/pqueue.c`: a binary heap of pointers with a comparison and a
callback that is told the new index of every entry that moves. The
callback changes some state `σ` outside of the queue, in the source a
status word in the queued object.
-/

namespace SdnQuagga

open Function

/-- `struct pqueue`. -/
structure PQueue (α : Type) where
  array : Nat → α
  size : Nat

section

variable {α σ : Type} (cmp : α → α → Int) (update : α → Nat → σ → σ)

/-- The loop of `trickle_up` and the two lines behind it. -/
def trickleUpLoop (tmp : α) (index : Nat) (array : Nat → α) (s : σ) :
    (Nat → α) × σ :=
  if 0 < index ∧ cmp tmp (array (heapParent index)) < 0 then
    trickleUpLoop tmp (heapParent index) (Function.update array index (array (heapParent index)))
      (update (array (heapParent index)) index s)
  else (Function.update array index tmp, update tmp index s)
termination_by index
decreasing_by
  rename_i hup
  exact heapParent_lt hup.1

def trickleUp (index : Nat) (queue : PQueue α) (s : σ) : PQueue α × σ :=
  let (array, s) :=
    trickleUpLoop cmp update (queue.array index) index queue.array s
  ({ queue with array }, s)

variable (array : Nat → α) (size index : Nat)

/-- The child that is more proper to be moved up. -/
def trickleWhich : Nat :=
  if 2 * index + 2 < size ∧ cmp (array (2 * index + 1)) (array (2 * index + 2)) > 0 then
    2 * index + 2
  else 2 * index + 1

theorem trickleWhich_cases :
    trickleWhich cmp array size index = 2 * index + 1
      ∨ trickleWhich cmp array size index = 2 * index + 2 ∧ 2 * index + 2 < size := by
  unfold trickleWhich
  split
  next h => exact .inr ⟨rfl, h.1⟩
  · exact .inl rfl

theorem trickleWhich_gt : index < trickleWhich cmp array size index := by
  have := trickleWhich_cases cmp array size index
  omega

/-- The loop of `trickle_down` and the two lines behind it. -/
def trickleDownLoop (size : Nat) (tmp : α) (index : Nat) (array : Nat → α)
    (s : σ) : (Nat → α) × σ :=
  if index < size / 2 then
    let which := trickleWhich cmp array size index
    if cmp (array which) tmp > 0 then
      (Function.update array index tmp, update tmp index s)
    else
      trickleDownLoop size tmp which (Function.update array index (array which))
        (update (array which) index s)
  else (Function.update array index tmp, update tmp index s)
termination_by size - index
decreasing_by
  have := trickleWhich_gt cmp array size index
  omega

def trickleDown (index : Nat) (queue : PQueue α) (s : σ) : PQueue α × σ :=
  let (array, s) := trickleDownLoop cmp update queue.size
    (queue.array index) index queue.array s
  ({ queue with array }, s)

def pqueueEnqueue (data : α) (queue : PQueue α) (s : σ) : PQueue α × σ :=
  let (queue', s) := trickleUp cmp update queue.size
    { queue with array := Function.update queue.array queue.size data }
    (update data queue.size s)
  ({ queue' with size := queue.size + 1 }, s)

def pqueueDequeue (queue : PQueue α) (s : σ) : α × PQueue α × σ :=
  let size := queue.size - 1
  (queue.array 0, trickleDown cmp update 0
    { array := Function.update queue.array 0 (queue.array size), size } s)

end

/-! ## What the loops keep -/

/-- The comparison of the entries that can be in the queue is that of
their ranks. -/
structure Ranks {α : Type} (cmp : α → α → Int) (P : α → Prop) (rank : α → Nat) : Prop where
  lt : ∀ {x y}, P x → P y → (cmp x y < 0 ↔ rank x < rank y)
  gt : ∀ {x y}, P x → P y → (cmp x y > 0 ↔ rank y < rank x)

/-- The callback notes the index of an entry under its key. -/
def Tracks {α σ κ : Type} [DecidableEq κ] (update : α → Nat → σ → σ)
    (key : α → κ) (pos : σ → κ → Int) : Prop :=
  ∀ x i s k, pos (update x i s) k = if k = key x then (i : Int) else pos s k

variable {α : Type} (array : Nat → α)

/-- `x` is among the first `n` entries. -/
def Holds (n : Nat) (x : α) : Prop :=
  ∃ i < n, array i = x

/-- An entry written to a hole whose content went to another place: the
two are exchanged. -/
theorem update_update_eq_swap (tmp : α) {h p : Nat} (hne : p ≠ h) :
    Function.update (Function.update array h (array p)) p tmp
      = Function.update array h tmp ∘ Equiv.swap h p := by
  funext i
  by_cases hip : i = p
  · subst hip
    simp
  · by_cases hih : i = h
    · subst hih
      simp [hip, update_of_ne hne]
    · simp [hip, hih, Equiv.swap_apply_of_ne_of_ne hih hip]

theorem holds_swap {array : Nat → α} {n h p : Nat} (hh : h < n) (hp : p < n) (x : α) :
    Holds (array ∘ Equiv.swap h p) n x ↔ Holds array n x := by
  have hlt {i} (hi : i < n) : Equiv.swap h p i < n := by
    rw [Equiv.swap_apply_def]
    split
    · exact hp
    · split
      · exact hh
      · exact hi
  constructor
  · rintro ⟨i, hi, rfl⟩
    exact ⟨_, hlt hi, rfl⟩
  · rintro ⟨i, hi, rfl⟩
    exact ⟨_, hlt hi, by simp⟩

variable {α σ κ : Type} [DecidableEq κ] {cmp : α → α → Int}
  {update : α → Nat → σ → σ} {P : α → Prop} {rank : α → Nat} {key : α → κ}
  {pos : σ → κ → Int}

/-- The entry at `h` is on its way: its index is not noted yet. -/
structure Moving (P : α → Prop) (key : α → κ) (pos : σ → κ → Int)
    (array : Nat → α) (n h : Nat) (s : σ) : Prop where
  lt : h < n
  member : ∀ i < n, P (array i)
  inj : ∀ i < n, ∀ j < n, key (array i) = key (array j) → i = j
  placed : ∀ i < n, i ≠ h → pos s (key (array i)) = i

/-- The same entries in heap order, each with its index noted. -/
structure Arranged (rank : α → Nat) (key : α → κ) (pos : σ → κ → Int)
    (array : Nat → α) (n : Nat) (s : σ) (array' : Nat → α) (s' : σ) :
    Prop where
  holds : ∀ x, Holds array' n x ↔ Holds array n x
  ordered : HeapOrdered (rank ∘ array') n
  placed : ∀ i < n, pos s' (key (array' i)) = i
  frame : ∀ k, (∀ i < n, key (array i) ≠ k) → pos s' k = pos s k

variable {array array' : Nat → α} {n h p : Nat} {s s' : σ}

theorem Moving.step (htk : Tracks update key pos)
    (hm : Moving P key pos array n h s) (hp : p < n) (hne : p ≠ h) :
    Moving P key pos (array ∘ Equiv.swap h p) n p (update (array p) h s) := by
  have hmb : ∀ i < n, ∃ j < n, (array ∘ Equiv.swap h p) i = array j :=
    fun i hi =>
      let ⟨j, hj, heq⟩ := (holds_swap hm.lt hp _).mp ⟨i, hi, rfl⟩
      ⟨j, hj, heq.symm⟩
  have hlt : ∀ i < n, Equiv.swap h p i < n := by
    intro i hi
    rw [Equiv.swap_apply_def]
    have := hm.lt
    split
    · exact hp
    · split <;> assumption
  refine ⟨hp, fun i hi => ?_, fun i hi j hj heq => ?_, fun i hi hip => ?_⟩
  · obtain ⟨j, hj, heq⟩ := hmb i hi
    rw [heq]
    exact hm.member j hj
  · exact (Equiv.swap h p).injective (hm.inj _ (hlt i hi) _ (hlt j hj) heq)
  · rw [htk]
    by_cases hih : i = h
    · subst hih
      simp
    · rw [comp_apply, Equiv.swap_apply_of_ne_of_ne hih hip, if_neg]
      · exact hm.placed i hi hih
      · exact fun heq => hip (hm.inj i hi p hp heq)

theorem Moving.finish (htk : Tracks update key pos) (hm : Moving P key pos array n h s)
    (ho : HeapOrdered (rank ∘ array) n) :
    Arranged rank key pos array n s array (update (array h) h s) where
  holds := fun _ => Iff.rfl
  ordered := ho
  placed := by
    intro i hi
    rw [htk]
    by_cases hih : i = h
    · subst hih
      simp
    · rw [if_neg fun heq => hih (hm.inj i hi h hm.lt heq)]
      exact hm.placed i hi hih
  frame := by
    intro k hk
    rw [htk, if_neg fun heq => hk h hm.lt heq.symm]

theorem Arranged.of_swap (htk : Tracks update key pos) (hh : h < n) (hp : p < n)
    (ha : Arranged rank key pos (array ∘ Equiv.swap h p) n (update (array p) h s) array' s') :
    Arranged rank key pos array n s array' s' where
  holds := fun x => (ha.holds x).trans (holds_swap hh hp x)
  ordered := ha.ordered
  placed := ha.placed
  frame := by
    intro k hk
    rw [ha.frame k, htk, if_neg fun heq => hk p hp heq.symm]
    intro i hi heq
    obtain ⟨j, hj, hji⟩ :=
      (holds_swap hh hp ((array ∘ Equiv.swap h p) i)).mp ⟨i, hi, rfl⟩
    exact hk j hj (by rw [hji]; exact heq)

/-! ## The loops -/

section

variable (hrk : Ranks cmp P rank)
include hrk

/-- `array` is as the loop of the source has it, with the hole at
`index`. -/
theorem trickleUpLoop_arranged
    (htk : Tracks update key pos) (tmp : α) (index : Nat) (array : Nat → α) (s : σ)
    (hm : Moving P key pos (Function.update array index tmp) n index s)
    (hu : UpOrdered (rank ∘ Function.update array index tmp) n index) :
    Arranged rank key pos (Function.update array index tmp) n s
      (trickleUpLoop cmp update tmp index array s).1
      (trickleUpLoop cmp update tmp index array s).2 := by
  induction index using Nat.strongRecOn generalizing array s with
  | ind index ih =>
    have htmp : Function.update array index tmp index = tmp := by simp
    have hprt (hps : 0 < index) :
        Function.update array index tmp (heapParent index) = array (heapParent index) :=
      update_of_ne (heapParent_lt hps).ne _ _
    have hPtmp := hm.member index hm.lt
    rw [htmp] at hPtmp
    rw [trickleUpLoop]
    split
    next hup =>
      have hlt := heapParent_lt hup.1
      have hpn := hlt.trans hm.lt
      have hPp := hm.member _ hpn
      rw [hprt hup.1] at hPp
      have hle : rank tmp < rank (array (heapParent index)) := (hrk.lt hPtmp hPp).mp hup.2
      have hswap := update_update_eq_swap array tmp hlt.ne
      have hm' := hm.step htk hpn hlt.ne
      have hu' := hu.step hup.1 hm.lt (by
        simp only [comp_apply, htmp, hprt hup.1]
        exact hle.le)
      rw [hprt hup.1] at hm'
      rw [comp_assoc] at hu'
      rw [← hswap] at hm' hu'
      refine Arranged.of_swap htk hm.lt hpn ?_
      rw [hprt hup.1, ← hswap]
      exact ih _ hlt _ _ hm' hu'
    next hsp =>
      have hdn := hm.finish htk (hu.finish fun hps => by
        have hPp := hm.member _ ((heapParent_lt hps).trans hm.lt)
        rw [hprt hps] at hPp
        simp only [comp_apply, htmp, hprt hps]
        by_contra hgt
        exact hsp ⟨hps, (hrk.lt hPtmp hPp).mpr (Nat.lt_of_not_le hgt)⟩)
      rwa [htmp] at hdn

theorem trickleWhich_le {index : Nat}
    (hmb : ∀ i < n, index < i → P (array i)) {i : Nat} (hi : i < n)
    (hps : 0 < i) (hpr : heapParent i = index) :
    rank (array (trickleWhich cmp array n index)) ≤ rank (array i) := by
  have hchd := heapParent_eq hps hpr
  have hlf : P (array (2 * index + 1)) := hmb _ (by omega) (by omega)
  unfold trickleWhich
  split
  next hrgt =>
    have hPright := hmb _ hrgt.1 (by omega)
    have hlt := (hrk.gt hlf hPright).mp hrgt.2
    rcases hchd with rfl | rfl
    · exact hlt.le
    · exact le_rfl
  next hrgt =>
    rcases hchd with rfl | rfl
    · exact le_rfl
    · have hPright := hmb _ hi (by omega)
      by_contra hgt
      exact hrgt ⟨hi, (hrk.gt hlf hPright).mpr (Nat.lt_of_not_le hgt)⟩

theorem trickleDownLoop_arranged
    (htk : Tracks update key pos) (tmp : α) (index : Nat) (array : Nat → α) (s : σ)
    (hm : Moving P key pos (Function.update array index tmp) n index s)
    (hd : DownOrdered (rank ∘ Function.update array index tmp) n index) :
    Arranged rank key pos (Function.update array index tmp) n s
      (trickleDownLoop cmp update n tmp index array s).1
      (trickleDownLoop cmp update n tmp index array s).2 := by
  induction hk : n - index using Nat.strongRecOn generalizing index array s with
  | ind k ih =>
    have htmp : Function.update array index tmp index = tmp := by simp
    have hoff {i} (hne : i ≠ index) :
        Function.update array index tmp i = array i :=
      update_of_ne hne _ _
    have hPtmp := hm.member index hm.lt
    rw [htmp] at hPtmp
    have hmb {i} (hi : i < n) (hne : i ≠ index) : P (array i) := by
      rw [← hoff hne]
      exact hm.member i hi
    have hfin (hbot : ∀ i, 0 < i → i < n → heapParent i = index → rank tmp ≤ rank (array i)) :
        Arranged rank key pos (Function.update array index tmp) n s
          (Function.update array index tmp) (update tmp index s) := by
      have hdn := hm.finish htk (hd.finish fun i hps hi hpr => by
        have hlt := heapParent_lt hps
        simp only [comp_apply, htmp, hoff (show i ≠ index by omega)]
        exact hbot i hps hi hpr)
      rwa [htmp] at hdn
    rw [trickleDownLoop]
    split
    next hchd =>
      have hcas := trickleWhich_cases cmp array n index
      have hpr : heapParent (trickleWhich cmp array n index) = index := by
        rcases hcas with heq | ⟨heq, -⟩
        · rw [heq, heapParent_left]
        · rw [heq, heapParent_right]
      have hlst {i} (hps : 0 < i) (hi : i < n) (hi' : heapParent i = index) :=
        trickleWhich_le hrk (fun j hj hlt => hmb hj hlt.ne') hi hps hi'
      have hgt := trickleWhich_gt cmp array n index
      generalize hwhich : trickleWhich cmp array n index = which at *
      have hwn : which < n := by omega
      have hPw := hmb hwn hgt.ne'
      dsimp only
      split
      next hsp =>
        have hlt := (hrk.gt hPw hPtmp).mp hsp
        exact hfin fun i hps hi hi' => hlt.le.trans (hlst hps hi hi')
      next hgo =>
        have hle : rank (array which) ≤ rank tmp := by
          by_contra hlt
          exact hgo ((hrk.gt hPw hPtmp).mpr (Nat.lt_of_not_le hlt))
        have hswap := update_update_eq_swap array tmp hgt.ne'
        have hm' := hm.step htk hwn hgt.ne'
        have hd' := hd.step hwn (Nat.zero_lt_of_lt hgt) hpr
          (by simpa only [comp_apply, htmp, hoff hgt.ne'] using hle)
          (fun i hps hi hi' => by
            have := heapParent_lt hps
            simpa only [comp_apply, hoff hgt.ne',
              hoff (show i ≠ index by omega)] using hlst hps hi hi')
        rw [hoff hgt.ne'] at hm'
        rw [comp_assoc] at hd'
        rw [← hswap] at hm' hd'
        refine Arranged.of_swap htk hm.lt hwn ?_
        rw [hoff hgt.ne', ← hswap]
        exact ih (n - which) (by omega) _ _ _ hm' hd' rfl
    next hleaf =>
      refine hfin fun i hps hi hpr => ?_
      have := heapParent_eq hps hpr
      omega

end

/-! ## The operations -/

/-- A queue between operations. -/
structure PQueue.Ok (P : α → Prop) (rank : α → Nat) (key : α → κ)
    (pos : σ → κ → Int) (q : PQueue α) (s : σ) : Prop where
  member : ∀ i < q.size, P (q.array i)
  ordered : HeapOrdered (rank ∘ q.array) q.size
  placed : ∀ i < q.size, pos s (key (q.array i)) = i

variable {q : PQueue α}

omit [DecidableEq κ] in
/-- Only the entries in the queue matter. -/
theorem PQueue.Ok.congr {P' : α → Prop} {rank' : α → Nat} {key' : α → κ}
    (hq : q.Ok P rank key pos s) (h : ∀ x, Holds q.array q.size x →
      P' x ∧ rank' x = rank x ∧ key' x = key x) : q.Ok P' rank' key' pos s where
  member := fun i hi => (h _ ⟨i, hi, rfl⟩).1
  ordered := by
    intro i hps hi
    have hprt := h _ ⟨_, (heapParent_lt hps).trans hi, rfl⟩
    simp only [comp_apply, hprt.2.1, (h _ ⟨i, hi, rfl⟩).2.1]
    exact hq.ordered i hps hi
  placed := by
    intro i hi
    rw [(h _ ⟨i, hi, rfl⟩).2.2]
    exact hq.placed i hi

omit [DecidableEq κ] in
theorem placed_inj (hpld : ∀ i < n, pos s (key (array i)) = i) :
    ∀ i < n, ∀ j < n, key (array i) = key (array j) → i = j := by
  intro i hi j hj heq
  have hps := hpld i hi
  rw [heq, hpld j hj] at hps
  exact (Int.ofNat_inj.mp hps).symm

omit [DecidableEq κ] in
theorem Arranged.ok (ha : Arranged rank key pos array n s array' s') (hmb : ∀ i < n, P (array i)) :
    PQueue.Ok P rank key pos ⟨array', n⟩ s' where
  member := by
    intro i hi
    obtain ⟨j, hj, heq⟩ := (ha.holds (array' i)).mp ⟨i, hi, rfl⟩
    show P (array' i)
    exact heq ▸ hmb j hj
  ordered := ha.ordered
  placed := ha.placed

/-- `trickle_up` of an entry that may belong further up. -/
theorem trickleUp_ok (hrk : Ranks cmp P rank)
    (htk : Tracks update key pos) {index : Nat} (hix : index < n)
    (hmb : ∀ i < n, P (q.array i)) (hpld : ∀ i < n, pos s (key (q.array i)) = i)
    (hu : UpOrdered (rank ∘ q.array) n index) :
    ∃ array' s', trickleUp cmp update index q s = (⟨array', q.size⟩, s')
      ∧ Arranged rank key pos q.array n s array' s' := by
  have hsf : Function.update q.array index (q.array index) = q.array := update_eq_self index q.array
  have hm : Moving P key pos (Function.update q.array index (q.array index)) n index s := by
    rw [hsf]
    exact ⟨hix, hmb, placed_inj hpld, fun i hi _ => hpld i hi⟩
  have ha := trickleUpLoop_arranged hrk htk (q.array index) index q.array s hm (hsf.symm ▸ hu)
  rw [hsf] at ha
  exact ⟨_, _, rfl, ha⟩

theorem pqueueEnqueue_ok (hrk : Ranks cmp P rank)
    (htk : Tracks update key pos) (hq : q.Ok P rank key pos s) {x : α}
    (hx : P x) (hn : ∀ i < q.size, key (q.array i) ≠ key x) :
    ∃ q' s', pqueueEnqueue cmp update x q s = (q', s')
      ∧ q'.Ok P rank key pos s' ∧ q'.size = q.size + 1
      ∧ (∀ y, Holds q'.array q'.size y ↔ y = x ∨ Holds q.array q.size y)
      ∧ ∀ k, k ≠ key x → (∀ i < q.size, key (q.array i) ≠ k) → pos s' k = pos s k := by
  have hold {i} (hi : i < q.size) :
      Function.update q.array q.size x i = q.array i :=
    update_of_ne hi.ne _ _
  have hla : Function.update q.array q.size x q.size = x := by simp
  have hmb : ∀ i < q.size + 1, P (Function.update q.array q.size x i) := by
    intro i hi
    rcases Nat.lt_succ_iff_lt_or_eq.mp hi with hlt | rfl
    · rw [hold hlt]
      exact hq.member i hlt
    · rwa [hla]
  have hpld : ∀ i < q.size + 1, pos (update x q.size s)
      (key (Function.update q.array q.size x i)) = i := by
    intro i hi
    rw [htk]
    rcases Nat.lt_succ_iff_lt_or_eq.mp hi with hlt | rfl
    · rw [hold hlt, if_neg (hn i hlt)]
      exact hq.placed i hlt
    · rw [hla, if_pos rfl]
  have hu : UpOrdered (rank ∘ Function.update q.array q.size x) (q.size + 1) q.size := by
    refine ⟨fun i hps hi hne => ?_, fun i hps hi hpr => ?_⟩
    · have hlt : i < q.size := by omega
      have hprt := heapParent_lt hps
      simp only [comp_apply, hold hlt, hold (hprt.trans hlt)]
      exact hq.ordered i hps hlt
    · have hprt := heapParent_lt hps
      omega
  obtain ⟨array', s', hr, ha⟩ := trickleUp_ok hrk htk
    (q := ⟨Function.update q.array q.size x, q.size⟩) (Nat.lt_succ_self q.size) hmb hpld hu
  have hhd (y : α) : Holds (Function.update q.array q.size x) (q.size + 1) y
      ↔ y = x ∨ Holds q.array q.size y := by
    constructor
    · rintro ⟨i, hi, rfl⟩
      rcases Nat.lt_succ_iff_lt_or_eq.mp hi with hlt | rfl
      · exact .inr ⟨i, hlt, (hold hlt).symm⟩
      · exact .inl hla
    · rintro (rfl | ⟨i, hi, rfl⟩)
      · exact ⟨q.size, Nat.lt_succ_self _, hla⟩
      · exact ⟨i, Nat.lt_succ_of_lt hi, hold hi⟩
  refine ⟨⟨array', q.size + 1⟩, s', ?_, ha.ok hmb, rfl,
    fun y => (ha.holds y).trans (hhd y), fun k hk hne => ?_⟩
  · rw [pqueueEnqueue, hr]
  · rw [ha.frame k, htk, if_neg hk]
    intro i hi
    rcases Nat.lt_succ_iff_lt_or_eq.mp hi with hlt | rfl
    · simp only [hold hlt]
      exact hne i hlt
    · simp only [hla]
      exact hk.symm

/-- The array of which the first entry is taken and replaced by the
last. -/
def firstTaken (array : Nat → α) (n : Nat) : Nat → α :=
  Function.update array 0 (array n)

theorem firstTaken_pos {i : Nat} (h : 0 < i) : firstTaken array n i = array i :=
  update_of_ne h.ne' _ _

theorem firstTaken_zero : firstTaken array n 0 = array n := by
  simp [firstTaken]

/-- Each entry left is one of the old ones, but not the first. -/
theorem firstTaken_eq (array : Nat → α) {i : Nat} (hi : i < n) :
    ∃ j, 0 < j ∧ j < n + 1 ∧ firstTaken array n i = array j ∧ (i = 0 ∧ j = n ∨ 0 < i ∧ j = i) := by
  rcases Nat.eq_zero_or_pos i with rfl | hps
  · exact ⟨n, hi, Nat.lt_succ_self n, firstTaken_zero, .inl ⟨rfl, rfl⟩⟩
  · exact ⟨i, hps, Nat.lt_succ_of_lt hi, firstTaken_pos hps, .inr ⟨hps, rfl⟩⟩

theorem holds_firstTaken (x : α) :
    Holds array (n + 1) x ↔ x = array 0 ∨ Holds (firstTaken array n) n x := by
  constructor
  · rintro ⟨i, hi, rfl⟩
    rcases Nat.eq_zero_or_pos i with rfl | hps
    · exact .inl rfl
    · rcases Nat.lt_succ_iff_lt_or_eq.mp hi with hlt | rfl
      · exact .inr ⟨i, hlt, firstTaken_pos hps⟩
      · exact .inr ⟨0, hps, firstTaken_zero⟩
  · rintro (rfl | ⟨i, hi, rfl⟩)
    · exact ⟨0, Nat.succ_pos n, rfl⟩
    · obtain ⟨j, -, hj, heq, -⟩ := firstTaken_eq array hi
      exact ⟨j, hj, heq.symm⟩

omit [DecidableEq κ] in
theorem firstTaken_moving (hps : 0 < n) (hq : PQueue.Ok P rank key pos ⟨array, n + 1⟩ s) :
    Moving P key pos (firstTaken array n) n 0 s where
  lt := hps
  member := by
    intro i hi
    obtain ⟨j, -, hj, heq, -⟩ := firstTaken_eq array hi
    exact heq ▸ hq.member j hj
  inj := by
    intro i hi j hj heq
    obtain ⟨i', -, hi', hieq, hicase⟩ := firstTaken_eq array hi
    obtain ⟨j', -, hj', hjeq, hjcase⟩ := firstTaken_eq array hj
    rw [hieq, hjeq] at heq
    have := placed_inj hq.placed i' hi' j' hj' heq
    omega
  placed := by
    intro i hi hne
    rw [firstTaken_pos (Nat.pos_of_ne_zero hne)]
    exact hq.placed i (Nat.lt_succ_of_lt hi)

theorem firstTaken_downOrdered (ho : HeapOrdered (rank ∘ array) (n + 1)) :
    DownOrdered (rank ∘ firstTaken array n) n 0 where
  others := by
    intro i hps hi hpr
    simp only [comp_apply, firstTaken_pos hps, firstTaken_pos (Nat.pos_of_ne_zero hpr)]
    exact ho i hps (Nat.lt_succ_of_lt hi)
  below := fun _ _ _ _ hlt => absurd hlt (Nat.lt_irrefl 0)

theorem pqueueDequeue_ok (hrk : Ranks cmp P rank)
    (htk : Tracks update key pos) (hq : q.Ok P rank key pos s) (hsize : 0 < q.size) :
    ∃ q' s', pqueueDequeue cmp update q s = (q.array 0, q', s')
      ∧ q'.Ok P rank key pos s' ∧ q'.size + 1 = q.size
      ∧ (∀ y, Holds q.array q.size y ↔ y = q.array 0 ∨ Holds q'.array q'.size y)
      ∧ (∀ y, Holds q'.array q'.size y → key y ≠ key (q.array 0))
      ∧ (∀ y, Holds q.array q.size y → rank (q.array 0) ≤ rank y)
      ∧ ∀ k, (∀ i < q.size, key (q.array i) ≠ k) → pos s' k = pos s k := by
  obtain ⟨array, _ | n⟩ := q
  · exact absurd hsize (Nat.lt_irrefl 0)
  have hlst : ∀ y, Holds array (n + 1) y → rank (array 0) ≤ rank y := by
    rintro y ⟨i, hi, rfl⟩
    exact hq.ordered.first_le hi
  have hoth : ∀ y, Holds (firstTaken array n) n y → key y ≠ key (array 0) := by
    rintro y ⟨i, hi, rfl⟩ heq
    obtain ⟨j, hjpos, hj, hjeq, -⟩ := firstTaken_eq array hi
    rw [hjeq] at heq
    have := placed_inj hq.placed j hj 0 hsize heq
    omega
  have hsf : Function.update (firstTaken array n) 0 (array n) = firstTaken array n := by
    simp [firstTaken]
  rcases Nat.eq_zero_or_pos n with rfl | hps
  · refine ⟨⟨Function.update (firstTaken array 0) 0 (array 0), 0⟩,
      update (array 0) 0 s, ?_, ⟨?_, ?_, ?_⟩, rfl, ?_, ?_, hlst, ?_⟩
    · simp [pqueueDequeue, trickleDown, trickleDownLoop, firstTaken]
    · exact fun i hi => absurd hi (Nat.not_lt_zero i)
    · exact fun i _ hi => absurd hi (Nat.not_lt_zero i)
    · exact fun i hi => absurd hi (Nat.not_lt_zero i)
    · rw [hsf]
      exact holds_firstTaken
    · rwa [hsf]
    · intro k hk
      rw [htk, if_neg (hk 0 hsize).symm]
  · have hm := firstTaken_moving hps hq
    have ha := trickleDownLoop_arranged hrk htk (array n) 0
      (firstTaken array n) s (hsf.symm ▸ hm) (hsf.symm ▸ firstTaken_downOrdered hq.ordered)
    rw [hsf] at ha
    refine ⟨⟨_, n⟩, _, ?_, ha.ok hm.member, rfl, fun y => ?_, fun y hy => ?_,
      hlst, fun k hk => ha.frame k fun i hi => ?_⟩
    · simp [pqueueDequeue, trickleDown, firstTaken]
    · rw [holds_firstTaken, ha.holds]
    · exact hoth y ((ha.holds y).mp hy)
    · obtain ⟨j, -, hj, hjeq, -⟩ := firstTaken_eq array hi
      exact hjeq ▸ hk j hj

end SdnQuagga
