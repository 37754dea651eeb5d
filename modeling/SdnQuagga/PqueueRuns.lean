import SdnQuagga.Pqueue
import Mathlib.Data.Finset.Card
import Mathlib.Data.Finset.Prod

/-!
# Runs of a priority queue

Any operations on a queue that starts empty, for any comparison that is
a total preorder; the callback notes the index it is told. The entries
are pointers with one place each for that index, so an entry that is
queued again while it is in the queue has two indices and one note.
-/

namespace SdnQuagga

open List

structure TotalPreorder {α : Type} (cmp : α → α → Int) : Prop where
  swap : ∀ x y, cmp x y < 0 ↔ cmp y x > 0
  trans : ∀ x y z, cmp x y ≤ 0 → cmp y z ≤ 0 → cmp x z ≤ 0

/-- `entries` are those queued and not taken yet. -/
structure PQueueRun (α : Type) where
  queue : PQueue α
  index : α → Int
  entries : Multiset α

section

variable {α : Type} {cmp : α → α → Int} (hcmp : TotalPreorder cmp) {S : Finset α}

/-- How many of the entries come before `x`. -/
def rankIn (cmp : α → α → Int) (S : Finset α) (x : α) : Nat :=
  (S.filter fun y => cmp y x < 0).card

include hcmp

theorem rankIn_lt {x y : α} (hx : x ∈ S) : cmp x y < 0 ↔ rankIn cmp S x < rankIn cmp S y := by
  have hle {x y : α} (h : cmp x y ≤ 0) {z : α} (hz : cmp z x < 0) : cmp z y < 0 := by
    have := hcmp.trans x y z h
    grind [hcmp.swap z x, hcmp.swap z y]
  constructor
  · intro h
    refine Finset.card_lt_card ((Finset.ssubset_iff_of_subset ?_).mpr ⟨x, ?_⟩)
    · exact Finset.monotone_filter_right S fun z _ => hle h.le
    · grind [hcmp.swap x x]
  · contrapose!
    intro h
    refine Finset.card_le_card (Finset.monotone_filter_right S fun z _ => hle ?_)
    grind [hcmp.swap x y]

theorem ranks_rankIn : Ranks cmp (· ∈ S) (rankIn cmp S) where
  lt := fun hx _ => rankIn_lt hcmp hx
  gt := fun {x y} _ hy => (hcmp.swap y x).symm.trans (rankIn_lt hcmp hy)

variable [DecidableEq α] (cmp)

def noteIndex (x : α) (i : Nat) (index : α → Int) : α → Int :=
  Function.update index x i

/-- Queues an entry, or takes one unless there is none. -/
def pqueueOp (r : PQueueRun α) : Option α → PQueueRun α
  | some x =>
    let (queue, index) := pqueueEnqueue cmp noteIndex x r.queue r.index
    ⟨queue, index, x ::ₘ r.entries⟩
  | none =>
    if r.queue.size = 0 then r
    else
      let (x, queue, index) := pqueueDequeue cmp noteIndex r.queue r.index
      ⟨queue, index, r.entries.erase x⟩

/-- No entry is queued while it is in the queue. -/
def QueuedOnce : PQueueRun α → List (Option α) → Prop
  | _, [] => True
  | r, op :: ops => (∀ x ∈ op, x ∉ r.entries) ∧ QueuedOnce (pqueueOp cmp r op) ops

structure PQueueRun.Good (r : PQueueRun α) : Prop where
  ordered : ∀ i, 0 < i → i < r.queue.size →
    cmp (r.queue.array (heapParent i)) (r.queue.array i) ≤ 0
  entries : r.entries = (Multiset.range r.queue.size).map r.queue.array
  least : ∀ x ∈ r.entries, cmp (pqueueDequeue cmp noteIndex r.queue r.index).1 x ≤ 0

omit hcmp in
/-- The index last noted of an entry is its own. -/
def PQueueRun.Indexed (r : PQueueRun α) : Prop :=
  ∀ i < r.queue.size, r.index (r.queue.array i) = i

variable {cmp} {r : PQueueRun α}

omit hcmp in
theorem tracks_noteIndex : Tracks (noteIndex (α := α)) id fun s => s := by
  intro x i s k
  simp [noteIndex, Function.update_apply]

/-- What every operation keeps. -/
structure PQueueRun.Kept (cmp : α → α → Int) (S : Finset α) (r : PQueueRun α) : Prop where
  ok : r.queue.Ok (· ∈ S) (rankIn cmp S) id (fun s => s) r.index
  holds : ∀ x, Holds r.queue.array r.queue.size x ↔ x ∈ r.entries
  nodup : r.entries.Nodup

theorem PQueueRun.Kept.op (h : r.Kept cmp S) {op : Option α} (hS : ∀ x ∈ op, x ∈ S)
    (hnw : ∀ x ∈ op, x ∉ r.entries) : (pqueueOp cmp r op).Kept cmp S := by
  cases op with
  | some x =>
    have hx := hnw x rfl
    obtain ⟨q, s, hrn, hok, -, hho, -⟩ := pqueueEnqueue_ok (ranks_rankIn hcmp)
      tracks_noteIndex h.ok (hS x rfl) (fun i hi heq => hx ((h.holds x).mp ⟨i, hi, heq⟩))
    rw [pqueueOp, hrn]
    refine ⟨hok, fun y => ?_, Multiset.nodup_cons.mpr ⟨hx, h.nodup⟩⟩
    rw [hho, h.holds, Multiset.mem_cons]
  | none =>
    rw [pqueueOp]
    split
    · exact h
    next hsz =>
      obtain ⟨q, s, hrn, hok, -, hho, hne, -⟩ := pqueueDequeue_ok (ranks_rankIn hcmp)
        tracks_noteIndex h.ok (Nat.pos_of_ne_zero hsz)
      rw [hrn]
      refine ⟨hok, fun y => ?_, h.nodup.erase _⟩
      rw [h.nodup.mem_erase_iff, ← h.holds, hho]
      have := hne y
      simp only [id] at this
      tauto

theorem PQueueRun.Kept.good (h : r.Kept cmp S) : r.Good cmp := by
  have hle {i j} (hi : i < r.queue.size) (hj : j < r.queue.size)
      (hr : rankIn cmp S (r.queue.array i) ≤ rankIn cmp S (r.queue.array j)) :
      cmp (r.queue.array i) (r.queue.array j) ≤ 0 := by
    have hlt := (ranks_rankIn hcmp).gt (h.ok.member i hi) (h.ok.member j hj)
    omega
  refine ⟨fun i hpos hi => ?_, ?_, fun x hx => ?_⟩
  · exact hle ((heapParent_lt hpos).trans hi) hi (h.ok.ordered i hpos hi)
  · refine (h.nodup.ext (Multiset.Nodup.map_on ?_ (Multiset.nodup_range _))).mpr fun x => ?_
    · intro i hi j hj heq
      exact placed_inj h.ok.placed i (Multiset.mem_range.mp hi) j (Multiset.mem_range.mp hj) heq
    · rw [← h.holds]
      simp [Holds]
  · obtain ⟨i, hi, rfl⟩ := (h.holds x).mpr hx
    exact hle (by omega) hi (h.ok.ordered.first_le hi)

theorem PQueueRun.Kept.run {ops : List (Option α)} (h : r.Kept cmp S)
    (hS : ∀ op ∈ ops, ∀ x ∈ op, x ∈ S) (hon : QueuedOnce cmp r ops) :
    (ops.foldl (pqueueOp cmp) r).Kept cmp S := by
  induction ops generalizing r with
  | nil => exact h
  | cons op ops ih =>
    refine ih (h.op hcmp (hS op mem_cons_self) hon.1) (fun o ho => ?_) hon.2
    exact hS o (mem_cons_of_mem op ho)

end

/-! ## Entries queued twice

The order does not depend on what is noted, so a run is as one of entries that carry a tag, and
there no entry is queued twice. -/

section

variable {α β σ τ : Type} {cmp : α → α → Int} (f : β → α) {note : β → Nat → σ → σ}
  {note' : α → Nat → τ → τ} {q : PQueue β}

theorem TotalPreorder.comap (h : TotalPreorder cmp) : TotalPreorder fun x y => cmp (f x) (f y) :=
  ⟨fun x y => h.swap (f x) (f y), fun x y z => h.trans (f x) (f y) (f z)⟩

def PQueue.map (q : PQueue β) : PQueue α :=
  ⟨f ∘ q.array, q.size⟩

theorem trickleUpLoop_map (tmp : β) (index : Nat) (array : Nat → β) (s : σ) (t : τ) :
    (trickleUpLoop cmp note' (f tmp) index (f ∘ array) t).1
      = f ∘ (trickleUpLoop (fun x y => cmp (f x) (f y)) note tmp index array s).1 := by
  fun_induction trickleUpLoop (fun x y => cmp (f x) (f y)) note tmp index array s
    generalizing t with
  | case1 index array s hup ih =>
    rw [trickleUpLoop, Function.comp_apply, if_pos hup, ← ih, Function.comp_update]
  | case2 index array s hup =>
    rw [trickleUpLoop, Function.comp_apply, if_neg hup, Function.comp_update]

theorem trickleDownLoop_map (size : Nat) (tmp : β) (index : Nat) (array : Nat → β) (s : σ) (t : τ) :
    (trickleDownLoop cmp note' size (f tmp) index (f ∘ array) t).1
      = f ∘ (trickleDownLoop (fun x y => cmp (f x) (f y)) note size tmp index array s).1 := by
  fun_induction trickleDownLoop (fun x y => cmp (f x) (f y)) note size tmp index array s
    generalizing t with
  | case1 index array s hin which hgt =>
    rw [trickleDownLoop, if_pos hin, Function.comp_update]
    exact congrArg Prod.fst (if_pos hgt)
  | case2 index array s hin which hgt ih =>
    rw [trickleDownLoop, if_pos hin, ← ih, Function.comp_update]
    exact congrArg Prod.fst (if_neg hgt)
  | case3 index array s hin =>
    rw [trickleDownLoop, if_neg hin, Function.comp_update]

theorem pqueueEnqueue_map (x : β) (s : σ) (t : τ) :
    (pqueueEnqueue cmp note' (f x) (q.map f) t).1
      = (pqueueEnqueue (fun x y => cmp (f x) (f y)) note x q s).1.map f := by
  simp only [pqueueEnqueue, trickleUp, PQueue.map, ← Function.comp_update, Function.comp_apply]
  rw [trickleUpLoop_map]

theorem pqueueDequeue_map (s : σ) (t : τ) :
    (pqueueDequeue cmp note' (q.map f) t).2.1
      = (pqueueDequeue (fun x y => cmp (f x) (f y)) note q s).2.1.map f := by
  simp only [pqueueDequeue, trickleDown, PQueue.map, ← Function.comp_update, Function.comp_apply]
  rw [trickleDownLoop_map]

end

section

variable {α : Type} [DecidableEq α] {cmp : α → α → Int} (hcmp : TotalPreorder cmp)

/-- The run `r` is `t` without the tags. -/
structure Untagged (t : PQueueRun (α × Nat)) (r : PQueueRun α) : Prop where
  queue : r.queue = t.queue.map Prod.fst
  entries : r.entries = t.entries.map Prod.fst

variable {t : PQueueRun (α × Nat)} {r : PQueueRun α} {S : Finset (α × Nat)}

theorem Untagged.op (h : Untagged t r) (hk : t.Kept (fun x y => cmp x.1 y.1) S)
    (op : Option (α × Nat)) :
    Untagged (pqueueOp (fun x y => cmp x.1 y.1) t op) (pqueueOp cmp r (op.map Prod.fst)) := by
  obtain ⟨hq, he⟩ := h
  cases op with
  | some x =>
    refine ⟨?_, ?_⟩
    · rw [Option.map_some, pqueueOp, pqueueOp, hq]
      exact pqueueEnqueue_map Prod.fst x _ _
    · simp [pqueueOp, he]
  | none =>
    have hsize : r.queue.size = t.queue.size := congrArg PQueue.size hq
    rw [Option.map_none, pqueueOp, pqueueOp, hsize]
    split
    · exact ⟨hq, he⟩
    next hsz =>
      have hin := (hk.holds _).mp ⟨0, Nat.pos_of_ne_zero hsz, rfl⟩
      refine ⟨?_, ?_⟩
      · rw [hq]
        exact pqueueDequeue_map Prod.fst _ _
      · show r.entries.erase (r.queue.array 0) = (t.entries.erase (t.queue.array 0)).map Prod.fst
        rw [Multiset.map_erase_of_mem _ _ hin, he, hq]
        rfl

include hcmp

theorem Untagged.good (h : Untagged t r) (hk : t.Kept (fun x y => cmp x.1 y.1) S) :
    r.Good cmp := by
  obtain ⟨queue, index, entries⟩ := r
  obtain ⟨rfl, rfl⟩ := h
  have hgood := hk.good (hcmp.comap Prod.fst)
  refine ⟨hgood.ordered, ?_, fun x hx => ?_⟩
  · rw [hgood.entries, Multiset.map_map]
    rfl
  · obtain ⟨y, hy, rfl⟩ := Multiset.mem_map.mp hx
    exact hgood.least y hy

/-- The tag of an entry is the number of operations still to come. -/
theorem Untagged.run {ops : List (Option α)} (h : Untagged t r)
    (hk : t.Kept (fun x y => cmp x.1 y.1) S) (htag : ∀ y ∈ t.entries, ops.length < y.2)
    (hS : ∀ op ∈ ops, ∀ x ∈ op, ∀ k ≤ ops.length, (x, k) ∈ S) :
    (ops.foldl (pqueueOp cmp) r).Good cmp := by
  induction ops generalizing t r with
  | nil => exact h.good hcmp hk
  | cons op ops ih =>
    let tagged := op.map fun x => (x, ops.length + 1)
    have hop : tagged.map Prod.fst = op := by simp [tagged, Option.map_map, Function.comp_def]
    have h' := h.op hk tagged
    rw [hop] at h'
    refine ih h' (hk.op (hcmp.comap Prod.fst) (fun y hy => ?_) fun y hy hin => ?_) (fun y hy => ?_)
      fun o ho x hx k hkl => ?_
    · obtain ⟨x, hx, rfl⟩ := Option.map_eq_some_iff.mp hy
      exact hS op mem_cons_self x hx _ le_rfl
    · obtain ⟨x, -, rfl⟩ := Option.map_eq_some_iff.mp hy
      exact Nat.lt_irrefl _ (htag _ hin)
    · cases op with
      | some x =>
        obtain rfl | hy := Multiset.mem_cons.mp hy
        · exact Nat.lt_succ_self _
        · exact Nat.lt_of_succ_lt (htag y hy)
      | none =>
        refine Nat.lt_of_succ_lt (htag y ?_)
        simp only [tagged, Option.map_none, pqueueOp] at hy
        split at hy
        · exact hy
        · exact Multiset.mem_of_mem_erase hy
    · exact hS o (mem_cons_of_mem op ho) x hx k (Nat.le_succ_of_le hkl)

theorem pqueue_run_good (array : Nat → α) (index : α → Int) (ops : List (Option α)) :
    (ops.foldl (pqueueOp cmp) ⟨⟨array, 0⟩, index, 0⟩).Good cmp
      ∧ (QueuedOnce cmp ⟨⟨array, 0⟩, index, 0⟩ ops →
        (ops.foldl (pqueueOp cmp) ⟨⟨array, 0⟩, index, 0⟩).Indexed) := by
  have hin {β : Type} [DecidableEq β] (cmp : β → β → Int) (S : Finset β) (array index) :
      PQueueRun.Kept cmp S ⟨⟨array, 0⟩, index, 0⟩ :=
    ⟨⟨by simp, by simp [HeapOrdered], by simp⟩, by simp [Holds], Multiset.nodup_zero⟩
  let S := (ops.filterMap id).toFinset
  have hS : ∀ op ∈ ops, ∀ x ∈ op, x ∈ S := by
    intro op hop x hx
    simp only [S, mem_toFinset, mem_filterMap, id]
    exact ⟨op, hop, hx⟩
  refine ⟨?_, fun hon => ((hin cmp S array index).run hcmp hS hon).ok.placed⟩
  refine Untagged.run hcmp (t := ⟨⟨fun i => (array i, 0), 0⟩, fun _ => 0, 0⟩) ⟨rfl, rfl⟩
    (hin _ (S ×ˢ Finset.range (ops.length + 1)) _ _) (by simp) fun op hop x hx k hk => ?_
  exact Finset.mem_product.mpr ⟨hS op hop x hx, Finset.mem_range_succ_iff.mpr hk⟩

end

/-- Two entries are left in the queue. -/
theorem pqueue_run_good_two :
    let r := List.foldl (pqueueOp fun x y : Int => x - y) ⟨⟨fun _ => 0, 0⟩, fun _ => 0, 0⟩
      [some 2, some 1, none, some 3]
    r.Good (fun x y => x - y) ∧ r.queue.size = 2 ∧ r.Indexed := by
  have hcmp : TotalPreorder fun x y : Int => x - y := ⟨by omega, by omega⟩
  obtain ⟨hgood, hindex⟩ := pqueue_run_good hcmp (fun _ => 0) (fun _ => 0)
    [some 2, some 1, none, some 3]
  refine ⟨hgood, rfl, hindex ⟨by simp, by simp [pqueueOp], by simp, ?_, trivial⟩⟩
  intro x hx hin
  cases hx
  have hin : (3 : Int) ∈ 1 ::ₘ 2 ::ₘ 0 := Multiset.mem_of_mem_erase hin
  simp at hin

/-- An entry that is queued twice: its first index is not the one noted. -/
theorem pqueue_run_twice :
    let r := List.foldl (pqueueOp fun _ _ : Unit => 0) ⟨⟨fun _ => (), 0⟩, fun _ => 0, 0⟩
      [some (), some ()]
    ¬ r.Indexed := by
  intro r h
  have h0 := h 0
  simp [r, pqueueOp, pqueueEnqueue, trickleUp, trickleUpLoop, noteIndex] at h0

end SdnQuagga
