import Mathlib.Logic.Basic

/-!
# Stateful computations that can fault

C code as a state transformer that may leave defined behaviour. A
`Fault` is what the source does not recover from; an error the source
handles is an ordinary result. `Ensures` is total correctness: from
every state with the precondition the computation ends without a fault
in a state with the postcondition.
-/

namespace SdnQuagga

/-- How a process leaves defined behaviour. -/
inductive Fault where
  /-- a failed `assert`, the process aborts -/
  | assertion
  /-- memory outside the addressed object is read or written -/
  | outOfBounds
  /-- a null pointer is dereferenced -/
  | nullDeref
  /-- a loop of the model has used up its bound; each function with such
  a loop is shown never to end this way -/
  | loopBound
deriving DecidableEq, Repr

abbrev FaultM (σ : Type) := StateT σ (Except Fault)

namespace FaultM

variable {σ α β : Type}

/-! ## Running a sequence -/

variable {s : σ} {a : α} {c : Prop} {f : α → FaultM σ β} {m : FaultM σ α}

theorem bind_ok {s' : σ} (h : m s = .ok (a, s')) : (m >>= f) s = f a s' := by
  show (m s >>= fun r => f r.1 r.2) = f a s'
  rw [h]
  rfl

theorem bind_error {e : Fault} (h : m s = .error e) : (m >>= f) s = .error e := by
  show (m s >>= fun r => f r.1 r.2) = .error e
  rw [h]
  rfl

theorem get_bind (f : σ → FaultM σ β) (s : σ) : (get >>= f) s = f s s := rfl

theorem modify_bind (g : σ → σ) (f : Unit → FaultM σ β) (s : σ) :
    ((modify g : FaultM σ Unit) >>= f) s = f () (g s) := rfl

theorem pure_apply (a : α) (s : σ) : (pure a : FaultM σ α) s = .ok (a, s) := rfl

theorem forM_cons_ok {f : α → FaultM σ Unit} {as : List α} {s' : σ} (h : f a s = .ok ((), s')) :
    (a :: as).forM f s = as.forM f s' :=
  bind_ok h

/-- A sequence that ends well went through a state in between. -/
theorem bind_eq_ok {s'' : σ} {b : β} (h : (m >>= f) s = .ok (b, s'')) :
    ∃ a s', m s = .ok (a, s') ∧ f a s' = .ok (b, s'') := by
  cases hm : m s with
  | error e =>
    rw [bind_error hm] at h
    cases h
  | ok r =>
    obtain ⟨a, s'⟩ := r
    rw [bind_ok hm] at h
    exact ⟨a, s', rfl, h⟩

/-- A statement under `if` without `else`. -/
def when (c : Prop) [Decidable c] (m : FaultM σ Unit) : FaultM σ Unit :=
  if c then m else pure ()

/-- `assert`. -/
def check (c : Prop) [Decidable c] : FaultM σ Unit :=
  if c then pure () else throw .assertion

/-- The computation comes to its end. -/
def Ends (m : FaultM σ α) (s : σ) : Prop := ∃ a s', m s = .ok (a, s')

theorem ends_pure (a : α) (s : σ) : Ends (pure a : FaultM σ α) s := ⟨a, s, rfl⟩

theorem ends_modify (g : σ → σ) (s : σ) : Ends (modify g : FaultM σ Unit) s := ⟨(), g s, rfl⟩

theorem not_ends_error {e : Fault} (h : m s = .error e) : ¬ Ends m s := by
  rintro ⟨a, s', hok⟩
  rw [h] at hok
  cases hok

theorem ends_bind : Ends (m >>= f) s ↔ ∃ a s', m s = .ok (a, s') ∧ Ends (f a) s' := by
  constructor
  · rintro ⟨b, s'', h⟩
    obtain ⟨a, s', hm, hf⟩ := bind_eq_ok h
    exact ⟨a, s', hm, b, s'', hf⟩
  · rintro ⟨a, s', hm, b, s'', hf⟩
    exact ⟨b, s'', (bind_ok hm).trans hf⟩

variable {m1 m2 : FaultM σ α}

theorem ends_ite [Decidable c] (h1 : Ends m1 s)
    (h2 : Ends m2 s) : Ends (if c then m1 else m2) s := by
  by_cases h : c
  · rwa [if_pos h]
  · rwa [if_neg h]

theorem ends_ite_iff {P1 P2 : Prop} [Decidable c] (h1 : Ends m1 s ↔ P1) (h2 : Ends m2 s ↔ P2) :
    Ends (if c then m1 else m2) s ↔ if c then P1 else P2 := by
  by_cases h : c
  · rwa [if_pos h, if_pos h]
  · rwa [if_neg h, if_neg h]

theorem ends_when [Decidable c] {m : FaultM σ Unit} : Ends (when c m) s ↔ (c → Ends m s) := by
  unfold when
  by_cases h : c
  · rw [if_pos h]
    exact ⟨fun hm _ => hm, fun hm => hm h⟩
  · rw [if_neg h]
    exact iff_of_true (ends_pure () s) fun hc => (h hc).elim

/-- A computation on an object of its own. -/
def on {τ : Type} (m : FaultM τ α) (t : τ) : FaultM σ (α × τ) := fun s =>
  match m t with
  | .ok r => .ok (r, s)
  | .error e => .error e

theorem on_bind_ok {τ : Type} {m : FaultM τ α} {f : α × τ → FaultM σ β} {t t' : τ}
    (h : m t = .ok (a, t')) : (on m t >>= f) s = f (a, t') s :=
  bind_ok (by rw [on, h])

/-! ## Loops -/

/-- `while (c) { if (turn fails) return }`, at most `bound` turns; `true`
when the loop ends by its condition. -/
def whileTurns (c : σ → Bool) (turn : FaultM σ Bool) : Nat → FaultM σ Bool
  | 0 => do if c (← get) then throw .loopBound else return true
  | bound + 1 => do
    if c (← get) then
      if ← turn then whileTurns c turn bound else return false
    else return true

section

variable {c : σ → Bool} {turn : FaultM σ Bool} {s s' : σ}

theorem whileTurns_done (h : c s = false) (bound : Nat) :
    whileTurns c turn bound s = .ok (true, s) := by
  cases bound with
  | zero | succ bound =>
    rw [whileTurns, get_bind, h]
    rfl

theorem whileTurns_next (h : c s = true) (htn : turn s = .ok (true, s')) (bound : Nat) :
    whileTurns c turn (bound + 1) s = whileTurns c turn bound s' := by
  rw [whileTurns, get_bind, h, if_pos rfl, bind_ok htn]
  rfl

theorem whileTurns_stop (h : c s = true) (htn : turn s = .ok (false, s'))
    (bound : Nat) : whileTurns c turn (bound + 1) s = .ok (false, s') := by
  rw [whileTurns, get_bind, h, if_pos rfl, bind_ok htn]
  rfl

end

/-! ## Total correctness -/

/-- From `P` the computation ends without a fault, in `Q`. -/
def Ensures (P : σ → Prop) (m : FaultM σ α) (Q : α → σ → Prop) : Prop :=
  ∀ s, P s → ∃ a s', m s = .ok (a, s') ∧ Q a s'

variable {P P' : σ → Prop} {Q Q' : α → σ → Prop} {R : β → σ → Prop} {m : FaultM σ α} {c : Prop}
  {f : α → FaultM σ β}

theorem Ensures.bind (hm : Ensures P m Q) (hf : ∀ a, Ensures (Q a) (f a) R) :
    Ensures P (m >>= f) R := by
  intro s hs
  obtain ⟨a, s', hr, hq⟩ := hm s hs
  rw [bind_ok hr]
  exact hf a s' hq

theorem Ensures.pure (a : α) (h : ∀ s, P s → Q a s) : Ensures P (pure a : FaultM σ α) Q :=
  fun s hs => ⟨a, s, rfl, h s hs⟩

theorem Ensures.modify {Q : Unit → σ → Prop} {f : σ → σ} (h : ∀ s, P s → Q () (f s)) :
    Ensures P (modify f : FaultM σ Unit) Q :=
  fun s hs => ⟨(), f s, rfl, h s hs⟩

/-- Reading the state fixes it for what follows. -/
theorem Ensures.get_bind {f : σ → FaultM σ β} (h : ∀ s, P s → Ensures (· = s) (f s) R) :
    Ensures P (get >>= f) R :=
  fun s hs => h s hs s rfl

theorem Ensures.weaken (hm : Ensures P' m Q')
    (hpre : ∀ s, P s → P' s) (hpost : ∀ a s, Q' a s → Q a s) : Ensures P m Q := by
  intro s hs
  obtain ⟨a, s', hr, hq⟩ := hm s (hpre s hs)
  exact ⟨a, s', hr, hpost a s' hq⟩

/-- A part of the precondition that is not about the state. -/
theorem Ensures.assume {p : Prop} (h : p → Ensures P m Q) : Ensures (fun s => p ∧ P s) m Q :=
  fun s hs => h hs.1 s hs.2

theorem Ensures.ite [Decidable c] {n : FaultM σ α}
    (hm : c → Ensures P m Q) (hn : ¬ c → Ensures P n Q) : Ensures P (if c then m else n) Q := by
  split
  · exact hm ‹c›
  · exact hn ‹¬ c›

theorem Ensures.when [Decidable c] {m : FaultM σ Unit}
    {Q : Unit → σ → Prop} (hm : c → Ensures P m Q) (hn : ¬ c → ∀ s, P s → Q () s) :
    Ensures P (when c m) Q :=
  .ite hm fun hc => .pure () (hn hc)

theorem Ensures.check [Decidable c] (hc : c) : Ensures P (check c) fun _ => P := by
  rw [FaultM.check, if_pos hc]
  exact .pure () fun _ => id

/-! ## Partial correctness -/

/-- If the computation ends without a fault from `P`, it ends in `Q`. -/
def Yields (P : σ → Prop) (m : FaultM σ α) (Q : α → σ → Prop) : Prop :=
  ∀ s a s', P s → m s = .ok (a, s') → Q a s'

section

variable {m : FaultM σ α} {c : Prop}

theorem Yields.bind (hm : Yields P m Q)
    (hf : ∀ a, Yields (Q a) (f a) R) : Yields P (m >>= f) R := by
  intro s b s'' hs h
  obtain ⟨a, s', hr, hrs⟩ := bind_eq_ok h
  exact hf a s' b s'' (hm s a s' hs hr) hrs

theorem Yields.pure (a : α) (h : ∀ s, P s → Q a s) : Yields P (pure a : FaultM σ α) Q := by
  intro s b s' hs hr
  cases hr
  exact h s hs

theorem Yields.throw (e : Fault) : Yields P (throw e : FaultM σ α) Q := by
  intro s b s' hs hr
  cases hr

theorem Yields.modify {Q : Unit → σ → Prop} {f : σ → σ} (h : ∀ s, P s → Q () (f s)) :
    Yields P (modify f : FaultM σ Unit) Q := by
  intro s b s' hs hr
  cases hr
  exact h s hs

theorem Yields.get_bind {f : σ → FaultM σ β}
    (h : ∀ s, P s → Yields (fun s' => s' = s ∧ P s') (f s) R) : Yields P (get >>= f) R :=
  fun s b s' hs hr => h s hs s b s' ⟨rfl, hs⟩ hr

theorem Yields.weaken (hm : Yields P' m Q')
    (hpre : ∀ s, P s → P' s) (hpost : ∀ a s, Q' a s → Q a s) : Yields P m Q :=
  fun s a s' hs hr => hpost a s' (hm s a s' (hpre s hs) hr)

theorem Yields.and (hm : Yields P m Q) (hm' : Yields P' m Q') :
    Yields (fun s => P s ∧ P' s) m fun a s => Q a s ∧ Q' a s :=
  fun s a s' hs hr => ⟨hm s a s' hs.1 hr, hm' s a s' hs.2 hr⟩

theorem Yields.assume {p : Prop} (h : p → Yields P m Q) : Yields (fun s => p ∧ P s) m Q :=
  fun s a s' hs => h hs.1 s a s' hs.2

theorem Yields.of_exists {ι : Sort*} {P : ι → σ → Prop}
    (h : ∀ i, Yields (P i) m Q) : Yields (fun s => ∃ i, P i s) m Q :=
  fun s a s' ⟨i, hs⟩ hr => h i s a s' hs hr

theorem Yields.ite [Decidable c] {n : FaultM σ α}
    (hm : c → Yields P m Q) (hn : ¬ c → Yields P n Q) : Yields P (if c then m else n) Q := by
  split
  · exact hm ‹c›
  · exact hn ‹¬ c›

theorem Yields.when [Decidable c] {m : FaultM σ Unit}
    {Q : Unit → σ → Prop} (hm : c → Yields P m Q) (hn : ¬ c → ∀ s, P s → Q () s) :
    Yields P (when c m) Q :=
  .ite hm fun hc => .pure () (hn hc)

theorem Yields.check [Decidable c] : Yields P (check c) fun _ s => c ∧ P s :=
  .ite (fun hc => .pure () fun _ hs => ⟨hc, hs⟩) fun _ => .throw _

end

/-! ## Frame conditions -/

/-- Whenever the computation ends without a fault, `φ` is what it was. -/
def Preserves {γ : Type} (φ : σ → γ) (m : FaultM σ α) : Prop :=
  ∀ s a s', m s = .ok (a, s') → φ s' = φ s

section

variable {γ : Type} {φ : σ → γ}

theorem Preserves.pure (a : α) : Preserves φ (pure a : FaultM σ α) := by
  intro s b s' h
  cases h
  rfl

theorem Preserves.throw (e : Fault) : Preserves φ (throw e : FaultM σ α) := by
  intro s b s' h
  cases h

theorem Preserves.get : Preserves φ (get : FaultM σ σ) := by
  intro s b s' h
  cases h
  rfl

theorem Preserves.modify {f : σ → σ} (hf : ∀ s, φ (f s) = φ s) :
    Preserves φ (modify f : FaultM σ Unit) := by
  intro s b s' h
  cases h
  exact hf s

theorem Preserves.bind {m : FaultM σ α}
    (hm : Preserves φ m) (hf : ∀ a, Preserves φ (f a)) : Preserves φ (m >>= f) := by
  intro s b s'' h
  obtain ⟨a, s', hr, hrs⟩ := bind_eq_ok h
  rw [hf a s' b s'' hrs, hm s a s' hr]

theorem Preserves.ite {c : Prop} [Decidable c] {m n : FaultM σ α}
    (hm : Preserves φ m) (hn : Preserves φ n) : Preserves φ (if c then m else n) := by
  split
  · exact hm
  · exact hn

theorem Preserves.when {c : Prop} [Decidable c] {m : FaultM σ Unit}
    (hm : Preserves φ m) : Preserves φ (when c m) :=
  .ite hm (.pure ())

theorem Preserves.whileTurns {c : σ → Bool} {turn : FaultM σ Bool}
    (h : Preserves φ turn) (bound : Nat) : Preserves φ (whileTurns c turn bound) := by
  induction bound with
  | zero => exact Preserves.get.bind fun s => .ite (.throw _) (.pure _)
  | succ bound ih =>
    exact Preserves.get.bind fun s => .ite (h.bind fun b =>
      .ite ih (.pure _)) (.pure _)

end

/-! ## Results -/

/-- Whenever the computation ends without a fault, its result is in `P`. -/
def Returns (P : α → Prop) (m : FaultM σ α) : Prop :=
  ∀ s a s', m s = .ok (a, s') → P a

section

variable {P : α → Prop}

theorem Returns.pure {a : α} (h : P a) : Returns P (pure a : FaultM σ α) := by
  intro s b s' hr
  cases hr
  exact h

theorem Returns.bind {m : FaultM σ β} {f : β → FaultM σ α}
    (hf : ∀ b, Returns P (f b)) : Returns P (m >>= f) := by
  intro s a s'' hr
  obtain ⟨b, s', -, hrs⟩ := bind_eq_ok hr
  exact hf b s' a s'' hrs

theorem Returns.ite {c : Prop} [Decidable c] {m n : FaultM σ α}
    (hm : Returns P m) (hn : Returns P n) : Returns P (if c then m else n) := by
  split
  · exact hm
  · exact hn

end

/-! ## Records that only grow -/

/-- Whenever the computation ends without a fault, `φ` is longer or the
same. -/
def Grows {γ : Type} (φ : σ → List γ) (m : FaultM σ α) : Prop :=
  ∀ s a s', m s = .ok (a, s') → φ s <+: φ s'

section

variable {γ : Type} {φ : σ → List γ}

theorem Preserves.grows {m : FaultM σ α} (h : Preserves φ m) : Grows φ m := by
  intro s a s' hr
  have hsm := h s a s' hr
  exact hsm ▸ List.prefix_refl _

theorem Grows.modify {f : σ → σ} (hf : ∀ s, φ s <+: φ (f s)) :
    Grows φ (modify f : FaultM σ Unit) := by
  intro s b s' h
  cases h
  exact hf s

theorem Grows.bind {m : FaultM σ α}
    (hm : Grows φ m) (hf : ∀ a, Grows φ (f a)) : Grows φ (m >>= f) := by
  intro s b s'' h
  obtain ⟨a, s', hr, hrs⟩ := bind_eq_ok h
  exact (hm s a s' hr).trans (hf a s' b s'' hrs)

theorem Grows.ite {c : Prop} [Decidable c] {m n : FaultM σ α} (hm : Grows φ m) (hn : Grows φ n) :
    Grows φ (if c then m else n) := by
  split
  · exact hm
  · exact hn

theorem Grows.whileTurns {c : σ → Bool} {turn : FaultM σ Bool} (h : Grows φ turn) (bound : Nat) :
    Grows φ (whileTurns c turn bound) := by
  induction bound with
  | zero => exact (Preserves.get.bind fun s => .ite (.throw _) (.pure _)).grows
  | succ bound ih =>
    exact Preserves.get.grows.bind fun s => .ite (h.bind fun b =>
      .ite ih (Preserves.pure _).grows) (Preserves.pure _).grows

end

end FaultM

end SdnQuagga
