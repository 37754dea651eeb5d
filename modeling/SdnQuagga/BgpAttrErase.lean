import SdnQuagga.BgpAttrRefs

/-!
# The attribute parser without its references

The parser that counts references does, on the parse state, what the parser
without them does: it only stops more often, at a reference that is not
there.
-/

namespace SdnQuagga

open FaultM

section

variable {α β : Type}

/-- Where the counting computation ends, the other ends alike. -/
def Erases (m : RefM α) (n : ParseM α) : Prop :=
  ∀ st a st', m st = .ok (a, st') → n st.parse = .ok (a, st'.parse)

theorem Erases.pure (a : α) : Erases (pure a) (pure a) := by
  intro st b st' h
  cases h
  rfl

theorem Erases.inParse (n : ParseM α) : Erases (inParse n) n := by
  intro st a st' h
  unfold SdnQuagga.inParse at h
  cases hn : n st.parse with
  | error e =>
    rw [hn] at h
    cases h
  | ok r =>
    rw [hn] at h
    cases h
    rfl

theorem Erases.bind {m : RefM α} {n : ParseM α} {f : α → RefM β}
    {g : α → ParseM β} (hm : Erases m n) (hf : ∀ a, Erases (f a) (g a)) :
    Erases (m >>= f) (n >>= g) := by
  intro st b st'' h
  obtain ⟨a, st', hr, hrs⟩ := bind_eq_ok h
  exact (bind_ok (hm _ _ _ hr)).trans (hf a _ _ _ hrs)

/-- A computation on the tables only. -/
theorem Erases.silent {m : RefM Unit} {f : Unit → RefM β} {n : ParseM β}
    (hm : Preserves RefState.parse m) (hf : Erases (f ()) n) : Erases (m >>= f) n := by
  intro st b st'' h
  obtain ⟨_, st', hr, hrs⟩ := bind_eq_ok h
  rw [← hm _ _ _ hr]
  exact hf _ _ _ hrs

theorem Erases.get {f : RefState → RefM β} {g : ParseState → ParseM β}
    (hf : ∀ st, Erases (f st) (g st.parse)) : Erases (get >>= f) (get >>= g) := by
  intro st b st' h
  exact hf st _ _ _ h

theorem Erases.ite {c : Prop} [Decidable c] {m m' : RefM α} {n n' : ParseM α}
    (hm : Erases m n) (hm' : Erases m' n') :
    Erases (if c then m else m') (if c then n else n') := by
  split
  · exact hm
  · exact hm'

end

/-! ## The tables -/

theorem preserves_internIn {α : Type} [DecidableEq α] (slot : Slot α)
    (o : Option α) : Preserves RefState.parse (internIn slot o) :=
  .modify fun _ => rfl

theorem preserves_uninternIn {α : Type} [DecidableEq α] (slot : Slot α)
    (o : Option α) : Preserves RefState.parse (uninternIn slot o) := by
  cases o with
  | none => exact .pure _
  | some a =>
    intro s b s' hr
    rw [uninternIn, get_bind] at hr
    split at hr
    · cases hr
    · cases hr
      rfl

theorem preserves_releaseAs4Path : Preserves RefState.parse releaseAs4Path :=
  Preserves.get.bind fun _ => preserves_uninternIn _ _

theorem preserves_internTransit : Preserves RefState.parse internTransit :=
  Preserves.get.bind fun _ => (preserves_internIn _ _).bind fun _ => .modify fun _ => rfl

/-! ## The parser -/

variable (peer : Peer) (uninit : UInt8 → UInt16) (args : AttrArgs)

theorem erases_refDispatch :
    Erases (refDispatch peer uninit args) (attrDispatch peer args uninit) := by
  intro st ret st' h
  obtain ⟨ret', st1, hr, hrs⟩ := bind_eq_ok h
  have hpa := Erases.inParse _ _ _ _ hr
  rw [modify_bind] at hrs
  cases hrs
  exact hpa

theorem erases_refFetched (ret : ParseRet) :
    Erases (refFetched args ret) (attrFetched args ret) := by
  intro st ret' st' h
  obtain ⟨out, st1, hr, hrs⟩ := bind_eq_ok h
  have hpa := Erases.inParse _ _ _ _ hr
  cases out with
  | none =>
    cases hrs
    exact hpa
  | some out =>
    obtain ⟨_, st2, hrl, hrt⟩ := bind_eq_ok hrs
    cases hrt
    rwa [preserves_releaseAs4Path _ _ _ hrl]

theorem erases_refBody : Erases (refBody peer uninit args) (attrBody peer uninit args) := by
  refine .bind (.inParse _) fun invalid => ?_
  refine .ite (.bind (.inParse _) fun ret => ?_)
    (.bind (erases_refDispatch peer uninit args) fun ret =>
      erases_refFetched args ret)
  cases ret with
  | proceed | error | withdraw => exact .pure _

theorem erases_refStep (endp : Nat) (seen : List UInt8) :
    Erases (refStep peer uninit endp seen) (attrStep peer uninit endp seen) := by
  rw [attrStep_split]
  refine .bind (.inParse _) fun head => ?_
  cases head with
  | inl seen' => exact .pure _
  | inr args => exact .bind (erases_refBody peer uninit args) fun ret => .pure _

theorem erases_refLoop (endp bound : Nat) (seen : List UInt8) :
    Erases (refLoop peer uninit endp bound seen) (attrLoop peer uninit endp bound seen) := by
  induction bound generalizing seen with
  | zero =>
    rw [refLoop, attrLoop]
    refine .get fun st => .ite ?_ (.pure _)
    intro st ret st' h
    cases h
  | succ bound ih =>
    rw [refLoop, attrLoop]
    refine .get fun st => .ite (.bind (erases_refStep peer uninit endp seen)
      fun turn => ?_) (.pure _)
    obtain ⟨out, seen'⟩ := turn
    cases out with
    | none => exact ih seen'
    | some ret => exact .pure _

theorem erases_replaceAspath (old new : List Assegment) :
    Erases (replaceAspath old new) (modifyAttr fun attr => { attr with aspath := some new }) := by
  refine .silent (preserves_uninternIn _ _) ?_
  intro st u st' h
  obtain ⟨_, st1, hr, hint⟩ := bind_eq_ok h
  rw [preserves_internIn _ _ _ _ _ hint]
  exact Erases.inParse _ _ _ _ hr

theorem erases_refMunge : Erases (refMunge peer) (bgpAttrMungeAs4Attrs peer) := by
  refine .ite (.pure _) (.bind (.inParse _) fun ignore => .get fun st =>
    .ite (.bind (.inParse _) fun as4Path => .bind (.inParse _) fun aspath => ?_) (.pure _))
  exact erases_replaceAspath _ _

theorem erases_refAspathCheck : Erases (refAspathCheck peer) (bgpAttrAspathCheck peer) := by
  refine .get fun st => .bind (.inParse _) fun aspath => .ite
    (.bind (.inParse _) fun _ => .pure _) (.ite (.bind (.inParse _) fun _ => .pure _) ?_)
  unfold whenever
  split_ifs with hlocal
  · exact .bind (erases_replaceAspath _ _) fun _ => .pure _
  · simp only [pure_bind]
    exact .pure _

theorem erases_refFinish (endp : Nat) : Erases (refFinish peer endp) (attrFinish peer endp) := by
  refine .get fun st => .ite (.bind (.inParse _) fun _ =>
    .silent preserves_releaseAs4Path (.pure _)) (.bind (erases_refMunge peer)
      fun _ => .silent preserves_releaseAs4Path ?_)
  intro st ret st' h
  obtain ⟨ret', st1, hr, hrs⟩ := bind_eq_ok h
  have hck : Erases (refChecked peer) (do
      if (← get).attr.flag.asPath then bgpAttrAspathCheck peer
      else return .proceed) :=
    .get fun st => .ite (erases_refAspathCheck peer) (.pure _)
  have hpa := hck _ _ _ hr
  cases ret' with
  | proceed =>
    obtain ⟨_, st2, hint, hrt⟩ := bind_eq_ok hrs
    cases hrt
    rwa [preserves_internTransit _ _ _ hint]
  | error | withdraw =>
    cases hrs
    exact hpa

/-- The references aside, the two parsers are one. -/
theorem erases_refAttrParse (size : Nat) :
    Erases (refAttrParse peer uninit size) (bgpAttrParse peer uninit size) := by
  refine .get fun st => .bind (erases_refLoop peer uninit _ _ _) fun ret => ?_
  cases ret with
  | proceed => exact erases_refFinish peer _
  | error | withdraw => exact .pure _

end SdnQuagga
