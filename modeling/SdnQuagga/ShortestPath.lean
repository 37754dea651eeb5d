import Mathlib.Data.Set.Basic

/-!
# Shortest paths by settling the nearest vertex

A graph with edges of natural cost and a root, and the search that
settles vertices in the order of their distance. A search has found some
vertices, with the best distance seen so far, and has settled some of
those. Relaxing an edge from a settled vertex may find its target or
improve it; settling the nearest of the others is right once all edges
from settled vertices are relaxed. `SearchInv` is what both keep,
`PredInv` what they keep for the predecessors.

Ties in the distance are broken by a rank. If every edge costs something
or leads to a higher rank (`Rising`), no predecessor comes too late.
-/

namespace SdnQuagga

open Function

/-- A graph with costs on its edges. -/
structure WGraph (V : Type) where
  root : V
  edge : V → V → Nat → Prop

namespace WGraph

variable {V : Type} (g : WGraph V)

/-- There is a path from the root of this cost. -/
inductive Walk : V → Nat → Prop where
  | root : Walk g.root 0
  | step {v w : V} {d c : Nat} : Walk v d → g.edge v w c → Walk w (d + c)

def Reachable (v : V) : Prop := ∃ d, g.Walk v d

/-- The least cost of a path. -/
structure Dist (v : V) (d : Nat) : Prop where
  walk : g.Walk v d
  le : ∀ e, g.Walk v e → d ≤ e

theorem Dist.unique {g : WGraph V} {v : V} {d e : Nat} (hd : g.Dist v d)
    (he : g.Dist v e) : d = e :=
  Nat.le_antisymm (hd.le e he.walk) (he.le d hd.walk)

/-- `v` is next to last on a path of least cost to `w`. -/
def Precedes (v w : V) : Prop :=
  ∃ c d, g.edge v w c ∧ g.Dist v d ∧ g.Dist w (d + c)

/-- Every edge costs something or leads to a higher rank. -/
def Rising (rank : V → Nat) : Prop :=
  ∀ v w c, g.edge v w c → 0 < c ∨ rank v < rank w

/-- Where a walk leaves a set that has the root. -/
theorem Walk.leaves {g : WGraph V} {S : Set V} {w : V} {d : Nat}
    (hw : g.Walk w d) (hrt : g.root ∈ S) (hout : w ∉ S) :
    ∃ v ∈ S, ∃ y ∉ S, ∃ a c, g.Walk v a ∧ g.edge v y c ∧ a + c ≤ d := by
  induction hw with
  | root => exact absurd hrt hout
  | @step v w d c hv he ih =>
    by_cases hvS : v ∈ S
    · exact ⟨v, hvS, w, hout, d, c, hv, he, le_rfl⟩
    · obtain ⟨u, hu, y, hy, a, b, hua, huy, hle⟩ := ih hvS
      exact ⟨u, hu, y, hy, a, b, hua, huy, by omega⟩

end WGraph

/-! ## Searches -/

/-- What a search has found, what it has settled, and how it got there. -/
structure Search (V : Type) where
  dist : V → Option Nat
  done : Set V
  pred : V → Set V

/-- The better of a distance seen before and a new one. -/
def closer : Option Nat → Nat → Nat
  | none, n => n
  | some e, n => min e n

theorem closer_le_right (o : Option Nat) (n : Nat) : closer o n ≤ n := by
  cases o with
  | none => exact le_rfl
  | some e => exact Nat.min_le_right e n

theorem closer_le_left (e n : Nat) : closer (some e) n ≤ e := Nat.min_le_left e n

theorem closer_cases (o : Option Nat) (n : Nat) : closer o n = n ∨ o = some (closer o n) := by
  cases o with
  | none => exact .inl rfl
  | some e =>
    simp only [closer, Option.some.injEq]
    omega

namespace Search

variable {V : Type} {s : Search V} {v w : V} {n : Nat}

open Classical in
/-- The search has only found and settled the root. -/
noncomputable def start (r : V) : Search V where
  dist := update (fun _ => none) r (some 0)
  done := {r}
  pred := fun _ => ∅

open Classical in
/-- `w` can be reached at cost `n` by way of `v`. -/
noncomputable def relax (s : Search V) (v w : V) (n : Nat) : Search V :=
  if w ∈ s.done then s
  else
    { s with
      dist := update s.dist w (some (closer (s.dist w) n))
      pred := update s.pred w
        {u | u ∈ s.pred w ∧ s.dist w = some (closer (s.dist w) n)
          ∨ u = v ∧ closer (s.dist w) n = n} }

def settle (s : Search V) (w : V) : Search V :=
  { s with done := insert w s.done }

theorem relax_of_done (h : w ∈ s.done) : s.relax v w n = s := if_pos h

@[simp] theorem relax_done : (s.relax v w n).done = s.done := by
  unfold relax
  split <;> rfl

theorem relax_dist_self (h : w ∉ s.done) : (s.relax v w n).dist w = some (closer (s.dist w) n) := by
  simp [relax, h]

theorem relax_dist_of_ne {u : V} (h : u ≠ w) : (s.relax v w n).dist u = s.dist u := by
  unfold relax
  split
  · rfl
  · simp [h]

theorem relax_pred_self (h : w ∉ s.done) :
    (s.relax v w n).pred w = {u | u ∈ s.pred w ∧ s.dist w = some (closer (s.dist w) n)
        ∨ u = v ∧ closer (s.dist w) n = n} := by
  simp [relax, h]

theorem relax_pred_of_ne {u : V} (h : u ≠ w) : (s.relax v w n).pred u = s.pred u := by
  unfold relax
  split
  · rfl
  · simp [h]

/-- A longer way changes nothing. -/
theorem relax_of_lt {e : Nat} (he : s.dist w = some e) (hlt : e < n) : s.relax v w n = s := by
  unfold relax
  split
  · rfl
  · have hclo : closer (some e) n = e := Nat.min_eq_left hlt.le
    have hpred : {u | u ∈ s.pred w ∧ s.dist w = some (closer (s.dist w) n)
        ∨ u = v ∧ closer (s.dist w) n = n} = s.pred w := by
      ext u
      simp [he, hclo, hlt.ne]
    rw [hpred, he, hclo, ← he]
    simp

end Search

/-! ## What a search keeps -/

/-- The edges in `scanned` have been relaxed, and that is all the search
knows of. -/
structure SearchInv {V : Type} (g : WGraph V)
    (scanned : V → V → Nat → Prop) (s : Search V) : Prop where
  root_done : g.root ∈ s.done
  scanned_edge : ∀ {v w c}, scanned v w c → g.edge v w c
  scanned_done : ∀ {v w c}, scanned v w c → v ∈ s.done
  done_dist : ∀ {v}, v ∈ s.done → ∃ d, s.dist v = some d ∧ g.Dist v d
  relaxed : ∀ {v w c d}, scanned v w c → s.dist v = some d → ∃ e ≤ d + c, s.dist w = some e
  found : ∀ {w e}, w ∉ s.done → s.dist w = some e →
    ∃ v c d, scanned v w c ∧ s.dist v = some d ∧ d + c = e

/-- All edges from settled vertices have been relaxed. -/
def Closed {V : Type} (g : WGraph V) (scanned : V → V → Nat → Prop) (s : Search V) : Prop :=
  ∀ v w c, v ∈ s.done → g.edge v w c → scanned v w c

/-- One more edge. -/
def orEdge {V : Type} (scanned : V → V → Nat → Prop) (v w : V) (c : Nat) :
    V → V → Nat → Prop :=
  fun v' w' c' => scanned v' w' c' ∨ v' = v ∧ w' = w ∧ c' = c

section

variable {V : Type} {g : WGraph V} {scanned : V → V → Nat → Prop}
  {s : Search V} {v w : V} {c d e : Nat}

theorem SearchInv.dist_done (h : SearchInv g scanned s) (hv : v ∈ s.done)
    (hd : s.dist v = some d) : g.Dist v d := by
  obtain ⟨d', hd', hds⟩ := h.done_dist hv
  rw [hd] at hd'
  cases hd'
  exact hds

theorem searchInv_start (r : V) {edge : V → V → Nat → Prop} :
    SearchInv ⟨r, edge⟩ (fun _ _ _ => False) (Search.start r) where
  root_done := rfl
  scanned_edge := False.elim
  scanned_done := False.elim
  done_dist := by
    rintro v rfl
    exact ⟨0, by simp [Search.start], .root, fun _ _ => Nat.zero_le _⟩
  relaxed := False.elim
  found := by
    intro w e hw he
    have hne : w ≠ r := hw
    simp [Search.start, hne] at he

section

variable (h : SearchInv g scanned s)
include h

theorem SearchInv.relax (hv : v ∈ s.done) (hd : s.dist v = some d) (hed : g.edge v w c) :
    SearchInv g (orEdge scanned v w c) (s.relax v w (d + c)) := by
  have hkp {u} (hu : u ∈ s.done) :
      (s.relax v w (d + c)).dist u = s.dist u := by
    by_cases hw : w ∈ s.done
    · rw [Search.relax_of_done hw]
    · exact Search.relax_dist_of_ne fun heq => hw (heq ▸ hu)
  refine ⟨?_, ?_, ?_, ?_, ?_, ?_⟩
  · exact Search.relax_done.symm ▸ h.root_done
  · rintro v' w' c' (hs | ⟨rfl, rfl, rfl⟩)
    · exact h.scanned_edge hs
    · exact hed
  · rintro v' w' c' (hs | ⟨rfl, rfl, rfl⟩)
    · exact Search.relax_done.symm ▸ h.scanned_done hs
    · exact Search.relax_done.symm ▸ hv
  · intro u hu
    rw [Search.relax_done] at hu
    rw [hkp hu]
    exact h.done_dist hu
  · rintro v' w' c' d' (hs | ⟨rfl, rfl, rfl⟩) hd'
    · rw [hkp (h.scanned_done hs)] at hd'
      obtain ⟨e, hle, he⟩ := h.relaxed hs hd'
      by_cases hw : w' = w ∧ w ∉ s.done
      · obtain ⟨rfl, hw⟩ := hw
        refine ⟨_, ?_, Search.relax_dist_self hw⟩
        rw [he]
        exact (closer_le_left e _).trans hle
      · refine ⟨e, hle, ?_⟩
        by_cases heq : w' = w
        · subst heq
          rwa [hkp (not_not.mp fun hw' => hw ⟨rfl, hw'⟩)]
        · rwa [Search.relax_dist_of_ne heq]
    · rw [hkp hv, hd] at hd'
      cases hd'
      by_cases hw : w' ∈ s.done
      · obtain ⟨e, he, hds⟩ := h.done_dist hw
        exact ⟨e, hds.le _ ((h.dist_done hv hd).walk.step hed), (hkp hw).trans he⟩
      · exact ⟨_, closer_le_right _ _, Search.relax_dist_self hw⟩
  · intro w' e hw' he
    rw [Search.relax_done] at hw'
    by_cases heq : w' = w
    · subst heq
      rw [Search.relax_dist_self hw'] at he
      cases he
      rcases closer_cases (s.dist w') (d + c) with hn | hold
      · exact ⟨v, c, d, .inr ⟨rfl, rfl, rfl⟩, (hkp hv).trans hd, hn.symm⟩
      · obtain ⟨u, b, a, hs, ha, hsu⟩ := h.found hw' hold
        exact ⟨u, b, a, .inl hs, (hkp (h.scanned_done hs)).trans ha, hsu⟩
    · rw [Search.relax_dist_of_ne heq] at he
      obtain ⟨u, b, a, hs, ha, hsu⟩ := h.found hw' he
      exact ⟨u, b, a, .inl hs, (hkp (h.scanned_done hs)).trans ha, hsu⟩

section

variable (hcl : Closed g scanned s)
include hcl

/-- The nearest vertex that is not settled has its distance. -/
theorem SearchInv.dist_nearest (hw : w ∉ s.done) (he : s.dist w = some e)
    (hmi : ∀ y f, y ∉ s.done → s.dist y = some f → e ≤ f) : g.Dist w e := by
  obtain ⟨v, c, d, hs, hd, rfl⟩ := h.found hw he
  refine ⟨(h.dist_done (h.scanned_done hs) hd).walk.step (h.scanned_edge hs), fun f hf => ?_⟩
  -- any other walk leaves the settled vertices somewhere
  obtain ⟨u, hu, y, hy, a, b, hua, huy, hle⟩ := hf.leaves h.root_done hw
  obtain ⟨du, hdu, hds⟩ := h.done_dist hu
  obtain ⟨ey, hey, hy'⟩ := h.relaxed (hcl u y b hu huy) hdu
  have hnear := hmi y ey hy hy'
  have hua' := hds.le a hua
  omega

theorem SearchInv.settle (hw : w ∉ s.done) (he : s.dist w = some e)
    (hmi : ∀ y f, y ∉ s.done → s.dist y = some f → e ≤ f) : SearchInv g scanned (s.settle w) where
  root_done := .inr h.root_done
  scanned_edge := h.scanned_edge
  scanned_done := fun hs => .inr (h.scanned_done hs)
  done_dist := by
    rintro v (rfl | hv)
    · exact ⟨e, he, h.dist_nearest hcl hw he hmi⟩
    · exact h.done_dist hv
  relaxed := h.relaxed
  found := fun hw' he' => h.found (fun hm => hw' (.inr hm)) he'

/-- A search that has nothing left to settle has settled what is
reachable. -/
theorem SearchInv.done_iff (hno : ∀ w, w ∉ s.done → s.dist w = none) (v : V) :
    v ∈ s.done ↔ g.Reachable v := by
  constructor
  · intro hv
    obtain ⟨d, -, hds⟩ := h.done_dist hv
    exact ⟨d, hds.walk⟩
  · rintro ⟨d, hwk⟩
    induction hwk with
    | root => exact h.root_done
    | @step u w a c _ hed ih =>
      obtain ⟨du, hdu, -⟩ := h.done_dist ih
      obtain ⟨e, -, he⟩ := h.relaxed (hcl u w c ih hed) hdu
      by_contra hw
      rw [hno w hw] at he
      cases he

end

end

end

/-! ## Predecessors -/

/-- The order in which vertices are settled: by distance, then rank. -/
def KeyLe (d r e q : Nat) : Prop := d < e ∨ d = e ∧ r ≤ q

theorem KeyLe.trans {d r e q f p : Nat} (h : KeyLe d r e q)
    (h' : KeyLe e q f p) : KeyLe d r f p := by
  unfold KeyLe at *
  omega

/-- The predecessors of a vertex are the scanned edges that give its
distance; `cur` is the vertex settled last. -/
structure PredInv {V : Type} (rank : V → Nat)
    (scanned : V → V → Nat → Prop) (cur : V) (s : Search V) : Prop where
  sound : ∀ {u w}, u ∈ s.pred w → ∃ c d, scanned u w c ∧ s.dist u = some d ∧ s.dist w = some (d + c)
  complete : ∀ {u w c d}, scanned u w c → s.dist u = some d → s.dist w = some (d + c) → u ∈ s.pred w
  done_le : ∀ {u d e}, u ∈ s.done → s.dist u = some d → s.dist cur = some e →
    KeyLe d (rank u) e (rank cur)
  le_found : ∀ {w d e}, w ∉ s.done → s.dist w = some e →
    s.dist cur = some d → KeyLe d (rank cur) e (rank w)

variable {V : Type} {g : WGraph V} {rank : V → Nat}
  {scanned : V → V → Nat → Prop} {s : Search V} {cur w : V} {c d e : Nat}

theorem predInv_start (rank : V → Nat) (r : V) :
    PredInv rank (fun _ _ _ => False) r (Search.start r) where
  sound := False.elim
  complete := .elim
  done_le := by
    rintro u d e rfl hd he
    rw [hd] at he
    cases he
    exact .inr ⟨rfl, le_rfl⟩
  le_found := by
    intro w d e hw he
    have hne : w ≠ r := hw
    simp [Search.start, hne] at he

/-- An edge from the vertex settled last leads to a later key. -/
theorem WGraph.Rising.keyLe {v w : V} (hrise : g.Rising rank) (hed : g.edge v w c) (d : Nat) :
    KeyLe d (rank v) (d + c) (rank w) ∧ ¬ KeyLe (d + c) (rank w) d (rank v) := by
  have := hrise v w c hed
  unfold KeyLe
  omega

variable (hp : PredInv rank scanned cur s)
include hp

variable (h : SearchInv g scanned s)
include h

theorem PredInv.relax (hrise : g.Rising rank)
    (hcur : cur ∈ s.done) (hd : s.dist cur = some d) (hed : g.edge cur w c) :
    PredInv rank (orEdge scanned cur w c) cur (s.relax cur w (d + c)) := by
  have hk := hrise.keyLe hed d
  by_cases hw : w ∈ s.done
  · rw [Search.relax_of_done hw]
    refine ⟨fun hu => ?_, ?_, hp.done_le, hp.le_found⟩
    · obtain ⟨b, a, hs, hrs⟩ := hp.sound hu
      exact ⟨b, a, .inl hs, hrs⟩
    · rintro u w' c' d' (hs | ⟨rfl, rfl, rfl⟩) hu hw'
      · exact hp.complete hs hu hw'
      · -- the target would have been settled too early
        rw [hd] at hu
        cases hu
        exact absurd (hp.done_le hw hw' hd) hk.2
  have hkp {u} (hu : u ∈ s.done) :
      (s.relax cur w (d + c)).dist u = s.dist u :=
    Search.relax_dist_of_ne fun heq => hw (heq ▸ hu)
  refine ⟨fun {u w'} hu => ?_, ?_, fun hu hdu hcd => ?_, fun {w' d' e'} hw' he hcd => ?_⟩
  · by_cases heq : w' = w
    · subst heq
      rw [Search.relax_pred_self hw] at hu
      rw [Search.relax_dist_self hw]
      rcases hu with ⟨hu, hsm⟩ | ⟨rfl, hn⟩
      · obtain ⟨b, a, hs, ha, hsu⟩ := hp.sound hu
        refine ⟨b, a, .inl hs, (hkp (h.scanned_done hs)).trans ha, ?_⟩
        rw [← hsm, hsu]
      · exact ⟨c, d, .inr ⟨rfl, rfl, rfl⟩, (hkp hcur).trans hd, by rw [hn]⟩
    · rw [Search.relax_pred_of_ne heq] at hu
      obtain ⟨b, a, hs, ha, hsu⟩ := hp.sound hu
      refine ⟨b, a, .inl hs, (hkp (h.scanned_done hs)).trans ha, ?_⟩
      rw [Search.relax_dist_of_ne heq, hsu]
  · rintro u w' c' d' hs hu hw'
    by_cases heq : w' = w
    · subst heq
      rw [Search.relax_dist_self hw, Option.some.injEq] at hw'
      rw [Search.relax_pred_self hw]
      rcases hs with hs | ⟨rfl, -, rfl⟩
      · rw [hkp (h.scanned_done hs)] at hu
        obtain ⟨e, hle, he⟩ := h.relaxed hs hu
        have hless := closer_le_left e (d + c)
        rw [he] at hw'
        have hsm : e = d' + c' := by omega
        rw [he, Set.mem_ofPred_eq, hw', hsm]
        exact .inl ⟨hp.complete hs hu (hsm ▸ he), rfl⟩
      · rw [hkp hcur, hd] at hu
        cases hu
        exact .inr ⟨rfl, hw'⟩
    · rcases hs with hs | ⟨-, hb, -⟩
      · rw [hkp (h.scanned_done hs)] at hu
        rw [Search.relax_dist_of_ne heq] at hw'
        rw [Search.relax_pred_of_ne heq]
        exact hp.complete hs hu hw'
      · exact absurd hb heq
  · rw [Search.relax_done] at hu
    rw [hkp hu] at hdu
    rw [hkp hcur] at hcd
    exact hp.done_le hu hdu hcd
  · rw [Search.relax_done] at hw'
    rw [hkp hcur] at hcd
    by_cases heq : w' = w
    · subst heq
      rw [Search.relax_dist_self hw] at he
      cases he
      rw [hd] at hcd
      cases hcd
      rcases closer_cases (s.dist w') (d + c) with hn | hold
      · rw [hn]
        exact hk.1
      · exact hp.le_found hw hold hd
    · rw [Search.relax_dist_of_ne heq] at he
      exact hp.le_found hw' he hcd

theorem PredInv.settle (hcur : cur ∈ s.done) (hw : w ∉ s.done) (he : s.dist w = some e)
    (hmi : ∀ y f, y ∉ s.done → s.dist y = some f → KeyLe e (rank w) f (rank y)) :
    PredInv rank scanned w (s.settle w) where
  sound := hp.sound
  complete := hp.complete
  done_le := by
    intro u d e' hu hd he'
    have hsm : e = e' := Option.some.inj (he.symm.trans he')
    subst hsm
    rcases hu with rfl | hu
    · cases (he.symm.trans hd)
      exact .inr ⟨rfl, le_rfl⟩
    · obtain ⟨f, hf, -⟩ := h.done_dist hcur
      exact (hp.done_le hu hd hf).trans (hp.le_found hw he hf)
  le_found := by
    intro y d f hy hf hd
    have hsm : e = d := Option.some.inj (he.symm.trans hd)
    subst hsm
    exact hmi y f (fun hm => hy (.inr hm)) hf

/-- At the end the predecessors are those on shortest paths. -/
theorem PredInv.pred_iff (hcl : Closed g scanned s)
    (hno : ∀ w, w ∉ s.done → s.dist w = none) (u w : V) : u ∈ s.pred w ↔ g.Precedes u w := by
  constructor
  · intro hu
    obtain ⟨c, d, hs, hd, hw⟩ := hp.sound hu
    refine ⟨c, d, h.scanned_edge hs, h.dist_done (h.scanned_done hs) hd, h.dist_done ?_ hw⟩
    by_contra hwd
    rw [hno w hwd] at hw
    cases hw
  · rintro ⟨c, d, hed, hud, hwd⟩
    have hu := (h.done_iff hcl hno u).mpr ⟨d, hud.walk⟩
    have hw := (h.done_iff hcl hno w).mpr ⟨_, hwd.walk⟩
    obtain ⟨d', hd', hds⟩ := h.done_dist hu
    obtain ⟨e', he', hds'⟩ := h.done_dist hw
    cases hud.unique hds
    cases hwd.unique hds'
    exact hp.complete (hcl u w c hu hed) hd' he'

end SdnQuagga
