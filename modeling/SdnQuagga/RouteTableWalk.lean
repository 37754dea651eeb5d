import SdnQuagga.RouteTable

/-!
# Walking down a routing table

The loops of `route_node_get`, `route_node_lookup` and `route_node_match` follow
the bits of a prefix from the top. A walk is at a slot whose bits begin the
prefix; with each turn the slot is deeper, so the walk ends after as many turns
as the prefix has bits. It passes every node whose prefix includes the one that
is looked for.
-/

namespace SdnQuagga

open List Option
open RadixTree (Slot Tree Shape Below)

variable {size : Nat} {ι : Type} {t : RouteTable size ι} {p : NetPrefix size}

/-! ## The condition of the loops -/

theorem walkCond_iff (n p : NetPrefix size) :
    (decide (n.prefixlen ≤ p.prefixlen) && prefixMatch n p) = true ↔ n.bits <+: p.bits := by
  rw [Bool.and_eq_true, decide_eq_true_eq, prefixMatch_iff]
  exact and_iff_right_of_imp fun h => by simpa using h.length_le

variable {n : NetPrefix size} {slot : Slot} {k : List Bool} {turns a : Nat}
  {node : RouteNode size ι} {p : NetPrefix size}

theorem bits_eq_of_match (h : n.bits <+: p.bits)
    (hlen : n.prefixlen = p.prefixlen) : n.bits = p.bits :=
  h.eq_of_length (by simpa using hlen)

theorem bits_next (h : n.bits <+: p.bits) (hlen : n.prefixlen ≠ p.prefixlen) :
    n.bits ++ [prefixBit p n.prefixlen] <+: p.bits := by
  have hle : n.prefixlen ≤ p.prefixlen := by simpa using h.length_le
  have htk : n.bits ++ [prefixBit p n.prefixlen] = p.bits.take (n.prefixlen + 1) := by
    rw [bits_take p (by omega), range_succ, map_append, ← bits_take p hle]
    congr 1
    have := prefix_iff_eq_take.mp h
    rwa [n.bits_length] at this
  rw [htk]
  exact take_prefix _ _

theorem prefixBit_next {b : Bool}
    (h : n.bits ++ [b] <+: p.bits) : prefixBit p n.prefixlen = b := by
  have hlt : n.prefixlen < p.prefixlen := by simpa using RadixTree.length_lt h
  exact RadixTree.bit_eq (bits_next ((prefix_append _ _).trans h) hlt.ne) h

/-! ## Where a walk is -/

/-- The length of the prefixes that fit into a slot. -/
def slotDepth (t : RouteTable size ι) : Slot → Nat
  | none => 0
  | some (m, _) => (t.tree.key m).elim 0 List.length + 1

/-- A walk with some turns left is at a slot. -/
structure WalkAt (t : RouteTable size ι) (p : NetPrefix size) (turns : Nat)
    (slot : Slot) : Prop where
  fits : t.tree.Fits slot p.bits
  turns_le : p.prefixlen + 2 ≤ turns + slotDepth t slot

theorem slotDepth_le (h : t.tree.Fits slot k) : slotDepth t slot ≤ k.length := by
  rcases slot with _ | ⟨m, b⟩
  · exact Nat.zero_le _
  · obtain ⟨l, hl, hlg⟩ := h m b rfl
    rw [slotDepth, hl]
    exact RadixTree.length_lt hlg

theorem WalkAt.start (t : RouteTable size ι) (p : NetPrefix size) :
    WalkAt t p (p.prefixlen + 2) none where
  fits := fun _ _ h => absurd h (by simp)
  turns_le := le_rfl

theorem WalkAt.no_zero (h : WalkAt t p 0 slot) : False := by
  have hle := slotDepth_le h.fits
  have hturns := h.turns_le
  rw [p.bits_length] at hle
  omega

theorem WalkAt.next (h : Shape t.tree) (hat : WalkAt t p (turns + 1) slot)
    (hrd : t.tree.read slot = some a) (hnd : t.nodes a = some node)
    (hmat : node.p.bits <+: p.bits) (hlen : node.p.prefixlen ≠ p.prefixlen) :
    WalkAt t p turns (some (a, prefixBit p node.p.prefixlen)) := by
  have hky := RouteTable.key_of_node hnd
  obtain ⟨-, k, hk, hft⟩ := h.held hrd
  cases hk.symm.trans hky
  constructor
  · rintro m b ⟨⟩
    exact ⟨_, hky, bits_next hmat hlen⟩
  · have hle := slotDepth_le hft
    have hturns := hat.turns_le
    rw [slotDepth, hky, elim_some]
    omega

theorem read_link (hnd : t.nodes a = some node)
    (b : Bool) : t.tree.read (some (a, b)) = node.link b := by
  rw [RouteTable.tree_read]
  simp only [hnd, bind_some]

theorem exists_node_of_read (h : Shape t.tree) (hrd : t.tree.read slot = some a) :
    ∃ node, t.nodes a = some node ∧ t.tree.key a = some node.p.bits := by
  obtain ⟨-, k, hk, -⟩ := h.held hrd
  obtain ⟨node, hnd, rfl⟩ := map_eq_some_iff.mp hk
  exact ⟨node, hnd, hk⟩

/-! ## The walk of `route_node_get` -/

/-- A slot where the walk of `route_node_get` stops. -/
structure StopsAt (t : RouteTable size ι) (p : NetPrefix size) (slot : Slot) : Prop where
  fits : t.tree.Fits slot p.bits
  apart : ∀ a q, t.tree.read slot = some a → t.prefixOf a = some q → ¬ q.bits <+: p.bits

/-- How the walk of `route_node_get` ends. -/
def GetEnds (t : RouteTable size ι) (p : NetPrefix size) : GetWalk → Prop
  | .found a => t.tree.key a = some p.bits
  | .stop parent node =>
    ∃ slot : Slot, slot.cell = parent ∧ t.tree.read slot = node ∧ StopsAt t p slot

theorem getWalk_spec (h : Shape t.tree) : ∀ {slot : Slot}, WalkAt t p turns slot →
    ∃ r, getWalk p turns slot.cell (t.tree.read slot) t = .ok (r, t) ∧ GetEnds t p r := by
  induction turns with
  | zero => exact fun hat => hat.no_zero.elim
  | succ turns ih =>
    intro slot hat
    cases hrd : t.tree.read slot with
    | none =>
      refine ⟨.stop slot.cell none, rfl, slot, rfl, hrd, hat.fits, ?_⟩
      intro a q ha
      cases hrd.symm.trans ha
    | some a =>
      obtain ⟨node, hnd, hky⟩ := exists_node_of_read h hrd
      rw [getWalk, nodeAt_bind hnd]
      split
      next hcd =>
        have hmat := (walkCond_iff node.p p).mp hcd
        split
        next hlen => exact ⟨.found a, rfl, hky.trans (congrArg some (bits_eq_of_match hmat hlen))⟩
        next hlen =>
          rw [← read_link hnd]
          exact ih (hat.next h hrd hnd hmat hlen)
      next hcd =>
        refine ⟨.stop slot.cell (some a), rfl, slot, rfl, hrd, hat.fits, ?_⟩
        intro a' q ha hq
        cases hrd.symm.trans ha
        obtain ⟨node', hnd', rfl⟩ := t.exists_node hq
        cases hnd.symm.trans hnd'
        exact mt (walkCond_iff node.p p).mpr hcd

/-! ## The walk of `route_node_lookup` -/

/-- The nodes whose prefix includes `p` and that a walk has not passed yet are
below the node it is at. -/
def StillAhead (t : RouteTable size ι) (q : List Bool) (slot : Slot) (x : Nat) : Prop :=
  ∀ k, t.tree.key x = some k → k <+: q → ∃ a, t.tree.read slot = some a ∧ Below t.tree a x

theorem stillAhead_top (h : Shape t.tree) (q : List Bool) (x : Nat) : StillAhead t q none x :=
  fun _ hk _ => h.below_top hk

/-- A node that is passed is the one the walk is at, or is further down. -/
theorem StillAhead.next (h : Shape t.tree) {x : Nat} (hx : StillAhead t p.bits slot x)
    (hrd : t.tree.read slot = some a) (hnd : t.nodes a = some node)
    (hmat : node.p.bits <+: p.bits) (hlen : node.p.prefixlen ≠ p.prefixlen)
    (hne : a ≠ x) : StillAhead t p.bits (some (a, prefixBit p node.p.prefixlen)) x := by
  intro k hk hkp
  obtain ⟨a', hrd', hbel⟩ := hx k hk hkp
  cases hrd.symm.trans hrd'
  have hky := RouteTable.key_of_node hnd
  exact h.walk hbel hne hky hk hkp (bits_next hmat hlen)

theorem entry_eq_some {v : ι} :
    t.entry a = some (k, v)
      ↔ ∃ node, t.nodes a = some node ∧ node.p.bits = k ∧ node.info = some v := by
  simp only [RouteTable.entry, bind_eq_some_iff, map_eq_some_iff, Prod.mk.injEq]
  constructor
  · rintro ⟨node, hnd, w, hif, rfl, rfl⟩
    exact ⟨node, hnd, rfl, hif⟩
  · rintro ⟨node, hnd, rfl, hif⟩
    exact ⟨node, hnd, v, hif, rfl, rfl⟩

theorem entry_key {v : ι} (h : t.entry a = some (k, v)) : t.tree.key a = some k := by
  obtain ⟨node, hnd, rfl, -⟩ := entry_eq_some.mp h
  exact RouteTable.key_of_node hnd

theorem lookupWalk_spec (h : Shape t.tree) : ∀ {slot : Slot}, WalkAt t p turns slot →
    (∀ x, t.tree.key x = some p.bits → StillAhead t p.bits slot x) →
    ∃ r, lookupWalk p turns (t.tree.read slot) t = .ok (r, t)
      ∧ ∀ x, r = some x ↔ ∃ v, t.entry x = some (p.bits, v) := by
  induction turns with
  | zero => exact fun hat => hat.no_zero.elim
  | succ turns ih =>
    intro slot hat hahd
    have hse : ∀ {x v}, t.entry x = some (p.bits, v) →
        ∃ a, t.tree.read slot = some a ∧ Below t.tree a x := fun hx =>
      hahd _ (entry_key hx) _ (entry_key hx) prefix_rfl
    cases hrd : t.tree.read slot with
    | none =>
      refine ⟨none, rfl, fun x => iff_of_false (by simp) ?_⟩
      rintro ⟨v, hv⟩
      obtain ⟨a, ha, -⟩ := hse hv
      cases hrd.symm.trans ha
    | some a =>
      obtain ⟨node, hnd, hky⟩ := exists_node_of_read h hrd
      rw [lookupWalk, nodeAt_bind hnd]
      split
      next hcd =>
        have hmat := (walkCond_iff node.p p).mp hcd
        split
        next hlen =>
          have hbt := bits_eq_of_match hmat hlen
          refine ⟨_, rfl, fun x => ?_⟩
          constructor
          · split
            next hif =>
              rintro ⟨⟩
              obtain ⟨v, hv⟩ := isSome_iff_exists.mp hif
              exact ⟨v, entry_eq_some.mpr ⟨node, hnd, hbt, hv⟩⟩
            · exact fun h => absurd h (by simp)
          · rintro ⟨v, hv⟩
            obtain rfl := h.eq_of_key (hbt ▸ hky) (entry_key hv)
            obtain ⟨node', hnd', -, hif⟩ := entry_eq_some.mp hv
            cases hnd.symm.trans hnd'
            rw [hif, isSome_some, if_pos rfl]
        next hlen =>
          rw [← read_link hnd]
          refine ih (hat.next h hrd hnd hmat hlen) fun x hx => ?_
          refine (hahd x hx).next h hrd hnd hmat hlen ?_
          rintro rfl
          have hbt := some.inj (hky.symm.trans hx)
          exact hlen (by rw [← node.p.bits_length, hbt, p.bits_length])
      next hcd =>
        refine ⟨none, rfl, fun x => iff_of_false (by simp) ?_⟩
        rintro ⟨v, hv⟩
        obtain ⟨a', ha', hbel⟩ := hse hv
        cases hrd.symm.trans ha'
        exact hcd ((walkCond_iff node.p p).mpr (h.below_key hbel hky (entry_key hv)))

/-! ## The walk of `route_node_match` -/

/-- The entry with the longest prefix that includes `p`. -/
def LongestMatch (t : RouteTable size ι) (p : NetPrefix size) : Option Nat → Prop
  | none => ∀ y k v, t.entry y = some (k, v) → ¬ k <+: p.bits
  | some x => ∃ k v, t.entry x = some (k, v) ∧ k <+: p.bits
      ∧ ∀ y k' v', t.entry y = some (k', v') → k' <+: p.bits → k'.length ≤ k.length

/-- `matched` is the longest of the entries that are not ahead. -/
structure MatchedAt (t : RouteTable size ι) (p : NetPrefix size) (slot : Slot)
    (matched : Option Nat) : Prop where
  entry : ∀ x, matched = some x → ∃ k v, t.entry x = some (k, v) ∧ k <+: p.bits
    ∧ k.length ≤ slotDepth t slot
  longest : ∀ y k v, t.entry y = some (k, v) → k <+: p.bits → StillAhead t p.bits slot y
      ∨ ∃ x k' v', matched = some x ∧ t.entry x = some (k', v') ∧ k.length ≤ k'.length

variable {matched : Option Nat}

theorem MatchedAt.longestMatch (h : MatchedAt t p slot matched)
    (hno : ∀ y k v, t.entry y = some (k, v) → k <+: p.bits →
      ¬ StillAhead t p.bits slot y) : LongestMatch t p matched := by
  have hse : ∀ y k v, t.entry y = some (k, v) → k <+: p.bits →
      ∃ x k' v', matched = some x ∧ t.entry x = some (k', v') ∧ k.length ≤ k'.length :=
    fun y k v hy hk => (h.longest y k v hy hk).resolve_left (hno y k v hy hk)
  cases matched with
  | none =>
    intro y k v hy hk
    obtain ⟨x, -, -, hx, -⟩ := hse y k v hy hk
    cases hx
  | some x =>
    obtain ⟨k, v, hx, hk, -⟩ := h.entry x rfl
    refine ⟨k, v, hx, hk, fun y k' v' hy hk' => ?_⟩
    obtain ⟨x', l, w, ⟨⟩, hx', hle⟩ := hse y k' v' hy hk'
    cases hx.symm.trans hx'
    exact hle

/-- What `matched` is after the body of the loop. -/
theorem MatchedAt.visit (h : Shape t.tree) (hm : MatchedAt t p slot matched)
    (hrd : t.tree.read slot = some a) (hnd : t.nodes a = some node)
    (hmat : node.p.bits <+: p.bits) (slot' : Slot) (hdep : node.p.prefixlen ≤ slotDepth t slot')
    (hahd : ∀ y, a ≠ y → StillAhead t p.bits slot y → StillAhead t p.bits slot' y) :
    MatchedAt t p slot' (if node.info.isSome then some a else matched) := by
  have hky := RouteTable.key_of_node hnd
  have hdeep : slotDepth t slot ≤ node.p.prefixlen := by
    obtain ⟨-, k, hk, hft⟩ := h.held hrd
    cases hk.symm.trans hky
    simpa using slotDepth_le hft
  cases hif : node.info with
  | none =>
    rw [isSome_none, if_neg Bool.false_ne_true]
    constructor
    · intro x hx
      obtain ⟨k, v, hen, hk, hle⟩ := hm.entry x hx
      exact ⟨k, v, hen, hk, by omega⟩
    · intro y k v hy hk
      refine (hm.longest y k v hy hk).imp_left (hahd y ?_)
      rintro rfl
      obtain ⟨node', hnd', -, hif'⟩ := entry_eq_some.mp hy
      cases hnd.symm.trans hnd'
      rw [hif] at hif'
      cases hif'
  | some w =>
    have ha : t.entry a = some (node.p.bits, w) := entry_eq_some.mpr ⟨node, hnd, rfl, hif⟩
    rw [isSome_some, if_pos rfl]
    constructor
    · rintro x ⟨⟩
      exact ⟨_, w, ha, hmat, by rw [node.p.bits_length]; exact hdep⟩
    · intro y k v hy hk
      by_cases hne : a = y
      · subst hne
        rw [ha, some_inj, Prod.mk.injEq] at hy
        exact .inr ⟨a, _, w, rfl, ha, by rw [hy.1]⟩
      · refine (hm.longest y k v hy hk).imp (hahd y hne) ?_
        rintro ⟨x, k', v', hx, hen, hle⟩
        obtain ⟨l, u, hen', -, hlen⟩ := hm.entry x hx
        cases hen.symm.trans hen'
        exact ⟨a, _, w, rfl, ha, by rw [node.p.bits_length]; omega⟩

theorem matchWalk_spec (h : Shape t.tree) :
    ∀ {slot : Slot} {matched : Option Nat}, WalkAt t p turns slot →
    MatchedAt t p slot matched →
    ∃ r, matchWalk p turns matched (t.tree.read slot) t = .ok (r, t) ∧ LongestMatch t p r := by
  induction turns with
  | zero => exact fun hat => hat.no_zero.elim
  | succ turns ih =>
    intro slot matched hat hm
    cases hrd : t.tree.read slot with
    | none =>
      refine ⟨matched, rfl, hm.longestMatch fun y k v hy hk hahd => ?_⟩
      obtain ⟨a, ha, -⟩ := hahd k (entry_key hy) hk
      cases hrd.symm.trans ha
    | some a =>
      obtain ⟨node, hnd, hky⟩ := exists_node_of_read h hrd
      rw [matchWalk, nodeAt_bind hnd]
      split
      next hcd =>
        have hmat := (walkCond_iff node.p p).mp hcd
        have hdep : ∀ b, node.p.prefixlen ≤ slotDepth t (some (a, b)) := by
          intro b
          rw [slotDepth, hky, elim_some, node.p.bits_length]
          exact Nat.le_succ _
        by_cases hlen : node.p.prefixlen = p.prefixlen
        · simp only [hlen, if_true]
          -- whatever is further down is longer than `p`
          have hla : ∀ {x y k} {b : Bool}, t.tree.read (some (a, b)) = some x →
              Below t.tree x y → t.tree.key y = some k → ¬ k <+: p.bits := by
            intro x y k b hx hxy hk hkp
            obtain ⟨l, j, hl, hj, hlg⟩ := h.link hx
            cases hky.symm.trans hl
            have hlt := RadixTree.length_lt hlg
            have hle := ((h.below_key hxy hj hk).trans hkp).length_le
            rw [p.bits_length] at hle
            rw [node.p.bits_length] at hlt
            omega
          have hvisit := hm.visit h hrd hnd hmat (some (a, false)) (hdep false) ?_
          · refine ⟨_, rfl, hvisit.longestMatch fun y k v hy hkp hahd => ?_⟩
            obtain ⟨x, hx, hxy⟩ := hahd k (entry_key hy) hkp
            exact hla hx hxy (entry_key hy) hkp
          · intro y hne hahd k hk hkp
            obtain ⟨a', ha', hbel⟩ := hahd k hk hkp
            cases hrd.symm.trans ha'
            obtain ⟨b, x, hx, hxy, -⟩ := h.down hbel hne hky hk
            exact absurd hkp (hla hx hxy hk)
        · simp only [hlen, if_false]
          rw [← read_link hnd]
          exact ih (hat.next h hrd hnd hmat hlen) (hm.visit h hrd hnd hmat _ (hdep _)
              fun y hne hy => hy.next h hrd hnd hmat hlen hne)
      next hcd =>
        refine ⟨matched, rfl, hm.longestMatch fun y k v hy hk hahd => ?_⟩
        obtain ⟨a', ha', hbel⟩ := hahd k (entry_key hy) hk
        cases hrd.symm.trans ha'
        exact hcd ((walkCond_iff node.p p).mpr ((h.below_key hbel hky (entry_key hy)).trans hk))

end SdnQuagga
