import SdnQuagga.RouteTableWalk

/-!
# Adding a node to a routing table

`route_node_get` locks the node that is there, hangs a leaf into the empty slot
where its walk stops, or puts a node for the common prefix between the slot and
the node in it, with a leaf beside that node where the prefixes part.
-/

namespace SdnQuagga

open List Function RouteTable
open RadixTree (Slot Tree Shape Below)
open Option (map_some some_ne_none some_inj)

variable {size : Nat} {ι : Type} {t : RouteTable size ι}

variable (t)

/-- Nodes are allocated at new addresses. -/
def RouteTable.Fresh : Prop :=
  ∀ x p, t.prefixOf x = some p → x < t.next

/-- Every node but one has a lock or two children. -/
def RouteTable.StubsBut (except : Option Nat) : Prop :=
  ∀ x, some x ≠ except → t.lockOf x = some 0 → ∀ b, t.tree.read (some (x, b)) ≠ none

variable {t}

/-- What every operation keeps. -/
structure TableInv (t : RouteTable size ι) : Prop where
  shape : Shape t.tree
  fresh : t.Fresh
  stubs : t.StubsBut none

theorem RouteTable.Fresh.next (h : t.Fresh) : t.nodes t.next = none := by
  cases hnd : t.nodes t.next with
  | none => rfl
  | some node =>
    have hlt := h t.next node.p (by rw [prefixOf, hnd, map_some])
    exact absurd hlt (lt_irrefl _)

theorem RouteTable.Fresh.key_next (h : t.Fresh) : t.tree.key t.next = none := by
  rw [tree_key, h.next, Option.map_none]

namespace RouteTable

/-! ## The tables in between -/

variable (t)

/-- The table after `route_lock_node`. -/
def locked (a : Nat) : RouteTable size ι :=
  t.update a fun n => { n with lock := n.lock + 1 }

theorem tree_locked (a : Nat) : (t.locked a).tree = t.tree := tree_update fun _ => ⟨rfl, rfl, rfl⟩

variable (a x : Nat)

theorem prefixOf_locked : (t.locked a).prefixOf x = t.prefixOf x :=
  prefixOf_update (by intro n; rfl) x

theorem entry_locked : (t.locked a).entry x = t.entry x :=
  entry_update (by intro n; exact ⟨rfl, rfl⟩) x

theorem lockOf_locked :
    (t.locked a).lockOf x = if x = a then (t.lockOf x).map (· + 1) else t.lockOf x := by
  rw [lockOf, locked, nodes_update]
  split
  · rw [lockOf, Option.map_map, Option.map_map]
    rfl
  · rfl

variable {t}

theorem Fresh.locked (h : t.Fresh) (a : Nat) : (t.locked a).Fresh :=
  fun x p hx => h x p ((t.prefixOf_locked a x).symm.trans hx)

/-- A lock on a node whose counter does not wrap around. -/
theorem StubsBut.locked {a : Nat} {l : UInt32} (h : t.StubsBut (some a))
    (hl : t.lockOf a = some l) (hwp : l ≠ 0xffffffff) : (t.locked a).StubsBut none := by
  intro x _ hx
  rw [lockOf_locked] at hx
  rw [tree_locked]
  split at hx
  next heq =>
    rw [heq, hl, map_some, some_inj] at hx
    refine absurd ?_ hwp
    have : l = l + 1 - 1 := by simp
    rw [this, hx]
    rfl
  next hne => exact h x (fun heq => hne (Option.some.inj heq)) hx

theorem StubsBut.mono {except : Option Nat} (h : t.StubsBut none) : t.StubsBut except :=
  fun x _ => h x (by simp)

/-- The table after the new node is hung into a slot. -/
def hung (t : RouteTable size ι) (slot : Slot) (new : Nat) : RouteTable size ι :=
  match slot with
  | none => { t with top := some new }
  | some (m, b) => t.link m b new

theorem prefixOf_hung (t : RouteTable size ι) (slot : Slot) (new x : Nat) :
    (t.hung slot new).prefixOf x = t.prefixOf x := by
  rcases slot with _ | ⟨m, b⟩
  · rfl
  · exact t.prefixOf_link m b new x

theorem lockOf_hung (t : RouteTable size ι) (slot : Slot) (new x : Nat) :
    (t.hung slot new).lockOf x = t.lockOf x := by
  rcases slot with _ | ⟨m, b⟩
  · rfl
  · exact t.lockOf_link m b new x

theorem entry_hung (t : RouteTable size ι) (slot : Slot) (new x : Nat) :
    (t.hung slot new).entry x = t.entry x := by
  rcases slot with _ | ⟨m, b⟩
  · rfl
  · exact t.entry_link m b new x

theorem next_hung (t : RouteTable size ι) (slot : Slot) (new : Nat) :
    (t.hung slot new).next = t.next := by
  rcases slot with _ | ⟨m, b⟩ <;> rfl

theorem exists_bits {a : Nat} {k : List Bool} (h : t.tree.key a = some k) :
    ∃ p, t.prefixOf a = some p ∧ p.bits = k := by
  rw [key_eq] at h
  exact Option.map_eq_some_iff.mp h

theorem tree_hung {slot : Slot} {new : Nat} {p : NetPrefix size}
    (hnw : t.prefixOf new = some p) (hpr : t.tree.parent new = none)
    (hft : t.tree.Fits slot p.bits) :
    (t.hung slot new).tree = { t.tree with
      parent := Function.update t.tree.parent new slot.cell
      read := Function.update t.tree.read slot (some new) } := by
  rcases slot with _ | ⟨m, b⟩
  · have hsm : Function.update t.tree.parent new none = t.tree.parent :=
      update_eq_self_iff.mpr hpr.symm
    rw [hung, tree_setTop]
    exact congrArg (Tree.mk t.tree.key · _) hsm.symm
  · obtain ⟨l, hl, -⟩ := hft m b rfl
    obtain ⟨pm, hm, -⟩ := exists_bits hl
    exact tree_link hm hnw b

end RouteTable

variable {p : NetPrefix size}

theorem routeLockNode_ok {a : Nat} (h : t.prefixOf a = some p) :
    routeLockNode a t = .ok ((), t.locked a) :=
  updateNode_ok h _

theorem hang_ok {slot : Slot} {new : Nat}
    (hnw : t.prefixOf new = some p) (hft : t.tree.Fits slot p.bits) :
    hang slot.cell new t = .ok ((), t.hung slot new) := by
  rcases slot with _ | ⟨m, b⟩
  · rfl
  · obtain ⟨l, hl, hlg⟩ := hft m b rfl
    obtain ⟨pm, hm, rfl⟩ := t.exists_bits hl
    have hbit := prefixBit_next hlg
    rw [hung, ← hbit]
    exact setLink_ok hm hnw

/-! ## A new leaf -/

section

variable {p : NetPrefix size} {slot : Slot}

/-- A leaf for `p` in a slot. -/
def RouteTable.leaf (t : RouteTable size ι) (slot : Slot) (p : NetPrefix size) :
    RouteTable size ι :=
  (t.alloc p).hung slot t.next

theorem RouteTable.prefixOf_alloc_next (t : RouteTable size ι) (p : NetPrefix size) :
    (t.alloc p).prefixOf t.next = some p := by
  rw [prefixOf_alloc, update_self]

section

variable (hfr : t.Fresh)
include hfr

theorem RouteTable.fits_alloc {q : NetPrefix size} {k : List Bool}
    (hft : t.tree.Fits slot k) : (t.alloc q).tree.Fits slot k := by
  refine hft.mono fun m l _ hl => ?_
  rw [tree_alloc hfr.next]
  exact (update_of_ne (RadixTree.ne_of_fresh hfr.key_next hl) _ _).trans hl

theorem RouteTable.parent_alloc (q : NetPrefix size) : (t.alloc q).tree.parent t.next = none := by
  rw [tree_alloc hfr.next, tree_parent, hfr.next, Option.bind_none]

theorem RouteTable.tree_leaf (hft : t.tree.Fits slot p.bits) :
    (t.leaf slot p).tree = t.tree.addLeaf slot t.next p.bits := by
  rw [leaf, tree_hung (t.prefixOf_alloc_next p) (parent_alloc hfr p)
    (fits_alloc hfr hft), tree_alloc hfr.next]
  rfl

theorem RouteTable.Fresh.leaf : (t.leaf slot p).Fresh := by
  intro x q hx
  rw [RouteTable.leaf, prefixOf_hung, prefixOf_alloc, update_apply] at hx
  rw [RouteTable.leaf, next_hung]
  split at hx
  next heq => exact heq ▸ Nat.lt_succ_self _
  · exact (hfr x q hx).trans (Nat.lt_succ_self _)

end

theorem RouteTable.lockOf_leaf (t : RouteTable size ι) (slot : Slot)
    (p : NetPrefix size) (x : Nat) :
    (t.leaf slot p).lockOf x = Function.update t.lockOf t.next (some 0) x := by
  rw [leaf, lockOf_hung, lockOf_alloc]

theorem RouteTable.entry_leaf (hfr : t.Fresh) (x : Nat) : (t.leaf slot p).entry x = t.entry x := by
  rw [leaf, entry_hung, entry_alloc hfr.next]

theorem RouteTable.stubs_leaf (hfr : t.Fresh) (hft : t.tree.Fits slot p.bits)
    (h : ∀ x, t.lockOf x = some 0 → ∀ b, some (x, b) ≠ slot → t.tree.read (some (x, b)) ≠ none) :
    (t.leaf slot p).StubsBut (some t.next) := by
  intro x hx hlo b
  have hne : x ≠ t.next := fun heq => hx (congrArg some heq)
  rw [lockOf_leaf, update_of_ne hne] at hlo
  rw [tree_leaf hfr hft, RadixTree.Tree.addLeaf_read, update_apply]
  split
  · exact some_ne_none _
  next hsl => exact h x hlo b hsl

theorem RouteTable.leaf_inv (hshp : Shape t.tree) (hfr : t.Fresh)
    (hsl : t.tree.read slot = none) (hft : t.tree.Fits slot p.bits)
    (hstb : ∀ x, t.lockOf x = some 0 → ∀ b, some (x, b) ≠ slot → t.tree.read (some (x, b)) ≠ none) :
    TableInv ((t.leaf slot p).locked t.next) where
  shape := by
    rw [tree_locked, tree_leaf hfr hft]
    exact hshp.addLeaf hfr.key_next hsl hft
  fresh := hfr.leaf.locked _
  stubs := by
    refine (stubs_leaf hfr hft hstb).locked (l := 0) ?_ (by decide)
    rw [lockOf_leaf, update_self]

end

/-! ## A node on an edge -/

section

variable {c q : NetPrefix size} {slot : Slot} {a : Nat} {b : Bool}

/-- A node for `c` between a slot and the node `a` in it. -/
def RouteTable.spliced (t : RouteTable size ι) (slot : Slot) (c : NetPrefix size)
    (a : Nat) (b : Bool) : RouteTable size ι :=
  ((t.alloc c).link t.next b a).hung slot t.next

section

variable (hfr : t.Fresh)
include hfr

theorem RouteTable.prefixOf_alloc_old {x : Nat}
    (hx : t.prefixOf x = some q) : (t.alloc c).prefixOf x = some q := by
  rw [prefixOf_alloc, update_of_ne (hfr x q hx).ne, hx]

theorem RouteTable.fits_link {k : List Bool}
    (ha : t.prefixOf a = some q) (hft : t.tree.Fits slot k) :
    ((t.alloc c).link t.next b a).tree.Fits slot k := by
  rw [tree_link (t.prefixOf_alloc_next c) (prefixOf_alloc_old hfr ha)]
  exact (fits_alloc hfr hft).mono fun _ _ _ hl => hl

theorem RouteTable.tree_spliced (ha : t.prefixOf a = some q) (hft : t.tree.Fits slot c.bits) :
    (t.spliced slot c a b).tree = t.tree.splice slot t.next c.bits a b := by
  have hne : a ≠ t.next := (hfr a q ha).ne
  have hsl : slot ≠ some (t.next, b) := by
    rintro rfl
    obtain ⟨l, hl, -⟩ := hft t.next b rfl
    cases hl.symm.trans hfr.key_next
  have htr := tree_link (t.prefixOf_alloc_next c) (prefixOf_alloc_old hfr ha) b
  have hpr : ((t.alloc c).link t.next b a).tree.parent t.next = none := by
    rw [htr]
    exact (update_of_ne hne.symm _ _).trans (parent_alloc hfr c)
  rw [spliced, tree_hung ((prefixOf_link _ _ _ _ _).trans (t.prefixOf_alloc_next c)) hpr
    (fits_link hfr ha hft), htr, tree_alloc hfr.next]
  simp only [RadixTree.Tree.splice]
  rw [update_comm hne, update_comm hsl]

theorem RouteTable.Fresh.spliced : (t.spliced slot c a b).Fresh := by
  intro x r hx
  rw [RouteTable.spliced, prefixOf_hung, prefixOf_link, prefixOf_alloc, update_apply] at hx
  rw [RouteTable.spliced, next_hung]
  split at hx
  next heq =>
    rw [heq]
    exact Nat.lt_succ_self _
  · exact (hfr x r hx).trans (Nat.lt_succ_self _)

end

theorem RouteTable.lockOf_spliced (t : RouteTable size ι) (slot : Slot)
    (c : NetPrefix size) (a : Nat) (b : Bool) (x : Nat) :
    (t.spliced slot c a b).lockOf x = Function.update t.lockOf t.next (some 0) x := by
  rw [spliced, lockOf_hung, lockOf_link, lockOf_alloc]

theorem RouteTable.entry_spliced (hfr : t.Fresh) (x : Nat) :
    (t.spliced slot c a b).entry x = t.entry x := by
  rw [spliced, entry_hung, entry_link, entry_alloc hfr.next]

/-- The new node is the only stub that may lack a child. -/
theorem RouteTable.stubs_spliced (h : TableInv t) (ha : t.prefixOf a = some q)
    (hft : t.tree.Fits slot c.bits) : (t.spliced slot c a b).StubsBut (some t.next) := by
  intro x hx hlo b'
  have hne : x ≠ t.next := fun heq => hx (congrArg some heq)
  rw [lockOf_spliced, update_of_ne hne] at hlo
  rw [tree_spliced h.fresh ha hft, RadixTree.Tree.splice_read,
    update_of_ne fun heq => hne (Prod.mk.inj (Option.some.inj heq)).1, update_apply]
  split
  · exact some_ne_none _
  · exact h.stubs x (by simp) hlo b'

end

/-! ## `route_node_get` -/

theorem prefix_routeCommon {n p : NetPrefix size} {k : List Bool}
    (h : ¬ n.bits <+: p.bits) (hn : k <+: n.bits) (hp : k <+: p.bits) :
    k <+: (routeCommon n p).bits := by
  obtain ⟨hlg, he⟩ := routeCommon_bits h
  rcases he with ⟨heq, -⟩ | ⟨-, hpart⟩
  · rwa [heq]
  · rcases prefix_or_prefix_of_prefix hp ((prefix_append _ _).trans hpart) with
      hle | hge
    · exact hle
    · by_cases hlen : k.length ≤ (routeCommon n p).bits.length
      · exact (hge.eq_of_length (le_antisymm hge.length_le hlen)) ▸ prefix_rfl
      · -- the next bit of `k` would be a bit of both
        have hsh : ∀ b, ((routeCommon n p).bits ++ [b]).length ≤ k.length := by
          intro b
          rw [length_append]
          exact Nat.lt_of_not_le hlen
        have hbit := RadixTree.bit_eq (prefix_of_prefix_length_le hlg hn (hsh _))
          (prefix_of_prefix_length_le hpart hp (hsh _))
        exact absurd hbit (by simp)

/-- What the operations that only move nodes keep, and the node they return. -/
structure GetDone (t : RouteTable size ι) (p : NetPrefix size) (a : Nat)
    (t' : RouteTable size ι) : Prop where
  inv : TableInv t'
  key : t'.tree.key a = some p.bits
  entry : ∀ x, t'.entry x = t.entry x

variable {p : NetPrefix size}

theorem getFound_done (h : TableInv t) {a : Nat}
    (hky : t.tree.key a = some p.bits) (hwp : t.lockOf a ≠ some 0xffffffff) :
    GetDone t p a (t.locked a) where
  inv := by
    obtain ⟨node, hnd, -⟩ := Option.map_eq_some_iff.mp hky
    have hlo : t.lockOf a = some node.lock := by rw [lockOf, hnd, map_some]
    exact ⟨t.tree_locked a ▸ h.shape, h.fresh.locked a,
      h.stubs.mono.locked hlo fun heq => hwp (heq ▸ hlo)⟩
  key := t.tree_locked a ▸ hky
  entry := t.entry_locked a

theorem getLeaf_done {slot : Slot} (hshp : Shape t.tree)
    (hfr : t.Fresh) (hsl : t.tree.read slot = none) (hft : t.tree.Fits slot p.bits)
    (hstb : ∀ x, t.lockOf x = some 0 → ∀ b, some (x, b) ≠ slot → t.tree.read (some (x, b)) ≠ none) :
    GetDone t p t.next ((t.leaf slot p).locked t.next) where
  inv := leaf_inv hshp hfr hsl hft hstb
  key := by
    rw [tree_locked, tree_leaf hfr hft]
    exact update_self _ _ _
  entry := fun x => (entry_locked _ _ x).trans (entry_leaf hfr x)

theorem addLeaf_run {slot : Slot} (hfr : t.Fresh) (hft : t.tree.Fits slot p.bits) :
    (do
      let new ← routeNodeSet p
      hang slot.cell new
      routeLockNode new
      return new : TableM size ι Nat) t
      = .ok (t.next, (t.leaf slot p).locked t.next) := by
  have hnw : (t.leaf slot p).prefixOf t.next = some p :=
    (prefixOf_hung _ _ _ _).trans (t.prefixOf_alloc_next p)
  rw [routeNodeSet_bind, FaultM.bind_ok (hang_ok (t.prefixOf_alloc_next p)
    (fits_alloc hfr hft))]
  exact FaultM.bind_ok (routeLockNode_ok hnw)

section

variable {p q : NetPrefix size} {slot : Slot} {a : Nat} (h : TableInv t)
  (hrd : t.tree.read slot = some a) (ha : t.prefixOf a = some q) (hsp : StopsAt t p slot)
include h hrd ha hsp

/-- The common prefix fits into the slot. -/
theorem routeCommon_fits : t.tree.Fits slot (routeCommon q p).bits := by
  intro m b hsl
  obtain ⟨l, hl, hlg⟩ := hsp.fits m b hsl
  obtain ⟨-, k, hk, hft⟩ := h.shape.held hrd
  rw [key_eq, ha, map_some, some_inj] at hk
  obtain ⟨l', hl', hlg'⟩ := hft m b hsl
  cases hl.symm.trans hl'
  exact ⟨l, hl, prefix_routeCommon (hsp.apart a q hrd ha) (hk ▸ hlg') hlg⟩

theorem getSplice_shape :
    Shape (t.spliced slot (routeCommon q p) a (prefixBit q (routeCommon q p).prefixlen)).tree := by
  have hft := routeCommon_fits h hrd ha hsp
  have hky : t.tree.key a = some q.bits := by rw [key_eq, ha, map_some]
  rw [tree_spliced h.fresh ha hft]
  exact h.shape.splice h.fresh.key_next hrd hft hky (routeCommon_bits (hsp.apart a q hrd ha)).1

/-- The table with the node for the common prefix. -/
def RouteTable.parted (t : RouteTable size ι) (slot : Slot) (p q : NetPrefix size)
    (a : Nat) : RouteTable size ι :=
  t.spliced slot (routeCommon q p) a (prefixBit q (routeCommon q p).prefixlen)

/-- The common prefix is `p` itself. -/
theorem getPart_done (hlen : (routeCommon q p).prefixlen = p.prefixlen) :
    GetDone t p t.next ((t.parted slot p q a).locked t.next) := by
  have hft := routeCommon_fits h hrd ha hsp
  have hbt : (routeCommon q p).bits = p.bits := by
    obtain ⟨-, ⟨heq, -⟩ | ⟨hlt, -⟩⟩ := routeCommon_bits (hsp.apart a q hrd ha)
    · exact heq
    · exact absurd hlen hlt.ne
  refine ⟨⟨?_, h.fresh.spliced.locked _, ?_⟩, ?_, fun x => ?_⟩
  · rw [tree_locked]
    exact getSplice_shape h hrd ha hsp
  · refine (stubs_spliced h ha hft).locked (l := 0) ?_ (by decide)
    rw [parted, lockOf_spliced, update_self]
  · rw [tree_locked, parted,
      tree_spliced h.fresh ha hft, RadixTree.Tree.splice_key, update_self, hbt]
  · exact (entry_locked _ _ x).trans (entry_spliced h.fresh x)

theorem getFork_done (hlen : (routeCommon q p).prefixlen ≠ p.prefixlen)
    {t1 : RouteTable size ι} (ht1 : t1 = t.parted slot p q a) :
    let fork : Slot := some (t.next, !prefixBit q (routeCommon q p).prefixlen)
    t1.tree.Fits fork p.bits ∧ GetDone t p t1.next ((t1.leaf fork p).locked t1.next) := by
  have hft := routeCommon_fits h hrd ha hsp
  have hpart : (routeCommon q p).bits ++ [!prefixBit q (routeCommon q p).prefixlen] <+: p.bits := by
    obtain ⟨-, ⟨-, heq⟩ | ⟨-, hpart⟩⟩ := routeCommon_bits (hsp.apart a q hrd ha)
    · exact absurd heq hlen
    · exact hpart
  have htr : t1.tree = t.tree.splice slot t.next (routeCommon q p).bits a
      (prefixBit q (routeCommon q p).prefixlen) := by
    rw [ht1]
    exact tree_spliced h.fresh ha hft
  have hfork : t1.tree.Fits (some (t.next, !prefixBit q (routeCommon q p).prefixlen))
      p.bits := by
    rintro m b ⟨⟩
    rw [htr, RadixTree.Tree.splice_key, update_self]
    exact ⟨_, rfl, hpart⟩
  have hemp : t1.tree.read (some (t.next, !prefixBit q (routeCommon q p).prefixlen)) = none := by
    have hsl : some (t.next, !prefixBit q (routeCommon q p).prefixlen) ≠ slot := by
      rintro rfl
      cases hrd.symm.trans (h.shape.read_fresh h.fresh.key_next rfl)
    rw [htr, RadixTree.Tree.splice_read, update_of_ne (by simp), update_of_ne hsl]
    exact h.shape.read_fresh h.fresh.key_next rfl
  have hstb : ∀ x, t1.lockOf x = some 0 → ∀ b,
      some (x, b) ≠ some (t.next, !prefixBit q (routeCommon q p).prefixlen) →
      t1.tree.read (some (x, b)) ≠ none := by
    intro x hx b hb
    by_cases hne : x = t.next
    · subst hne
      have hbit : b = prefixBit q (routeCommon q p).prefixlen :=
        Bool.ne_not.mp fun heq => hb (by rw [heq])
      rw [htr, RadixTree.Tree.splice_read, hbit, update_self]
      exact some_ne_none _
    · rw [ht1] at hx ⊢
      exact stubs_spliced h ha hft x (by simpa using hne) hx b
  have hshp : Shape t1.tree := ht1 ▸ getSplice_shape h hrd ha hsp
  have hdn := getLeaf_done hshp (ht1 ▸ h.fresh.spliced) hemp hfork hstb
  refine ⟨hfork, hdn.inv, hdn.key, fun x => (hdn.entry x).trans ?_⟩
  rw [ht1]
  exact entry_spliced h.fresh x

end

/-- `route_node_get` returns a node with the prefix and keeps the entries. -/
theorem routeNodeGet_spec (h : TableInv t) (p : NetPrefix size)
    (hwp : ∀ a, t.tree.key a = some p.bits → t.lockOf a ≠ some 0xffffffff) :
    ∃ a t', routeNodeGet p t = .ok (a, t') ∧ GetDone t p a t' := by
  obtain ⟨r, hwk, hen⟩ := getWalk_spec h.shape (.start t p)
  have hr : ∀ f : GetWalk → TableM size ι Nat,
      (getWalk p (p.prefixlen + 2) none t.top >>= f) t = f r t := fun f =>
    FaultM.bind_ok hwk
  rw [routeNodeGet, FaultM.get_bind, hr]
  rcases r with a | ⟨parent, _ | a⟩
  · obtain ⟨q, hq, -⟩ := t.exists_bits hen
    refine ⟨a, t.locked a, ?_, getFound_done h hen (hwp a hen)⟩
    exact FaultM.bind_ok (routeLockNode_ok hq)
  · obtain ⟨slot, rfl, hrd, hsp⟩ := hen
    exact ⟨t.next, _, addLeaf_run h.fresh hsp.fits,
      getLeaf_done h.shape h.fresh hrd hsp.fits fun x hx b _ => h.stubs x (by simp) hx b⟩
  · obtain ⟨slot, rfl, hrd, hsp⟩ := hen
    obtain ⟨node, hnd, -⟩ := exists_node_of_read h.shape hrd
    have ha : t.prefixOf a = some node.p := by rw [prefixOf, hnd, map_some]
    have hft := routeCommon_fits h hrd ha hsp
    have hnw : (t.parted slot p node.p a).prefixOf t.next = some (routeCommon node.p p) :=
      (prefixOf_hung _ _ _ _).trans
        ((prefixOf_link _ _ _ _ _).trans (t.prefixOf_alloc_next _))
    obtain ⟨new, hnd', hp⟩ := exists_node hnw
    have hhang : hang slot.cell t.next ((t.alloc (routeCommon node.p p)).link t.next
        (prefixBit node.p (routeCommon node.p p).prefixlen) a)
        = .ok ((), t.parted slot p node.p a) :=
      hang_ok ((prefixOf_link _ _ _ _ _).trans (t.prefixOf_alloc_next _))
        (fits_link h.fresh ha hft)
    simp only [nodeAt_bind hnd, routeNodeSet_bind]
    rw [FaultM.bind_ok (setLink_ok (t.prefixOf_alloc_next _)
        (prefixOf_alloc_old h.fresh ha)),
      FaultM.bind_ok hhang, FaultM.bind_ok (nodeAt_ok hnd'), hp]
    split
    next hlen =>
      obtain ⟨hfork, hdn⟩ := getFork_done h hrd ha hsp hlen rfl
      exact ⟨_, _, addLeaf_run h.fresh.spliced hfork, hdn⟩
    next hlen =>
      exact ⟨_, _, FaultM.bind_ok (routeLockNode_ok hnw),
        getPart_done h hrd ha hsp (not_ne_iff.mp hlen)⟩

end SdnQuagga
