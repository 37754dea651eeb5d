import SdnQuagga.RouteTableGet

/-!
# Taking nodes out of a routing table

`route_node_delete` replaces a node with at most one child by that child and
goes on with the parent if nothing but the deleted node kept it. The only node
that may lack a child without a lock is the one it is called for; when it
returns there is none. It stops at an `assert` only where a node without a lock
has an info.
-/

namespace SdnQuagga

open Function Option RouteTable
open RadixTree (Slot Tree Shape Below)

variable {size : Nat} {ι : Type} {t : RouteTable size ι}

namespace RouteTable

/-! ## The tables in between -/

theorem update_congr {a : Nat} {node : RouteNode size ι} (h : t.nodes a = some node)
    {f g : RouteNode size ι → RouteNode size ι} (hfg : f node = g node) :
    t.update a f = t.update a g := by
  rw [update, update, h, map_some, map_some, hfg]

variable (t) (child parent : Option Nat)

/-- The child with its new parent. -/
def adopted : RouteTable size ι :=
  match child with
  | none => t
  | some c => t.update c fun n => { n with parent := parent }

variable (slot : Slot)

/-- A slot with another pointer in it. -/
def repointed (child : Option Nat) :
    RouteTable size ι :=
  match slot with
  | none => { t with top := child }
  | some (m, b) => t.update m fun n => { n with link := Function.update n.link b child }

variable (a : Nat)

def freed : RouteTable size ι :=
  { t with nodes := Function.update t.nodes a none }

/-- The table after a node is taken out. -/
def unlinked (child : Option Nat) :
    RouteTable size ι :=
  ((t.adopted child slot.cell).repointed slot child).freed a

variable (x : Nat)

theorem prefixOf_adopted : (t.adopted child parent).prefixOf x = t.prefixOf x := by
  rcases child with _ | c
  · rfl
  · exact prefixOf_update (by intro n; rfl) x

theorem lockOf_adopted : (t.adopted child parent).lockOf x = t.lockOf x := by
  rcases child with _ | c
  · rfl
  · exact lockOf_update (by intro n; rfl) x

theorem entry_adopted : (t.adopted child parent).entry x = t.entry x := by
  rcases child with _ | c
  · rfl
  · exact entry_update (by intro n; exact ⟨rfl, rfl⟩) x

theorem prefixOf_repointed (child : Option Nat)
    (x : Nat) : (t.repointed slot child).prefixOf x = t.prefixOf x := by
  rcases slot with _ | ⟨m, b⟩
  · rfl
  · exact prefixOf_update (by intro n; rfl) x

theorem lockOf_repointed (child : Option Nat)
    (x : Nat) : (t.repointed slot child).lockOf x = t.lockOf x := by
  rcases slot with _ | ⟨m, b⟩
  · rfl
  · exact lockOf_update (by intro n; rfl) x

theorem entry_repointed (child : Option Nat)
    (x : Nat) : (t.repointed slot child).entry x = t.entry x := by
  rcases slot with _ | ⟨m, b⟩
  · rfl
  · exact entry_update (by intro n; exact ⟨rfl, rfl⟩) x

theorem prefixOf_freed (a x : Nat) :
    (t.freed a).prefixOf x = if x = a then none else t.prefixOf x := by
  simp only [freed, prefixOf, update_apply]
  split <;> rfl

theorem lockOf_freed (a x : Nat) : (t.freed a).lockOf x = if x = a then none else t.lockOf x := by
  simp only [freed, lockOf, update_apply]
  split <;> rfl

theorem entry_freed (a x : Nat) : (t.freed a).entry x = if x = a then none else t.entry x := by
  simp only [freed, entry, update_apply]
  split <;> rfl

theorem prefixOf_unlinked (child : Option Nat) (x : Nat) :
    (t.unlinked slot a child).prefixOf x = if x = a then none else t.prefixOf x := by
  rw [unlinked, prefixOf_freed, prefixOf_repointed, prefixOf_adopted]

theorem lockOf_unlinked (child : Option Nat) (x : Nat) :
    (t.unlinked slot a child).lockOf x = if x = a then none else t.lockOf x := by
  rw [unlinked, lockOf_freed, lockOf_repointed, lockOf_adopted]

variable {t}

theorem entry_unlinked {a : Nat} (ha : t.entry a = none) (slot : Slot)
    (child : Option Nat) (x : Nat) : (t.unlinked slot a child).entry x = t.entry x := by
  rw [unlinked, entry_freed, entry_repointed, entry_adopted]
  split
  next hx => rw [hx, ha]
  · rfl

theorem next_unlinked (t : RouteTable size ι) (slot : Slot) (a : Nat)
    (child : Option Nat) : (t.unlinked slot a child).next = t.next := by
  rcases slot with _ | ⟨m, b⟩ <;> rcases child with _ | c <;> rfl

theorem Fresh.unlinked (h : t.Fresh) (slot : Slot) (a : Nat) (child : Option Nat) :
    (t.unlinked slot a child).Fresh := by
  intro x p hx
  rw [prefixOf_unlinked] at hx
  rw [next_unlinked]
  split at hx
  · cases hx
  · exact h x p hx

variable {child : Option Nat}

theorem tree_adopted (parent : Option Nat)
    (hchd : ∀ c, child = some c → ∃ p, t.prefixOf c = some p) :
    (t.adopted child parent).tree = { t.tree with
      parent := fun y => if some y = child then parent else t.tree.parent y } := by
  rcases child with _ | c
  · simp only [adopted, reduceCtorEq, if_false]
  · obtain ⟨p, hp⟩ := hchd c rfl
    obtain ⟨node, hnd, -⟩ := t.exists_node hp
    rw [adopted, tree_setParent hnd]
    refine congrArg (Tree.mk t.tree.key · t.tree.read) (funext fun y => ?_)
    simp only [update_apply, some_inj]

theorem tree_repointed {slot : Slot} (child : Option Nat)
    (hsl : ∀ m b, slot = some (m, b) → ∃ p, t.prefixOf m = some p) :
    (t.repointed slot child).tree
      = { t.tree with read := Function.update t.tree.read slot child } := by
  rcases slot with _ | ⟨m, b⟩
  · exact t.tree_setTop child
  · obtain ⟨p, hp⟩ := hsl m b rfl
    obtain ⟨node, hnd, -⟩ := t.exists_node hp
    exact tree_setLink hnd b child

theorem tree_freed (t : RouteTable size ι) (a : Nat) :
    (t.freed a).tree = {
      key := Function.update t.tree.key a none
      parent := Function.update t.tree.parent a none
      read := fun s => if s.cell = some a then none else t.tree.read s } := by
  ext s : 2
  · simp only [tree_key, freed, update_apply]
    split <;> rfl
  · simp only [tree_parent, freed, update_apply]
    split <;> rfl
  · rcases s with _ | ⟨m, b⟩
    · rfl
    · simp only [tree_read, freed, update_apply, Slot.cell, map_some, some_inj]
      split <;> rfl

theorem tree_unlinked {slot : Slot} {a : Nat}
    (hchd : ∀ c, child = some c → ∃ p, t.prefixOf c = some p)
    (hsl : ∀ m b, slot = some (m, b) → ∃ p, t.prefixOf m = some p) :
    (t.unlinked slot a child).tree = t.tree.unlink slot a child := by
  rw [unlinked, tree_freed, tree_repointed, tree_adopted slot.cell hchd]
  · rfl
  · intro m b hm
    rw [prefixOf_adopted]
    exact hsl m b hm

end RouteTable

/-! ## One node -/

section

variable {a : Nat} {node : RouteNode size ι} {slot : Slot}

theorem onlyChild_eq (h : ((node.link false).isSome && (node.link true).isSome) = false)
    {b : Bool} {x : Nat} (hx : node.link b = some x) : onlyChild node = some x := by
  unfold onlyChild
  cases b with
  | false => rw [hx, isSome_some, if_pos rfl]
  | true =>
    rw [hx, isSome_some, Bool.and_true] at h
    rw [h, if_neg Bool.false_ne_true, hx]

theorem onlyChild_link {x : Nat} (h : onlyChild node = some x) : ∃ b, node.link b = some x := by
  unfold onlyChild at h
  split at h
  · exact ⟨false, h⟩
  · exact ⟨true, h⟩

variable {child : Option Nat}

theorem adopt_ok (parent : Option Nat) (hchd : ∀ c, child = some c → ∃ p, t.prefixOf c = some p) :
    adopt child parent t = .ok ((), t.adopted child parent) := by
  rcases child with _ | c
  · rfl
  · obtain ⟨p, hp⟩ := hchd c rfl
    exact updateNode_ok hp _

theorem repoint_ok (hshp : Shape t.tree) (hrd : t.tree.read slot = some a)
    {t1 : RouteTable size ι} (hsm : t1.tree.read = t.tree.read) (child : Option Nat) :
    repoint slot.cell a child t1 = .ok ((), t1.repointed slot child) := by
  rcases slot with _ | ⟨m, b⟩
  · rfl
  · rw [← hsm] at hrd
    obtain ⟨md, hmd, hli⟩ := bind_eq_some_iff.mp hrd
    have hlv : t1.prefixOf m = some md.p := by rw [prefixOf, hmd, map_some]
    have ho : md.link false = some a → b = false := by
      intro hf
      have hsl := hshp.slot_eq (hsm ▸ hrd) (hsm ▸ (read_link hmd false).trans hf)
      exact (Prod.mk.inj (some.inj hsl)).2
    refine (updateNode_ok hlv _).trans ?_
    rw [repointed, update_congr hmd]
    cases b with
    | false => rw [if_pos hli]
    | true => rw [if_neg fun hf => absurd (ho hf) (by simp)]

theorem unlink_run (hshp : Shape t.tree) (hnd : t.nodes a = some node)
    (hce : slot.cell = node.parent) (hrd : t.tree.read slot = some a) {β : Type}
    (f : TableM size ι β) :
    (do
      adopt (onlyChild node) node.parent
      repoint node.parent a (onlyChild node)
      routeNodeFree a
      f : TableM size ι β) t = f (t.unlinked slot a (onlyChild node)) := by
  have hchd : ∀ c, onlyChild node = some c → ∃ p, t.prefixOf c = some p := by
    intro c hc
    obtain ⟨b, hb⟩ := onlyChild_link hc
    obtain ⟨-, k, -, hk, -⟩ := hshp.link ((read_link hnd b).trans hb)
    obtain ⟨p, hp, -⟩ := t.exists_bits hk
    exact ⟨p, hp⟩
  have hsm : (t.adopted (onlyChild node) slot.cell).tree.read = t.tree.read := by
    rw [tree_adopted slot.cell hchd]
  rw [← hce, FaultM.bind_ok (adopt_ok slot.cell hchd), FaultM.bind_ok (repoint_ok hshp hrd hsm _)]
  rfl

theorem unlinked_shape (hshp : Shape t.tree) (hnd : t.nodes a = some node)
    (hrd : t.tree.read slot = some a)
    (h1 : ((node.link false).isSome && (node.link true).isSome) = false) :
    (t.unlinked slot a (onlyChild node)).tree = t.tree.unlink slot a (onlyChild node)
      ∧ Shape (t.unlinked slot a (onlyChild node)).tree := by
  have hli : ∀ x, onlyChild node = some x → ∃ b, t.tree.read (some (a, b)) = some x := by
    intro x hx
    obtain ⟨b, hb⟩ := onlyChild_link hx
    exact ⟨b, (read_link hnd b).trans hb⟩
  have htr : (t.unlinked slot a (onlyChild node)).tree = t.tree.unlink slot a (onlyChild node) := by
    refine tree_unlinked (fun c hc => ?_) (fun m b hm => ?_)
    · obtain ⟨b, hb⟩ := hli c hc
      obtain ⟨-, k, -, hk, -⟩ := hshp.link hb
      obtain ⟨p, hp, -⟩ := t.exists_bits hk
      exact ⟨p, hp⟩
    · subst hm
      obtain ⟨l, -, hl, -, -⟩ := hshp.link hrd
      obtain ⟨p, hp, -⟩ := t.exists_bits hl
      exact ⟨p, hp⟩
  refine ⟨htr, htr ▸ hshp.unlink hrd (fun b x hx => ?_) hli⟩
  exact onlyChild_eq h1 ((read_link hnd b).symm.trans hx)

/-- Only the node above may have lost a child. -/
theorem unlinked_stubs (h : t.StubsBut (some a))
    (htr : (t.unlinked slot a child).tree = t.tree.unlink slot a child) :
    (t.unlinked slot a child).StubsBut slot.cell := by
  intro x hx hlo b
  rw [lockOf_unlinked] at hlo
  split at hlo
  · cases hlo
  next hne =>
    have hce : ¬ Slot.cell (some (x, b)) = some a := fun heq =>
      hne (some.inj heq)
    have hsl : some (x, b) ≠ slot := fun heq => hx (heq ▸ rfl)
    rw [htr, RadixTree.Tree.unlink_read, if_neg hce, update_of_ne hsl]
    exact h x (fun heq => hne (some.inj heq)) hlo b

end

/-! ## The nodes above -/

/-- What `route_node_delete` does: it stops at an `assert` because of an info
without a lock, or it leaves no stub. -/
def DeleteDone (t : RouteTable size ι) : Except Fault (Unit × RouteTable size ι) → Prop
  | .error e => e = .assertion ∧ ∃ x, t.lockOf x = some 0 ∧ (t.entry x).isSome
  | .ok (_, t') => TableInv t' ∧ ∀ x, t'.entry x = t.entry x

theorem DeleteDone.mono {t1 : RouteTable size ι}
    {r : Except Fault (Unit × RouteTable size ι)} (h : DeleteDone t1 r)
    (hlo : ∀ x, t1.lockOf x = some 0 → t.lockOf x = some 0)
    (hen : ∀ x, t1.entry x = t.entry x) : DeleteDone t r := by
  rcases r with e | ⟨u, t'⟩
  · obtain ⟨he, x, hx, hif⟩ := h
    exact ⟨he, x, hlo x hx, hen x ▸ hif⟩
  · exact ⟨h.1, fun x => (h.2 x).trans (hen x)⟩

theorem routeNodeDelete_spec {depth : Nat} : ∀ {t : RouteTable size ι} {a node}, Shape t.tree →
    t.Fresh → t.StubsBut (some a) → t.nodes a = some node → node.lock = 0 →
    node.p.prefixlen < depth →
    DeleteDone t (routeNodeDelete depth a t) := by
  induction depth with
  | zero => exact fun _ _ _ _ _ hdep => absurd hdep (Nat.not_lt_zero _)
  | succ depth ih =>
    intro t a node hshp hfr hstb hnd hlo hdep
    have hlockOf : t.lockOf a = some 0 := by rw [lockOf, hnd, map_some, hlo]
    rw [routeNodeDelete, nodeAt_bind hnd, if_neg (not_not_intro hlo)]
    split
    next hif =>
      obtain ⟨v, hv⟩ := isSome_iff_exists.mp hif
      have hen := entry_eq_some.mpr ⟨node, hnd, rfl, hv⟩
      exact ⟨rfl, a, hlockOf, hen ▸ rfl⟩
    next hif =>
      have hen : t.entry a = none := by
        rw [entry, hnd, bind_some, not_isSome_iff_eq_none.mp hif, map_none]
      split
      next hbo =>
        refine ⟨⟨hshp, hfr, fun x _ hx b => ?_⟩, fun _ => rfl⟩
        by_cases hne : x = a
        · subst hne
          rw [Bool.and_eq_true] at hbo
          rw [read_link hnd, ← isSome_iff_ne_none]
          cases b with
          | false => exact hbo.1
          | true => exact hbo.2
        · exact hstb x (fun heq => hne (some.inj heq)) hx b
      next h1 =>
        have hky := key_of_node hnd
        obtain ⟨slot, hce, hrd⟩ := hshp.holder hky
        rw [tree_parent, hnd, bind_some] at hce
        obtain ⟨htr, hshp'⟩ := unlinked_shape hshp hnd hrd (Bool.not_eq_true _ ▸ h1)
        have hstb' := unlinked_stubs hstb htr
        have hfr' := hfr.unlinked slot a (onlyChild node)
        have hents := t.entry_unlinked hen slot (onlyChild node)
        rw [unlink_run hshp hnd hce hrd]
        rcases slot with _ | ⟨m, b⟩
        · rw [← hce]
          exact ⟨⟨hshp', hfr', hstb'⟩, hents⟩
        · obtain ⟨l, k, hl, hk, hlg⟩ := hshp.link hrd
          obtain ⟨pm, hm, rfl⟩ := t.exists_bits hl
          cases hky.symm.trans hk
          have hlt : pm.prefixlen < node.p.prefixlen := by simpa using RadixTree.length_lt hlg
          have hne : m ≠ a := by
            rintro rfl
            rw [prefixOf, hnd, map_some, some_inj] at hm
            exact absurd hlt (by rw [hm]; exact lt_irrefl _)
          have hm' : (t.unlinked (some (m, b)) a (onlyChild node)).prefixOf m = some pm := by
            rw [prefixOf_unlinked, if_neg hne, hm]
          obtain ⟨md, hmd, rfl⟩ := exists_node hm'
          rw [← hce]
          simp only [Slot.cell, map_some, nodeAt_bind hmd]
          split
          next hz =>
            refine (ih hshp' hfr' hstb' hmd hz (by omega)).mono ?_ hents
            intro x hx
            rw [lockOf_unlinked] at hx
            split at hx
            · cases hx
            · exact hx
          next hlocked =>
            refine ⟨⟨hshp', hfr', fun x _ hx b' => ?_⟩, hents⟩
            by_cases hxm : x = m
            · rw [hxm, lockOf, hmd, map_some, some_inj] at hx
              exact absurd hx hlocked
            · exact hstb' x (fun heq => hxm (some.inj heq)) hx b'

/-! ## `route_unlock_node` -/

variable (t)

/-- The table with one lock less on a node. -/
def RouteTable.unlocked (a : Nat) : RouteTable size ι :=
  t.update a fun n => { n with lock := n.lock - 1 }

theorem RouteTable.entry_unlocked (a x : Nat) : (t.unlocked a).entry x = t.entry x :=
  entry_update (by intro n; exact ⟨rfl, rfl⟩) x

variable {t}

theorem routeUnlockNode_spec (h : TableInv t) {a : Nat} {node : RouteNode size ι}
    (hnd : t.nodes a = some node) : DeleteDone (t.unlocked a) (routeUnlockNode a t) := by
  have hlv : t.prefixOf a = some node.p := by rw [prefixOf, hnd, map_some]
  have htr : (t.unlocked a).tree = t.tree := tree_update fun _ => ⟨rfl, rfl, rfl⟩
  have hfr : (t.unlocked a).Fresh := fun x p hx =>
    h.fresh x p ((prefixOf_update (by intro n; rfl) x).symm.trans hx)
  have hnd' : (t.unlocked a).nodes a = some { node with lock := node.lock - 1 } := by
    rw [unlocked, nodes_update, if_pos rfl, hnd, map_some]
  have hstb : (t.unlocked a).StubsBut (some a) := by
    intro x hx hlo b
    have hne : x ≠ a := fun heq => hx (congrArg some heq)
    rw [lockOf, unlocked, nodes_update, if_neg hne] at hlo
    rw [htr]
    exact h.stubs x (by simp) hlo b
  have hr : ∀ f : Unit → TableM size ι Unit,
      (updateNode a (fun n => { n with lock := n.lock - 1 }) >>= f) t
        = f () (t.unlocked a) := fun f => FaultM.bind_ok (updateNode_ok hlv _)
  rw [routeUnlockNode, hr, nodeAt_bind hnd']
  split
  next hz => exact routeNodeDelete_spec (htr ▸ h.shape) hfr hstb hnd' hz (Nat.lt_succ_self _)
  next hlocked =>
    refine ⟨⟨htr ▸ h.shape, hfr, fun x _ hx b => ?_⟩, fun _ => rfl⟩
    by_cases hne : x = a
    · rw [hne, lockOf, hnd', map_some, some_inj] at hx
      exact absurd hx hlocked
    · exact hstb x (fun heq => hne (some.inj heq)) hx b

end SdnQuagga
