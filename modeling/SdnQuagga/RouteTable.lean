import SdnQuagga.FaultM
import SdnQuagga.RoutePrefix

/-!
# Routing tables

`lib/table.c`: a radix tree of prefixes with parent pointers and a lock count
for each node. A node stays in the tree while it is locked or has two children;
the last unlock takes it out, and the nodes above it that are no longer needed.

Nodes are kept by address.
-/

namespace SdnQuagga

open Function Option
open RadixTree (Slot Tree Shape Below)

/-- `struct route_node`; `link` by the bit that follows the prefix. -/
structure RouteNode (size : Nat) (ι : Type) where
  p : NetPrefix size
  parent : Option Nat
  link : Bool → Option Nat
  lock : UInt32
  info : Option ι

/-- `struct route_table` with the nodes in memory; `next` is the address of the
next node that is allocated. -/
structure RouteTable (size : Nat) (ι : Type) where
  top : Option Nat
  nodes : Nat → Option (RouteNode size ι)
  next : Nat

abbrev TableM (size : Nat) (ι : Type) := FaultM (RouteTable size ι)

section

variable {size : Nat} {ι : Type}

def RouteTable.init : RouteTable size ι := ⟨none, fun _ => none, 0⟩

def nodeAt (a : Nat) : TableM size ι (RouteNode size ι) := do
  match (← get).nodes a with
  | some node => return node
  | none => throw .outOfBounds

variable (t : RouteTable size ι)

def RouteTable.update (a : Nat) (f : RouteNode size ι → RouteNode size ι) : RouteTable size ι :=
  { t with nodes := Function.update t.nodes a ((t.nodes a).map f) }

def updateNode (a : Nat) (f : RouteNode size ι → RouteNode size ι) :
    TableM size ι Unit := do
  let _ ← nodeAt a
  modify (·.update a f)

def RouteTable.alloc (p : NetPrefix size) : RouteTable size ι :=
  { t with
    nodes := Function.update t.nodes t.next (some ⟨p, none, fun _ => none, 0, none⟩)
    next := t.next + 1 }

variable (p : NetPrefix size)

/-- `route_node_set`; also `route_node_new` with the prefix that is stored in it
next. -/
def routeNodeSet : TableM size ι Nat := do
  let t ← get
  set (t.alloc p)
  return t.next

def routeNodeFree (a : Nat) : TableM size ι Unit :=
  modify fun t => { t with nodes := Function.update t.nodes a none }

def setLink (node new : Nat) : TableM size ι Unit := do
  let bit := prefixBit (← nodeAt new).p (← nodeAt node).p.prefixlen
  updateNode node fun n => { n with link := Function.update n.link bit (some new) }
  updateNode new fun n => { n with parent := some node }

def routeLockNode (node : Nat) : TableM size ι Unit :=
  updateNode node fun n => { n with lock := n.lock + 1 }

/-- The child that takes the place of a deleted node. -/
def onlyChild (node : RouteNode size ι) : Option Nat :=
  if (node.link false).isSome then node.link false else node.link true

/-- `child->parent = parent`, if there is a child. -/
def adopt (child parent : Option Nat) : TableM size ι Unit :=
  match child with
  | some c => updateNode c fun n => { n with parent := parent }
  | none => pure ()

variable (parent : Option Nat) (a : Nat)

/-- The child in the link of the parent that led to `a`, or as the top. -/
def repoint (child : Option Nat) : TableM size ι Unit :=
  match parent with
  | some m =>
    updateNode m fun n =>
      if n.link false = some a then
        { n with link := Function.update n.link false child }
      else { n with link := Function.update n.link true child }
  | none => modify fun t => { t with top := child }

/-- `route_node_delete`; it calls itself for the parent. -/
def routeNodeDelete : Nat → Nat → TableM size ι Unit
  | 0, _ => throw .loopBound
  | depth + 1, a => do
    let node ← nodeAt a
    if node.lock ≠ 0 then throw .assertion
    else if node.info.isSome then throw .assertion
    else if (node.link false).isSome && (node.link true).isSome then return ()
    else
      adopt (onlyChild node) node.parent
      repoint node.parent a (onlyChild node)
      routeNodeFree a
      match node.parent with
      | some m =>
        if (← nodeAt m).lock = 0 then routeNodeDelete depth m else return ()
      | none => return ()

def routeUnlockNode : TableM size ι Unit := do
  updateNode a fun n => { n with lock := n.lock - 1 }
  let node ← nodeAt a
  if node.lock = 0 then routeNodeDelete (node.p.prefixlen + 1) a else return ()

/-- The loop of `route_node_match`. -/
def matchWalk (p : NetPrefix size) :
    Nat → Option Nat → Option Nat → TableM size ι (Option Nat)
  | 0, _, _ => throw .loopBound
  | _ + 1, matched, none => return matched
  | turns + 1, matched, some a => do
    let node ← nodeAt a
    if node.p.prefixlen ≤ p.prefixlen && prefixMatch node.p p then
      let matched := if node.info.isSome then some a else matched
      if node.p.prefixlen = p.prefixlen then return matched
      else matchWalk p turns matched (node.link (prefixBit p node.p.prefixlen))
    else return matched

def routeNodeMatch : TableM size ι (Option Nat) := do
  match ← matchWalk p (p.prefixlen + 2) none (← get).top with
  | some a => do
    routeLockNode a
    return some a
  | none => return none

/-- The loop of `route_node_lookup`. -/
def lookupWalk (p : NetPrefix size) : Nat → Option Nat → TableM size ι (Option Nat)
  | 0, _ => throw .loopBound
  | _ + 1, none => return none
  | turns + 1, some a => do
    let node ← nodeAt a
    if node.p.prefixlen ≤ p.prefixlen && prefixMatch node.p p then
      if node.p.prefixlen = p.prefixlen then
        return if node.info.isSome then some a else none
      else lookupWalk p turns (node.link (prefixBit p node.p.prefixlen))
    else return none

def routeNodeLookup : TableM size ι (Option Nat) := do
  match ← lookupWalk p (p.prefixlen + 2) (← get).top with
  | some a => do
    routeLockNode a
    return some a
  | none => return none

/-- How the loop of `route_node_get` ends: at a node with the prefix, or with
`match` and `node`. -/
inductive GetWalk where
  | found (node : Nat)
  | stop (parent node : Option Nat)

/-- The loop of `route_node_get`. -/
def getWalk (p : NetPrefix size) : Nat → Option Nat → Option Nat → TableM size ι GetWalk
  | 0, _, _ => throw .loopBound
  | _ + 1, parent, none => return .stop parent none
  | turns + 1, parent, some a => do
    let node ← nodeAt a
    if node.p.prefixlen ≤ p.prefixlen && prefixMatch node.p p then
      if node.p.prefixlen = p.prefixlen then return .found a
      else getWalk p turns (some a) (node.link (prefixBit p node.p.prefixlen))
    else return .stop parent (some a)

/-- The new node under `match`, or as the top of the table. -/
def hang (new : Nat) : TableM size ι Unit :=
  match parent with
  | some m => setLink m new
  | none => modify fun t => { t with top := some new }

def routeNodeGet : TableM size ι Nat := do
  match ← getWalk p (p.prefixlen + 2) none (← get).top with
  | .found a => do
    routeLockNode a
    return a
  | .stop parent none => do
    let new ← routeNodeSet p
    hang parent new
    routeLockNode new
    return new
  | .stop parent (some a) => do
    let new ← routeNodeSet (routeCommon (← nodeAt a).p p)
    setLink new a
    hang parent new
    if (← nodeAt new).p.prefixlen ≠ p.prefixlen then
      let leaf ← routeNodeSet p
      setLink new leaf
      routeLockNode leaf
      return leaf
    else
      routeLockNode new
      return new

def setInfo (info : Option ι) : TableM size ι Unit :=
  updateNode a fun n => { n with info := info }

end

/-! ## What a table is made of -/

namespace RouteTable

variable {size : Nat} {ι : Type} (t : RouteTable size ι)

/-- The radix tree of the nodes, with their network bits as keys. -/
@[simps]
def tree : Tree where
  key := fun a => (t.nodes a).map (·.p.bits)
  parent := fun a => (t.nodes a).bind (·.parent)
  read := fun
    | none => t.top
    | some (m, b) => (t.nodes m).bind (·.link b)

variable (a : Nat)

def prefixOf : Option (NetPrefix size) :=
  (t.nodes a).map (·.p)

def lockOf : Option UInt32 := (t.nodes a).map (·.lock)

/-- The prefix and the info of a node that has one. -/
def entry : Option (List Bool × ι) :=
  (t.nodes a).bind fun n => n.info.map (n.p.bits, ·)

variable {t : RouteTable size ι} {a : Nat} {node : RouteNode size ι}

theorem key_eq (t : RouteTable size ι) (a : Nat) :
    t.tree.key a = (t.prefixOf a).map NetPrefix.bits := by
  rw [tree_key, prefixOf, map_map]
  rfl

theorem key_of_node (h : t.nodes a = some node) : t.tree.key a = some node.p.bits := by
  rw [tree_key, h, map_some]

theorem exists_node {p : NetPrefix size} (h : t.prefixOf a = some p) :
    ∃ node, t.nodes a = some node ∧ node.p = p :=
  map_eq_some_iff.mp h

theorem nodes_update (t : RouteTable size ι) (a x : Nat) (f : RouteNode size ι → RouteNode size ι) :
    (t.update a f).nodes x = if x = a then (t.nodes x).map f else t.nodes x := by
  simp only [update, update_apply]
  split
  next h => rw [h]
  · rfl

variable {f : RouteNode size ι → RouteNode size ι}

/-- What a change of a node does not touch stays. -/
theorem map_update {β : Type} {g : RouteNode size ι → β} (hf : ∀ n, g (f n) = g n) (x : Nat) :
    ((t.update a f).nodes x).map g = (t.nodes x).map g := by
  rw [nodes_update]
  split
  · rw [map_map]
    exact congrArg (Option.map · _) (funext hf)
  · rfl

theorem bind_update {β : Type} {g : RouteNode size ι → Option β} (hf : ∀ n, g (f n) = g n)
    (x : Nat) : ((t.update a f).nodes x).bind g = (t.nodes x).bind g := by
  rw [nodes_update]
  split
  · rw [bind_map]
    exact congrArg (bind _) (funext hf)
  · rfl

section

variable {f : RouteNode size ι → RouteNode size ι}

theorem prefixOf_update (hf : ∀ n, (f n).p = n.p) (x : Nat) :
    (t.update a f).prefixOf x = t.prefixOf x :=
  map_update hf x

theorem lockOf_update (hf : ∀ n, (f n).lock = n.lock) (x : Nat) :
    (t.update a f).lockOf x = t.lockOf x :=
  map_update hf x

theorem entry_update (hf : ∀ n, (f n).p = n.p ∧ (f n).info = n.info) (x : Nat) :
    (t.update a f).entry x = t.entry x :=
  bind_update (fun n => by rw [(hf n).1, (hf n).2]) x

theorem tree_update (hf : ∀ n, (f n).p = n.p ∧ (f n).parent = n.parent
    ∧ (f n).link = n.link) : (t.update a f).tree = t.tree := by
  ext x : 2
  · exact map_update (fun n => by rw [(hf n).1]) x
  · exact bind_update (fun n => (hf n).2.1) x
  · rcases x with _ | ⟨m, b⟩
    · rfl
    · exact bind_update (fun n => by rw [(hf n).2.2]) m

end

theorem tree_setLink (hlv : t.nodes a = some node) (b : Bool) (x : Option Nat) :
    (t.update a fun n => { n with link := Function.update n.link b x }).tree
      = { t.tree with read := Function.update t.tree.read (some (a, b)) x } := by
  ext s : 2
  · exact map_update (by intro n; rfl) s
  · exact bind_update (by intro n; rfl) s
  · rcases s with _ | ⟨m, c⟩
    · simp only [update_apply, reduceCtorEq, if_false]
      rfl
    · simp only [tree_read, nodes_update, update_apply, some_inj, Prod.mk.injEq]
      by_cases hm : m = a
      · subst hm
        simp only [if_true, hlv, map_some, bind_some, update_apply, true_and]
      · rw [if_neg hm, if_neg fun h => hm h.1]

theorem tree_setParent (hlv : t.nodes a = some node) (m : Option Nat) :
    (t.update a fun n => { n with parent := m }).tree
      = { t.tree with parent := Function.update t.tree.parent a m } := by
  ext s : 2
  · exact map_update (by intro n; rfl) s
  · simp only [tree_parent, nodes_update, update_apply]
    by_cases hs : s = a
    · subst hs
      rw [if_pos rfl, if_pos rfl, hlv, map_some, bind_some]
    · rw [if_neg hs, if_neg hs]
  · rcases s with _ | ⟨n, c⟩
    · rfl
    · exact bind_update (by intro n; rfl) n

theorem tree_setTop (t : RouteTable size ι) (x : Option Nat) :
    ({ t with top := x } : RouteTable size ι).tree
      = { t.tree with read := Function.update t.tree.read none x } := by
  ext s : 2
  · rfl
  · rfl
  · rcases s with _ | ⟨m, b⟩
    · simp only [update_self]
      rfl
    · simp only [update_apply, reduceCtorEq, if_false]
      rfl

/-! ## Allocation -/

theorem tree_alloc (hfr : t.nodes t.next = none) (p : NetPrefix size) :
    (t.alloc p).tree
    = { t.tree with key := Function.update t.tree.key t.next (some p.bits) } := by
  ext s : 2
  · simp only [tree_key, alloc, update_apply]
    split <;> rfl
  · simp only [tree_parent, alloc, update_apply]
    split
    next h => rw [h, hfr]; rfl
    · rfl
  · rcases s with _ | ⟨m, b⟩
    · rfl
    · simp only [tree_read, alloc, update_apply]
      split
      next h => rw [h, hfr]; rfl
      · rfl

theorem entry_alloc (hfr : t.nodes t.next = none) (p : NetPrefix size) (x : Nat) :
    (t.alloc p).entry x = t.entry x := by
  simp only [entry, alloc, update_apply]
  split
  next h => rw [h, hfr]; rfl
  · rfl

variable (t) (p : NetPrefix size)

theorem prefixOf_alloc : (t.alloc p).prefixOf = Function.update t.prefixOf t.next (some p) := by
  funext x
  simp only [prefixOf, alloc, update_apply]
  split <;> rfl

theorem lockOf_alloc : (t.alloc p).lockOf = Function.update t.lockOf t.next (some 0) := by
  funext x
  simp only [lockOf, alloc, update_apply]
  split <;> rfl

variable {t}

end RouteTable

/-! ## Running the source -/

variable {size : Nat} {ι : Type} {t : RouteTable size ι} {a : Nat} {node : RouteNode size ι}

theorem nodeAt_ok (h : t.nodes a = some node) : nodeAt a t = .ok (node, t) := by
  rw [nodeAt, FaultM.get_bind, h]
  rfl

theorem nodeAt_bind {β : Type} (h : t.nodes a = some node)
    (f : RouteNode size ι → TableM size ι β) : (nodeAt a >>= f) t = f node t :=
  FaultM.bind_ok (nodeAt_ok h)

theorem updateNode_ok {p : NetPrefix size} (h : t.prefixOf a = some p)
    (f : RouteNode size ι → RouteNode size ι) : updateNode a f t = .ok ((), t.update a f) := by
  obtain ⟨node, hnd, -⟩ := t.exists_node h
  rw [updateNode, nodeAt_bind hnd]
  rfl

theorem routeNodeSet_bind {β : Type} (p : NetPrefix size) (f : Nat → TableM size ι β) :
    (routeNodeSet p >>= f) t = f t.next (t.alloc p) := rfl

/-- The table after `set_link`. -/
def RouteTable.link (t : RouteTable size ι) (m : Nat) (b : Bool) (x : Nat) :
    RouteTable size ι :=
  (t.update m fun n => { n with link := Function.update n.link b (some x) }).update x
    fun n => { n with parent := some m }

theorem setLink_ok {m x : Nat} {pm px : NetPrefix size} (hm : t.prefixOf m = some pm)
    (hx : t.prefixOf x = some px) :
    setLink m x t = .ok ((), t.link m (prefixBit px pm.prefixlen) x) := by
  obtain ⟨node, hnd, rfl⟩ := t.exists_node hm
  obtain ⟨new, hn, rfl⟩ := t.exists_node hx
  rw [setLink, nodeAt_bind hn, nodeAt_bind hnd, FaultM.bind_ok (updateNode_ok hm _)]
  exact updateNode_ok ((RouteTable.prefixOf_update (by intro n; rfl) x).trans hx) _

namespace RouteTable

variable (t) (m : Nat) (b : Bool) (x y : Nat)

theorem prefixOf_link : (t.link m b x).prefixOf y = t.prefixOf y := by
  rw [link, prefixOf_update, prefixOf_update] <;> exact fun _ => rfl

theorem lockOf_link : (t.link m b x).lockOf y = t.lockOf y := by
  rw [link, lockOf_update, lockOf_update] <;> exact fun _ => rfl

theorem entry_link : (t.link m b x).entry y = t.entry y := by
  rw [link, entry_update, entry_update] <;> exact fun _ => ⟨rfl, rfl⟩

variable {t}

theorem tree_link {m x : Nat} {pm px : NetPrefix size} (hm : t.prefixOf m = some pm)
    (hx : t.prefixOf x = some px) (b : Bool) :
    (t.link m b x).tree = { t.tree with
      parent := Function.update t.tree.parent x (some m)
      read := Function.update t.tree.read (some (m, b)) (some x) } := by
  obtain ⟨node, hnd, rfl⟩ := t.exists_node hm
  have hn : (t.update m fun n =>
      { n with link := Function.update n.link b (some x) }).prefixOf x = some px :=
    (prefixOf_update (by intro n; rfl) x).trans hx
  obtain ⟨new, hn, -⟩ := exists_node hn
  rw [link, tree_setParent hn, tree_setLink hnd]

end RouteTable

end SdnQuagga
