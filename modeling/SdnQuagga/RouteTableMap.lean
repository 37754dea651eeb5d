import SdnQuagga.RouteTableDelete

/-!
# A routing table is a map of prefixes

Runs of the operations of `lib/table.c` from an empty table. The map a table
stands for is changed by nothing but writing an info; lookup reads it, and match
finds its longest key that begins a prefix.

The lock counter has 32 bits. A lock too many, or an unlock too many before it,
wraps it around to zero, and then a node stays without a lock and without two
children.
-/

namespace SdnQuagga

open RouteTable

open RadixTree (Slot Tree Shape Below)
open Option (map_some map_eq_some_iff bind_some)

variable {size : Nat} {ι : Type}

/-! ## Runs -/

inductive TableOp (size : Nat) (ι : Type) where
  | get (p : NetPrefix size)
  | setInfo (a : Nat) (info : Option ι)
  | lock (a : Nat)
  | unlock (a : Nat)

def TableOp.run : TableOp size ι → TableM size ι Unit
  | get p => do
    let _ ← routeNodeGet p
    return ()
  | setInfo a info => SdnQuagga.setInfo a info
  | lock a => routeLockNode a
  | unlock a => routeUnlockNode a

variable (t : RouteTable size ι)

/-- The lock counter that an operation counts up is not at its last value. -/
def TableOp.NoWrap : TableOp size ι → Prop
  | get p => ∀ a, t.tree.key a = some p.bits → t.lockOf a ≠ some 0xffffffff
  | lock a => t.lockOf a ≠ some 0xffffffff
  | setInfo _ _ => True
  | unlock _ => True

variable (map : List Bool → Option ι)

/-- The map after an operation: only an info changes it. -/
def TableOp.abstract :
    TableOp size ι → List Bool → Option ι
  | setInfo a info =>
    match t.tree.key a with
    | some k => Function.update map k info
    | none => map
  | _ => map

/-- The tables that a run reaches, and the maps they stand for. -/
inductive TableReached : RouteTable size ι → (List Bool → Option ι) → Prop
  | init : TableReached .init fun _ => none
  | step {t t' : RouteTable size ι} {map : List Bool → Option ι} (op : TableOp size ι) :
      TableReached t map → op.NoWrap t → op.run t = .ok ((), t') →
      TableReached t' (op.abstract t map)

/-! ## One operation -/

/-- A table stands for a map. -/
def Represents : Prop :=
  ∀ k v, map k = some v ↔ ∃ x, t.entry x = some (k, v)

theorem Represents.congr {t t' : RouteTable size ι} {map : List Bool → Option ι}
    (h : Represents t map) (hen : ∀ x, t'.entry x = t.entry x) : Represents t' map := by
  intro k v
  rw [h k v]
  simp only [hen]

variable {t t' : RouteTable size ι} {map : List Bool → Option ι}

theorem live_of_updateNode {a : Nat} {f : RouteNode size ι → RouteNode size ι}
    (h : updateNode a f t = .ok ((), t')) : ∃ node, t.nodes a = some node ∧ t' = t.update a f := by
  cases hnd : t.nodes a with
  | none =>
    rw [updateNode, nodeAt] at h
    obtain ⟨_, _, hge, -⟩ := FaultM.bind_eq_ok h
    rw [FaultM.get_bind, hnd] at hge
    cases hge
  | some node =>
    have hofNode : t.prefixOf a = some node.p := by rw [prefixOf, hnd, map_some]
    rw [updateNode_ok hofNode] at h
    cases h
    exact ⟨node, rfl, rfl⟩

theorem setInfo_step (hi : TableInv t) (hmp : Represents t map) {a : Nat}
    {info : Option ι} (hrn : setInfo a info t = .ok ((), t')) :
    TableInv t' ∧ Represents t' ((TableOp.setInfo a info).abstract t map) := by
  obtain ⟨node, hnd, rfl⟩ := live_of_updateNode hrn
  have hky := key_of_node hnd
  have htr : (t.update a fun n => { n with info := info }).tree = t.tree :=
    tree_update fun _ => ⟨rfl, rfl, rfl⟩
  have hen : ∀ x, (t.update a fun n => { n with info := info }).entry x
      = if x = a then info.map (node.p.bits, ·) else t.entry x := by
    intro x
    rw [entry, nodes_update]
    split
    next heq => rw [heq, hnd]; rfl
    · rfl
  refine ⟨⟨htr ▸ hi.shape, ?_, ?_⟩, fun k v => ?_⟩
  · exact fun x p hx => hi.fresh x p
      ((prefixOf_update (by intro n; rfl) x).symm.trans hx)
  · intro x _ hx b
    rw [htr]
    exact hi.stubs x (by simp)
      ((lockOf_update (by intro n; rfl) x).symm.trans hx) b
  · simp only [TableOp.abstract, hky, hen, Function.update_apply]
    split
    next hk =>
      subst hk
      constructor
      · intro hv
        exact ⟨a, by rw [if_pos rfl, hv, map_some]⟩
      · rintro ⟨x, hx⟩
        split at hx
        · obtain ⟨w, hw, hpair⟩ := map_eq_some_iff.mp hx
          rw [hw, ← (Prod.mk.inj hpair).2]
        next hne => exact absurd (hi.shape.eq_of_key (entry_key hx) hky) hne
    next hk =>
      rw [hmp k v]
      refine exists_congr fun x => ?_
      split
      next heq =>
        subst heq
        refine iff_of_false (fun hx => ?_) (fun hx => ?_)
        · exact hk (Option.some.inj ((entry_key hx).symm.trans hky))
        · obtain ⟨w, -, hpair⟩ := map_eq_some_iff.mp hx
          exact hk (Prod.mk.inj hpair).1.symm
      · exact Iff.rfl

theorem tableOp_step (hi : TableInv t) (hmp : Represents t map) (op : TableOp size ι)
    (hwp : op.NoWrap t) (hrn : op.run t = .ok ((), t')) :
    TableInv t' ∧ Represents t' (op.abstract t map) := by
  cases op with
  | get p =>
    obtain ⟨a, t1, hge, hdn⟩ := routeNodeGet_spec hi p hwp
    rw [TableOp.run, FaultM.bind_ok hge] at hrn
    cases hrn
    exact ⟨hdn.inv, hmp.congr hdn.entry⟩
  | setInfo a info => exact setInfo_step hi hmp hrn
  | lock a =>
    obtain ⟨node, hnd, rfl⟩ := live_of_updateNode hrn
    have hlo : t.lockOf a = some node.lock := by rw [lockOf, hnd, map_some]
    exact ⟨⟨t.tree_locked a ▸ hi.shape, hi.fresh.locked a,
      hi.stubs.mono.locked hlo fun heq => hwp (heq ▸ hlo)⟩, hmp.congr (t.entry_locked a)⟩
  | unlock a =>
    obtain ⟨u, t1, hupd, -⟩ := FaultM.bind_eq_ok hrn
    obtain ⟨node, hnd, -⟩ := live_of_updateNode hupd
    have hdn := routeUnlockNode_spec hi hnd
    rw [TableOp.run] at hrn
    rw [hrn] at hdn
    exact ⟨hdn.1, hmp.congr fun x => (hdn.2 x).trans (t.entry_unlocked a x)⟩

theorem TableReached.inv (h : TableReached t map) : TableInv t ∧ Represents t map := by
  induction h with
  | init =>
    refine ⟨⟨⟨?_, ?_⟩, ?_, ?_⟩, ?_⟩
    · intro slot x hrd
      rcases slot with _ | ⟨m, b⟩ <;> cases hrd
    · intro x k hk
      cases hk
    · intro x p hx
      cases hx
    · intro x _ hx
      cases hx
    · intro k v
      exact iff_of_false (by simp) (by rintro ⟨x, hx⟩; cases hx)
  | step op _ hwp hrn ih => exact tableOp_step ih.1 ih.2 op hwp hrn

/-! ## What a reached table answers -/

/-- The shape of a routing table, in the words of the source. -/
structure TrieShape (t : RouteTable size ι) : Prop where
  child : ∀ {a node b c}, t.nodes a = some node → node.link b = some c →
    ∃ child, t.nodes c = some child ∧ child.parent = some a
      ∧ node.p.prefixlen < child.p.prefixlen ∧ prefixMatch node.p child.p = true
      ∧ prefixBit child.p node.p.prefixlen = b
  stub : ∀ {a node}, t.nodes a = some node → node.lock = 0 →
    (node.link false).isSome ∧ (node.link true).isSome

theorem TableInv.trieShape (h : TableInv t) : TrieShape t where
  child := by
    intro a node b c hnd hli
    have hrd : t.tree.read (some (a, b)) = some c := (read_link hnd b).trans hli
    obtain ⟨hpr, k, hk, hft⟩ := h.shape.held hrd
    obtain ⟨child, hchd, rfl⟩ := map_eq_some_iff.mp hk
    obtain ⟨l, hl, hlg⟩ := hft a b rfl
    obtain ⟨node', hnd', rfl⟩ := map_eq_some_iff.mp hl
    cases hnd.symm.trans hnd'
    rw [tree_parent, hchd, bind_some] at hpr
    exact ⟨child, hchd, hpr, by simpa using RadixTree.length_lt hlg,
      (prefixMatch_iff _ _).mpr ((List.prefix_append _ _).trans hlg),
      prefixBit_next hlg⟩
  stub := by
    intro a node hnd hlo
    have hbo : ∀ b, (node.link b).isSome := by
      intro b
      rw [Option.isSome_iff_ne_none, ← read_link hnd]
      refine h.stubs a (by simp) ?_ b
      rw [lockOf, hnd, map_some, hlo]
    exact ⟨hbo false, hbo true⟩

theorem lockFound_ok {r : Option Nat} (h : ∀ x, r = some x → ∃ p, t.prefixOf x = some p) :
    ∃ t', (match r with
      | some a => do
        routeLockNode a
        return some a
      | none => return none : TableM size ι (Option Nat)) t = .ok (r, t') := by
  cases r with
  | none => exact ⟨t, rfl⟩
  | some a =>
    obtain ⟨p, hp⟩ := h a rfl
    exact ⟨t.locked a, FaultM.bind_ok (routeLockNode_ok hp)⟩

theorem prefixOf_of_entry {x : Nat} {k : List Bool} {v : ι}
    (h : t.entry x = some (k, v)) : ∃ p, t.prefixOf x = some p := by
  obtain ⟨p, hp, -⟩ := t.exists_bits (entry_key h)
  exact ⟨p, hp⟩

theorem routeNodeLookup_spec (h : Shape t.tree) (p : NetPrefix size) :
    ∃ r t', routeNodeLookup p t = .ok (r, t')
      ∧ ∀ x, r = some x ↔ ∃ v, t.entry x = some (p.bits, v) := by
  obtain ⟨r, hwk, hr⟩ := lookupWalk_spec h (.start t p) fun x _ => stillAhead_top h p.bits x
  have hlv : ∀ x, r = some x → ∃ q, t.prefixOf x = some q := by
    intro x hx
    obtain ⟨v, hv⟩ := (hr x).mp hx
    exact prefixOf_of_entry hv
  obtain ⟨t', hlo⟩ := lockFound_ok hlv
  refine ⟨r, t', ?_, hr⟩
  rw [routeNodeLookup, FaultM.get_bind]
  exact (FaultM.bind_ok hwk).trans hlo

theorem routeNodeMatch_spec (h : Shape t.tree) (p : NetPrefix size) :
    ∃ r t', routeNodeMatch p t = .ok (r, t') ∧ LongestMatch t p r := by
  have hst : MatchedAt t p none none :=
    ⟨fun x hx => absurd hx (by simp), fun y k v _ _ => .inl (stillAhead_top h p.bits y)⟩
  obtain ⟨r, hwk, hr⟩ := matchWalk_spec h (.start t p) hst
  have hlv : ∀ x, r = some x → ∃ q, t.prefixOf x = some q := by
    rintro x rfl
    obtain ⟨k, v, hx, -, -⟩ := hr
    exact prefixOf_of_entry hx
  obtain ⟨t', hlo⟩ := lockFound_ok hlv
  refine ⟨r, t', ?_, hr⟩
  rw [routeNodeMatch, FaultM.get_bind]
  exact (FaultM.bind_ok hwk).trans hlo

/-- In a run whose lock counters do not wrap around, the table keeps its shape
and stands for the map of the infos that were written. -/
theorem route_table_refines_map (h : TableReached t map) :
    TrieShape t ∧ Represents t map ∧ (∀ p, ∃ r t', routeNodeLookup p t = .ok (r, t')
        ∧ (∀ x, r = some x ↔ ∃ node, t.nodes x = some node ∧ node.p.bits = p.bits
          ∧ node.info.isSome) ∧ (r.bind fun x => (t.nodes x).bind (·.info)) = map p.bits)
      ∧ ∀ p, ∃ r t', routeNodeMatch p t = .ok (r, t') ∧ LongestMatch t p r := by
  obtain ⟨hinv, hmap⟩ := h.inv
  refine ⟨hinv.trieShape, hmap, fun p => ?_, fun p => routeNodeMatch_spec hinv.shape p⟩
  obtain ⟨r, t', hrun, hr⟩ := routeNodeLookup_spec hinv.shape p
  refine ⟨r, t', hrun, fun x => ?_, ?_⟩
  · rw [hr x]
    constructor
    · rintro ⟨v, hv⟩
      obtain ⟨node, hnode, hbits, hinfo⟩ := entry_eq_some.mp hv
      exact ⟨node, hnode, hbits, hinfo ▸ rfl⟩
    · rintro ⟨node, hnode, hbits, hinfo⟩
      obtain ⟨v, hv⟩ := Option.isSome_iff_exists.mp hinfo
      exact ⟨v, entry_eq_some.mpr ⟨node, hnode, hbits, hv⟩⟩
  · refine Option.ext fun v => ?_
    rw [hmap p.bits v]
    constructor
    · intro hv
      obtain ⟨x, hx, hinfo⟩ := Option.bind_eq_some_iff.mp hv
      obtain ⟨node, hnode, hinfo⟩ := Option.bind_eq_some_iff.mp hinfo
      obtain ⟨w, hw⟩ := (hr x).mp hx
      obtain ⟨node', hnode', hbits, -⟩ := entry_eq_some.mp hw
      cases hnode.symm.trans hnode'
      exact ⟨x, entry_eq_some.mpr ⟨node, hnode, hbits, hinfo⟩⟩
    · rintro ⟨x, hx⟩
      obtain ⟨node, hnode, -, hinfo⟩ := entry_eq_some.mp hx
      rw [(hr x).mpr ⟨v, hx⟩, bind_some, hnode, bind_some, hinfo]

def ipv4 (a b c d : UInt8) (len : Nat) (h : len ≤ 32) : NetPrefix 4 :=
  ⟨len, [a, b, c, d], rfl, h⟩

/-- A table with one node and its info. -/
def oneRoute : RouteTable 4 Nat :=
  ((RouteTable.init.leaf none (ipv4 10 0 0 0 8 (by decide))).locked 0).update 0
    fun n => { n with info := some 7 }

/-- The table that an operation leaves, if it does not fault. -/
def TableOp.after (op : TableOp size ι) (t : RouteTable size ι) : RouteTable size ι :=
  match op.run t with
  | .ok (_, t') => t'
  | .error _ => t

theorem TableReached.next {t : RouteTable size ι} {map : List Bool → Option ι}
    (h : TableReached t map) (op : TableOp size ι) (hnw : op.NoWrap t)
    (hok : (op.run t).isOk = true) : TableReached (op.after t) (op.abstract t map) := by
  refine h.step op hnw ?_
  unfold TableOp.after
  cases hrun : op.run t with
  | ok r => rfl
  | error e =>
    rw [hrun] at hok
    cases hok

/-- With a longer prefix under the first one, and its info. -/
def nestedRoutes : RouteTable 4 Nat :=
  (TableOp.setInfo 1 (some 9)).after
    ((TableOp.get (ipv4 10 1 0 0 16 (by decide))).after oneRoute)

/-- The table after both nodes were made and their infos written. -/
theorem route_table_refines_map_nested :
    ∃ map, TableReached nestedRoutes map ∧ TrieShape nestedRoutes
      ∧ ∃ r t', routeNodeMatch (ipv4 10 1 2 3 32 (by decide)) nestedRoutes = .ok (r, t')
        ∧ LongestMatch nestedRoutes (ipv4 10 1 2 3 32 (by decide)) r := by
  have hget : TableReached ((init.leaf none
      (ipv4 10 0 0 0 8 (by decide))).locked 0) fun _ => (none : Option Nat) :=
    TableReached.init.step (.get _) (fun a ha => absurd ha (by simp [init])) rfl
  have hone : TableReached oneRoute _ := hget.step (.setInfo 0 (some 7)) trivial rfl
  have htwo := hone.next (.get (ipv4 10 1 0 0 16 (by decide))) (fun a ha => ?_) (by decide +kernel)
  · have hreached : TableReached nestedRoutes _ :=
      htwo.next (.setInfo 1 (some 9)) trivial (by decide +kernel)
    exact ⟨_, hreached, (route_table_refines_map hreached).1,
      (route_table_refines_map hreached).2.2.2 _⟩
  · rcases eq_or_ne a 0 with rfl | hne
    · decide +kernel
    · simp [oneRoute, lockOf, RouteTable.update, locked, leaf, alloc, init, hung, hne]

/-- A node for 10.0.0.0/8 that two longer prefixes need is locked and then
unlocked once too often. When one of the two is gone, the next lock makes its
counter zero. -/
def wrappingRun : List (TableOp 4 Nat) :=
  [.get (ipv4 10 0 0 0 16 (by decide)), .get (ipv4 10 128 0 0 16 (by decide)),
    .get (ipv4 10 0 0 0 8 (by decide)), .unlock 1, .unlock 1, .unlock 0,
    .get (ipv4 10 0 0 0 8 (by decide))]

/-- Not every run keeps the shape. -/
theorem route_table_lock_wraps :
    ¬ ∀ (ops : List (TableOp 4 Nat)) (t : RouteTable 4 Nat),
      ops.forM TableOp.run .init = .ok ((), t) → TrieShape t := by
  intro h
  have hrun : (match wrappingRun.forM TableOp.run .init with
      | .ok (_, t) => (t.nodes 1).map fun node => (node.lock, node.link false)
      | .error _ => none) = some (0, none) := by decide +kernel
  cases hres : wrappingRun.forM TableOp.run .init with
  | error e =>
    rw [hres] at hrun
    cases hrun
  | ok r =>
    rw [hres] at hrun
    obtain ⟨node, hnode, hpair⟩ := map_eq_some_iff.mp hrun
    obtain ⟨hlock, hlink⟩ := Prod.mk.inj hpair
    have hstub := ((h wrappingRun r.2 hres).stub hnode hlock).1
    rw [hlink] at hstub
    cases hstub

end SdnQuagga
