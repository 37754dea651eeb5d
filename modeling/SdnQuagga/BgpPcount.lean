import SdnQuagga.BgpRibUpdate

/-!
# The prefix count and the routes it counts

`Tallied` says that `pcount` is the number of routes with `BGP_INFO_COUNTED`, and
that these are the routes that are not in hold-down. A function that writes flags
directly breaks the second for the route it works on; the next `bgp_pcount_adjust`
for that route mends it, whatever its flags are by then. So the invariant is stated
up to one route that may be `off`.

`TallyView` is what has a part in this: the routes, the counts, and which route
each dampening record is for.
-/

namespace SdnQuagga

open List Function
open FaultM (Yields Preserves)

variable {slots : Nat}

@[ext]
structure TallyView where
  routes : Nat → Option StoredRoute
  rib : List Nat
  pcount : Nat → Nat → Nat → Nat
  next : Nat
  /-- `binfo` and `rn` of a record -/
  owner : Nat → Option (Nat × Nat)

@[simps]
def BgpRib.tally (st : BgpRib slots) : TallyView where
  routes := st.routes
  rib := st.rib
  pcount := st.pcount
  next := st.next
  owner d := (st.infos d).map fun bdi => (bdi.binfo, bdi.rn)

variable (cfg : RibConfig) (ri : StoredRoute)

/-- The route is counted for a peer in an address family. -/
def StoredRoute.countsFor (peer afi safi : Nat) :
    Bool :=
  ri.flags .counted && ri.peer = peer && (cfg.table ri.rn).main
    && (cfg.table ri.rn).afi = afi && (cfg.table ri.rn).safi = safi

/-- The route in the main table is counted if it can be used. -/
def StoredRoute.Agrees : Prop :=
  (cfg.table ri.rn).main = true → ri.flags .counted = !ri.holddown

namespace TallyView

variable (t : TallyView)

@[simps]
def setRoute (a : Nat) (g : StoredRoute → StoredRoute) : TallyView :=
  { t with routes := update t.routes a ((t.routes a).map g) }

@[simps]
def count (peer : Nat) (table : NodeTable) (up : Bool) : TallyView :=
  { t with
    pcount := update t.pcount peer
      (update (t.pcount peer) table.afi
        (update (t.pcount peer table.afi) table.safi
          (if up then t.pcount peer table.afi table.safi + 1
            else t.pcount peer table.afi table.safi - 1))) }

@[simps]
def allocInfo (w : Nat × Nat) : TallyView :=
  { t with owner := update t.owner t.next (some w), next := t.next + 1 }

@[simps]
def freeInfo (d : Nat) : TallyView :=
  { t with owner := update t.owner d none }

/-- The routes that are counted for a peer in an address family. -/
def counted (cfg : RibConfig) (t : TallyView) (peer afi safi a : Nat) : Bool :=
  (t.routes a).any (·.countsFor cfg peer afi safi)

end TallyView

/-- The routes that are linked, and the `extra` ones that are about to be, are in
memory on the nodes that `node` says, and are from neighbors. All agree with the count
but the one that is `off`. -/
structure Agreeing (cfg : RibConfig) (extra : List Nat) (node : Nat → Nat)
    (off : Option Nat) (t : TallyView) : Prop where
  nodup : (extra ++ t.rib).Nodup
  stored : ∀ a ∈ extra ++ t.rib, ∃ ri, t.routes a = some ri ∧ ri.rn = node a ∧
    ri.peer ≠ cfg.peerSelf
  fresh : ∀ {a : Nat} {ri : StoredRoute}, t.routes a = some ri →
    a < t.next ∧ ∀ d, ri.dampInfo = some d → d < t.next
  record : ∀ {a d : Nat} {ri : StoredRoute} {o : Nat × Nat}, a ∈ extra ++ t.rib →
    t.routes a = some ri → ri.dampInfo = some d → t.owner d = some o → o = (a, node a)
  agree : ∀ {a : Nat} {ri : StoredRoute}, a ∈ extra ++ t.rib → off ≠ some a →
    t.routes a = some ri → ri.Agrees cfg

/-- And the count is the number of those that are counted. -/
structure Tallied (cfg : RibConfig) (extra : List Nat) (node : Nat → Nat)
    (off : Option Nat) (t : TallyView) : Prop extends Agreeing cfg extra node off t where
  count : ∀ peer afi safi, t.pcount peer afi safi =
    (extra ++ t.rib).countP (t.counted cfg peer afi safi)

variable {cfg : RibConfig} {extra : List Nat} {node : Nat → Nat} {off : Option Nat}
  {t : TallyView} {a : Nat} {ri : StoredRoute}

theorem Tallied.loosen (h : Tallied cfg extra node none t) : Tallied cfg extra node off t :=
  { h with agree := fun ha _ hri => h.agree ha (by simp) hri }

theorem Tallied.tighten (h : Tallied cfg extra node (some a) t)
    (hag : ∀ ri, t.routes a = some ri → ri.Agrees cfg) : Tallied cfg extra node none t := by
  refine { h with agree := fun {x} {ri} hx _ hri => ?_ }
  rcases eq_or_ne a x with rfl | hne
  · exact hag ri hri
  · exact h.agree hx (fun he => hne (Option.some.inj he)) hri

variable {g : StoredRoute → StoredRoute}

/-- A write to the route that is off. -/
theorem Agreeing.setRoute (h : Agreeing cfg extra node (some a) t) (hrn : ∀ ri, (g ri).rn = ri.rn)
    (hdp : ∀ ri, (g ri).dampInfo = ri.dampInfo) (hpe : ∀ ri, (g ri).peer = ri.peer) :
    Agreeing cfg extra node (some a) (t.setRoute a g) := by
  have hrts : ∀ {x ri}, (t.setRoute a g).routes x = some ri →
      ∃ ri', t.routes x = some ri' ∧ ri.dampInfo = ri'.dampInfo ∧ (a ≠ x → ri = ri') := by
    intro x ri hri
    rcases eq_or_ne x a with rfl | hne
    · rw [TallyView.setRoute_routes, update_self] at hri
      obtain ⟨ri', hri', rfl⟩ := Option.map_eq_some_iff.mp hri
      exact ⟨ri', hri', hdp ri', fun hx => absurd rfl hx⟩
    · rw [TallyView.setRoute_routes, update_of_ne hne] at hri
      exact ⟨ri, hri, rfl, fun _ => rfl⟩
  constructor
  · exact h.nodup
  · intro x hx
    obtain ⟨ri, hri, hnod⟩ := h.stored x hx
    rcases eq_or_ne x a with rfl | hne
    · exact ⟨g ri, by simp [hri], (hrn ri).trans hnod.1, (hpe ri).symm ▸ hnod.2⟩
    · exact ⟨ri, by simp [update_of_ne hne, hri], hnod⟩
  · intro x ri hri
    obtain ⟨ri', hri', hd, -⟩ := hrts hri
    rw [hd]
    exact h.fresh hri'
  · intro x d ri o hx hri hd ho
    obtain ⟨ri', hri', hd', -⟩ := hrts hri
    exact h.record hx hri' (hd'.symm.trans hd) ho
  · intro x ri hx hoff hri
    obtain ⟨ri', hri', -, heq⟩ := hrts hri
    rw [heq fun he => hoff (by rw [he])]
    exact h.agree hx hoff hri'

theorem TallyView.counted_setRoute {peer afi safi : Nat} (hsm : ∀ ri, t.routes a = some ri →
      (g ri).countsFor cfg peer afi safi = ri.countsFor cfg peer afi safi) :
    (t.setRoute a g).counted cfg peer afi safi = t.counted cfg peer afi safi := by
  funext x
  rw [TallyView.counted, TallyView.counted, TallyView.setRoute_routes]
  rcases eq_or_ne x a with rfl | hne
  · rw [update_self]
    cases hri : t.routes x with
    | none => rfl
    | some ri => exact hsm ri hri
  · rw [update_of_ne hne]

/-- A write that leaves who the route is from and whether it is counted. -/
theorem Tallied.setRoute (h : Tallied cfg extra node (some a) t) (hrn : ∀ ri, (g ri).rn = ri.rn)
    (hdp : ∀ ri, (g ri).dampInfo = ri.dampInfo) (hpe : ∀ ri, (g ri).peer = ri.peer)
    (hcn : ∀ ri, (g ri).flags .counted = ri.flags .counted) :
    Tallied cfg extra node (some a) (t.setRoute a g) := by
  refine { h.toAgreeing.setRoute hrn hdp hpe with count := fun peer afi safi => ?_ }
  rw [TallyView.counted_setRoute fun ri _ => ?_]
  · exact h.count peer afi safi
  · simp only [StoredRoute.countsFor, hrn, hpe, hcn]

section

variable (h : Tallied cfg extra node off t)
include h

/-- The record of a route changes, to none or to one that is for it. -/
theorem Tallied.setDampInfo {o : Option Nat} (hfr : ∀ d, o = some d → d < t.next)
    (hrecord : ∀ d w, o = some d → t.owner d = some w → w = (a, node a)) :
    Tallied cfg extra node off (t.setRoute a fun ri => { ri with dampInfo := o }) := by
  have hrts : ∀ {x ri},
      (t.setRoute a fun ri => { ri with dampInfo := o }).routes x = some ri →
      ∃ ri', t.routes x = some ri' ∧ ri = { ri' with dampInfo := ri.dampInfo } ∧
        (ri.dampInfo = ri'.dampInfo ∨ x = a ∧ ri.dampInfo = o) := by
    intro x ri hri
    rcases eq_or_ne x a with rfl | hne
    · rw [TallyView.setRoute_routes, update_self] at hri
      obtain ⟨ri', hri', rfl⟩ := Option.map_eq_some_iff.mp hri
      exact ⟨ri', hri', rfl, Or.inr ⟨rfl, rfl⟩⟩
    · rw [TallyView.setRoute_routes, update_of_ne hne] at hri
      exact ⟨ri, hri, rfl, Or.inl rfl⟩
  refine ⟨⟨h.nodup, fun x hx => ?_, ?_, ?_, ?_⟩, fun peer afi safi => ?_⟩
  · obtain ⟨ri, hri, hnod⟩ := h.stored x hx
    rcases eq_or_ne x a with rfl | hne
    · exact ⟨{ ri with dampInfo := o }, by simp [hri], hnod⟩
    · exact ⟨ri, by simp [update_of_ne hne, hri], hnod⟩
  · intro x ri hri
    obtain ⟨ri', hri', -, hd | ⟨-, hd⟩⟩ := hrts hri
    · rw [hd]
      exact h.fresh hri'
    · rw [hd]
      exact ⟨(h.fresh hri').1, hfr⟩
  · intro x d ri w hx hri hd hw
    obtain ⟨ri', hri', -, hd' | ⟨rfl, hd'⟩⟩ := hrts hri
    · exact h.record hx hri' (hd'.symm.trans hd) hw
    · exact hrecord d w (hd'.symm.trans hd) hw
  · intro x ri hx hoff hri
    obtain ⟨ri', hri', he, -⟩ := hrts hri
    have hag : ri'.Agrees cfg := h.agree hx hoff hri'
    rwa [he]
  · have hsm : (t.setRoute a fun ri => { ri with dampInfo := o }).counted cfg peer afi
        safi = t.counted cfg peer afi safi := TallyView.counted_setRoute fun _ _ => rfl
    rw [hsm]
    exact h.count peer afi safi

theorem Tallied.allocInfo (w : Nat × Nat) : Tallied cfg extra node off (t.allocInfo w) := by
  refine { h with fresh := fun hri => ?_, record := fun {x} {d} {ri} {w'} hx hri hd hw => ?_ }
  · obtain ⟨ha, hd⟩ := h.fresh hri
    exact ⟨Nat.lt_succ_of_lt ha, fun d hd' => Nat.lt_succ_of_lt (hd d hd')⟩
  · have hlt : d < t.next := (h.fresh hri).2 d hd
    rw [TallyView.allocInfo_owner, update_of_ne (Nat.ne_of_lt hlt)] at hw
    exact h.record hx hri hd hw

theorem Tallied.freeInfo (d : Nat) : Tallied cfg extra node off (t.freeInfo d) := by
  refine { h with record := fun {x} {d'} {ri} {w} hx hri hd hw => ?_ }
  rcases eq_or_ne d' d with rfl | hne
  · rw [TallyView.freeInfo_owner, update_self] at hw
    cases hw
  · rw [TallyView.freeInfo_owner, update_of_ne hne] at hw
    exact h.record hx hri hd hw

end

/-! ## Counting -/

theorem countP_change {p p' : Nat → Bool} {l : List Nat} (hnd : l.Nodup) (ha : a ∈ l)
    (hsm : ∀ x, x ≠ a → p' x = p x) : l.countP p' + (p a).toNat = l.countP p + (p' a).toNat := by
  induction l with
  | nil => cases ha
  | cons y ys ih =>
    obtain ⟨hy, hnd⟩ := nodup_cons.mp hnd
    have h1 : ∀ b : Bool, (if b = true then 1 else 0) = b.toNat := by decide
    rw [countP_cons, countP_cons, h1, h1]
    rcases mem_cons.mp ha with rfl | ha
    · have htl : ys.countP p' = ys.countP p :=
        countP_congr fun x hx => by rw [hsm x (ne_of_mem_of_not_mem hx hy)]
      rw [htl]
      omega
    · rw [hsm y (ne_of_mem_of_not_mem ha hy).symm]
      have := ih hnd ha
      omega

theorem TallyView.count_apply (t : TallyView) (peer : Nat) (table : NodeTable)
    (up : Bool) (p x y : Nat) :
    (t.count peer table up).pcount p x y = if p = peer ∧ x = table.afi ∧ y = table.safi then
        if up then t.pcount p x y + 1 else t.pcount p x y - 1
      else t.pcount p x y := by
  rw [TallyView.count_pcount]
  by_cases hp : p = peer
  · subst hp
    rw [update_self]
    by_cases hx : x = table.afi
    · subst hx
      rw [update_self]
      by_cases hy : y = table.safi
      · subst hy
        simp only [update_self, and_self, if_true]
      · rw [update_of_ne hy, if_neg fun h => hy h.2.2]
    · rw [update_of_ne hx, if_neg fun h => hx h.2.1]
  · rw [update_of_ne hp, if_neg fun h => hp h.1]

/-- The flag `BGP_INFO_COUNTED` of a route and its peer's count change together. -/
theorem Tallied.recount (h : Tallied cfg extra node (some a) t)
    (ha : a ∈ extra ++ t.rib) (hri : t.routes a = some ri)
    (hma : (cfg.table ri.rn).main = true) (b : Bool) (hb : ri.flags .counted = !b) :
    Tallied cfg extra node (some a)
      ((t.setRoute a (·.withFlags [.counted] b)).count ri.peer (cfg.table ri.rn) b) := by
  have hshp := h.toAgreeing.setRoute (g := (·.withFlags [.counted] b)) (fun _ => rfl)
    (fun _ => rfl) fun _ => rfl
  refine { hshp with count := fun peer afi safi => ?_ }
  rw [TallyView.count_apply]
  have hchg := @countP_change a (t.counted cfg peer afi safi)
    ((t.setRoute a (·.withFlags [.counted] b)).counted cfg peer afi safi) _ h.nodup ha
    fun x hx => by
      rw [TallyView.counted, TallyView.counted, TallyView.setRoute_routes, update_of_ne hx]
  have hfor : ∀ ri' : StoredRoute, ri'.rn = ri.rn → ri'.peer = ri.peer →
      ri'.countsFor cfg peer afi safi = (ri'.flags .counted &&
        decide (peer = ri.peer ∧ afi = (cfg.table ri.rn).afi ∧ safi = (cfg.table ri.rn).safi)) := by
    intro ri' hrn hpe
    simp only [StoredRoute.countsFor, hrn, hpe, hma, Bool.decide_and, Bool.and_true,
      Bool.and_assoc, eq_comm (a := peer), eq_comm (a := afi), eq_comm (a := safi)]
  have hold : t.counted cfg peer afi safi a =
      (!b && decide (peer = ri.peer ∧ afi = (cfg.table ri.rn).afi
        ∧ safi = (cfg.table ri.rn).safi)) := by
    rw [TallyView.counted, hri, Option.any_some, hfor ri rfl rfl, hb]
  have hn : (t.setRoute a (·.withFlags [.counted] b)).counted cfg peer afi safi a =
      (b && decide (peer = ri.peer ∧ afi = (cfg.table ri.rn).afi
        ∧ safi = (cfg.table ri.rn).safi)) := by
    rw [TallyView.counted, TallyView.setRoute_routes, update_self, hri]
    exact hfor (ri.withFlags [.counted] b) rfl rfl
  rw [hold, hn] at hchg
  have hct := h.count peer afi safi
  rw [TallyView.setRoute_pcount]
  by_cases hsm : peer = ri.peer ∧ afi = (cfg.table ri.rn).afi ∧ safi = (cfg.table ri.rn).safi
  · rw [decide_eq_true hsm] at hchg
    rw [if_pos hsm, hct]
    cases b with
    | false =>
      have hless : (extra ++ t.rib).countP _ + 1 = (extra ++ t.rib).countP _ + 0 := hchg
      exact (Nat.sub_eq_of_eq_add hless.symm : _)
    | true =>
      have hmo : (extra ++ t.rib).countP _ + 0 = (extra ++ t.rib).countP _ + 1 := hchg
      exact hmo.symm
  · rw [decide_eq_false hsm, Bool.and_false, Bool.and_false] at hchg
    rw [if_neg hsm, hct]
    exact hchg.symm

end SdnQuagga
