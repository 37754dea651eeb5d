import SdnQuagga.BgpAspathReconcile
import SdnQuagga.BgpBestpath

/-!
# Selecting the best route

`bgp_best_selection`. With deterministic MED a first pass marks the best route
of each group of routes with one leftmost AS, and a second pass compares the
marked routes. Within a group MEDs are compared, so that the group is ordered by
`decisionKey` with the MED of each route. Two marked routes with a path have
different leftmost ASes and their MEDs are not compared; routes with an empty
path are shorter than all others and are ordered by MED among themselves.
-/

namespace SdnQuagga

open List Function

/-! ## The source -/

/-- `BGP_INFO_DMED_CHECK` and `BGP_INFO_DMED_SELECTED` of the routes, by
address. -/
structure DmedFlags where
  check : Nat → Bool
  selected : Nat → Bool

namespace DmedFlags

variable (flags : DmedFlags) (ri : BgpInfo)

def setCheck : DmedFlags :=
  { flags with check := update flags.check ri.addr true }

def unsetCheck : DmedFlags :=
  { flags with check := update flags.check ri.addr false }

def setSelected : DmedFlags :=
  { flags with selected := update flags.selected ri.addr true }

def unsetSelected : DmedFlags :=
  { flags with selected := update flags.selected ri.addr false }

/-- Neither flag of a route is set. -/
def Clear : Prop :=
  flags.check ri.addr = false ∧ flags.selected ri.addr = false

theorem mark_check (a : Nat) : ((flags.setCheck ri).setSelected ri).check a = true
    ↔ flags.check a = true ∨ a = ri.addr := by
  by_cases ha : a = ri.addr <;> simp [setSelected, setCheck, ha]

theorem mark_selected (a : Nat) : ((flags.setCheck ri).setSelected ri).selected a = true
    ↔ flags.selected a = true ∨ a = ri.addr := by
  by_cases ha : a = ri.addr <;> simp [setSelected, setCheck, ha]

end DmedFlags

def BgpInfo.holddown (ri : BgpInfo) : Bool :=
  !ri.flags.valid || (ri.flags.history || ri.flags.damped || ri.flags.removed)

def sameGroup (ri1 ri2 : BgpInfo) : Bool :=
  aspathCmpLeft ri1.aspath ri2.aspath || aspathCmpLeftConfed ri1.aspath ri2.aspath

variable (bgp : BestpathConfig)

/-- The loop over `ri2`: the flags and the best route of the group. -/
def dmedGroup (ri1 : BgpInfo) (flags : DmedFlags)
    (newSelect : BgpInfo) : List BgpInfo → DmedFlags × BgpInfo
  | [] => (flags, newSelect)
  | ri2 :: rest =>
    if flags.check ri2.addr || ri2.holddown then
      dmedGroup ri1 flags newSelect rest
    else if sameGroup ri1 ri2 then
      if bgpInfoCmp bgp ri2 newSelect then
        dmedGroup ri1 ((flags.unsetSelected newSelect).setCheck ri2) ri2 rest
      else dmedGroup ri1 (flags.setCheck ri2) newSelect rest
    else dmedGroup ri1 flags newSelect rest

/-- The loop over `ri1`. -/
def dmedPass (flags : DmedFlags) : List BgpInfo → DmedFlags
  | [] => flags
  | ri1 :: rest =>
    if flags.check ri1.addr || ri1.holddown then dmedPass flags rest
    else
      let (flags, newSelect) := dmedGroup bgp ri1 flags ri1 rest
      dmedPass ((flags.setCheck newSelect).setSelected newSelect) rest

/-- What `bgp_best_selection` leaves behind: the pair of routes, the flags, and
the list without the routes that were reaped. -/
structure Selection where
  old : Option BgpInfo
  new : Option BgpInfo
  flags : DmedFlags
  routes : List BgpInfo

variable (bgp : BestpathConfig) {a b : BgpInfo} {ri : BgpInfo}

/-- `bgp_info_cmp` with a route that may be missing. -/
def beatsSelected (ri : BgpInfo) (new : Option BgpInfo) :
    Bool :=
  match new with
  | none => true
  | some exist => bgpInfoCmp bgp ri exist

def selectTurn (sel : Selection) (ri : BgpInfo) : Selection :=
  let old := if ri.flags.selected then some ri else sel.old
  if ri.holddown then
    if ri.flags.removed && old.map BgpInfo.addr ≠ some ri.addr then
      { sel with old := old }
    else { sel with old := old, routes := sel.routes ++ [ri] }
  else if bgp.deterministicMed && !sel.flags.selected ri.addr then
    { sel with
      old := old, flags := sel.flags.unsetCheck ri, routes := sel.routes ++ [ri] }
  else
    { old := old
      new := if beatsSelected bgp ri sel.new then some ri else sel.new
      flags := (sel.flags.unsetCheck ri).unsetSelected ri
      routes := sel.routes ++ [ri] }

/-- `bgp_best_selection`, without the multipath lists. -/
def bgpBestSelection (routes : List BgpInfo) (flags : DmedFlags) : Selection :=
  let flags := if bgp.deterministicMed then dmedPass bgp flags routes else flags
  routes.foldl (selectTurn bgp) ⟨none, none, flags, []⟩

/-! ## Routes of different neighbors -/

/-- The routes of a node, learned from neighbors with different addresses. -/
structure LearnedRoutes (routes : List BgpInfo) : Prop where
  normal : ∀ ri ∈ routes, ri.subType = .normal
  noConfed : ∀ ri ∈ routes, ∀ seg ∈ ri.aspath, seg.type.isConfed = false
  neighbors : ∀ a ∈ routes, ∀ b ∈ routes, a.peer.suRemote = b.peer.suRemote → a = b
  nodes : (routes.map BgpInfo.addr).Nodup

/-- The leftmost AS of a path without confederation segments. -/
def leftmost (ri : BgpInfo) : Option UInt32 := firstAsn .sequence ri.aspath

theorem sameFirst_iff {asn1 asn2 : Option UInt32} :
    sameFirst asn1 asn2 = true ↔ asn1 = asn2 ∧ asn1.isSome := by
  cases asn1 with
  | none => simp [sameFirst]
  | some n => cases asn2 <;> simp [sameFirst]

theorem aspathCmpLeft_iff (ha : ∀ seg ∈ a.aspath, seg.type.isConfed = false)
    (hb : ∀ seg ∈ b.aspath, seg.type.isConfed = false) :
    aspathCmpLeft a.aspath b.aspath = true ↔ leftmost a = leftmost b ∧ (leftmost a).isSome := by
  have hdr : ∀ {segs : List Assegment}, (∀ seg ∈ segs, seg.type.isConfed = false) →
      segs.dropWhile (·.type.isConfed) = segs := by
    intro segs h
    cases segs with
    | nil => rfl
    | cons seg next => exact dropWhile_cons_of_neg (by simp [h seg])
  rw [aspathCmpLeft, hdr ha, hdr hb, sameFirst_iff]
  exact Iff.rfl

theorem aspathCmpLeftConfed_false {aspath1 aspath2 : List Assegment}
    (h : ∀ seg ∈ aspath1, seg.type.isConfed = false) :
    aspathCmpLeftConfed aspath1 aspath2 = false := by
  have hno : firstAsn .confedSequence aspath1 = none := by
    cases aspath1 with
    | nil => rfl
    | cons seg next =>
      refine if_neg fun hty => ?_
      have := h seg mem_cons_self
      rw [hty] at this
      exact absurd this (by decide)
  rw [aspathCmpLeftConfed, hno]
  rfl

namespace LearnedRoutes

variable {bgp : BestpathConfig} {routes : List BgpInfo} {a b c : BgpInfo}

section

variable (h : LearnedRoutes routes)
include h

section

variable (ha : a ∈ routes)
include ha

section

variable (hb : b ∈ routes)
include hb

theorem sameGroup_iff : sameGroup a b = true ↔ leftmost a = leftmost b ∧ (leftmost a).isSome := by
  rw [sameGroup, aspathCmpLeftConfed_false (h.noConfed a ha), Bool.or_false,
    aspathCmpLeft_iff (h.noConfed a ha) (h.noConfed b hb)]

theorem sameGroup_symm (hab : sameGroup a b = true) : sameGroup b a = true := by
  rw [h.sameGroup_iff ha hb] at hab
  rw [h.sameGroup_iff hb ha]
  exact ⟨hab.1.symm, hab.1 ▸ hab.2⟩

theorem sameGroup_trans
    (hc : c ∈ routes) (hab : sameGroup a b = true) (hbc : sameGroup b c = true) :
    sameGroup a c = true := by
  rw [h.sameGroup_iff ha hb] at hab
  rw [h.sameGroup_iff hb hc] at hbc
  rw [h.sameGroup_iff ha hc]
  exact ⟨hab.1.trans hbc.1, hab.2⟩

theorem eq_of_addr (had : a.addr = b.addr) : a = b := inj_on_of_nodup_map h.nodes ha hb had

end

end

end

end LearnedRoutes

/-! ## The groups -/

/-- The usable routes with the leftmost AS of a route, itself included. -/
def groupOf (routes : List BgpInfo) (ri : BgpInfo) : Set BgpInfo :=
  {m | m ∈ routes ∧ m.holddown = false ∧ (m = ri ∨ sameGroup ri m = true)}

/-- The best route of its group. -/
def Winner (bgp : BestpathConfig) (routes : List BgpInfo) (ri : BgpInfo) : Prop :=
  IsBest (bgpInfoCmp bgp) (groupOf routes ri) ri

section

variable {bgp : BestpathConfig} {routes : List BgpInfo}

theorem LearnedRoutes.groupOf_eq (h : LearnedRoutes routes)
    (ha : a ∈ routes) (hb : b ∈ routes) (hab : sameGroup a b = true) :
    groupOf routes a = groupOf routes b := by
  have hba := h.sameGroup_symm ha hb hab
  ext m
  refine and_congr_right fun hm => and_congr_right fun _ => ?_
  constructor
  · rintro (rfl | ham)
    · exact .inr hba
    · exact .inr (h.sameGroup_trans hb ha hm hba ham)
  · rintro (rfl | hbm)
    · exact .inr hab
    · exact .inr (h.sameGroup_trans ha hb hm hab hbm)

/-- Within a group MEDs are compared. -/
theorem LearnedRoutes.group_orders (h : LearnedRoutes routes)
    (hid : bgp.compareRouterId = true) (hri : ri ∈ routes) :
    OrdersBy (bgpInfoCmp bgp) (decisionKey bgp (plainMed bgp)) (groupOf routes ri) := by
  constructor
  · intro a ha b hb hk
    exact h.neighbors a ha.1 b hb.1 (decisionKey_addr hk)
  · intro a ha b hb hne
    have had : a.peer.suRemote ≠ b.peer.suRemote := fun heq =>
      hne (h.neighbors a ha.1 b hb.1 heq)
    have hlf : sameGroup a b = true := by
      rcases ha.2.2 with rfl | hra
      · rcases hb.2.2 with rfl | hrb
        · exact absurd rfl hne
        · exact hrb
      · have har := h.sameGroup_symm hri ha.1 hra
        rcases hb.2.2 with rfl | hrb
        · exact har
        · exact h.sameGroup_trans ha.1 hri hb.1 har hrb
    have hcom : medCompared bgp a b = true := by
      have hcmp := (aspathCmpLeft_iff (h.noConfed a ha.1) (h.noConfed b hb.1)).mpr
        ((h.sameGroup_iff ha.1 hb.1).mp hlf)
      simp [medCompared, hcmp]
    exact bgpInfoCmp_iff hid (h.normal a ha.1) (h.normal b hb.1) had (medAgrees_plain hcom)

end

/-! ## The first pass -/

/-- The routes that the loop over `ri2` takes into the group. -/
def joining (flags : DmedFlags) (ri1 : BgpInfo) (rest : List BgpInfo) : List BgpInfo :=
  rest.filter fun ri2 =>
    !(flags.check ri2.addr || ri2.holddown) && sameGroup ri1 ri2

variable {rest : List BgpInfo} {flags : DmedFlags}

theorem joining_setCheck {ri1 ri2 : BgpInfo}
    (h : ri2.addr ∉ rest.map BgpInfo.addr) :
    joining (flags.setCheck ri2) ri1 rest = joining flags ri1 rest := by
  refine filter_congr fun ri hri => ?_
  have hne : ri.addr ≠ ri2.addr := fun heq => h (heq ▸ mem_map_of_mem hri)
  simp [DmedFlags.setCheck, hne]

/-- The loop scans the routes that join, and marks them. A route that is not
marked is not selected either, so nothing is unselected. -/
theorem dmedGroup_eq (bgp : BestpathConfig) (ri1 : BgpInfo) :
    ∀ {flags : DmedFlags} {newSelect : BgpInfo}, (rest.map BgpInfo.addr).Nodup →
    flags.selected newSelect.addr = false →
    (∀ ri ∈ rest, flags.check ri.addr = false → flags.selected ri.addr = false) →
    dmedGroup bgp ri1 flags newSelect rest = (⟨fun addr => flags.check addr
            || ((joining flags ri1 rest).map BgpInfo.addr).contains addr,
          flags.selected⟩,
        scanBest (bgpInfoCmp bgp) newSelect (joining flags ri1 rest)) := by
  induction rest with
  | nil =>
    intro flags newSelect _ _ _
    simp [dmedGroup, joining, scanBest]
  | cons ri2 rest ih =>
    intro flags newSelect hnd hn hrs
    rw [map_cons, nodup_cons] at hnd
    have hlat : ∀ ri ∈ rest, flags.check ri.addr = false → flags.selected ri.addr = false :=
      fun ri hri => hrs ri (mem_cons_of_mem _ hri)
    rw [dmedGroup]
    by_cases hsk : (flags.check ri2.addr || ri2.holddown) = true
    · have hjn : joining flags ri1 (ri2 :: rest) = joining flags ri1 rest :=
        filter_cons_of_neg (by rw [hsk]; simp)
      rw [if_pos hsk, ih hnd.2 hn hlat, hjn]
    · rw [if_neg hsk]
      have hfe : flags.check ri2.addr = false ∧ ri2.holddown = false := by simpa using hsk
      by_cases hgrp : sameGroup ri1 ri2 = true
      · have hjn : joining flags ri1 (ri2 :: rest) = ri2 :: joining flags ri1 rest :=
          filter_cons_of_pos (by simp [hfe, hgrp])
        have hunsel : flags.unsetSelected newSelect = flags := by
          rw [DmedFlags.unsetSelected, ← hn, update_eq_self]
        have hsel2 : flags.selected ri2.addr = false := hrs ri2 mem_cons_self hfe.1
        have hlat' : ∀ ri ∈ rest, (flags.setCheck ri2).check ri.addr = false →
            (flags.setCheck ri2).selected ri.addr = false := by
          intro ri hri hck
          have hne : ri.addr ≠ ri2.addr := fun heq =>
            hnd.1 (heq ▸ mem_map_of_mem hri)
          exact hlat ri hri (by simpa [DmedFlags.setCheck, hne] using hck)
        have hfl : ∀ addr, ((flags.setCheck ri2).check addr
            || ((joining flags ri1 rest).map BgpInfo.addr).contains addr)
            = (flags.check addr
              || ((ri2 :: joining flags ri1 rest).map BgpInfo.addr).contains addr) := by
          intro addr
          by_cases had : addr = ri2.addr
          · simp [DmedFlags.setCheck, had]
          · simp [DmedFlags.setCheck, had]
        rw [if_pos hgrp, hunsel, hjn, scanBest]
        split
        next hbeats =>
          rw [@ih (flags.setCheck ri2) ri2 hnd.2 hsel2 hlat', joining_setCheck hnd.1]
          simp only [hfl]
          rfl
        next hbeats =>
          rw [@ih (flags.setCheck ri2) newSelect hnd.2 hn hlat', joining_setCheck hnd.1]
          simp only [hfl]
          rfl
      · have hjn : joining flags ri1 (ri2 :: rest) = joining flags ri1 rest :=
          filter_cons_of_neg (by simp [hgrp])
        rw [if_neg hgrp, ih hnd.2 hn hlat, hjn]

/-- The state of the first pass with the routes of `done` behind it: the
routes of their groups are marked, and the winners of those groups selected. -/
structure DmedInv (bgp : BestpathConfig) (done todo : List BgpInfo) (flags : DmedFlags) : Prop where
  check : ∀ ri ∈ todo, ri.holddown = false → (flags.check ri.addr = true
    ↔ ∃ d ∈ done, d.holddown = false ∧ sameGroup d ri = true)
  selected : ∀ ri ∈ done ++ todo, flags.selected ri.addr = true ↔ Winner bgp (done ++ todo) ri
      ∧ ∃ d ∈ done, d.holddown = false ∧ (d = ri ∨ sameGroup d ri = true)
  down : ∀ ri ∈ done ++ todo, ri.holddown = true → flags.check ri.addr = false

namespace DmedInv

variable {bgp : BestpathConfig} {done rest : List BgpInfo} {ri1 : BgpInfo}
  {flags : DmedFlags}

theorem start {routes : List BgpInfo}
    (hclr : ∀ ri ∈ routes, flags.Clear ri) : DmedInv bgp [] routes flags where
  check := fun ri hri _ => by simp [(hclr ri hri).1]
  selected := fun ri hri => by simp [(hclr ri hri).2]
  down := fun ri hri _ => (hclr ri hri).1

theorem unselected (h : LearnedRoutes (done ++ rest)) (inv : DmedInv bgp done rest flags)
    (hri : ri ∈ rest) (hck : flags.check ri.addr = false) : flags.selected ri.addr = false := by
  by_contra hsel
  obtain ⟨hwi, d, hd, hdo, hgrp⟩ := (inv.selected ri
    (mem_append_right _ hri)).mp (by simpa using hsel)
  rcases hgrp with rfl | hgrp
  · have hdisj := disjoint_of_nodup_append h.nodes.of_map
    exact hdisj hd hri
  · have := (inv.check ri hri hwi.1.2.1).mpr ⟨d, hd, hdo, hgrp⟩
    rw [hck] at this
    exact Bool.false_ne_true this

theorem exists_mem_concat {P : BgpInfo → Prop} :
    (∃ d ∈ done ++ [ri1], P d) ↔ (∃ d ∈ done, P d) ∨ P ri1 := by
  simp [or_and_right, exists_or]

section

variable (h : LearnedRoutes (done ++ ri1 :: rest))
include h

theorem skip (inv : DmedInv bgp done (ri1 :: rest) flags)
    (hsk : (flags.check ri1.addr || ri1.holddown) = true) :
    DmedInv bgp (done ++ [ri1]) rest flags := by
  -- What `ri1` adds is there already.
  have hold : ∀ ri ∈ done ++ ri1 :: rest, ri1.holddown = false →
      (ri1 = ri ∨ sameGroup ri1 ri = true) →
      ∃ d ∈ done, d.holddown = false ∧ sameGroup d ri = true := by
    intro ri hri hdo hgrp
    have hck : flags.check ri1.addr = true := by simpa [hdo] using hsk
    obtain ⟨d, hd, hddown, hd1⟩ := (inv.check ri1 mem_cons_self hdo).mp hck
    refine ⟨d, hd, hddown, ?_⟩
    rcases hgrp with rfl | hgrp
    · exact hd1
    · exact h.sameGroup_trans (mem_append_left _ hd) mem_append_cons_self hri hd1 hgrp
  refine ⟨?_, ?_, fun ri hri => inv.down ri (by simpa using hri)⟩
  · intro ri hri hdo
    rw [inv.check ri (mem_cons_of_mem _ hri) hdo, exists_mem_concat]
    exact (or_iff_left_of_imp fun h1 => hold ri (by simp [hri]) h1.1 (.inr h1.2)).symm
  · intro ri hri
    rw [append_assoc, singleton_append] at hri ⊢
    rw [inv.selected ri hri, exists_mem_concat]
    refine and_congr_right fun _ => (or_iff_left_of_imp fun h1 => ?_).symm
    obtain ⟨d, hd, hddown, hgrp⟩ := hold ri hri h1.1 h1.2
    exact ⟨d, hd, hddown, .inr hgrp⟩

variable (inv : DmedInv bgp done (ri1 :: rest) flags) (hck : flags.check ri1.addr = false)
  (hdo : ri1.holddown = false)
include inv hck hdo

/-- The group of a route that is not marked lies before the pass. -/
theorem group_eq :
    {ri1} ∪ {m | m ∈ joining flags ri1 rest} = groupOf (done ++ ri1 :: rest) ri1 := by
  have hmb1 : ri1 ∈ done ++ ri1 :: rest := by simp
  have hno : ∀ d ∈ done, d.holddown = false → ¬ sameGroup d ri1 = true := by
    intro d hd hddown hgrp
    have := (inv.check ri1 mem_cons_self hdo).mpr ⟨d, hd, hddown, hgrp⟩
    rw [hck] at this
    exact Bool.false_ne_true this
  ext m
  constructor
  · rintro (rfl | hm)
    · exact ⟨hmb1, hdo, .inl rfl⟩
    · obtain ⟨hm, hjn⟩ := mem_filter.mp hm
      have hfe : (flags.check m.addr = false ∧ m.holddown = false)
          ∧ sameGroup ri1 m = true := by simpa using hjn
      exact ⟨by simp [hm], hfe.1.2, .inr hfe.2⟩
  · rintro ⟨hm, hmdown, hgrp⟩
    by_cases hm1 : m = ri1
    · exact .inl hm1
    · replace hgrp := hgrp.resolve_left hm1
      have hmg := h.sameGroup_symm hmb1 hm hgrp
      rcases mem_append.mp hm with hd | htl
      · exact absurd hmg (hno m hd hmdown)
      · have hrs := (mem_cons.mp htl).resolve_left hm1
        have hmcheck : flags.check m.addr = false := by
          by_contra hc
          obtain ⟨d, hd, hddown, hdm⟩ :=
            (inv.check m htl hmdown).mp (by simpa using hc)
          exact hno d hd hddown (h.sameGroup_trans (mem_append_left _ hd) hm hmb1 hdm hmg)
        exact .inr (mem_filter.mpr ⟨hrs, by simp [hmcheck, hmdown, hgrp]⟩)

/-- The scan over the group ends with its winner. -/
theorem scan_isBest (hid : bgp.compareRouterId = true) :
    IsBest (bgpInfoCmp bgp) (groupOf (done ++ ri1 :: rest) ri1)
      (scanBest (bgpInfoCmp bgp) ri1 (joining flags ri1 rest)) := by
  have hnd : (ri1 :: rest).Nodup := (nodup_append.mp h.nodes.of_map).2.1
  have hgrp := inv.group_eq h hck hdo
  rw [← hgrp]
  refine OrdersBy.scanBest_isBest (hgrp ▸ h.group_orders hid mem_append_cons_self) ?_ ?_ ?_
  · refine ⟨rfl, ?_⟩
    rintro a rfl hne
    exact absurd rfl hne
  · rintro a ha rfl
    exact (nodup_cons.mp hnd).1 (mem_filter.mp ha).1
  · exact (nodup_cons.mp hnd).2.filter _

theorem lead (hid : bgp.compareRouterId = true) {flags' : DmedFlags} {best : BgpInfo}
    (hr : dmedGroup bgp ri1 flags ri1 rest = (flags', best)) :
    DmedInv bgp (done ++ [ri1]) rest ((flags'.setCheck best).setSelected best) := by
  have hmb1 : ri1 ∈ done ++ ri1 :: rest := by simp
  have hnd : (ri1 :: rest).Nodup := (nodup_append.mp h.nodes.of_map).2.1
  have hrestaddr : (rest.map BgpInfo.addr).Nodup := by
    have := (nodup_append.mp (map_append ▸ h.nodes)).2.1
    exact (nodup_cons.mp this).2
  have hbe := inv.scan_isBest h hck hdo hid
  rw [dmedGroup_eq bgp ri1 hrestaddr (inv.unselected h mem_cons_self hck)
    (fun ri hri => inv.unselected h (mem_cons_of_mem _ hri))] at hr
  obtain ⟨rfl, rfl⟩ := Prod.mk.inj hr
  set best := scanBest (bgpInfoCmp bgp) ri1 (joining flags ri1 rest)
  have hgrp := inv.group_eq h hck hdo
  have hbmem : best ∈ done ++ ri1 :: rest := hbe.1.1
  -- The group of a route that `ri1` leads is the group of `ri1`.
  have hsm : ∀ ri ∈ done ++ ri1 :: rest, (ri1 = ri ∨ sameGroup ri1 ri = true) →
      groupOf (done ++ ri1 :: rest) ri = groupOf (done ++ ri1 :: rest) ri1 := by
    rintro ri hri (rfl | hg)
    · rfl
    · exact (h.groupOf_eq hmb1 hri hg).symm
  have hbgroup : ri1 = best ∨ sameGroup ri1 best = true := hbe.1.2.2.imp Eq.symm id
  refine ⟨?_, ?_, ?_⟩
  · intro ri hri hridown
    have hrimem : ri ∈ done ++ ri1 :: rest := by simp [hri]
    have hne : ri ≠ ri1 := by
      rintro rfl
      exact (nodup_cons.mp hnd).1 hri
    -- The new marks are those of the group.
    have hmarks : ((flags.check ri.addr
          || ((joining flags ri1 rest).map BgpInfo.addr).contains ri.addr) = true
        ∨ ri.addr = best.addr)
        ↔ flags.check ri.addr = true ∨ sameGroup ri1 ri = true := by
      constructor
      · rintro (hor | had)
        · rcases Bool.or_eq_true_iff.mp hor with hc | hin
          · exact Or.inl hc
          · obtain ⟨m, hm, hmaddr⟩ := mem_map.mp (contains_iff_mem.mp hin)
            have hmg : m ∈ groupOf (done ++ ri1 :: rest) ri1 := hgrp ▸ Or.inr hm
            obtain rfl := h.eq_of_addr hmg.1 hrimem hmaddr
            exact Or.inr (hmg.2.2.resolve_left hne)
        · obtain rfl := h.eq_of_addr hrimem hbmem had
          exact Or.inr (hbgroup.resolve_left (Ne.symm hne))
      · rintro (hc | hg)
        · exact Or.inl (by simp [hc])
        · have hin : ri ∈ groupOf (done ++ ri1 :: rest) ri1 :=
            ⟨hrimem, hridown, Or.inr hg⟩
          rw [← hgrp] at hin
          have hjn := hin.resolve_left hne
          refine Or.inl (Bool.or_eq_true_iff.mpr (Or.inr ?_))
          exact contains_iff_mem.mpr (mem_map_of_mem hjn)
    refine (DmedFlags.mark_check ..).trans (hmarks.trans ?_)
    rw [inv.check ri (mem_cons_of_mem _ hri) hridown, exists_mem_concat]
    exact or_congr_right (and_iff_right hdo).symm
  · intro ri hri
    rw [append_assoc, singleton_append] at hri ⊢
    refine (DmedFlags.mark_selected ..).trans ?_
    show flags.selected ri.addr = true ∨ _ ↔ _
    rw [inv.selected ri hri, exists_mem_concat, and_or_left]
    refine or_congr_right ⟨fun had => ?_, fun ⟨hwi, _, hg⟩ => ?_⟩
    · obtain rfl := h.eq_of_addr hri hbmem had
      refine ⟨?_, hdo, hbgroup⟩
      rwa [Winner, hsm best hbmem hbgroup]
    · rw [Winner, hsm ri hri hg] at hwi
      exact congrArg BgpInfo.addr ((h.group_orders hid hmb1).isBest_unique hwi hbe)
  · intro ri hri hridown
    rw [append_assoc, singleton_append] at hri
    have hnt : ∀ m ∈ groupOf (done ++ ri1 :: rest) ri1, ri.addr ≠ m.addr := by
      intro m hm had
      obtain rfl := h.eq_of_addr hri hm.1 had
      exact Bool.false_ne_true (hm.2.1.symm.trans hridown)
    have hjn : ((joining flags ri1 rest).map BgpInfo.addr).contains ri.addr = false := by
      rw [← Bool.not_eq_true, contains_iff_mem, mem_map]
      rintro ⟨m, hm, hmaddr⟩
      exact hnt m (hgrp ▸ Or.inr hm) hmaddr.symm
    simp only [DmedFlags.setSelected, DmedFlags.setCheck,
      update_of_ne (hnt best hbe.1), inv.down ri hri hridown, hjn, Bool.or_self]

end

theorem finish (hid : bgp.compareRouterId = true) {todo : List BgpInfo} :
    ∀ {done : List BgpInfo} {flags : DmedFlags}, LearnedRoutes (done ++ todo) →
    DmedInv bgp done todo flags →
    DmedInv bgp (done ++ todo) [] (dmedPass bgp flags todo) := by
  induction todo with
  | nil =>
    intro done flags _ inv
    rw [append_nil]
    exact inv
  | cons ri1 rest ih =>
    intro done flags h inv
    have hli : done ++ ri1 :: rest = (done ++ [ri1]) ++ rest := by simp
    rw [dmedPass, hli]
    split
    next hsk => exact ih (hli ▸ h) (inv.skip h hsk)
    next hfe =>
      obtain ⟨hck, hdo⟩ : flags.check ri1.addr = false ∧ ri1.holddown = false := by simpa using hfe
      exact ih (hli ▸ h) (inv.lead h hck hdo hid rfl)

end DmedInv

theorem dmedPass_selected {bgp : BestpathConfig} {routes : List BgpInfo}
    (hid : bgp.compareRouterId = true) (h : LearnedRoutes routes)
    (hclr : ∀ ri ∈ routes, flags.Clear ri) (hri : ri ∈ routes) :
    (dmedPass bgp flags routes).selected ri.addr = true ↔ Winner bgp routes ri := by
  have inv := @DmedInv.finish bgp hid routes [] flags h (.start hclr)
  rw [nil_append] at inv
  rw [inv.selected ri (by simpa using hri), append_nil]
  refine and_iff_left_of_imp fun hwi => ?_
  exact ⟨ri, hri, hwi.1.2.1, .inl rfl⟩

/-! ## The last loop -/

variable (bgp : BestpathConfig)

/-- The routes that the last loop compares. -/
def candidates (flags : DmedFlags) (routes : List BgpInfo) :
    List BgpInfo :=
  routes.filter fun ri =>
    !ri.holddown && (!bgp.deterministicMed || flags.selected ri.addr)

/-- One comparison of the last loop. -/
def keepBetter (new : Option BgpInfo) (ri : BgpInfo) :
    Option BgpInfo :=
  if beatsSelected bgp ri new then some ri else new

variable (sel : Selection) (ri : BgpInfo)

theorem selectTurn_flags {addr : Nat} (h : addr ≠ ri.addr) :
    (selectTurn bgp sel ri).flags.check addr = sel.flags.check addr
      ∧ (selectTurn bgp sel ri).flags.selected addr = sel.flags.selected addr := by
  simp only [selectTurn]
  split
  · split <;> split <;> exact ⟨rfl, rfl⟩
  · split
    · exact ⟨update_of_ne h _ _, rfl⟩
    · exact ⟨update_of_ne h _ _, update_of_ne h _ _⟩

theorem selectTurn_clear (hdet : bgp.deterministicMed = true)
    (h : ri.holddown = true → sel.flags.Clear ri) : (selectTurn bgp sel ri).flags.Clear ri := by
  simp only [selectTurn]
  split
  next hho => split <;> split <;> exact h hho
  · split
    next hsel =>
      rw [hdet, Bool.true_and, Bool.not_eq_true'] at hsel
      exact ⟨update_self .., hsel⟩
    · exact ⟨update_self .., update_self ..⟩

theorem selectTurn_new :
    (selectTurn bgp sel ri).new
      = if !ri.holddown && (!bgp.deterministicMed || sel.flags.selected ri.addr) then
          keepBetter bgp sel.new ri
        else sel.new := by
  simp only [selectTurn]
  cases hdo : ri.holddown with
  | true =>
    simp only [if_true, Bool.not_true, Bool.false_and, Bool.false_eq_true, if_false]
    split <;> split <;> rfl
  | false =>
    cases hdet : bgp.deterministicMed with
    | false => simp [keepBetter]
    | true => cases hsel : sel.flags.selected ri.addr <;> simp [keepBetter]

variable {routes : List BgpInfo}

/-- The last loop is a scan over the candidates. -/
theorem foldl_selectTurn_new :
    ∀ {sel : Selection}, (routes.map BgpInfo.addr).Nodup →
    (routes.foldl (selectTurn bgp) sel).new
      = (candidates bgp sel.flags routes).foldl (keepBetter bgp) sel.new := by
  induction routes with
  | nil => exact fun _ => rfl
  | cons ri rest ih =>
    intro sel hnd
    rw [map_cons, nodup_cons] at hnd
    have hlat : candidates bgp (selectTurn bgp sel ri).flags rest
        = candidates bgp sel.flags rest := by
      refine filter_congr fun x hx => ?_
      have hne : x.addr ≠ ri.addr := fun heq =>
        hnd.1 (heq ▸ mem_map_of_mem hx)
      rw [(selectTurn_flags bgp sel ri hne).2]
    rw [foldl_cons, ih hnd.2, hlat, selectTurn_new, candidates, candidates, filter_cons]
    split <;> rfl

theorem foldl_selectTurn_flags {addr : Nat} {sel : Selection}
    (h : addr ∉ routes.map BgpInfo.addr) :
    (routes.foldl (selectTurn bgp) sel).flags.check addr = sel.flags.check addr
      ∧ (routes.foldl (selectTurn bgp) sel).flags.selected addr = sel.flags.selected addr := by
  induction routes generalizing sel with
  | nil => exact ⟨rfl, rfl⟩
  | cons ri rest ih =>
    rw [map_cons, mem_cons, not_or] at h
    obtain ⟨hck, hsel⟩ := selectTurn_flags bgp sel ri h.1
    rw [foldl_cons, (ih h.2).1, (ih h.2).2]
    exact ⟨hck, hsel⟩

theorem foldl_selectTurn_clear (hdet : bgp.deterministicMed = true) {sel : Selection}
    (hnd : (routes.map BgpInfo.addr).Nodup)
    (h : ∀ ri ∈ routes, ri.holddown = true → sel.flags.Clear ri) :
    ∀ ri ∈ routes, (routes.foldl (selectTurn bgp) sel).flags.Clear ri := by
  induction routes generalizing sel with
  | nil => exact fun ri hri => absurd hri not_mem_nil
  | cons ri rest ih =>
    rw [map_cons, nodup_cons] at hnd
    refine forall_mem_cons.mpr ⟨?_, ih hnd.2 fun x hx hho => ?_⟩
    · obtain ⟨hck, hsel⟩ := @foldl_selectTurn_flags bgp rest ri.addr (selectTurn bgp sel ri) hnd.1
      exact ⟨hck ▸ (selectTurn_clear bgp sel ri hdet (h ri mem_cons_self)).1,
        hsel ▸ (selectTurn_clear bgp sel ri hdet (h ri mem_cons_self)).2⟩
    · have hne : x.addr ≠ ri.addr := fun heq => hnd.1 (heq ▸ mem_map_of_mem hx)
      obtain ⟨hck, hsel⟩ := selectTurn_flags bgp sel ri hne
      obtain ⟨hck', hsel'⟩ := h x (mem_cons_of_mem _ hx) hho
      exact ⟨hck.trans hck', hsel.trans hsel'⟩

theorem foldl_keepBetter (routes : List BgpInfo) :
    routes.foldl (keepBetter bgp) none = match routes with
        | [] => none
        | ri :: rest => some (scanBest (bgpInfoCmp bgp) ri rest) := by
  have hso : ∀ rest ri, rest.foldl (keepBetter bgp) (some ri)
        = some (scanBest (bgpInfoCmp bgp) ri rest) := by
    intro rest
    induction rest with
    | nil => exact fun ri => rfl
    | cons x rest ih =>
      intro ri
      rw [foldl_cons, scanBest, ← ih, keepBetter, beatsSelected]
      split <;> rfl
  cases routes with
  | nil => rfl
  | cons ri rest => exact hso rest ri

/-! ## The winners among each other -/

/-- The MED of a winner counts where all MEDs are compared and where the path
is empty. -/
def winnerMed : Nat :=
  if bgp.alwaysCompareMed ∨ aspathCountHops ri.aspath = 0 then plainMed bgp ri else 0

theorem LearnedRoutes.hops_eq (h : LearnedRoutes routes)
    (bgp : BestpathConfig) {ri : BgpInfo} (hri : ri ∈ routes) :
    ri.hops bgp = aspathCountHops ri.aspath := by
  have hz := aspathCountConfeds_zero (h.noConfed ri hri)
  unfold BgpInfo.hops
  split
  · rw [hz, Nat.add_zero]
  · rfl

section

variable {bgp : BestpathConfig} {routes : List BgpInfo}

section

variable (h : LearnedRoutes routes)
include h

theorem LearnedRoutes.winners_apart
    (hid : bgp.compareRouterId = true) (ha : Winner bgp routes a)
    (hb : Winner bgp routes b) (hne : a ≠ b) : sameGroup a b = false := by
  rw [← Bool.not_eq_true]
  intro hsm
  have hgrp := h.groupOf_eq ha.1.1 hb.1.1 hsm
  refine hne ((h.group_orders hid ha.1.1).isBest_unique ha ?_)
  rwa [hgrp]

/-- The MEDs of two winners are compared where both paths are empty or where
all MEDs are. -/
theorem LearnedRoutes.winners_medAgrees
    (hpt : bgp.aspathIgnore = false) (ha : a ∈ routes)
    (hb : b ∈ routes) (hapt : sameGroup a b = false) : MedAgrees bgp (winnerMed bgp) a b := by
  intro hho
  have hho : aspathCountHops a.aspath = aspathCountHops b.aspath := by
    rw [← h.hops_eq bgp ha, ← h.hops_eq bgp hb]
    exact hho hpt
  obtain ⟨hlf, hleftConfed⟩ := Bool.or_eq_false_iff.mp hapt
  have hcfs := aspathCountConfeds_zero (h.noConfed a ha)
  have hcom : medCompared bgp a b = true
      ↔ (bgp.alwaysCompareMed = true ∨ aspathCountHops b.aspath = 0) := by
    simp [medCompared, hlf, hleftConfed, hcfs, hho]
  unfold winnerMed
  rw [hho]
  split
  next hmed =>
    rw [if_pos (hcom.mp hmed), if_pos (hcom.mp hmed)]
    exact ⟨rfl, rfl⟩
  next hmed => rw [if_neg (mt hcom.mpr hmed), if_neg (mt hcom.mpr hmed)]

theorem LearnedRoutes.winners_order
    (hid : bgp.compareRouterId = true) (hpt : bgp.aspathIgnore = false) :
    OrdersBy (bgpInfoCmp bgp) (decisionKey bgp (winnerMed bgp))
      {ri | Winner bgp routes ri} := by
  constructor
  · intro a ha b hb hk
    exact h.neighbors a ha.1.1 b hb.1.1 (decisionKey_addr hk)
  · intro a ha b hb hne
    have had : a.peer.suRemote ≠ b.peer.suRemote := fun heq =>
      hne (h.neighbors a ha.1.1 b hb.1.1 heq)
    exact bgpInfoCmp_iff hid (h.normal a ha.1.1) (h.normal b hb.1.1) had
      (h.winners_medAgrees hpt ha.1.1 hb.1.1 (h.winners_apart hid ha hb hne))

end

/-- The candidates of the last loop are the winners. -/
theorem LearnedRoutes.mem_candidates (h : LearnedRoutes routes) {flags : DmedFlags}
    (hid : bgp.compareRouterId = true) (hdet : bgp.deterministicMed = true)
    (hclr : ∀ ri ∈ routes, flags.Clear ri) {ri : BgpInfo} :
    ri ∈ candidates bgp (dmedPass bgp flags routes) routes ↔ Winner bgp routes ri := by
  simp only [candidates, mem_filter, hdet, Bool.not_true, Bool.false_or,
    Bool.and_eq_true, Bool.not_eq_true']
  constructor
  · rintro ⟨hri, -, hsel⟩
    exact (dmedPass_selected hid h hclr hri).mp hsel
  · intro hwi
    have hri := hwi.1.1
    exact ⟨hri, hwi.1.2.1, (dmedPass_selected hid h hclr hri).mpr hwi⟩

/-- `new` is the best of the winners. -/
theorem bgpBestSelection_new (h : LearnedRoutes routes)
    (hid : bgp.compareRouterId = true) (hdet : bgp.deterministicMed = true)
    (hpt : bgp.aspathIgnore = false) (hclr : ∀ ri ∈ routes, flags.Clear ri) (best : BgpInfo) :
    (bgpBestSelection bgp routes flags).new = some best
      ↔ IsBest (bgpInfoCmp bgp) {ri | Winner bgp routes ri} best := by
  have hmb := @LearnedRoutes.mem_candidates bgp routes h flags hid hdet hclr
  have hnd : (candidates bgp (dmedPass bgp flags routes) routes).Nodup :=
    (Nodup.of_map _ h.nodes).filter _
  have hords := h.winners_order hid hpt
  rw [bgpBestSelection, if_pos hdet, foldl_selectTurn_new bgp h.nodes, foldl_keepBetter]
  cases hcand : candidates bgp (dmedPass bgp flags routes) routes with
  | nil =>
    rw [hcand] at hmb
    exact iff_of_false (by simp) fun hbe => not_mem_nil (hmb.mpr hbe.1)
  | cons ri rest =>
    rw [hcand] at hmb hnd
    obtain ⟨hf, hrs⟩ := nodup_cons.mp hnd
    have hs : {ri | Winner bgp routes ri} = {ri} ∪ {a | a ∈ rest} := by
      ext x
      simp only [Set.mem_ofPred_eq, ← hmb, mem_cons, Set.mem_union, Set.mem_singleton_iff]
    rw [hs] at hords ⊢
    have hst : IsBest (bgpInfoCmp bgp) {ri} ri := ⟨rfl, fun a ha hne => absurd ha hne⟩
    have hscan := hords.scanBest_isBest hst
      (fun a ha heq => hf (Set.mem_singleton_iff.mp heq ▸ ha)) hrs
    constructor
    · rintro ⟨⟩
      exact hscan
    · intro hbe
      rw [hords.isBest_unique hbe hscan]

end

theorem LearnedRoutes.perm {routes routes' : List BgpInfo} (h : LearnedRoutes routes)
    (hpm : routes.Perm routes') : LearnedRoutes routes' where
  normal := fun ri hri => h.normal ri (hpm.mem_iff.mpr hri)
  noConfed := fun ri hri => h.noConfed ri (hpm.mem_iff.mpr hri)
  neighbors := fun a ha b hb =>
    h.neighbors a (hpm.mem_iff.mpr ha) b (hpm.mem_iff.mpr hb)
  nodes := (hpm.map _).nodup_iff.mp h.nodes

/-- A selection leaves the flags clear that it finds clear, as in routes that are new. -/
theorem bgpBestSelection_clear {bgp : BestpathConfig} {routes : List BgpInfo} {flags : DmedFlags}
    (hid : bgp.compareRouterId = true) (hdet : bgp.deterministicMed = true)
    (h : LearnedRoutes routes) (hclear : ∀ ri ∈ routes, flags.Clear ri) :
    ∀ ri ∈ routes, (bgpBestSelection bgp routes flags).flags.Clear ri := by
  have inv := @DmedInv.finish bgp hid routes [] flags h (.start hclear)
  have hdown : ∀ ri ∈ routes, ri.holddown = true → (dmedPass bgp flags routes).Clear ri := by
    intro ri hri hho
    refine ⟨inv.down ri (by simpa using hri) hho, Bool.eq_false_of_not_eq_true fun hsel => ?_⟩
    have hwi := (dmedPass_selected hid h hclear hri).mp hsel
    rw [hwi.1.2.1] at hho
    cases hho
  rw [bgpBestSelection, if_pos hdet]
  exact foldl_selectTurn_clear bgp hdet h.nodes hdown

/-- With deterministic MED the order of the list does not matter. -/
theorem best_selection_order_independent {bgp : BestpathConfig}
    {routes routes' : List BgpInfo} {flags : DmedFlags}
    (hdet : bgp.deterministicMed = true) (hid : bgp.compareRouterId = true)
    (hpath : bgp.aspathIgnore = false) (h : LearnedRoutes routes)
    (hclear : ∀ ri ∈ routes, flags.Clear ri) (hperm : routes.Perm routes') :
    (bgpBestSelection bgp routes flags).new = (bgpBestSelection bgp routes' flags).new := by
  have hclear' : ∀ ri ∈ routes', flags.Clear ri := fun ri hri => hclear ri (hperm.mem_iff.mpr hri)
  have hgroup : ∀ ri, groupOf routes ri = groupOf routes' ri := by
    intro ri
    ext m
    simp only [groupOf, Set.mem_ofPred_eq, hperm.mem_iff]
  refine Option.ext fun best => ?_
  rw [bgpBestSelection_new h hid hdet hpath hclear,
    bgpBestSelection_new (h.perm hperm) hid hdet hpath hclear']
  simp only [Winner, hgroup]

/-- Deterministic MED with the router identifier compared. -/
def deterministic : BestpathConfig :=
  ⟨false, true, false, false, true, false, false, 100⟩

/-- Two routes of one neighbor AS and one of another, whose comparisons run in a
circle. -/
def circleRoutes : List BgpInfo :=
  [learnedRoute 1 [⟨.sequence, [7, 5], by decide⟩] 20,
    learnedRoute 2 [⟨.sequence, [8, 5], by decide⟩] 0,
    learnedRoute 3 [⟨.sequence, [7, 5], by decide⟩] 10]

/-- The routes of the circle in two orders. -/
theorem best_selection_order_independent_circle :
    (bgpBestSelection deterministic circleRoutes ⟨fun _ => false, fun _ => false⟩).new
      = (bgpBestSelection deterministic circleRoutes.reverse
        ⟨fun _ => false, fun _ => false⟩).new := by
  refine best_selection_order_independent rfl rfl rfl ⟨?_, ?_, ?_, ?_⟩
    (fun _ _ => ⟨rfl, rfl⟩) (reverse_perm _).symm
  · simp [circleRoutes, learnedRoute]
  · simp [circleRoutes, learnedRoute, BgpInfo.aspath, SegType.isConfed]
  · simp [circleRoutes, learnedRoute]
  · decide

end SdnQuagga
