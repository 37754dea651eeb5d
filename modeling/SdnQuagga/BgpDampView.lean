import SdnQuagga.BgpDamp
import SdnQuagga.LinkedLists

/-!
# Where dampening records are

What list membership depends on, without the penalties and times: the links of
the records, the route each is for, the record each route has and whether it is
suppressed (`DampView`). `DampView.Valid` says that every record is on the list
its route's flag calls for. The functions break that for the record they work on
and mend it, so it is stated up to some records that are `loose`, on any list or
on none.
-/

namespace SdnQuagga

open List Function
open LinkedLists (Links Lists)

variable {slots : Nat}

/-- What a record says of its place. -/
structure DampPlace (slots : Nat) where
  binfo : Nat
  rn : Nat
  index : Option (Fin slots)

/-- What a route says of its record. -/
structure DampOwner where
  rn : Nat
  dampInfo : Option Nat
  damped : Bool

@[ext]
structure DampView (slots : Nat) where
  links : Links (Option (Fin slots))
  infos : Nat → Option (DampPlace slots)
  routes : Nat → Option DampOwner
  next : Nat

def DampInfo.place (bdi : DampInfo slots) : DampPlace slots :=
  ⟨bdi.binfo, bdi.rn, bdi.index⟩

def StoredRoute.owner (ri : StoredRoute) : DampOwner :=
  ⟨ri.rn, ri.dampInfo, ri.flags .damped⟩

@[simps]
def BgpRib.view (st : BgpRib slots) : DampView slots where
  links :=
    { head := st.head
      next := fun d => (st.infos d).bind (·.next)
      prev := fun d => (st.infos d).bind (·.prev) }
  infos d := (st.infos d).map DampInfo.place
  routes a := (st.routes a).map StoredRoute.owner
  next := st.next

/-- The list for a record: the chain of its slot if the route is suppressed. -/
def Home (owner : DampOwner) (place : DampPlace slots) (k : Option (Fin slots)) :
    Prop :=
  if owner.damped then k.isSome ∧ k = place.index else k = none

namespace DampView

variable {v : DampView slots} {f : Option (Fin slots) → List Nat} {loose : List Nat}
  {a d : Nat}

/-! ## Changes to the view -/

variable (v) (k : Option (Fin slots))

@[simps]
def push (d : Nat) : DampView slots :=
  { v with links := LinkedLists.push v.links k d }

@[simps]
def remove (d : Nat) : DampView slots :=
  { v with links := LinkedLists.remove v.links k d }

@[simps]
def detach : DampView slots :=
  { v with links := LinkedLists.detach v.links k }

@[simps]
def setIndex (d : Nat) (i : Fin slots) : DampView slots :=
  { v with
    infos := update v.infos d ((v.infos d).map fun place => { place with index := some i }) }

@[simps]
def setDamped (a : Nat) (b : Bool) : DampView slots :=
  { v with
    routes := update v.routes a ((v.routes a).map fun owner => { owner with damped := b }) }

@[simps]
def setDampInfo (a : Nat) (o : Option Nat) : DampView slots :=
  { v with
    routes := update v.routes a ((v.routes a).map fun owner => { owner with dampInfo := o }) }

/-- A new record at the next address, not linked. -/
@[simps]
def alloc (place : DampPlace slots) : DampView slots where
  links :=
    { head := v.links.head
      next := update v.links.next v.next none
      prev := update v.links.prev v.next none }
  infos := update v.infos v.next (some place)
  routes := v.routes
  next := v.next + 1

@[simps]
def free (d : Nat) : DampView slots where
  links :=
    { head := v.links.head
      next := update v.links.next d none
      prev := update v.links.prev d none }
  infos := update v.infos d none
  routes := v.routes
  next := v.next

/-! ## Membership -/

def Live (d : Nat) : Prop := ∃ place, v.infos d = some place

def Stored (a : Nat) : Prop := ∃ owner, v.routes a = some owner

variable {v} {owner : DampOwner} {place : DampPlace slots} {k : Option (Fin slots)}

theorem setDamped_self (h : v.routes a = some owner) (b : Bool) :
    (v.setDamped a b).routes a = some { owner with damped := b } := by
  rw [setDamped_routes, update_self, h, Option.map_some]

/-- The lists of the view are `f`. A record that is not loose is on the list its
route calls for. -/
structure Valid (v : DampView slots) (f : Option (Fin slots) → List Nat)
    (loose : List Nat) : Prop where
  holds : Lists v.links f
  live : ∀ {k : Option (Fin slots)} {d : Nat}, d ∈ f k → v.Live d
  fresh : ∀ {d : Nat} {place : DampPlace slots}, v.infos d = some place → d < v.next
  owner : ∀ {d : Nat} {place : DampPlace slots}, v.infos d = some place →
    ∃ owner, v.routes place.binfo = some owner ∧ owner.dampInfo = some d ∧ owner.rn = place.rn
  back : ∀ {a d : Nat} {owner : DampOwner}, v.routes a = some owner →
    owner.dampInfo = some d → ∃ place, v.infos d = some place ∧ place.binfo = a
  damped : ∀ {a : Nat} {owner : DampOwner}, v.routes a = some owner →
    owner.damped = true → ∃ d, owner.dampInfo = some d
  home : ∀ {d : Nat} {place : DampPlace slots} {owner : DampOwner},
    v.infos d = some place → v.routes place.binfo = some owner → d ∉ loose →
    ∃ k, Home owner place k ∧ d ∈ f k

theorem Valid.loosen (h : v.Valid f loose) {loose' : List Nat}
    (hsb : ∀ d ∈ loose, d ∈ loose') : v.Valid f loose' :=
  { h with home := fun hd ha hls => h.home hd ha fun hm => hls (hsb _ hm) }

theorem Valid.dampInfo_eq (h : v.Valid f loose) (hpl : v.infos d = some place)
    (how : v.routes place.binfo = some owner) : owner.dampInfo = some d := by
  obtain ⟨owner', how', hd, -⟩ := h.owner hpl
  rw [how] at how'
  cases how'
  exact hd

/-- The record of a suppressed route is on the chain of its slot. -/
theorem Valid.home_damped (h : v.Valid f loose) (hpl : v.infos d = some place)
    (how : v.routes place.binfo = some owner) (hdm : owner.damped = true) (hd : d ∉ loose) :
    ∃ i, place.index = some i ∧ d ∈ f (some i) := by
  obtain ⟨k, hhm, hm⟩ := h.home hpl how hd
  rw [Home, if_pos hdm] at hhm
  obtain ⟨i, rfl⟩ := Option.isSome_iff_exists.mp hhm.1
  exact ⟨i, hhm.2.symm, hm⟩

theorem Valid.tighten (h : v.Valid f (d :: loose))
    (hpl : v.infos d = some place) (how : v.routes place.binfo = some owner)
    (hhm : Home owner place k) (hm : d ∈ f k) : v.Valid f loose := by
  refine { h with home := fun {d'} {place'} {owner'} hpl' how' hls => ?_ }
  rcases eq_or_ne d' d with rfl | hne
  · rw [hpl] at hpl'
    cases hpl'
    rw [how] at how'
    cases how'
    exact ⟨k, hhm, hm⟩
  · exact h.home hpl' how' fun hm => by
      rcases mem_cons.mp hm with rfl | hm
      · exact hne rfl
      · exact hls hm

/-- One list is replaced. -/
theorem Valid.relist (h : v.Valid f loose) {links : Links (Option (Fin slots))} {l : List Nat}
    (holds : Lists links (update f k l)) (hlv : ∀ d ∈ l, v.Live d)
    (hhm : ∀ d ∈ f k, d ∉ loose → d ∈ l) :
    Valid { v with links := links } (update f k l) loose := by
  refine { h with holds := holds, live := fun {k'} {d'} hd' => ?_,
                  home := fun {d'} {place'} {owner'} hpl' how' hl => ?_ }
  · rcases eq_or_ne k' k with rfl | hk
    · rw [update_self] at hd'
      exact hlv d' hd'
    · rw [update_of_ne hk] at hd'
      exact h.live hd'
  · obtain ⟨k', hk', hd'⟩ := h.home hpl' how' hl
    refine ⟨k', hk', ?_⟩
    rcases eq_or_ne k' k with rfl | hk
    · rw [update_self]
      exact hhm d' hd' hl
    · rwa [update_of_ne hk]

theorem Valid.push (h : v.Valid f loose) (hlv : v.Live d) (hnt : ∀ k, d ∉ f k)
    (k : Option (Fin slots)) : (v.push k d).Valid (update f k (d :: f k)) loose :=
  h.relist (h.holds.push hnt k) (forall_mem_cons.mpr ⟨hlv, fun _ => h.live⟩)
    fun _ hd _ => mem_cons_of_mem _ hd

theorem Valid.remove (h : v.Valid f loose) (hm : d ∈ f k) (hls : d ∈ loose) :
    (v.remove k d).Valid (update f k ((f k).erase d)) loose :=
  h.relist (h.holds.remove hm) (fun _ hd => h.live (mem_of_mem_erase hd)) fun _ hd hl =>
    (mem_erase_of_ne (ne_of_mem_of_not_mem hls hl).symm).mpr hd

/-- A record that is removed from its list is on none. -/
theorem Valid.not_mem_remove (h : v.Valid f loose) (hm : d ∈ f k) (k' : Option (Fin slots)) :
    d ∉ update f k ((f k).erase d) k' := by
  intro hd
  rcases eq_or_ne k' k with rfl | hk
  · rw [update_self] at hd
    exact (h.holds.nodup k').not_mem_erase hd
  · rw [update_of_ne hk] at hd
    exact hk (h.holds.only hd hm)

theorem Valid.detach (h : v.Valid f []) (k : Option (Fin slots)) :
    (v.detach k).Valid (update f k []) (f k) :=
  (h.loosen nofun).relist (h.holds.detach k) nofun fun _ hd hl => absurd hd hl

theorem Valid.setIndex (h : v.Valid f loose) (hls : d ∈ loose) (i : Fin slots) :
    (v.setIndex d i).Valid f loose := by
  have hinf : ∀ {d' place}, (v.setIndex d i).infos d' = some place →
      ∃ place', v.infos d' = some place' ∧ place'.binfo = place.binfo
        ∧ place'.rn = place.rn ∧ (d' ∉ loose → place' = place) := by
    intro d' place hpl
    rcases eq_or_ne d' d with rfl | hne
    · obtain ⟨place', hpl', rfl⟩ : ∃ place', v.infos d' = some place' ∧
          { place' with index := some i } = place := by simpa [DampView.setIndex] using hpl
      exact ⟨place', hpl', rfl, rfl, fun hl => absurd hls hl⟩
    · refine ⟨place, ?_, rfl, rfl, fun _ => rfl⟩
      rwa [setIndex_infos, update_of_ne hne] at hpl
  have hso : ∀ {d' place}, v.infos d' = some place →
      ∃ place', (v.setIndex d i).infos d' = some place' ∧ place'.binfo = place.binfo := by
    intro d' place hpl
    rcases eq_or_ne d' d with rfl | hne
    · exact ⟨{ place with index := some i }, by simp [DampView.setIndex, hpl], rfl⟩
    · exact ⟨place, by rwa [setIndex_infos, update_of_ne hne], rfl⟩
  constructor
  · exact h.holds
  · intro k d' hd'
    obtain ⟨place, hpl⟩ := h.live hd'
    obtain ⟨place', hpl', -⟩ := hso hpl
    exact ⟨place', hpl'⟩
  · intro d' place hpl
    obtain ⟨place', hpl', -⟩ := hinf hpl
    exact h.fresh hpl'
  · intro d' place hpl
    obtain ⟨place', hpl', hbi, hrn, -⟩ := hinf hpl
    rw [← hbi, ← hrn]
    exact h.owner hpl'
  · intro a d' owner how hd'
    obtain ⟨place, hpl, hbi⟩ := h.back how hd'
    obtain ⟨place', hpl', hbi'⟩ := hso hpl
    exact ⟨place', hpl', hbi'.trans hbi⟩
  · exact h.damped
  · intro d' place owner hpl how hl
    obtain ⟨place', hpl', -, -, heq⟩ := hinf hpl
    cases heq hl
    exact h.home hpl' how hl

/-- The flag may change while the record of the route is loose. -/
theorem Valid.setDamped (h : v.Valid f loose)
    (how : v.routes a = some owner) (hd : owner.dampInfo = some d)
    (hls : d ∈ loose) (b : Bool) : (v.setDamped a b).Valid f loose := by
  have hsf := setDamped_self how b
  have ho : ∀ {a'}, a' ≠ a → (v.setDamped a b).routes a' = v.routes a' :=
    fun hne => update_of_ne hne _ _
  constructor
  · exact h.holds
  · exact h.live
  · exact h.fresh
  · intro d' place hpl
    obtain ⟨owner', how', hd', hrn⟩ := h.owner hpl
    rcases eq_or_ne place.binfo a with he | hne
    · rw [he, how] at how'
      cases how'
      exact ⟨{ owner with damped := b }, by rw [he, hsf], hd', hrn⟩
    · exact ⟨owner', (ho hne).trans how', hd', hrn⟩
  · intro a' d' owner' how' hd'
    rcases eq_or_ne a' a with rfl | hne
    · rw [hsf] at how'
      cases how'
      exact h.back how hd'
    · exact h.back ((ho hne).symm.trans how') hd'
  · intro a' owner' how' hdm
    rcases eq_or_ne a' a with rfl | hne
    · rw [hsf] at how'
      cases how'
      exact ⟨d, hd⟩
    · exact h.damped ((ho hne).symm.trans how') hdm
  · intro d' place owner' hpl how' hl
    rcases eq_or_ne place.binfo a with he | hne
    · -- the record of `a` is loose, so `d'` cannot be it
      cases hd.symm.trans (h.dampInfo_eq hpl (he ▸ how))
      exact absurd hls hl
    · exact h.home hpl ((ho hne).symm.trans how') hl

/-- A new record for a route that has none. -/
theorem Valid.alloc (h : v.Valid f loose)
    (place : DampPlace slots) (how : v.routes place.binfo = some owner)
    (hno : owner.dampInfo = none) (hrn : owner.rn = place.rn) :
    ((v.alloc place).setDampInfo place.binfo (some v.next)).Valid f (v.next :: loose) := by
  have hn : v.infos v.next = none := by
    cases hif : v.infos v.next with
    | none => rfl
    | some place' => exact absurd (h.fresh hif) (lt_irrefl _)
  have hnt : ∀ {k : Option (Fin slots)} {x : Nat}, x ∈ f k → x ≠ v.next := by
    rintro k x hx rfl
    obtain ⟨place', hpl'⟩ := h.live hx
    rw [hn] at hpl'
    cases hpl'
  have hsf : ((v.alloc place).setDampInfo place.binfo (some v.next)).routes
      place.binfo = some { owner with dampInfo := some v.next } := by
    simp [DampView.setDampInfo, DampView.alloc, how]
  have ho : ∀ {a'}, a' ≠ place.binfo →
      ((v.alloc place).setDampInfo place.binfo (some v.next)).routes a' = v.routes a' :=
    fun hne => update_of_ne hne _ _
  have hinf : ∀ {d' place'}, (v.alloc place).infos d' = some place' →
      d' = v.next ∧ place' = place ∨ d' ≠ v.next ∧ v.infos d' = some place' := by
    intro d' place' hpl'
    rcases eq_or_ne d' v.next with rfl | hne
    · simp only [DampView.alloc, update_self, Option.some.injEq] at hpl'
      exact Or.inl ⟨rfl, hpl'.symm⟩
    · simp only [DampView.alloc, update_of_ne hne] at hpl'
      exact Or.inr ⟨hne, hpl'⟩
  have hold : ∀ {d' place'}, v.infos d' = some place' →
      (v.alloc place).infos d' = some place' := by
    intro d' place' hpl'
    have hne : d' ≠ v.next := by
      rintro rfl
      rw [hn] at hpl'
      cases hpl'
    simpa only [DampView.alloc, update_of_ne hne] using hpl'
  constructor
  · refine h.holds.congr (fun _ => rfl) ?_ ?_ <;> intro k x hx <;>
      exact update_of_ne (hnt hx) _ _
  · intro k d' hd'
    obtain ⟨place', hpl'⟩ := h.live hd'
    exact ⟨place', hold hpl'⟩
  · intro d' place' hpl'
    rcases hinf hpl' with ⟨rfl, -⟩ | ⟨-, hpl'⟩
    · exact Nat.lt_succ_self _
    · exact Nat.lt_succ_of_lt (h.fresh hpl')
  · intro d' place' hpl'
    rcases hinf hpl' with ⟨rfl, rfl⟩ | ⟨-, hpl'⟩
    · exact ⟨_, hsf, rfl, hrn⟩
    · obtain ⟨owner', how', hd', hrn'⟩ := h.owner hpl'
      refine ⟨owner', (ho fun he => ?_).trans how', hd', hrn'⟩
      cases hno.symm.trans (h.dampInfo_eq hpl' (he ▸ how))
  · intro a' d' owner' how' hd'
    rcases eq_or_ne a' place.binfo with rfl | hne
    · rw [hsf] at how'
      cases how'
      cases hd'
      exact ⟨place, update_self .., rfl⟩
    · obtain ⟨place', hpl', hbi⟩ :=
        h.back ((ho hne).symm.trans how') hd'
      exact ⟨place', hold hpl', hbi⟩
  · intro a' owner' how' hdm
    rcases eq_or_ne a' place.binfo with rfl | hne
    · rw [hsf] at how'
      cases how'
      exact ⟨_, rfl⟩
    · exact h.damped ((ho hne).symm.trans how') hdm
  · intro d' place' owner' hpl' how' hl
    rcases hinf hpl' with ⟨rfl, -⟩ | ⟨-, hpl'⟩
    · exact absurd (mem_cons_self ..) hl
    · refine h.home hpl' ((ho fun he => ?_).symm.trans how') fun hm => hl (mem_cons_of_mem _ hm)
      cases hno.symm.trans (h.dampInfo_eq hpl' (he ▸ how))

section

variable (h : v.Valid f (d :: loose))
include h

section

variable (hpl : v.infos d = some place)
include hpl

/-- A record that is on no list can be freed when its route has given it up. -/
theorem Valid.free (hnt : ∀ k, d ∉ f k) :
    (((v.setDampInfo place.binfo none).setDamped place.binfo false).free d).Valid f
      loose := by
  obtain ⟨owner, how, hd, -⟩ := h.owner hpl
  have hsf : ∀ {owner'}, ((v.setDampInfo place.binfo none).setDamped place.binfo false).routes
      place.binfo = some owner' → owner'.dampInfo = none ∧ owner'.damped = false := by
    intro owner' how'
    simp only [DampView.setDampInfo, DampView.setDamped, how, update_self] at how'
    cases how'
    exact ⟨rfl, rfl⟩
  have ho : ∀ {a'}, a' ≠ place.binfo →
      ((v.setDampInfo place.binfo none).setDamped place.binfo false).routes a' =
        v.routes a' := fun hne => by
    simp [DampView.setDampInfo, DampView.setDamped, update_of_ne hne]
  have hinf : ∀ {d' place'},
      (v.free d).infos d' = some place' → d' ≠ d ∧ v.infos d' = some place' := by
    intro d' place' hpl'
    rcases eq_or_ne d' d with rfl | hne
    · simp [DampView.free] at hpl'
    · simp only [DampView.free, update_of_ne hne] at hpl'
      exact ⟨hne, hpl'⟩
  have hold : ∀ {d' place'}, v.infos d' = some place' →
      d' ≠ d → (v.free d).infos d' = some place' := by
    intro d' place' hpl' hne
    simpa only [DampView.free, update_of_ne hne] using hpl'
  -- the only record of the route is `d`
  have hrte : ∀ {d' place'}, v.infos d' = some place' →
      d' ≠ d → place'.binfo ≠ place.binfo := by
    intro d' place' hpl' hne he
    exact hne (Option.some.inj ((h.dampInfo_eq hpl' (he ▸ how)).symm.trans hd))
  constructor
  · refine h.holds.congr (fun _ => rfl) ?_ ?_ <;> intro k x hx <;>
      exact update_of_ne (ne_of_mem_of_not_mem hx (hnt k)) _ _
  · intro k d' hd'
    obtain ⟨place', hpl'⟩ := h.live hd'
    exact ⟨place', hold hpl' (ne_of_mem_of_not_mem hd' (hnt k))⟩
  · intro d' place' hpl'
    exact h.fresh (hinf hpl').2
  · intro d' place' hpl'
    obtain ⟨hne, hpl'⟩ := hinf hpl'
    obtain ⟨owner', how', hd', hrn⟩ := h.owner hpl'
    exact ⟨owner', (ho (hrte hpl' hne)).trans how', hd', hrn⟩
  · intro a' d' owner' how' hd'
    rcases eq_or_ne a' place.binfo with rfl | hne
    · exact absurd ((hsf how').1.symm.trans hd') nofun
    · obtain ⟨place', hpl', hbi⟩ :=
        h.back ((ho hne).symm.trans how') hd'
      refine ⟨place', hold hpl' fun he => hne ?_, hbi⟩
      rw [he, hpl] at hpl'
      cases hpl'
      exact hbi.symm
  · intro a' owner' how' hdm
    rcases eq_or_ne a' place.binfo with rfl | hne
    · exact absurd ((hsf how').2.symm.trans hdm) nofun
    · exact h.damped ((ho hne).symm.trans how') hdm
  · intro d' place' owner' hpl' how' hl
    obtain ⟨hne, hpl'⟩ := hinf hpl'
    refine h.home hpl' ((ho (hrte hpl' hne)).symm.trans how') fun hm => ?_
    rcases mem_cons.mp hm with rfl | hm
    · exact hne rfl
    · exact hl hm

/-! ## Putting a record where it belongs -/

theorem Valid.push_none (how : v.routes place.binfo = some owner) (hdm : owner.damped = false)
    (hnt : ∀ k, d ∉ f k) : (v.push none d).Valid (update f none (d :: f none)) loose := by
  refine (h.push ⟨place, hpl⟩ hnt none).tighten hpl how (k := none) ?_ ?_
  · rw [Home, hdm]
    rfl
  · rw [update_self]
    exact mem_cons_self ..

theorem Valid.push_some (how : v.routes place.binfo = some owner) (hdm : owner.damped = true)
    (hnt : ∀ k, d ∉ f k) (i : Fin slots) :
    ((v.setIndex d i).push (some i) d).Valid (update f (some i) (d :: f (some i))) loose := by
  have hix : (v.setIndex d i).infos d = some { place with index := some i } := by
    rw [setIndex_infos, update_self, hpl, Option.map_some]
  refine ((h.setIndex (mem_cons_self ..) i).push ⟨_, hix⟩ hnt (some i)).tighten hix
    how (k := some i) ?_ ?_
  · rw [Home, hdm]
    exact ⟨rfl, rfl⟩
  · rw [update_self]
    exact mem_cons_self ..

end

end

/-- A record that is freed leaves the list it is on. -/
theorem Valid.discard (h : v.Valid f loose) (hpl : v.infos d = some place) (hm : d ∈ f k) :
    ((((v.setDampInfo place.binfo none).remove k d).setDamped place.binfo
      false).free d).Valid (update f k ((f k).erase d)) loose := by
  have hls : d ∈ d :: loose := mem_cons_self ..
  have hrem := (h.loosen fun x hx => mem_cons_of_mem d hx).remove hm hls
  exact hrem.free hpl (h.not_mem_remove hm)

end DampView

end SdnQuagga
