import SdnQuagga.BgpCommunity

/-!
# Communities as sets

`community_match`, `community_delete` and `community_merge` of `bgpd/bgp_community.c`, and
`ecommunity_match` of `bgpd/bgp_ecommunity.c`. The ranges of the `memcpy` of `community_del_val`
overlap when two or more values follow the deleted one, which is undefined.

`ecommunity_match` counts in records and moves through the bytes of the lists, so behind the
first record it does not compare records.
-/

namespace SdnQuagga

open List

/-- The loop of `community_match` and `ecommunity_match`, on what is compared at each index. -/
def matchLoop {α : Type} [DecidableEq α] : List α → List α → Bool
  | _, [] => true
  | [], _ :: _ => false
  | x :: xs, y :: ys => if x = y then matchLoop xs ys else matchLoop xs (y :: ys)

theorem matchLoop_iff {α : Type} [DecidableEq α] {xs ys : List α} :
    matchLoop xs ys = true ↔ ys.Sublist xs := by
  fun_induction matchLoop xs ys with
  | case1 xs => simp
  | case2 y ys => simp
  | case3 x xs ys ih => rw [ih, cons_sublist_cons]
  | case4 x xs y ys hne ih =>
    rw [ih, cons_sublist_cons']
    exact ⟨.inl, fun h => h.resolve_right fun heq => hne heq.1.symm⟩

/-! ## Communities -/

def communityMatch : Option Community → Option Community → Bool
  | none, none => true
  | some com1, some com2 =>
    if com1.val.length < com2.val.length then false else matchLoop com1.val com2.val
  | _, _ => false

/-- None where the ranges of the `memcpy` overlap. -/
def communityDelVal (val : UInt32) : List UInt32 → Option (List UInt32)
  | [] => some []
  | x :: xs =>
    if x = val then if xs.length ≤ 1 then some xs else none
    else (communityDelVal val xs).map (x :: ·)

variable (com1 com2 : List UInt32)

def communityDelete : Option (List UInt32) :=
  com2.foldlM (fun com1 val => communityDelVal val com1) com1

def communityMerge : List UInt32 := com1 ++ com2

def communityUnion (com1 com2 : Community) : Community :=
  communityUniqSort (communityMerge com1.val com2.val)

theorem Community.nodup (com : Community) : com.val.Nodup :=
  com.ascending.imp fun hlt => UInt32.ne_of_lt hlt

theorem communityMatch_iff (com1 com2 : Community) :
    communityMatch (some com1) (some com2) = true ↔ com2.val ⊆ com1.val := by
  rw [communityMatch]
  split
  next hlt =>
    refine iff_of_false (by decide) fun hsb => ?_
    have hle := (subperm_of_subset com2.nodup hsb).length_le
    omega
  · rw [matchLoop_iff]
    refine ⟨Sublist.subset, fun hsb => ?_⟩
    exact sublist_of_subperm_of_pairwise (subperm_of_subset com2.nodup hsb)
      com2.ascending com1.ascending

variable {com1 com2}

/-- In an ascending list the values behind a value are the larger ones. -/
theorem communityDelVal_eq (val : UInt32) (h : com1.Pairwise (· < ·)) :
    communityDelVal val com1
      = if val ∈ com1 → com1.countP (val < ·) ≤ 1 then some (com1.erase val) else none := by
  induction com1 with
  | nil => simp [communityDelVal]
  | cons x xs ih =>
    obtain ⟨hx, hxs⟩ := pairwise_cons.mp h
    rw [communityDelVal, ih hxs]
    by_cases heq : x = val
    · subst heq
      have hct : xs.countP (x < ·) = xs.length := countP_eq_length.mpr (by simpa using hx)
      simp [hct]
    · have hlt : val ∈ xs → ¬ val < x := fun hm => UInt32.lt_asymm (hx val hm)
      rw [if_neg heq, erase_cons_tail (by simpa using heq)]
      grind

/-- Smaller values are deleted first, so what is behind a value is still there. -/
theorem communityDelete_eq (h1 : com1.Pairwise (· < ·)) (h2 : com2.Pairwise (· < ·)) :
    ((∀ val ∈ com2, val ∈ com1 → com1.countP (val < ·) ≤ 1) →
        communityDelete com1 com2 = some (com1.diff com2))
      ∧ (¬ (∀ val ∈ com2, val ∈ com1 → com1.countP (val < ·) ≤ 1) →
        communityDelete com1 com2 = none) := by
  induction com2 generalizing com1 with
  | nil => simp [communityDelete]
  | cons val com2 ih =>
    obtain ⟨hv, h2⟩ := pairwise_cons.mp h2
    have hrs w (hw : w ∈ com2) : (w ∈ com1.erase val ↔ w ∈ com1)
        ∧ (com1.erase val).countP (w < ·) = com1.countP (w < ·) := by
      have hlt := hv w hw
      refine ⟨mem_erase_of_ne (UInt32.ne_of_lt hlt).symm, ?_⟩
      by_cases hm : val ∈ com1
      · have hct := (perm_cons_erase hm).countP_eq (w < ·)
        rw [hct, countP_cons_of_neg (by simpa using UInt32.lt_asymm hlt)]
      · rw [erase_of_not_mem hm]
    have ih := ih (h1.sublist (erase_sublist (a := val))) h2
    rw [communityDelete] at ih ⊢
    rw [forall₂_congr fun w hw => by rw [(hrs w hw).1, (hrs w hw).2]] at ih
    rw [foldlM_cons, communityDelVal_eq val h1, diff_cons]
    split
    next h =>
      rw [forall_mem_cons, and_iff_right h]
      exact ih
    next h => exact ⟨fun hal => absurd (hal val mem_cons_self) h, fun _ => rfl⟩

variable {x : UInt32}

theorem mem_communityUniq {new vals : List UInt32} :
    x ∈ communityUniq new vals ↔ x ∈ new ∨ x ∈ vals := by
  induction vals generalizing new with
  | nil => simp [communityUniq]
  | cons val vals ih =>
    rw [communityUniq]
    split
    · rw [ih, mem_cons]
      grind
    · rw [ih, mem_append, mem_singleton, mem_cons, or_assoc]

theorem mem_communityUniqSort {vals : List UInt32} :
    x ∈ (communityUniqSort vals).val ↔ x ∈ vals := by
  rw [communityUniqSort, mem_insertionSort, mem_communityUniq]
  simp

variable {com1 com2 : Community}

theorem mem_communityUnion : x ∈ (communityUnion com1 com2).val ↔ x ∈ com1.val ∨ x ∈ com2.val := by
  rw [communityUnion, mem_communityUniqSort, communityMerge, mem_append]

/-- A canonical list is known from its members. -/
theorem Community.ext_mem (h : ∀ x, x ∈ com1.val ↔ x ∈ com2.val) : com1 = com2 := by
  have hpm := (perm_ext_iff_of_nodup com1.nodup com2.nodup).mpr h
  have hv := hpm.eq_of_pairwise' com1.ascending com2.ascending
  cases com1
  cases com2
  simpa using hv

theorem community_algebra (com1 com2 com3 : Community) :
    (communityMatch (some com1) (some com2) = true ↔ com2.val ⊆ com1.val)
    ∧ ((∃ com, communityDelete com1.val com2.val = some com ∧ com.Pairwise (· < ·)
        ∧ ∀ x, x ∈ com ↔ x ∈ com1.val ∧ x ∉ com2.val)
      ↔ ∀ val ∈ com2.val, val ∈ com1.val → com1.val.countP (val < ·) ≤ 1)
    ∧ (∀ x, x ∈ (communityUnion com1 com2).val ↔ x ∈ com1.val ∨ x ∈ com2.val)
    ∧ communityUnion com1 com2 = communityUnion com2 com1
    ∧ communityUnion (communityUnion com1 com2) com3
      = communityUnion com1 (communityUnion com2 com3)
    ∧ communityUnion com1 com1 = com1 := by
  refine ⟨communityMatch_iff com1 com2, ?_, fun x => mem_communityUnion,
    Community.ext_mem fun x => ?_, Community.ext_mem fun x => ?_, Community.ext_mem fun x => ?_⟩
  · obtain ⟨hfits, hno⟩ := communityDelete_eq com1.ascending com2.ascending
    by_cases h : ∀ val ∈ com2.val, val ∈ com1.val → com1.val.countP (val < ·) ≤ 1
    · refine iff_of_true ⟨_, hfits h, com1.ascending.sublist (diff_sublist _ _), fun x => ?_⟩ h
      exact com1.nodup.mem_sdiff_iff
    · refine iff_of_false ?_ h
      rintro ⟨com, heq, _⟩
      cases (hno h).symm.trans heq
  · rw [mem_communityUnion, mem_communityUnion, or_comm]
  · simp only [mem_communityUnion, or_assoc]
  · rw [mem_communityUnion, or_self]

/-- The first of three values is deleted. -/
theorem community_delete_overlaps : communityDelete [1, 2, 3] [1] = none := rfl

/-! ## Extended communities -/

/-- The eight bytes at `ecom->val + i`, for each index of a record. -/
def Ecommunity.compared (ecom : Ecommunity) : List (List UInt8) :=
  (range ecom.val.length).map fun i => ((ecom.val.flatMap be64).drop i).take 8

def ecommunityMatch : Option Ecommunity → Option Ecommunity → Bool
  | none, none => true
  | some ecom1, some ecom2 =>
    if ecom1.val.length < ecom2.val.length then false
    else matchLoop ecom1.compared ecom2.compared
  | _, _ => false

theorem compared_sublist {ecom1 ecom2 : Ecommunity} (h : ecom2.val <+: ecom1.val) :
    ecom2.compared.Sublist ecom1.compared := by
  obtain ⟨behind, hv⟩ := h
  have hsm : ecom2.compared = (range ecom2.val.length).map fun i =>
      ((ecom1.val.flatMap be64).drop i).take 8 := by
    refine map_congr_left fun i hi => ?_
    have hlen := flatMap_length_of_width be64_length ecom2.val
    have hi := mem_range.mp hi
    rw [← hv, flatMap_append, drop_append_of_le_length (by omega),
      take_append_of_le_length (by rw [length_drop]; omega)]
  rw [hsm, Ecommunity.compared, ← hv, length_append, range_add, map_append]
  exact sublist_append_left _ _

theorem be64_injective : Function.Injective be64 := by
  intro a b h
  rw [← ofNat_ofBE_be64 a, h, ofNat_ofBE_be64]

theorem compared_singleton {ecom : Ecommunity} {eval : UInt64} (h : ecom.val = [eval]) :
    ecom.compared = [be64 eval] := by
  simp [Ecommunity.compared, h, take_of_length_le]

/-- The answer is right if there is at most one record to look through, or what is looked for
comes first, or is too long. -/
theorem ecommunity_match_subset (ecom1 ecom2 : Ecommunity)
    (h : ecom1.val.length ≤ 1 ∨ ecom2.val <+: ecom1.val ∨ ecom1.val.length < ecom2.val.length) :
    ecommunityMatch (some ecom1) (some ecom2) = true ↔ ecom2.val ⊆ ecom1.val := by
  have hnodup : ecom2.val.Nodup := ecom2.ascending.imp fun hlt => UInt64.ne_of_lt hlt
  rw [ecommunityMatch]
  split
  next hlt =>
    refine iff_of_false (by decide) fun hsub => ?_
    have hle := (subperm_of_subset hnodup hsub).length_le
    omega
  next hle =>
    rw [matchLoop_iff]
    rcases h with hone | hfirst | hlong
    · match hval : ecom2.val with
      | [] =>
        have hfirst : ecom2.val <+: ecom1.val := hval ▸ nil_prefix
        exact iff_of_true (compared_sublist hfirst) (nil_subset _)
      | eval2 :: evals =>
        rw [hval, length_cons] at hle
        obtain ⟨eval1, hval1⟩ := length_eq_one_iff.mp (show ecom1.val.length = 1 by omega)
        obtain rfl : evals = [] := length_eq_zero_iff.mp (by omega)
        rw [compared_singleton hval, compared_singleton hval1, hval1]
        simp [be64_injective.eq_iff]
    · exact iff_of_true (compared_sublist hfirst) hfirst.subset
    · exact absurd hlong hle

theorem ecommunity_match_first :
    let ecom1 : Ecommunity := ⟨[1, 2], by decide⟩
    let ecom2 : Ecommunity := ⟨[1], by decide⟩
    ecommunityMatch (some ecom1) (some ecom2) = true ↔ ecom2.val ⊆ ecom1.val :=
  ecommunity_match_subset _ _ (.inr (.inl (by decide)))

/-- The second record is looked for. -/
theorem ecommunity_match_second :
    let ecom1 : Ecommunity := ⟨[1, 2], by decide⟩
    let ecom2 : Ecommunity := ⟨[2], by decide⟩
    ecom2.val ⊆ ecom1.val ∧ ecommunityMatch (some ecom1) (some ecom2) = false := by
  decide

end SdnQuagga
