import Mathlib.Data.List.Sort
import SdnQuagga.BigEndian

/-!
# Communities and extended communities

`bgpd/bgp_community.c` and `bgpd/bgp_ecommunity.c`, as far as the
attribute codec uses them. Both kinds of list are kept sorted and free of
duplicates, and the structures carry that. An extended community is eight
bytes compared with `memcmp`; as a big-endian number it is a `UInt64`
with the same order.
-/

namespace SdnQuagga

open List

/-! ## Communities -/

/-- `struct community` as the attributes hold it. -/
structure Community where
  val : List UInt32
  ascending : val.Pairwise (· < ·)
deriving DecidableEq, Repr

/-- The loop of `community_uniq_sort` that leaves out values already
there. -/
def communityUniq (new : List UInt32) : List UInt32 → List UInt32
  | [] => new
  | val :: vals =>
    if val ∈ new then communityUniq new vals
    else communityUniq (new ++ [val]) vals

variable (vals : List UInt32)

theorem communityUniq_nodup {new : List UInt32}
    (h : new.Nodup) : (communityUniq new vals).Nodup := by
  induction vals generalizing new with
  | nil => exact h
  | cons val vals ih =>
    rw [communityUniq]
    split
    · exact ih h
    next hv =>
      refine ih (nodup_append.mpr ⟨h, nodup_singleton val, ?_⟩)
      intro a ha b hb hab
      rw [mem_singleton] at hb
      exact hv (hb ▸ hab ▸ ha)

theorem communityUniq_of_nodup {new vals : List UInt32}
    (h : (new ++ vals).Nodup) : communityUniq new vals = new ++ vals := by
  induction vals generalizing new with
  | nil => rw [communityUniq, append_nil]
  | cons val vals ih =>
    have hv : val ∉ new := fun hm =>
      (nodup_append.mp h).2.2 val hm val mem_cons_self rfl
    rw [append_cons] at h
    rw [communityUniq, if_neg hv, ih h, ← append_cons]

theorem pairwise_lt_insertionSort {vals : List UInt32} (h : vals.Nodup) :
    (vals.insertionSort (· ≤ ·)).Pairwise (· < ·) := by
  have hnd : (vals.insertionSort (· ≤ ·)).Nodup := (perm_insertionSort (· ≤ ·) vals).nodup_iff.mpr h
  have hsrt := pairwise_insertionSort (r := (· ≤ ·)) vals
  refine (hsrt.and hnd).imp ?_
  rintro a b ⟨hle, hne⟩
  exact UInt32.lt_of_le_of_ne hle hne

def communityUniqSort : Community where
  val := (communityUniq [] vals).insertionSort (· ≤ ·)
  ascending := pairwise_lt_insertionSort (communityUniq_nodup vals nodup_nil)

/-- `community_parse` of the bytes `bs`. -/
def communityParse (bs : List UInt8) : Option Community :=
  if bs.length % 4 ≠ 0 then none
  else some (communityUniqSort ((ofBEs 4 (bs.length / 4) bs).map UInt32.ofNat))

variable (com : Community)

/-- The bytes at `community->val`. -/
def Community.bytes : List UInt8 := com.val.flatMap be32

@[simp] theorem Community.bytes_length : com.bytes.length = 4 * com.val.length :=
  flatMap_length_of_width be32_length com.val

theorem communityUniqSort_val : communityUniqSort com.val = com := by
  have hnd : ([] ++ com.val).Nodup := com.ascending.imp fun hlt => UInt32.ne_of_lt hlt
  have hv : (communityUniq [] com.val).insertionSort (· ≤ ·) = com.val := by
    rw [communityUniq_of_nodup hnd]
    exact (com.ascending.imp fun hlt => UInt32.le_of_lt hlt).insertionSort_eq
  cases com
  simp only [communityUniqSort, Community.mk.injEq]
  exact hv

theorem ofBEs_be32 (vals : List UInt32) :
    (ofBEs 4 vals.length (vals.flatMap be32)).map UInt32.ofNat = vals := by
  rw [ofBEs_flatMap be32_length, map_map]
  exact (map_congr_left fun l _ => ofNat_ofBE_be32 l).trans (map_id' vals)

theorem communityParse_bytes : communityParse com.bytes = some com := by
  rw [communityParse, Community.bytes_length,
    if_neg (by rw [Nat.mul_mod_right]; exact fun h => h rfl),
    Nat.mul_div_cancel_left _ (by decide), Community.bytes, ofBEs_be32,
    communityUniqSort_val]

/-! ## Extended communities -/

/-- `struct ecommunity`. -/
structure Ecommunity where
  val : List UInt64
  ascending : val.Pairwise (· < ·)
deriving DecidableEq, Repr

/-- `ecommunity_add_val`: the walk stops at an equal value or before the
first larger one. -/
def ecommunityAddVal (eval : UInt64) : List UInt64 → List UInt64
  | [] => [eval]
  | p :: ps =>
    if p = eval then p :: ps
    else if p > eval then eval :: p :: ps
    else p :: ecommunityAddVal eval ps

variable {eval : UInt64} {ps : List UInt64}

theorem mem_ecommunityAddVal {x : UInt64}
    (h : x ∈ ecommunityAddVal eval ps) : x = eval ∨ x ∈ ps := by
  induction ps with
  | nil => exact .inl (mem_singleton.mp h)
  | cons p ps ih =>
    rw [ecommunityAddVal] at h
    split at h
    · exact .inr h
    · split at h
      · exact mem_cons.mp h
      · rcases mem_cons.mp h with rfl | hx
        · exact .inr mem_cons_self
        · exact (ih hx).imp id (mem_cons_of_mem p)

theorem ecommunityAddVal_ascending (h : ps.Pairwise (· < ·)) :
    (ecommunityAddVal eval ps).Pairwise (· < ·) := by
  induction ps with
  | nil => exact pairwise_singleton ..
  | cons p ps ih =>
    obtain ⟨hp, hps⟩ := pairwise_cons.mp h
    rw [ecommunityAddVal]
    split
    · exact h
    next hne =>
      split
      next hgt =>
        refine pairwise_cons.mpr ⟨fun x hx => ?_, h⟩
        rcases mem_cons.mp hx with rfl | hx
        · exact hgt
        · exact UInt64.lt_trans hgt (hp x hx)
      next hngt =>
        refine pairwise_cons.mpr ⟨fun x hx => ?_, ih hps⟩
        rcases mem_ecommunityAddVal hx with rfl | hx
        · exact UInt64.lt_of_le_of_ne (UInt64.not_lt.mp hngt) hne
        · exact hp x hx

def ecommunityUniqSort (vals : List UInt64) : Ecommunity :=
  vals.foldl (fun new eval =>
    ⟨ecommunityAddVal eval new.val, ecommunityAddVal_ascending new.ascending⟩)
    ⟨[], List.Pairwise.nil⟩

/-- `ecommunity_parse` of the bytes `bs`. -/
def ecommunityParse (bs : List UInt8) : Option Ecommunity :=
  if bs.length % 8 ≠ 0 then none
  else some (ecommunityUniqSort ((ofBEs 8 (bs.length / 8) bs).map UInt64.ofNat))

/-- `ECOMMUNITY_FLAG_NON_TRANSITIVE`, 0x40 of the first byte. -/
def ecomNonTransitive (eval : UInt64) : Bool := eval.toNat.testBit 62

theorem ecommunityAddVal_of_larger
    (h : ∀ p ∈ ps, p < eval) : ecommunityAddVal eval ps = ps ++ [eval] := by
  induction ps with
  | nil => rfl
  | cons p ps ih =>
    have hp := h p mem_cons_self
    rw [ecommunityAddVal, if_neg (UInt64.ne_of_lt hp), if_neg (UInt64.lt_asymm hp),
      ih fun x hx => h x (mem_cons_of_mem _ hx), cons_append]

theorem foldl_ecommunityAddVal {vals : List UInt64} (new : Ecommunity)
    (h : (new.val ++ vals).Pairwise (· < ·)) :
    (vals.foldl (fun new eval =>
      (⟨ecommunityAddVal eval new.val,
        ecommunityAddVal_ascending new.ascending⟩ : Ecommunity)) new).val
      = new.val ++ vals := by
  induction vals generalizing new with
  | nil => rw [foldl_nil, append_nil]
  | cons eval vals ih =>
    have hlarger : ecommunityAddVal eval new.val = new.val ++ [eval] :=
      ecommunityAddVal_of_larger fun p hp =>
        (pairwise_append.mp h).2.2 p hp eval mem_cons_self
    rw [append_cons] at h
    rw [foldl_cons, ih _ (show List.Pairwise _
      (ecommunityAddVal eval new.val ++ vals) by rwa [hlarger])]
    show ecommunityAddVal eval new.val ++ vals = _
    rw [hlarger, ← append_cons]

variable (ecom : Ecommunity)

theorem ecommunityUniqSort_val : ecommunityUniqSort ecom.val = ecom := by
  have hv : (ecommunityUniqSort ecom.val).val = ecom.val :=
    foldl_ecommunityAddVal ⟨[], List.Pairwise.nil⟩ ecom.ascending
  cases h : ecommunityUniqSort ecom.val
  cases ecom
  simp_all

theorem ofBEs_be64 (vals : List UInt64) :
    (ofBEs 8 vals.length (vals.flatMap be64)).map UInt64.ofNat = vals := by
  rw [ofBEs_flatMap be64_length, map_map]
  exact (map_congr_left fun l _ => ofNat_ofBE_be64 l).trans (map_id' vals)

theorem ecommunityParse_flatMap : ecommunityParse (ecom.val.flatMap be64) = some ecom := by
  rw [ecommunityParse, flatMap_length_of_width be64_length,
    if_neg (by rw [Nat.mul_mod_right]; exact fun h => h rfl),
    Nat.mul_div_cancel_left _ (by decide), ofBEs_be64, ecommunityUniqSort_val]

end SdnQuagga
