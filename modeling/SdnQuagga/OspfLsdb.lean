import Mathlib.Algebra.BigOperators.Group.List.Basic
import Mathlib.Algebra.Group.Prod
import Mathlib.Data.BitVec
import Mathlib.Data.List.Nodup

/-!
# The link state database

`ospfd/ospf_lsdb.c`: the tables of LSAs with their running counters. An LSA
is an address, and `data` has the contents, which change only while the LSA
is not in the database. `LsdbRun` is any sequence of the calls.
-/

namespace SdnQuagga

open List Function

/-! ## The code -/

/-- What the database reads of an LSA; there are tables for the types from `OSPF_MIN_LSA` on
and before `OSPF_MAX_LSA`. -/
structure LsaContents where
  type : Nat
  id : UInt32
  advRouter : UInt32
  checksum : UInt16
  self : Bool
  type_range : 1 ≤ type ∧ type < 12

/-- The table, and in it the prefix of `lsdb_prefix_set`. -/
def LsaContents.key (lsa : LsaContents) : Nat × UInt32 × UInt32 :=
  (lsa.type, lsa.id, lsa.advRouter)

/-- `count`, `count_self` and `checksum` of one type. -/
abbrev LsdbCounters := BitVec 64 × BitVec 64 × BitVec 32

/-- What an LSA adds to the counters of its type. -/
def LsaContents.counters (lsa : LsaContents) : LsdbCounters :=
  (1, if lsa.self then 1 else 0, (lsa.checksum.toNat : BitVec 32))

/-- `struct ospf_lsdb`, with what hangs in the tables. -/
structure OspfLsdb where
  stored : List Nat
  type : Nat → LsdbCounters
  total : BitVec 64

def ospfLsdbInit : OspfLsdb := ⟨[], 0, 0⟩

variable (data : Nat → LsaContents) (lsdb : OspfLsdb) (lsa : Nat)

/-- `rn->info` of the node for the key of `lsa`. -/
def OspfLsdb.info : Option Nat := lsdb.stored.find? fun a => (data a).key = (data lsa).key

def ospfLsdbDeleteEntry : OspfLsdb where
  stored := lsdb.stored.erase lsa
  type := update lsdb.type (data lsa).type (lsdb.type (data lsa).type - (data lsa).counters)
  total := lsdb.total - 1

/-- The end of `ospf_lsdb_add`, with an empty node. -/
def ospfLsdbEnter : OspfLsdb where
  stored := lsa :: lsdb.stored
  type := update lsdb.type (data lsa).type (lsdb.type (data lsa).type + (data lsa).counters)
  total := lsdb.total + 1

def ospfLsdbAdd : OspfLsdb :=
  match lsdb.info data lsa with
  | some old =>
    if old = lsa then lsdb else ospfLsdbEnter data (ospfLsdbDeleteEntry data lsdb old) lsa
  | none => ospfLsdbEnter data lsdb lsa

def ospfLsdbDelete : OspfLsdb :=
  if lsdb.info data lsa = some lsa then ospfLsdbDeleteEntry data lsdb lsa else lsdb

def ospfLsdbDeleteAll : OspfLsdb :=
  (range' 1 11).foldl (fun lsdb i =>
    (lsdb.stored.filter fun a => (data a).type = i).foldl (ospfLsdbDeleteEntry data) lsdb) lsdb

/-- Any calls, and changes to LSAs that are not stored. -/
inductive LsdbRun : (Nat → LsaContents) → OspfLsdb → Prop
  | init (data : Nat → LsaContents) : LsdbRun data ospfLsdbInit
  | add {data : _} {lsdb : _} (lsa : Nat) :
      LsdbRun data lsdb → LsdbRun data (ospfLsdbAdd data lsdb lsa)
  | delete {data : _} {lsdb : _} (lsa : Nat) :
      LsdbRun data lsdb → LsdbRun data (ospfLsdbDelete data lsdb lsa)
  | deleteAll {data : _} {lsdb : _} :
      LsdbRun data lsdb → LsdbRun data (ospfLsdbDeleteAll data lsdb)
  | modify {data : _} {lsdb : _} (data' : Nat → LsaContents)
      (h : ∀ a ∈ lsdb.stored, data' a = data a) :
      LsdbRun data lsdb → LsdbRun data' lsdb

/-! ## The counters -/

/-- The keys are those of different nodes, and the counters are what is stored. -/
structure Accounted : Prop where
  keys : (lsdb.stored.map fun a => (data a).key).Nodup
  type (t : Nat) : lsdb.type t
    = ((lsdb.stored.filter fun a => (data a).type = t).map fun a => (data a).counters).sum
  total : lsdb.total = (lsdb.stored.length : BitVec 64)

variable {data lsdb lsa}

theorem eq_of_info {a : Nat} (h : lsdb.info data lsa = some a) :
    a ∈ lsdb.stored ∧ (data a).key = (data lsa).key := by
  refine ⟨mem_of_find?_eq_some h, ?_⟩
  simpa using find?_some h

namespace Accounted

variable (h : Accounted data lsdb)
include h

theorem deleteEntry (hm : lsa ∈ lsdb.stored) :
    Accounted data (ospfLsdbDeleteEntry data lsdb lsa) where
  keys := h.keys.sublist (erase_sublist.map _)
  type t := by
    have hpm := perm_cons_erase hm
    have hsu := h.type t
    rw [((hpm.filter _).map _).sum_eq] at hsu
    simp only [ospfLsdbDeleteEntry]
    rcases eq_or_ne t (data lsa).type with rfl | hne
    · rw [filter_cons_of_pos (by simp), map_cons, sum_cons] at hsu
      rw [update_self, hsu, add_sub_cancel_left]
    · rw [filter_cons_of_neg (by simpa using hne.symm)] at hsu
      rw [update_of_ne hne, hsu]
  total := by
    have hlen := (perm_cons_erase hm).length_eq
    simp only [ospfLsdbDeleteEntry]
    rw [h.total, hlen, length_cons, Nat.cast_add_one, add_sub_cancel_right]

theorem deleteEntries {as : List Nat} (hsb : as ⊆ lsdb.stored) (hnd : as.Nodup) :
    Accounted data (as.foldl (ospfLsdbDeleteEntry data) lsdb) := by
  induction as generalizing lsdb with
  | nil => exact h
  | cons a as ih =>
    obtain ⟨hnt, hnd⟩ := nodup_cons.mp hnd
    refine ih (h.deleteEntry (hsb mem_cons_self)) (fun b hb => ?_) hnd
    exact (mem_erase_of_ne (ne_of_mem_of_not_mem hb hnt)).mpr (hsb (mem_cons_of_mem _ hb))

theorem enter (hno : ∀ a ∈ lsdb.stored, (data a).key ≠ (data lsa).key) :
    Accounted data (ospfLsdbEnter data lsdb lsa) where
  keys := nodup_cons.mpr ⟨fun hk => by
    obtain ⟨a, ha, heq⟩ := mem_map.mp hk
    exact hno a ha heq, h.keys⟩
  type t := by
    simp only [ospfLsdbEnter]
    rcases eq_or_ne t (data lsa).type with rfl | hne
    · rw [filter_cons_of_pos (by simp), map_cons, sum_cons, update_self, h.type, add_comm]
    · rw [filter_cons_of_neg (by simpa using hne.symm), update_of_ne hne, h.type]
  total := by
    simp only [ospfLsdbEnter]
    rw [h.total, length_cons, Nat.cast_add_one]

theorem add (lsa : Nat) : Accounted data (ospfLsdbAdd data lsdb lsa) := by
  unfold ospfLsdbAdd
  split
  next old hif =>
    obtain ⟨hm, hk⟩ := eq_of_info hif
    split
    · exact h
    · refine (h.deleteEntry hm).enter fun a ha heq => ?_
      obtain ⟨hne, ha⟩ := (Nodup.of_map _ h.keys).mem_erase_iff.mp ha
      exact hne (inj_on_of_nodup_map h.keys ha hm (heq.trans hk.symm))
  next hif => exact h.enter fun a ha heq => by simpa [heq] using find?_eq_none.mp hif a ha

theorem delete (lsa : Nat) : Accounted data (ospfLsdbDelete data lsdb lsa) := by
  unfold ospfLsdbDelete
  split
  next hif => exact h.deleteEntry (eq_of_info hif).1
  · exact h

theorem deleteAll : Accounted data (ospfLsdbDeleteAll data lsdb) := by
  unfold ospfLsdbDeleteAll
  generalize range' 1 11 = types
  induction types generalizing lsdb with
  | nil => exact h
  | cons i types ih =>
    exact ih (h.deleteEntries (filter_subset_self _) ((Nodup.of_map _ h.keys).filter _))

theorem modify {data' : Nat → LsaContents} (hsm : ∀ a ∈ lsdb.stored, data' a = data a) :
    Accounted data' lsdb where
  keys := by
    rw [map_congr_left fun a ha => congrArg LsaContents.key (hsm a ha)]
    exact h.keys
  type t := by
    have hfilter : lsdb.stored.filter (fun a => (data' a).type = t)
        = lsdb.stored.filter fun a => (data a).type = t :=
      filter_congr fun a ha => by rw [hsm a ha]
    rw [h.type, hfilter]
    exact congrArg sum (map_congr_left fun a ha => by rw [hsm a (mem_of_mem_filter ha)])
  total := h.total

end Accounted

/-- After any calls the counters are what is stored, and an LSA in whose place there is
another one is not deleted. -/
theorem lsdb_accounted (h : LsdbRun data lsdb) :
    Accounted data lsdb ∧ ∀ old ∈ lsdb.stored, (data old).key = (data lsa).key → old ≠ lsa →
      ospfLsdbDelete data lsdb lsa = lsdb := by
  have haccounted : Accounted data lsdb := by
    induction h with
    | init data => exact ⟨nodup_nil, fun _ => rfl, rfl⟩
    | add lsa _ ih => exact ih.add lsa
    | delete lsa _ ih => exact ih.delete lsa
    | deleteAll _ ih => exact ih.deleteAll
    | modify data' hsame _ ih => exact ih.modify hsame
  refine ⟨haccounted, fun old hold hkey hne => if_neg fun hinfo => hne ?_⟩
  exact inj_on_of_nodup_map haccounted.keys hold (eq_of_info hinfo).1 hkey

/-- Two instances of one router LSA. -/
def instances (a : Nat) : LsaContents := ⟨1, 7, 7, .ofNat a, a = 0, by decide⟩

theorem lsdb_accounted_replaced :
    let lsdb := ospfLsdbAdd instances (ospfLsdbAdd instances ospfLsdbInit 0) 1
    lsdb.type 1 = (1, 0, 1) ∧ Accounted instances lsdb
      ∧ ospfLsdbDelete instances lsdb 0 = lsdb := by
  have h := @lsdb_accounted _ _ 0 (.add 1 (.add 0 (.init instances)))
  exact ⟨by decide, h.1, h.2 1 mem_cons_self rfl (by decide)⟩

end SdnQuagga
