import SdnQuagga.BgpAttrParse
import SdnQuagga.BgpAspathStr

/-!
# The table of AS paths

`ashash` and its users. The key of a path is made of the string that the
path carries, not of its segments: `aspath_dup` gives the copy the string of
the original, and `aspath_add_seq` does not make a new one. A path that
`bgp_attr_aspath_check` has put the local AS in front of is therefore kept
under the string of the path without it.

`TableSound` is what the callers rely on when they compare paths by pointer.
It is kept by every step but that one.
-/

namespace SdnQuagga

open FaultM SdnQuagga.Stream List

/-! ## Paths and the table -/

/-- `struct aspath`, with its address. -/
structure Aspath where
  addr : Nat
  segments : List Assegment
  str : Option (List Char)
  refcnt : Nat
deriving DecidableEq

/-- `aspath_key_make`; a missing string is made first. -/
def aspathKeyMake (aspath : Aspath) : UInt32 :=
  aspathStrKey (aspath.str.getD (aspathMakeStrCount aspath.segments))

def segmentsCmp : List Assegment → List Assegment → Bool
  | [], [] => true
  | seg1 :: next1, seg2 :: next2 =>
    seg1.type = seg2.type && seg1.length = seg2.length
      && (zip seg1.as seg2.as).all (fun asn => asn.1 = asn.2) && segmentsCmp next1 next2
  | _, _ => false

def aspathCmp (aspath1 aspath2 : Aspath) : Bool :=
  segmentsCmp aspath1.segments aspath2.segments

/-- The table and the next address. -/
structure Ashash where
  backets : List (Backet Aspath)
  next : Nat

namespace Ashash

def empty : Ashash := ⟨[], 0⟩

variable (table : Ashash) (addr : Nat)

def live : Option Aspath :=
  (table.backets.find? fun backet => backet.data.addr = addr).map Backet.data

def update (f : Aspath → Aspath) : Ashash :=
  { table with backets := table.backets.map fun backet =>
      if backet.data.addr = addr then { backet with data := f backet.data }
      else backet }

/-- `find->refcnt++`. -/
def addRef : Ashash :=
  table.update addr fun aspath => { aspath with refcnt := aspath.refcnt + 1 }

/-- A new backet with one reference to its path. -/
def add (key : UInt32) (segments : List Assegment) (str : List Char) : Ashash where
  backets := ⟨key, ⟨table.next, segments, some str, 1⟩⟩ :: table.backets
  next := table.next + 1

/-! ## The users -/

/-- `aspath_parse` behind `assegments_parse`. -/
def parse (segments : List Assegment) : Ashash :=
  let as : Aspath := ⟨table.next, segments, none, 0⟩
  match hashLookup aspathKeyMake aspathCmp table.backets as with
  | some found => table.addRef found.addr
  | none => table.add (aspathKeyMake as) segments (aspathMakeStrCount segments)

variable (aspath : Aspath)

/-- `aspath_intern` of a path that is not in the table. -/
def intern : Ashash :=
  match hashLookup aspathKeyMake aspathCmp table.backets aspath with
  | some found => (table.update found.addr fun aspath => { aspath with
      str := some (aspath.str.getD (aspathMakeStrCount aspath.segments)) }).addRef found.addr
  | none => table.add (aspathKeyMake aspath) aspath.segments
      (aspath.str.getD (aspathMakeStrCount aspath.segments))

/-- The part of `aspath_unintern` behind the last reference: `hash_release`
must find the path, and what it finds is the path that is freed. -/
def release (asp : Aspath) : Option Ashash :=
  match table.backets.find? (Backet.holds aspathKeyMake aspathCmp asp) with
  | none => none
  | some backet =>
    if backet.data.addr = asp.addr then
      some { table with
        backets := hashRelease aspathKeyMake aspathCmp table.backets asp }
    else none

/-- `aspath_unintern` of a live path; `none` for a dangling pointer or a
failed assertion. -/
def unintern : Option Ashash :=
  match table.live addr with
  | none => none
  | some asp =>
    if asp.refcnt - 1 = 0 then
      (table.update addr fun asp => { asp with refcnt := 0 }).release
        { asp with refcnt := 0 }
    else some (table.update addr fun asp =>
      { asp with refcnt := asp.refcnt - 1 })

/-- `aspath_dup`: a copy that is not in the table. -/
def dup : Aspath :=
  ⟨table.next, aspath.segments, some (aspathMakeStrCount aspath.segments), 0⟩

/-- The local AS is put in front of the path of an attribute set, as in
`bgp_attr_aspath_check`. -/
def localAs (asno : UInt32) : Option Ashash := do
  let aspath ← table.live addr
  let copy := table.dup aspath
  let copy := { copy with segments := aspathAddSeq asno copy.segments }
  let table ← table.unintern addr
  return table.intern copy

end Ashash

/-! ## Runs -/

inductive AspathStep where
  | parse (s : Stream) (length : Nat) (use32bit : Bool)
  | unintern (addr : Nat)
  | localAs (addr : Nat) (asno : UInt32)

/-- One step. A path that does not parse leaves the table alone. -/
def AspathStep.run (table : Ashash) : AspathStep → Option Ashash
  | .parse s length use32bit =>
    match aspathParse length use32bit s with
    | .ok (some segments, _) => some (table.parse segments)
    | .ok (none, _) => some table
    | .error _ => none
  | .unintern addr => table.unintern addr
  | .localAs addr asno => table.localAs addr asno

def aspathRun (table : Ashash) : List AspathStep → Option Ashash
  | [] => some table
  | step :: steps => (step.run table).bind fun table => aspathRun table steps

/-- No two live paths are equal, and each carries its own string. -/
structure TableSound (table : Ashash) : Prop where
  unique : table.backets.Pairwise fun x y => aspathCmp x.data y.data = false
  str : ∀ backet ∈ table.backets, backet.data.str = some (aspathMakeStrCount backet.data.segments)

/-! ## Comparison -/

theorem zip_all_eq : ∀ {as bs : List UInt32}, as.length = bs.length →
    ((zip as bs).all (fun asn => asn.1 = asn.2) = true ↔ as = bs)
  | [], [], _ => by simp
  | a :: as, b :: bs, hlen => by
    have ih := @zip_all_eq as bs (by simpa using hlen)
    rw [zip_cons_cons, all_cons, Bool.and_eq_true, ih]
    simp

theorem segmentsCmp_iff : ∀ {segs1 segs2 : List Assegment},
    segmentsCmp segs1 segs2 = true ↔ segs1 = segs2
  | [], [] | [], _ :: _ | _ :: _, [] => by simp [segmentsCmp]
  | ⟨type1, as1, h1⟩ :: next1, ⟨type2, as2, h2⟩ :: next2 => by
    simp only [segmentsCmp, Bool.and_eq_true, decide_eq_true_eq,
      segmentsCmp_iff, List.cons.injEq, Assegment.mk.injEq]
    constructor
    · rintro ⟨⟨⟨hty, hlen⟩, has⟩, hnx⟩
      exact ⟨⟨hty, (zip_all_eq hlen).mp has⟩, hnx⟩
    · rintro ⟨⟨hty, has⟩, hnx⟩
      subst has
      exact ⟨⟨⟨hty, rfl⟩, (zip_all_eq rfl).mpr rfl⟩, hnx⟩

variable {aspath1 aspath2 : Aspath}

theorem aspathCmp_iff : aspathCmp aspath1 aspath2 = true ↔ aspath1.segments = aspath2.segments :=
  segmentsCmp_iff

theorem aspathCmp_false :
    aspathCmp aspath1 aspath2 = false ↔ aspath1.segments ≠ aspath2.segments := by
  rw [← Bool.not_eq_true, aspathCmp_iff]

/-! ## A rewritten path has another string -/

theorem intersperse_flatten_cons (c : Char) (x : List Char) {xs : List (List Char)} (h : xs ≠ []) :
    (intersperse [c] (x :: xs)).flatten = x ++ c :: (intersperse [c] xs).flatten := by
  obtain ⟨y, ys, rfl⟩ := exists_cons_of_ne_nil h
  rw [intersperse_cons_cons, flatten_cons, flatten_cons, singleton_append]

theorem intersperse_length_head (c : Char) (x y : List Char) (xs : List (List Char)) :
    (intersperse [c] (x :: xs)).flatten.length + y.length
      = (intersperse [c] (y :: xs)).flatten.length + x.length := by
  by_cases h : xs = []
  · simp [h, Nat.add_comm]
  · rw [intersperse_flatten_cons c x h, intersperse_flatten_cons c y h,
      length_append, length_append]
    omega

theorem assegmentStr_prepend {asno : UInt32} {as : List UInt32} (h : as ≠ [])
    (hlt : as.length < 65536) (hlt' : (asno :: as).length < 65536) :
    assegmentStr ⟨.sequence, asno :: as, hlt'⟩
      = Nat.toDigits 10 asno.toNat ++ ' ' :: assegmentStr ⟨.sequence, as, hlt⟩ := by
  have hmp : as.map (fun asn => Nat.toDigits 10 asn.toNat) ≠ [] := by simpa using h
  simpa [assegmentStr, aspathDelimiters, aspathSeparator, SegType.isSet]
    using intersperse_flatten_cons ' ' (Nat.toDigits 10 asno.toNat) hmp

variable {seg : Assegment}

theorem assegmentStr_ne_nil (h : seg.as ≠ []) : 0 < (assegmentStr seg).length := by
  obtain ⟨a, as, hcn⟩ := exists_cons_of_ne_nil h
  have hp := Nat.length_toDigits_pos (b := 10) (n := a.toNat)
  have hhe := intersperse_length_head (aspathSeparator seg.type) []
    (Nat.toDigits 10 a.toNat) (as.map fun asn => Nat.toDigits 10 asn.toNat)
  rw [assegmentStr, hcn, map_cons, length_append, length_append]
  rw [length_nil] at hhe
  omega

theorem not_isDigit_str (next : List Assegment)
    (h : seg.length = 0) (hne : aspathMakeStrCount (seg :: next) ≠ []) :
    ∃ c ∈ aspathMakeStrCount (seg :: next), c.isDigit = false := by
  obtain ⟨type, as, hlt⟩ := seg
  obtain rfl : as = [] := length_eq_zero_iff.mp h
  by_cases hnx : next.map assegmentStr = []
  · unfold aspathMakeStrCount at hne ⊢
    rw [map_cons, hnx] at hne ⊢
    cases type with
    | sequence => exact absurd rfl hne
    | set => exact ⟨'\x7b', by decide +revert, by decide⟩
    | confedSet => exact ⟨'[', by decide +revert, by decide⟩
    | confedSequence => exact ⟨'(', by decide +revert, by decide⟩
  · refine ⟨' ', ?_, by decide⟩
    rw [aspathMakeStrCount, map_cons, intersperse_flatten_cons ' ' _ hnx]
    simp

theorem assegmentPrependAsns_str_length (asno : UInt32)
    (has : seg.as ≠ []) (hty : seg.type = .sequence) :
    (assegmentStr (assegmentPrependAsns seg asno 1)).length ≠ (assegmentStr seg).length := by
  obtain ⟨type, as, hlt⟩ := seg
  subst hty
  replace has : as ≠ [] := has
  rw [assegmentPrependAsns, if_neg (by decide)]
  by_cases hft : (asno :: as).length < 65536
  · rw [Assegment.ofAsns_eq (by exact hft)]
    have hlen := congrArg List.length (assegmentStr_prepend has hlt hft)
    rw [length_append, length_cons] at hlen
    exact ((by omega : _ < _).trans_eq hlen.symm).ne'
  -- The length of a full segment wraps to zero.
  · have hni : (Assegment.ofAsns .sequence (replicate 1 asno ++ as)).as = [] := by
      have hmod : (asno :: as).length % 65536 = 0 := by
        rw [length_cons] at hft ⊢
        omega
      simpa [Assegment.ofAsns, Nat.add_comm] using hmod
    have hp : 0 < (assegmentStr ⟨.sequence, as, hlt⟩).length := assegmentStr_ne_nil has
    rw [assegmentStr, hni]
    exact hp.ne

theorem aspathMakeStrCount_addSeq (asno : UInt32) (segs : List Assegment) :
    aspathMakeStrCount (aspathAddSeq asno segs) ≠ aspathMakeStrCount segs := by
  have hone : aspathMakeStrCount [.ofAsns .sequence [asno]] = Nat.toDigits 10 asno.toNat := by
    rw [Assegment.ofAsns_eq (by simp)]
    simp [aspathMakeStrCount, assegmentStr, aspathDelimiters]
  have hdigits : Nat.toDigits 10 asno.toNat ≠ [] := Nat.toDigits_ne_nil
  intro heq
  cases segs with
  | nil =>
    rw [aspathAddSeq, aspathAddOneAs, hone] at heq
    exact hdigits heq
  | cons seg next =>
    rw [aspathAddSeq, aspathAddOneAs] at heq
    split at heq
    next hz =>
      rw [hone] at heq
      obtain ⟨c, hc, hnt⟩ := not_isDigit_str next hz (heq ▸ hdigits)
      rw [← heq] at hc
      have := Nat.isDigit_of_mem_toDigits (by decide) (by decide) hc
      rw [hnt] at this
      exact Bool.false_ne_true this
    next hp =>
      have has : seg.as ≠ [] := fun hni =>
        hp (by simp [Assegment.length, hni])
      split at heq
      next hty =>
        have hlen := congrArg List.length heq
        have hhe := intersperse_length_head ' '
          (assegmentStr (assegmentPrependAsns seg asno 1)) (assegmentStr seg)
          (next.map assegmentStr)
        have hne := assegmentPrependAsns_str_length asno has hty
        simp only [aspathMakeStrCount, map_cons] at hlen
        omega
      · have hlen := congrArg List.length heq
        rw [aspathMakeStrCount, map_cons,
          intersperse_flatten_cons ' ' _ (by simp), ← aspathMakeStrCount,
          length_append, length_cons] at hlen
        omega

/-! ## What one step keeps -/

/-- A sound table whose keys are those of the strings. -/
structure TableKept (table : Ashash) : Prop extends TableSound table where
  keyed : ∀ backet ∈ table.backets,
    backet.key = aspathStrKey (aspathMakeStrCount backet.data.segments)

namespace TableKept

variable {table table' : Ashash}

theorem empty : TableKept .empty where
  unique := List.Pairwise.nil
  str := by simp [Ashash.empty]
  keyed := by simp [Ashash.empty]

section

variable (h : TableKept table)
include h

/-- A change that leaves segments and strings alone. -/
theorem update (addr : Nat) {f : Aspath → Aspath}
    (hsg : ∀ aspath, (f aspath).segments = aspath.segments)
    (hstr : ∀ backet ∈ table.backets, (f backet.data).str = backet.data.str) :
    TableKept (table.update addr f) where
  unique := by
    refine pairwise_map.mpr (h.unique.imp fun {x y} hxy => ?_)
    rw [aspathCmp_false] at hxy ⊢
    split <;> split <;> simpa [hsg] using hxy
  str := by
    intro backet hm
    obtain ⟨old, hold, rfl⟩ := mem_map.mp hm
    have := h.str old hold
    split <;> simpa [hsg, hstr old hold] using this
  keyed := by
    intro backet hm
    obtain ⟨old, hold, rfl⟩ := mem_map.mp hm
    have := h.keyed old hold
    split <;> simpa [hsg] using this

theorem addRef (addr : Nat) : TableKept (table.addRef addr) :=
  h.update addr (fun _ => rfl) (fun _ _ => rfl)

/-- A new entry, of a path that the table does not hold. -/
theorem add {segs : List Assegment} (hn : ∀ backet ∈ table.backets, backet.data.segments ≠ segs) :
    TableKept (table.add (aspathStrKey (aspathMakeStrCount segs)) segs
      (aspathMakeStrCount segs)) where
  unique := pairwise_cons.mpr ⟨fun backet hm => aspathCmp_false.mpr (hn backet hm).symm, h.unique⟩
  str := by
    intro backet hm
    rcases mem_cons.mp hm with rfl | hold
    · rfl
    · exact h.str backet hold
  keyed := by
    intro backet hm
    rcases mem_cons.mp hm with rfl | hold
    · rfl
    · exact h.keyed backet hold

theorem parse (segs : List Assegment) : TableKept (table.parse segs) := by
  unfold Ashash.parse
  dsimp only
  split
  next found hfnd => exact h.addRef found.addr
  next hno =>
    refine h.add fun backet hm hsg => ?_
    refine absurd (hashLookup_none hno hm ?_) ?_
    · rw [h.keyed backet hm, hsg]
      rfl
    · rwa [Bool.not_eq_false, aspathCmp_iff]

theorem sublist (hsb : table'.backets.Sublist table.backets) : TableKept table' where
  unique := h.unique.sublist hsb
  str := fun backet hm => h.str backet (hsb.subset hm)
  keyed := fun backet hm => h.keyed backet (hsb.subset hm)

end

variable {addr : Nat} {asp : Aspath} (hlv : table.live addr = some asp)
  (hrun : table.unintern addr = some table')
include hlv hrun

/-- `aspath_unintern` changes reference counts, and takes out nothing but the
path it is called for. -/
theorem unintern_spec :
    ∃ f : Aspath → Aspath, (∀ aspath, (f aspath).segments = aspath.segments
        ∧ (f aspath).str = aspath.str) ∧ table'.backets.Sublist (table.update addr f).backets
      ∧ ∀ backet ∈ (table.update addr f).backets,
          backet.data.segments ≠ asp.segments → backet ∈ table'.backets := by
  unfold Ashash.unintern at hrun
  rw [hlv] at hrun
  dsimp only at hrun
  split at hrun
  · refine ⟨fun asp => { asp with refcnt := 0 }, fun _ => ⟨rfl, rfl⟩, ?_⟩
    unfold Ashash.release at hrun
    split at hrun
    · cases hrun
    · split at hrun
      · cases hrun
        refine ⟨eraseP_sublist, fun backet hm ho => ?_⟩
        refine (mem_eraseP_of_neg ?_).mpr hm
        rw [Backet.holds, Bool.and_eq_true, aspathCmp_iff]
        exact fun hhd => ho hhd.2
      · cases hrun
  · cases hrun
    exact ⟨fun asp => { asp with refcnt := asp.refcnt - 1 }, fun _ => ⟨rfl, rfl⟩,
      .refl _, fun _ hm _ => hm⟩

theorem unintern (h : TableKept table) : TableKept table' := by
  obtain ⟨f, hf, hsb, -⟩ := unintern_spec hlv hrun
  have hupd : TableKept (table.update addr f) :=
    h.update addr (fun aspath => (hf aspath).1) (fun backet _ => (hf backet.data).2)
  exact hupd.sublist hsb

theorem unintern_other {backet : Backet Aspath} (hm : backet ∈ table.backets)
    (ho : backet.data.segments ≠ asp.segments) :
    ∃ backet' ∈ table'.backets,
      backet'.key = backet.key ∧ backet'.data.segments = backet.data.segments := by
  obtain ⟨f, hf, -, hstay⟩ := unintern_spec hlv hrun
  have hsm : ∀ {new},
      (if backet.data.addr = addr then { backet with data := f backet.data }
        else backet) = new →
      new.key = backet.key ∧ new.data.segments = backet.data.segments := by
    rintro new rfl
    split <;> simp [hf]
  refine ⟨_, hstay _ (mem_map.mpr ⟨backet, hm, rfl⟩) ?_, hsm rfl⟩
  rwa [(hsm rfl).2]

theorem unintern_from {backet' : Backet Aspath} (hm' : backet' ∈ table'.backets) :
    ∃ backet ∈ table.backets, backet'.data.segments = backet.data.segments := by
  obtain ⟨f, hf, hsb, -⟩ := unintern_spec hlv hrun
  obtain ⟨backet, hm, rfl⟩ := mem_map.mp (hsb.subset hm')
  refine ⟨backet, hm, ?_⟩
  split <;> simp [hf]

omit hlv hrun in
theorem intern_found (h : TableKept table) {aspath found : Aspath}
    (hfnd : hashLookup aspathKeyMake aspathCmp table.backets aspath
      = some found) : TableKept (table.intern aspath) := by
  unfold Ashash.intern
  rw [hfnd]
  refine .addRef (h.update _ ?_ ?_) _
  · intro aspath
    rfl
  · intro backet hm
    rw [h.str backet hm, Option.getD_some]

end TableKept

/-! ## The rewrite -/

/-- The path that the rewrite makes is in the table, under the key of the path
that it is made from. -/
def RewriteFound (table : Ashash) (addr : Nat) (asno : UInt32) : Prop :=
  ∀ aspath, table.live addr = some aspath → ∃ backet ∈ table.backets,
      backet.data.segments = aspathAddSeq asno aspath.segments
        ∧ aspathStrKey (aspathMakeStrCount backet.data.segments)
          = aspathStrKey (aspathMakeStrCount aspath.segments)

variable {table table' : Ashash}

theorem localAs_kept_iff (h : TableKept table)
    {addr : Nat} {asno : UInt32} (hrun : table.localAs addr asno = some table') :
    (TableSound table' ↔ RewriteFound table addr asno)
      ∧ (RewriteFound table addr asno → TableKept table') := by
  unfold Ashash.localAs at hrun
  obtain ⟨aspath, hlv, hrun⟩ := Option.bind_eq_some_iff.mp hrun
  obtain ⟨table1, hunin, hrun⟩ := Option.bind_eq_some_iff.mp hrun
  cases hrun
  have hkp := TableKept.unintern hlv hunin h
  have hstr := aspathMakeStrCount_addSeq asno aspath.segments
  set copy : Aspath := { table.dup aspath with
    segments := aspathAddSeq asno (table.dup aspath).segments } with hcopy
  have hn : RewriteFound table addr asno → TableKept (table1.intern copy) := by
    intro hfnd
    obtain ⟨backet, hm, hsg, hk⟩ := hfnd aspath hlv
    obtain ⟨backet', hm', hk', hsg'⟩ := TableKept.unintern_other hlv
      hunin hm (fun heq => hstr (by rw [← hsg, heq]))
    cases hlk : hashLookup aspathKeyMake aspathCmp table1.backets copy with
    | some found => exact hkp.intern_found hlk
    | none =>
      have hks : backet'.key = aspathKeyMake copy := by
        rw [hk', h.keyed backet hm, hk]
        rfl
      have hcmp := hashLookup_none hlk hm' hks
      exact absurd (hsg'.trans hsg) (aspathCmp_false.mp hcmp)
  refine ⟨⟨fun hsd => ?_, fun hfnd => (hn hfnd).toTableSound⟩, hn⟩
  cases hlk : hashLookup aspathKeyMake aspathCmp table1.backets copy with
  | none =>
    -- The new entry has the string of the old path.
    unfold Ashash.intern at hsd
    rw [hlk] at hsd
    have hb := hsd.str _ (mem_cons_self)
    exact absurd (Option.some.inj hb).symm hstr
  | some found =>
    obtain ⟨backet', hm', rfl, hk, hcmp⟩ := hashLookup_some hlk
    have hsg' : backet'.data.segments = aspathAddSeq asno aspath.segments := aspathCmp_iff.mp hcmp
    obtain ⟨backet, hm, hsg⟩ := TableKept.unintern_from hlv hunin hm'
    intro other ho
    cases hlv.symm.trans ho
    refine ⟨backet, hm, hsg.symm.trans hsg', ?_⟩
    rw [← hsg, ← hkp.keyed backet' hm', hk]
    rfl

/-! ## Whole runs -/

/-- Every table of a run is sound. -/
def RunSound (table : Ashash) : List AspathStep → Prop
  | [] => TableSound table
  | step :: steps => TableSound table
      ∧ ∀ table', step.run table = some table' → RunSound table' steps

/-- What a step asks of the table. -/
def AspathStep.Found (table : Ashash) : AspathStep → Prop
  | .parse _ _ _ | .unintern _ => True
  | .localAs addr asno => table.localAs addr asno ≠ none → RewriteFound table addr asno

/-- Every rewrite of a run finds its path. -/
def RewritesFound (table : Ashash) : List AspathStep → Prop
  | [] => True
  | step :: steps => step.Found table
      ∧ ∀ table', step.run table = some table' → RewritesFound table' steps

/-- One step keeps the table, or breaks it at once. -/
theorem AspathStep.run_kept (h : TableKept table)
    (step : AspathStep) (hrun : step.run table = some table') :
    (TableSound table' ↔ step.Found table) ∧ (step.Found table → TableKept table') := by
  cases step with
  | parse s length use32bit =>
    have hkp : TableKept table' := by
      simp only [AspathStep.run] at hrun
      split at hrun
      next segs _ _ =>
        cases hrun
        exact h.parse segs
      · cases hrun
        exact h
      · cases hrun
    exact ⟨iff_of_true hkp.toTableSound trivial, fun _ => hkp⟩
  | unintern addr =>
    have hkp : TableKept table' := by
      have hunin : table.unintern addr = some table' := hrun
      cases hlv : table.live addr with
      | none => simp [Ashash.unintern, hlv] at hunin
      | some asp => exact .unintern hlv hunin h
    exact ⟨iff_of_true hkp.toTableSound trivial, fun _ => hkp⟩
  | localAs addr asno =>
    have hso : table.localAs addr asno ≠ none := by
      rw [show table.localAs addr asno = some table' from hrun]
      simp
    obtain ⟨hiff, hkp⟩ := localAs_kept_iff h hrun
    exact ⟨hiff.trans ⟨fun hf _ => hf, fun hf => hf hso⟩, fun hf => hkp (hf hso)⟩

theorem runSound_iff {table : Ashash} (h : TableKept table) :
    ∀ steps, RunSound table steps ↔ RewritesFound table steps := by
  intro steps
  induction steps generalizing table with
  | nil => exact iff_of_true h.toTableSound trivial
  | cons step steps ih =>
    rw [RunSound, RewritesFound]
    cases hrun : step.run table with
    | none =>
      refine iff_of_true ⟨h.toTableSound, by simp⟩ ⟨?_, by simp⟩
      cases step with
      | parse s length use32bit => trivial
      | unintern addr => trivial
      | localAs addr asno => exact fun hso => absurd hrun hso
    | some table' =>
      obtain ⟨hiff, hkp⟩ := step.run_kept h hrun
      have hhe : RunSound table' steps → TableSound table' := by
        cases steps with
        | nil => exact id
        | cons => exact And.left
      constructor
      · rintro ⟨-, hrs⟩
        have hfnd := hiff.mp (hhe (hrs table' rfl))
        refine ⟨hfnd, ?_⟩
        rintro _ ⟨⟩
        exact (ih (hkp hfnd)).mp (hrs table' rfl)
      · rintro ⟨hfnd, hrs⟩
        refine ⟨h.toTableSound, ?_⟩
        rintro _ ⟨⟩
        exact (ih (hkp hfnd)).mpr (hrs table' rfl)

/-- Every table that a run passes through is sound, just when each rewrite of
the local AS finds the path that it makes under the key of the path it is made
from. A run without rewrites asks nothing. -/
theorem ashash_sound_iff (steps : List AspathStep) :
    RunSound .empty steps ↔ RewritesFound .empty steps :=
  runSound_iff .empty steps

theorem RunSound.last {steps : List AspathStep} : ∀ {table table' : Ashash},
    RunSound table steps → aspathRun table steps = some table' → TableSound table' := by
  induction steps with
  | nil =>
    rintro table table' hsd ⟨⟩
    exact hsd
  | cons step steps ih =>
    rintro table table' ⟨-, hrs⟩ hrun
    obtain ⟨table1, hst, hrun⟩ := Option.bind_eq_some_iff.mp hrun
    exact ih (hrs table1 hst) hrun

/-- `1` is received from a peer with local AS 7, then `7 1` from another. -/
def rewriteThenParse : List AspathStep :=
  [.parse (.ofBytes [2, 1, 0, 1]) 4 false, .localAs 0 7,
    .parse (.ofBytes [2, 2, 0, 7, 0, 1]) 6 false]

/-- The table ends with two entries for one path. -/
theorem ashash_duplicate_path :
    (aspathRun .empty rewriteThenParse).map (fun table => table.backets.map fun backet =>
          (backet.data.segments, backet.data.str))
      = some [([⟨.sequence, [7, 1], by decide⟩], some ['7', ' ', '1']),
        ([⟨.sequence, [7, 1], by decide⟩], some ['1'])]
    ∧ ¬ RunSound .empty rewriteThenParse := by
  refine (and_iff_left_of_imp fun hrun hsound => ?_).mpr (by decide +kernel)
  obtain ⟨table, hlast, hmap⟩ := Option.map_eq_some_iff.mp hrun
  have hunique := (hsound.last hlast).unique
  obtain ⟨new, rest, hbackets, hnew, hrest⟩ := map_eq_cons_iff.mp hmap
  obtain ⟨old, _, rfl, hold, -⟩ := map_eq_cons_iff.mp hrest
  rw [hbackets] at hunique
  have hcmp := rel_of_pairwise_cons hunique mem_cons_self
  rw [aspathCmp_false] at hcmp
  exact hcmp ((Prod.ext_iff.mp hnew).1.trans (Prod.ext_iff.mp hold).1.symm)

end SdnQuagga
