import SdnQuagga.BgpOpen

/-!
# What is read of the capabilities of an OPEN message

The bytes of an OPEN decide which capabilities are taken up and, for an
ORF capability, whether its entries are read where they are
(`orfOutcome`). If they are for every ORF capability that is taken up,
the parser stays inside each capability; if not, it ends in a failed
assertion or has read something else.
-/

namespace SdnQuagga

open FaultM SdnQuagga.Stream List Preserves OpenState

/-! ## The property -/

/-- Entries that follow one another from `pos` on. -/
def Consecutive : Nat → List (Nat × Nat) → Prop
  | _, [] => True
  | pos, (start, num) :: entries =>
    start = pos ∧ Consecutive (start + orfEntrySize + num * 2) entries

/-- The capability was read from its own bytes, its entries one after
another. -/
structure CapabilityRead.Inside (c : CapabilityRead) : Prop where
  start_le : c.start ≤ c.stop
  stop_le : c.stop ≤ c.start + c.length
  consecutive : Consecutive c.start c.entries

def AllInside (st : OpenState) : Prop := ∀ c ∈ st.parsed, c.Inside

/-- Before the call. -/
def OpenState.start (input : Stream) (peer : OpenPeer) (mpCapability : Bool) :
    OpenState :=
  ⟨input, peer, mpCapability, [], [], []⟩

/-! ## What the bytes say -/

inductive OrfOutcome where
  /-- all entries are read -/
  | done
  /-- an entry has more ORFs than the capability can hold -/
  | refused
  /-- the next entry is not read where it is -/
  | misread
deriving DecidableEq, Repr

/-- The entries of an ORF capability of this length from here on. -/
def orfOutcome (length : Nat) : List UInt8 → OrfOutcome
  | a1 :: a2 :: _ :: safi :: num :: rest =>
    match bgpAfiSafiValidIndices (UInt16.ofNat (ofBE [a1, a2])) safi with
    | none =>
      if rest.length ≤ orfEntrySize then .done
      else if num = 0 then orfOutcome length rest
      else .misread
    | some _ =>
      if length < orfEntrySize + num.toNat * 2 then .refused
      else if rest.length < num.toNat * 2 then .misread
      else if rest.length - num.toNat * 2 ≤ orfEntrySize then .done
      else orfOutcome length (rest.drop (num.toNat * 2))
  | _ => .misread
termination_by bs => bs.length
decreasing_by
  all_goals
    simp only [length_drop, length_cons]
    omega

/-- The entries of an ORF capability are read where they are. -/
def OrfReadable (value : List UInt8) : Prop :=
  orfOutcome value.length value ≠ .misread

/-- The capability makes the parser give up. -/
def capabilityStops (code : UInt8) (value : List UInt8) : Bool :=
  if isOrf code then orfOutcome value.length value ≠ .done
  else code = capabilityCodeAs4 ∧ (value.length ≠ 4 ∨ UInt32.ofNat (ofBE value) = 0)

/-- The capabilities of an option that are taken up, and whether the
parser gets to its end. -/
def openCapabilities : List UInt8 → List (UInt8 × List UInt8) × Bool
  | [] => ([], true)
  | [_] => ([], false)
  | code :: length :: rest =>
    if rest.length < length.toNat ∨ length.toNat < capMinsize code then
      ([], false)
    else
      let value := rest.take length.toNat
      if capabilityStops code value then ([(code, value)], false)
      else
        let more := openCapabilities (rest.drop length.toNat)
        ((code, value) :: more.1, more.2)
termination_by bs => bs.length
decreasing_by
  simp only [length_drop, length_cons]
  omega

/-- The capabilities that are taken up in options of `length` bytes, of
which the stream holds these. -/
def openOptions (length : Nat) : List UInt8 → List (UInt8 × List UInt8)
  | optType :: optLength :: rest =>
    if length = 0 ∨ rest.length < optLength.toNat ∨ optType ≠ bgpOpenOptCap then []
    else
      let caps := openCapabilities (rest.take optLength.toNat)
      if caps.2 then
        caps.1 ++ openOptions (length - (2 + optLength.toNat)) (rest.drop optLength.toNat)
      else caps.1
  | _ => []
termination_by bs => bs.length
decreasing_by
  simp only [length_drop, length_cons]
  omega

/-! ## Reading -/

section

variable {α : Type} {st st' : OpenState} {k : Nat}

variable (st)

/-- `st` with `k` more bytes read. -/
def OpenState.moved (k : Nat) : OpenState :=
  { st with input := st.input.advance k }

@[simp] theorem moved_unread (k : Nat) :
    (st.moved k).input.unread = st.input.unread.drop k := advance_unread ..

@[simp] theorem moved_moved (k k' : Nat) : (st.moved k).moved k' = st.moved (k + k') := by
  simp only [moved, advance_advance]

variable {st}

theorem openIn_ok {m : StreamM α} {a : α} {s : Stream} (h : m st.input = .ok (a, s)) :
    openIn m st = .ok (a, { st with input := s }) := by
  rw [openIn, h]

theorem openIn_reads {m : StreamM α} {bs : List UInt8} {a : α}
    (hm : Reads m bs a) (h : bs <+: st.input.unread) : openIn m st = .ok (a, st.moved bs.length) :=
  openIn_ok (hm _ h)

variable {rest : List UInt8}

theorem openIn_getc {b : UInt8} (h : st.input.unread = b :: rest) :
    openIn getc st = .ok (b, st.moved 1) :=
  openIn_reads (reads_getc b) ⟨rest, h.symm⟩

theorem openIn_getc_error (h : st.input.unread = []) : openIn getc st = .error .assertion := by
  have hlen := congrArg List.length h
  rw [unread_length, length_nil] at hlen
  have hby : getBytes 1 st.input = .error .assertion := if_pos (by omega)
  rw [openIn, getc, bind_error hby]

theorem openIn_getw {b1 b2 : UInt8} (h : st.input.unread = b1 :: b2 :: rest) :
    openIn getw st = .ok (UInt16.ofNat (ofBE [b1, b2]), st.moved 2) :=
  openIn_reads ((reads_getBytes [b1, b2]).map fun bs => UInt16.ofNat (ofBE bs)) ⟨rest, h.symm⟩

/-- The stream has moved by `k` bytes and nothing is recorded. -/
structure Moved (st st' : OpenState) (k : Nat) : Prop where
  input : st'.input = st.input.advance k
  entries : st'.entries = st.entries
  parsed : st'.parsed = st.parsed
  error : st'.error = st.error

theorem Moved.refl (st : OpenState) : Moved st st 0 := ⟨(advance_zero _).symm, rfl, rfl, rfl⟩

theorem Moved.trans {st'' : OpenState} {k' : Nat} (h : Moved st st' k)
    (h' : Moved st' st'' k') : Moved st st'' (k + k') where
  input := by rw [h'.input, h.input, advance_advance]
  entries := h'.entries.trans h.entries
  parsed := h'.parsed.trans h.parsed
  error := h'.error.trans h.error

theorem Moved.unread (h : Moved st st' k) : st'.input.unread = st.input.unread.drop k := by
  rw [h.input, advance_unread]

theorem Moved.getp (h : Moved st st' k) (hk : k ≤ st.input.readable) :
    st'.input.getp = st.input.getp + k := by
  rw [h.input, advance_getp hk]

theorem Moved.moved (st : OpenState) (k : Nat) : Moved st (st.moved k) k := ⟨rfl, rfl, rfl, rfl⟩

theorem bgpCapabilityMpData_ok {a1 a2 r safi : UInt8}
    (h : st.input.unread = a1 :: a2 :: r :: safi :: rest) :
    bgpCapabilityMpData st = .ok ((UInt16.ofNat (ofBE [a1, a2]), safi), st.moved 4) := by
  have hreserved : (st.moved 2).input.unread = r :: safi :: rest := by simp [h]
  have hsafi : ((st.moved 2).moved 1).input.unread = safi :: rest := by simp [h]
  rw [bgpCapabilityMpData, bind_ok (openIn_getw h),
    bind_ok (openIn_getc hreserved), bind_ok (openIn_getc hsafi), moved_moved, moved_moved]
  rfl

end

/-! ## ORF entries -/

variable {st : OpenState} {code : UInt8} {length : Nat}

theorem orfSet_moved (code : UInt8) (afi : Afi) (safi : Safi) (type mode : UInt8) (st : OpenState) :
    ∃ st', orfSet code afi safi type mode st = .ok ((), st') ∧ Moved st st' 0 := by
  unfold orfSet
  have hs f : ∃ st', modifyAfCap afi safi f st = .ok ((), st') ∧ Moved st st' 0 :=
    ⟨_, rfl, (advance_zero _).symm, rfl, rfl, rfl⟩
  split
  · split
    · exact hs _
    · split
      · exact hs _
      · exact ⟨st, rfl, .refl st⟩
  · exact ⟨st, rfl, .refl st⟩

variable {γ : Type} {num : Nat} {st1 : OpenState} {φ : OpenState → γ}

theorem orfLoop_reads (code : UInt8) (afi : Afi) (safi : Safi) (num : Nat) (st : OpenState) :
    if num * 2 ≤ st.input.readable then
      ∃ st', orfLoop code afi safi num st = .ok ((), st') ∧ Moved st st' (num * 2)
    else ∃ e, orfLoop code afi safi num st = .error e := by
  induction num generalizing st with
  | zero =>
    rw [if_pos (by omega)]
    exact ⟨st, rfl, .refl st⟩
  | succ num ih =>
    have hlen := unread_length st.input
    match hu : st.input.unread with
    | [] =>
      rw [hu, length_nil] at hlen
      rw [if_neg (by omega)]
      exact ⟨_, bind_error (openIn_getc_error hu)⟩
    | [type] =>
      have hmode : (st.moved 1).input.unread = [] := by simp [hu]
      rw [hu, length_singleton] at hlen
      rw [if_neg (by omega), orfLoop, bind_ok (openIn_getc hu),
        bind_error (openIn_getc_error hmode)]
      exact ⟨_, rfl⟩
    | type :: mode :: rest =>
      have hmode : (st.moved 1).input.unread = mode :: rest := by simp [hu]
      obtain ⟨st1, hs, hmv⟩ := orfSet_moved code afi safi type mode ((st.moved 1).moved 1)
      rw [moved_moved] at hmv
      have hmv1 := (Moved.moved st 2).trans hmv
      have hrm : st1.input.readable = st.input.readable - 2 := by
        rw [hmv1.input, advance_readable]
      rw [hu, length_cons, length_cons] at hlen
      rw [orfLoop, bind_ok (openIn_getc hu), bind_ok (openIn_getc hmode), bind_ok hs]
      have hrs := ih st1
      split at hrs
      · obtain ⟨st', hr, hmv'⟩ := hrs
        rw [if_pos (by omega), Nat.add_one_mul, Nat.add_comm]
        exact ⟨st', hr, hmv1.trans hmv'⟩
      · rwa [if_neg (by omega)]

/-- The state behind the header of an entry. -/
def OpenState.entryRead (st : OpenState) (num : Nat) : OpenState :=
  { st with
    input := st.input.advance orfEntrySize
    entries := st.entries ++ [(st.input.getp, num)] }

theorem bgpCapabilityOrfEntry_eq (code : UInt8) (length : Nat)
    {a1 a2 r safi num : UInt8} {rest : List UInt8}
    (h : st.input.unread = a1 :: a2 :: r :: safi :: num :: rest) :
    bgpCapabilityOrfEntry code length st
      = (match bgpAfiSafiValidIndices (UInt16.ofNat (ofBE [a1, a2])) safi with
        | none => return true
        | some (afi, safi) =>
          if orfEntrySize + num.toNat * 2 > length then
            openRefuse notifyCease 0 []
          else do
            orfLoop code afi safi num.toNat
            return true) (st.entryRead num.toNat) := by
  have hnum : (st.moved 4).input.unread = num :: rest := by simp [h]
  rw [bgpCapabilityOrfEntry, get_bind]
  refine (bind_ok (bgpCapabilityMpData_ok h)).trans ?_
  refine (bind_ok (openIn_getc hnum)).trans ?_
  rw [moved_moved]
  rfl

theorem openIn_preserves {α : Type} (hφ : ∀ st s, φ { st with input := s } = φ st) (m : StreamM α) :
    Preserves φ (openIn m) := by
  intro st a st' h
  unfold openIn at h
  split at h
  · cases h
  · cases h
    exact hφ st _

theorem bgpCapabilityMpData_preserves (hφ : ∀ st s, φ { st with input := s } = φ st) :
    Preserves φ bgpCapabilityMpData :=
  (openIn_preserves hφ _).bind fun _ => (openIn_preserves hφ _).bind fun _ =>
    (openIn_preserves hφ _).bind fun _ => .pure _

theorem orfLoop_preserves (hφ : ∀ st s, φ { st with input := s } = φ st)
    (hpe : ∀ st p, φ { st with peer := p } = φ st)
    (afi : Afi) (safi : Safi) (num : Nat) : Preserves φ (orfLoop code afi safi num) := by
  induction num with
  | zero => exact .pure _
  | succ num ih =>
    refine (openIn_preserves hφ _).bind fun type =>
      (openIn_preserves hφ _).bind fun mode => .bind ?_ fun _ => ih
    exact .ite (.ite (.modify fun st => hpe st _)
      (.ite (.modify fun st => hpe st _) (.pure _))) (.pure _)

theorem openRefuse_preserves (hpe : ∀ st p, φ { st with peer := p } = φ st) (code subcode : UInt8)
    (data : List UInt8) : Preserves φ (openRefuse code subcode data) :=
  .bind (.modify fun st => hpe st _) fun _ => .pure _

theorem orfEntry_grows (code : UInt8) (length : Nat) :
    Grows entries (bgpCapabilityOrfEntry code length) := by
  refine get.grows.bind fun st =>
    (bgpCapabilityMpData_preserves fun _ _ => rfl).grows.bind fun family =>
      (openIn_preserves (fun _ _ => rfl) _).grows.bind fun num =>
        .bind (.modify fun st => prefix_append ..) fun _ => ?_
  split
  · exact (pure _).grows
  · refine .ite ?_ ?_
    · exact (openRefuse_preserves (fun _ _ => rfl) _ _ _).grows
    · exact ((orfLoop_preserves (fun _ _ => rfl) (fun _ _ => rfl) _ _
        _).bind fun _ => .pure _).grows

theorem orfEntry_parsed (code : UInt8) (length : Nat) :
    Preserves parsed (bgpCapabilityOrfEntry code length) := by
  refine get.bind fun st =>
    (bgpCapabilityMpData_preserves fun _ _ => rfl).bind fun family =>
      (openIn_preserves (fun _ _ => rfl) _).bind fun num =>
        .bind (.modify fun _ => rfl) fun _ => ?_
  split
  · exact .pure _
  · exact .ite (openRefuse_preserves (fun _ _ => rfl) _ _ _)
      ((orfLoop_preserves (fun _ _ => rfl) (fun _ _ => rfl) _ _ _).bind fun _ => .pure _)

variable {endp bound : Nat}

theorem orfEntries_grows (code : UInt8) (length endp bound : Nat) :
    Grows entries (orfEntries code length endp bound) := by
  induction bound with
  | zero => exact (throw _).grows
  | succ bound ih =>
    refine (orfEntry_grows code length).bind fun b => .ite
      (pure _).grows (get.grows.bind fun st => ?_)
    exact .ite ih (pure _).grows

theorem orfEntries_parsed (code : UInt8) (length endp bound : Nat) :
    Preserves parsed (orfEntries code length endp bound) := by
  induction bound with
  | zero => exact .throw _
  | succ bound ih =>
    exact (orfEntry_parsed code length).bind fun b => .ite (.pure _)
      (get.bind fun st => .ite ih (.pure _))

theorem orfEntries_turn (h : bgpCapabilityOrfEntry code length st = .ok (true, st1)) :
    orfEntries code length endp (bound + 1) st = if st1.input.getp + orfEntrySize < endp then
          orfEntries code length endp bound st1
        else .ok (true, st1) := by
  rw [orfEntries, bind_ok h]
  simp only [Bool.not_true, Bool.false_eq_true, if_false]
  rw [get_bind]
  split <;> rfl

/-- What reading ORF entries from `getp` on leaves. -/
structure OrfRead (st st' : OpenState) (k : Nat) : Prop where
  input : st'.input = st.input.advance k
  parsed : st'.parsed = st.parsed
  error : st'.error = st.error
  entries : ∃ es, st'.entries = st.entries ++ es ∧ Consecutive st.input.getp es

theorem OrfRead.entryRead (st : OpenState) (num : Nat) :
    OrfRead st (st.entryRead num) orfEntrySize :=
  ⟨rfl, rfl, rfl, [(st.input.getp, num)], rfl, rfl, trivial⟩

theorem OrfRead.cons {st' : OpenState} {k : Nat} (h1 : Moved (st.entryRead num) st1 (num * 2))
    (hrm : orfEntrySize + num * 2 ≤ st.input.readable) (hmo : OrfRead st1 st' k) :
    OrfRead st st' (orfEntrySize + num * 2 + k) := by
  have hinp : st1.input = st.input.advance (orfEntrySize + num * 2) := by
    rw [h1.input]
    exact advance_advance ..
  obtain ⟨es, hes, hcn⟩ := hmo.entries
  refine ⟨?_, hmo.parsed.trans h1.parsed, hmo.error.trans h1.error,
    (st.input.getp, num) :: es, ?_, rfl, ?_⟩
  · rw [hmo.input, hinp, advance_advance]
  · rw [hes, h1.entries]
    exact append_assoc ..
  · rwa [hinp, advance_getp hrm, ← Nat.add_assoc] at hcn

theorem OrfRead.one (h1 : Moved (st.entryRead num) st1 (num * 2)) :
    OrfRead st st1 (orfEntrySize + num * 2) := by
  refine ⟨?_, h1.parsed, h1.error, [(st.input.getp, num)], h1.entries, rfl, trivial⟩
  rw [h1.input]
  exact advance_advance ..

theorem OrfRead.stay {st' : OpenState} {k : Nat} (h : OrfRead st st1 k)
    (h' : Moved st1 st' 0) : OrfRead st st' k where
  input := by rw [h'.input, advance_zero, h.input]
  parsed := h'.parsed.trans h.parsed
  error := h'.error.trans h.error
  entries := by
    rw [h'.entries]
    exact h.entries

theorem openRefuse_ok (code subcode : UInt8) (data : List UInt8) (st : OpenState) :
    ∃ st', openRefuse code subcode data st = .ok (false, st') ∧ Moved st st' 0 :=
  ⟨_, rfl, (advance_zero _).symm, rfl, rfl, rfl⟩

section

variable {a1 a2 r safi num : UInt8} {rest more : List UInt8}
  (hu : st.input.unread = (a1 :: a2 :: r :: safi :: num :: rest) ++ more)

include hu

theorem entryRead_readable : st.input.readable = orfEntrySize + (rest.length + more.length) := by
  rw [← unread_length, hu, orfEntrySize]
  simp only [length_append, length_cons]
  omega

theorem entryRead_getp : (st.entryRead num.toNat).input.getp = st.input.getp + orfEntrySize := by
  have hrd := entryRead_readable hu
  exact advance_getp (by omega)

theorem entryRead_unread : (st.entryRead num.toNat).input.unread = rest ++ more := by
  show (st.input.advance orfEntrySize).unread = _
  rw [advance_unread, hu]
  rfl

end

theorem orfHeader_length (a1 a2 r safi num : UInt8) (rest : List UInt8) :
    (a1 :: a2 :: r :: safi :: num :: rest).length = orfEntrySize + rest.length := by
  rw [orfEntrySize]
  simp only [length_cons]
  omega

theorem orfEntries_first {b : Bool} {st' : OpenState} {a1 a2 r safi num : UInt8} {rest : List UInt8}
    (hu : st.input.unread = a1 :: a2 :: r :: safi :: num :: rest)
    (hr : orfEntries code length endp bound st = .ok (b, st')) :
    ∃ es, st'.entries = st.entries ++ (st.input.getp, num.toNat) :: es := by
  cases bound with
  | zero => cases hr
  | succ bound =>
    rw [orfEntries] at hr
    obtain ⟨b1, st1, hen, hrs⟩ := bind_eq_ok hr
    rw [bgpCapabilityOrfEntry_eq code length hu] at hen
    -- everything behind the header only adds entries
    have hbod : (st.entryRead num.toNat).entries <+: st1.entries := by
      cases hfam : bgpAfiSafiValidIndices (UInt16.ofNat (ofBE [a1, a2])) safi with
      | none =>
        simp only [hfam] at hen
        exact (pure _).grows _ _ _ hen
      | some family =>
        simp only [hfam] at hen
        refine (show Grows entries _ from .ite ?_ ?_) _ _ _ hen
        · exact (openRefuse_preserves (fun _ _ => rfl) _ _ _).grows
        · exact ((orfLoop_preserves (fun _ _ => rfl) (fun _ _ => rfl) _ _
            _).bind fun _ => .pure true).grows
    have hmo : st1.entries <+: st'.entries := by
      refine (show Grows entries _ from .ite (pure _).grows
        (get.grows.bind fun st => ?_)) _ _ _ hrs
      exact .ite (orfEntries_grows code length endp bound) (pure _).grows
    obtain ⟨es, hes⟩ := hbod.trans hmo
    refine ⟨es, ?_⟩
    rw [← hes]
    exact append_assoc ..

/-- The stream is behind the end, or the entries do not follow one
another. -/
def Misread (endp : Nat) (st st' : OpenState) : Prop :=
  endp < st'.input.getp ∨ ∃ es, st'.entries = st.entries ++ es ∧ ¬ Consecutive st.input.getp es

/-- What the entries in `n` bytes come to. -/
def OrfReads (out : OrfOutcome) (n endp : Nat) (st : OpenState)
    (run : Except Fault (Bool × OpenState)) : Prop :=
  if out = .misread then ∀ b st', run = .ok (b, st') → Misread endp st st'
  else ∃ st' k, run = .ok (decide (out = .done), st') ∧ k ≤ n ∧ OrfRead st st' k

/-- Entries behind one that is where it should be. -/
theorem OrfReads.cons {out : OrfOutcome} {n : Nat} {run : Except Fault (Bool × OpenState)}
    (h1 : Moved (st.entryRead num) st1 (num * 2))
    (hrm : orfEntrySize + num * 2 ≤ st.input.readable) (h : OrfReads out n endp st1 run) :
    OrfReads out (orfEntrySize + num * 2 + n) endp st run := by
  unfold OrfReads at h ⊢
  split at h
  next hout =>
    rw [if_pos hout]
    intro b st' hr
    rcases h b st' hr with hlate | ⟨es, hes, hnt⟩
    · exact .inl hlate
    · refine .inr ⟨(st.input.getp, num) :: es, ?_, fun hal => hnt ?_⟩
      · rw [hes, h1.entries]
        exact append_assoc ..
      · have hgp : st1.input.getp = st.input.getp + orfEntrySize + num * 2 := by
          rw [h1.input]
          refine (congrArg Stream.getp (advance_advance ..)).trans ?_
          rw [advance_getp hrm, Nat.add_assoc]
        rw [hgp]
        exact hal.2
  next hout =>
    obtain ⟨st', k, hr, hk, hrea⟩ := h
    rw [if_neg hout]
    exact ⟨st', _, hr, Nat.add_le_add_left hk _, .cons h1 hrm hrea⟩

theorem entry_of_length {rem : List UInt8} (h : orfEntrySize ≤ rem.length) :
    ∃ a1 a2 r safi num rest, rem = a1 :: a2 :: r :: safi :: num :: rest := by
  match rem with
  | [] | [_] | [_, _] | [_, _, _] | [_, _, _, _] => simp [orfEntrySize] at h
  | a1 :: a2 :: r :: safi :: num :: rest => exact ⟨a1, a2, r, safi, num, rest, rfl⟩

/-- The entries of a capability: they are read one after another, or the
capability is left behind its end, or its entries are not those that are
read. -/
theorem orfEntries_reads {rem more : List UInt8} (hu : st.input.unread = rem ++ more)
    (hep : endp = st.input.getp + rem.length)
    (hfive : orfEntrySize ≤ rem.length) (hbd : rem.length ≤ bound) :
    OrfReads (orfOutcome length rem) rem.length endp st (orfEntries code length endp bound st) := by
  induction bound generalizing st rem with
  | zero =>
    rw [orfEntrySize] at hfive
    omega
  | succ bound ih =>
    obtain ⟨a1, a2, r, safi, num, rest, rfl⟩ := entry_of_length hfive
    have hen := bgpCapabilityOrfEntry_eq code length hu
    have hrd := entryRead_readable hu
    have hh := entryRead_getp hu
    have hbh := entryRead_unread hu
    rw [orfHeader_length] at hep hbd ⊢
    rw [orfOutcome]
    cases hfam : bgpAfiSafiValidIndices (UInt16.ofNat (ofBE [a1, a2])) safi with
    | none =>
      simp only [hfam] at hen ⊢
      rw [orfEntries_turn hen, hh]
      by_cases hla : rest.length ≤ orfEntrySize
      · rw [if_pos hla, if_neg (by omega)]
        exact ⟨_, _, rfl, Nat.le_add_right .., .entryRead ..⟩
      · have htn : st.input.getp + orfEntrySize + orfEntrySize < endp := by omega
        rw [if_neg hla, if_pos htn]
        by_cases hnum : num = 0
        · subst hnum
          rw [if_pos rfl]
          exact (ih hbh (by rw [hh]; omega) (by omega)
            (by rw [orfEntrySize] at hbd; omega)).cons (.refl (st.entryRead 0))
            (by omega)
        · rw [if_neg hnum]
          intro b st' hr
          -- the next entry is read from the ORFs of this one
          obtain ⟨b1, b2, q, safi', num', rest', rfl⟩ :=
            entry_of_length (Nat.le_of_not_le hla)
          obtain ⟨es, hes⟩ := orfEntries_first hbh hr
          refine .inr ⟨(st.input.getp, num.toNat)
            :: (st.input.getp + orfEntrySize, num'.toNat) :: es, ?_, fun hal => hnum ?_⟩
          · rw [hes, hh]
            exact append_assoc ..
          · have hz := hal.2.1
            rw [← UInt8.toNat_inj]
            show num.toNat = 0
            omega
    | some family =>
      obtain ⟨afi, safi'⟩ := family
      simp only [hfam] at hen ⊢
      by_cases htot : length < orfEntrySize + num.toNat * 2
      · obtain ⟨st', hrfs, hmv⟩ :=
          openRefuse_ok notifyCease 0 [] (st.entryRead num.toNat)
        rw [if_pos htot, hrfs] at hen
        rw [if_pos htot, orfEntries, bind_ok hen]
        exact ⟨st', _, rfl, Nat.le_add_right .., (OrfRead.entryRead ..).stay hmv⟩
      · rw [if_neg htot] at hen ⊢
        have hlp := orfLoop_reads code afi safi' num.toNat (st.entryRead num.toNat)
        rw [← unread_length, hbh, length_append] at hlp
        split at hlp
        swap
        · obtain ⟨e, hlp⟩ := hlp
          rw [bind_error hlp] at hen
          rw [if_pos (by omega), orfEntries, bind_error hen]
          nofun
        rename_i hrm
        obtain ⟨st1, hlp, hmv⟩ := hlp
        rw [bind_ok hlp] at hen
        have hgp := hmv.getp (by
          rw [← unread_length, hbh, length_append]
          exact hrm)
        rw [hh] at hgp
        rw [orfEntries_turn hen, hgp]
        by_cases hft : rest.length < num.toNat * 2
        · rw [if_pos hft, if_neg (by omega)]
          intro b st' hr
          cases hr
          exact .inl (by omega)
        rw [if_neg hft]
        by_cases hla : rest.length - num.toNat * 2 ≤ orfEntrySize
        · rw [if_pos hla, if_neg (by omega)]
          exact ⟨st1, _, rfl, by omega, .one hmv⟩
        · rw [if_neg hla, if_pos (by omega)]
          have hlen : (rest.drop (num.toNat * 2)).length
              = rest.length - num.toNat * 2 := length_drop ..
          have hnx : st1.input.unread = rest.drop (num.toNat * 2) ++ more := by
            rw [hmv.unread, hbh, drop_append_of_le_length (by omega)]
          have hmo := (ih hnx (by rw [hgp, hlen]; omega) (by omega)
            (by rw [hlen]; rw [orfEntrySize] at hbd; omega)).cons hmv (by omega)
          rwa [hlen, show orfEntrySize + num.toNat * 2 + (rest.length - num.toNat * 2)
            = orfEntrySize + rest.length by omega] at hmo

end SdnQuagga
