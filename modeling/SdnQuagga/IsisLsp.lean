import Mathlib.Data.Set.Basic

/-!
# The link state database of IS-IS

`lsp_compare` of `isisd/isis_lsp.c` and `process_lsp` of `isisd/isis_pdu.c`, for PDUs that have
passed the checks of length, checksum, circuit, password and adjacency.

The comparison takes any LSP with the same sequence number for newer, unless checksum and
expiry are the same as well: each of two such instances is newer than the other, and a purge is
overwritten by the instance it has purged.
-/

namespace SdnQuagga

/-! ## The code -/

structure LspId where
  sysid : BitVec 48
  pseudoId : UInt8
  fragment : UInt8
deriving DecidableEq, Repr

/-- `struct isis_link_state_hdr`, in host order. -/
structure LspHdr where
  lspId : LspId
  seqNum : UInt32
  checksum : UInt16
  remLifetime : UInt16
  lspBits : UInt8
deriving DecidableEq, Repr

inductive LspComparison where
  | equal
  | newer
  | older
deriving DecidableEq, Repr

/-- `lsp_compare`: how the values compare to the LSP. -/
def lspCompare (lsp : LspHdr) (seqNum : UInt32) (checksum remLifetime : UInt16) : LspComparison :=
  if lsp.seqNum = seqNum ∧ lsp.checksum = checksum
      ∧ (lsp.remLifetime = 0 ∧ remLifetime = 0 ∨ lsp.remLifetime ≠ 0 ∧ remLifetime ≠ 0) then .equal
  else if seqNum ≥ lsp.seqNum then .newer
  else .older

/-- `struct isis_lsp`, the flags by the index of a circuit. -/
structure IsisLsp where
  header : LspHdr
  srmFlags : Nat → Bool
  ssnFlags : Nat → Bool

inductive IsisLevel where
  | l1
  | l2
deriving DecidableEq, Repr

inductive CircuitType where
  | unknown
  | broadcast
  | p2p
  | loopback
deriving DecidableEq, Repr

structure IsisCircuit where
  idx : Nat
  circType : CircuitType
deriving DecidableEq, Repr

/-- The own system. -/
structure IsisSystem where
  sysid : BitVec 48
  circuits : List IsisCircuit
  /-- the checksum that `fletcher_checksum` writes to an LSP with this header -/
  fletcher : LspHdr → UInt16

/-- The databases of both levels, and what `ack_lsp` has sent. -/
structure IsisLspState where
  lspdb : IsisLevel → LspId → Option IsisLsp
  acks : List (Nat × LspHdr)
  keyed : ∀ level id lsp, lspdb level id = some lsp → lsp.header.lspId = id

variable (flags : Nat → Bool) (circuit : IsisCircuit)

def setFlag : Nat → Bool :=
  Function.update flags circuit.idx true

def clearFlag : Nat → Bool :=
  Function.update flags circuit.idx false

/-- The SSN flag of a circuit that is not a broadcast one. -/
def setSsn : Nat → Bool :=
  if circuit.circType ≠ .broadcast then setFlag flags circuit else flags

section

variable (isis : IsisSystem) (level : IsisLevel) (circuit : IsisCircuit) (hdr : LspHdr)
  (st : IsisLspState)

/-- `lsp_set_all_srmflags` -/
def allSrmflags (i : Nat) : Bool := isis.circuits.any (·.idx = i)

variable (lsp : IsisLsp)

def lspInsert : IsisLspState :=
  { st with
    lspdb := fun lv id =>
      if lv = level ∧ id = lsp.header.lspId then some lsp else st.lspdb lv id
    keyed := by
      intro lv id lsp' hlsp'
      split at hlsp'
      next hkey =>
        rw [← Option.some.inj hlsp', hkey.2]
      · exact st.keyed _ _ _ hlsp' }

def lspIncSeqnum (seqNum : UInt32) : IsisLsp :=
  let newseq := if seqNum = 0 ∨ lsp.header.seqNum > seqNum then lsp.header.seqNum + 1
    else seqNum + 1
  let header := { lsp.header with seqNum := newseq }
  { lsp with header := { header with checksum := isis.fletcher header } }

def lspPurgeNonExist : IsisLspState :=
  lspInsert (if hdr.lspBits &&& 3 = 1 then .l1 else .l2) st
    ⟨{ hdr with remLifetime := 0 }, allSrmflags isis, fun _ => false⟩

/-- What is sent back for an older LSP. -/
def resend : IsisLsp :=
  { lsp with
    srmFlags := setFlag lsp.srmFlags circuit
    ssnFlags := clearFlag lsp.ssnFlags circuit }

/-- An expired LSP, when there is one in the database. -/
def processExpired : IsisLspState :=
  let comp := lspCompare lsp.header hdr.seqNum hdr.checksum hdr.remLifetime
  if hdr.lspId.sysid ≠ isis.sysid then
    match comp with
    | .newer => lspInsert level st ⟨hdr, clearFlag (allSrmflags isis) circuit,
        setSsn (fun _ => false) circuit⟩
    | .equal => lspInsert level st { lsp with
        srmFlags := clearFlag lsp.srmFlags circuit
        ssnFlags := setSsn lsp.ssnFlags circuit }
    | .older => lspInsert level st (resend circuit lsp)
  else if lsp.header.remLifetime ≠ 0 then
    if comp = .newer then
      lspInsert level st { lspIncSeqnum isis lsp hdr.seqNum with srmFlags := allSrmflags isis }
    else lspInsert level st (resend circuit lsp)
  else st

/-- An LSP of this system that has not expired. -/
def processOwn : IsisLspState :=
  match st.lspdb level hdr.lspId with
  | none => lspPurgeNonExist isis hdr st
  | some lsp =>
    let lsp := if hdr.seqNum > lsp.header.seqNum then lspIncSeqnum isis lsp hdr.seqNum else lsp
    lspInsert level st { lsp with srmFlags := allSrmflags isis }

/-- An LSP that is stored: a fragment only if the database has the zero LSP. -/
def storeLsp (ssnFlags : Nat → Bool) : IsisLspState :=
  if hdr.lspId.fragment ≠ 0 ∧ st.lspdb level { hdr.lspId with fragment := 0 } = none then st
  else lspInsert level st ⟨hdr, clearFlag (allSrmflags isis) circuit, setSsn ssnFlags circuit⟩

/-- An LSP of another system that has not expired. -/
def processOther : IsisLspState :=
  match st.lspdb level hdr.lspId with
  | none => storeLsp isis level circuit hdr st fun _ => false
  | some lsp =>
    match lspCompare lsp.header hdr.seqNum hdr.checksum hdr.remLifetime with
    | .newer => storeLsp isis level circuit hdr st lsp.ssnFlags
    | .equal => lspInsert level st
        ⟨hdr, clearFlag lsp.srmFlags circuit, setSsn lsp.ssnFlags circuit⟩
    | .older => lspInsert level st (resend circuit lsp)

def processLsp : IsisLspState :=
  if hdr.remLifetime = 0 then
    match st.lspdb level hdr.lspId with
    | none =>
      if circuit.circType = .p2p then { st with acks := st.acks ++ [(circuit.idx, hdr)] }
      else st
    | some lsp => processExpired isis level circuit hdr st lsp
  else if hdr.lspId.sysid = isis.sysid then processOwn isis level hdr st
  else processOther isis level circuit hdr st

end

structure LspPdu where
  level : IsisLevel
  circuit : IsisCircuit
  hdr : LspHdr

def processLsps (isis : IsisSystem) (st : IsisLspState) (pdus : List LspPdu) : IsisLspState :=
  pdus.foldl (fun st pdu => processLsp isis pdu.level pdu.circuit pdu.hdr st) st

/-! ## The order on instances -/

variable (a b : LspHdr)

def LspNewer : Prop :=
  lspCompare b a.seqNum a.checksum a.remLifetime = .newer

def LspOlder : Prop :=
  lspCompare b a.seqNum a.checksum a.remLifetime = .older

/-- What is compared besides the sequence number. -/
def SameContents : Prop :=
  a.checksum = b.checksum ∧ (a.remLifetime = 0 ↔ b.remLifetime = 0)

instance {a b : LspHdr} : Decidable (SameContents a b) :=
  inferInstanceAs (Decidable (_ ∧ _))

theorem lspCompare_eq :
    lspCompare b a.seqNum a.checksum a.remLifetime
      = if a.seqNum = b.seqNum ∧ SameContents a b then .equal
        else if b.seqNum ≤ a.seqNum then .newer else .older := by
  unfold lspCompare SameContents
  refine if_congr ?_ rfl rfl
  grind

theorem lspNewer_iff {a b : LspHdr} :
    LspNewer a b ↔ b.seqNum ≤ a.seqNum ∧ ¬ (a.seqNum = b.seqNum ∧ SameContents a b) := by
  rw [LspNewer, lspCompare_eq]
  split
  · simp_all
  · split
    · simp_all
    · simp_all

theorem lspOlder_iff {a b : LspHdr} : LspOlder a b ↔ a.seqNum < b.seqNum := by
  rw [LspOlder, lspCompare_eq]
  split
  · simp_all
  · split
    · simp_all
    · simp_all

/-- Two instances that do not differ at one sequence number are ordered by it. -/
theorem lspNewer_of_consistent {a b : LspHdr} (h : a.seqNum = b.seqNum → SameContents a b) :
    LspNewer a b ↔ b.seqNum < a.seqNum := by
  rw [lspNewer_iff]
  constructor
  · rintro ⟨hle, hnt⟩
    rcases UInt32.lt_or_eq_of_le hle with hlt | heq
    · exact hlt
    · exact absurd ⟨heq.symm, h heq.symm⟩ hnt
  · intro hlt
    exact ⟨UInt32.le_of_lt hlt, fun hsm => UInt32.ne_of_lt hlt hsm.1.symm⟩

/-! ## One PDU -/

def storedHdr (st : IsisLspState) (level : IsisLevel) (id : LspId) : Option LspHdr :=
  (st.lspdb level id).map IsisLsp.header

section

variable {isis : IsisSystem} {level lv : IsisLevel} {circuit : IsisCircuit} {hdr x : LspHdr}
  {st : IsisLspState} {id : LspId} {S : Set LspHdr}

theorem storedHdr_lspInsert {lsp : IsisLsp} :
    storedHdr (lspInsert lv st lsp) level id
      = if level = lv ∧ id = lsp.header.lspId then some lsp.header else storedHdr st level id := by
  unfold storedHdr lspInsert
  rw [apply_ite (Option.map IsisLsp.header)]
  rfl

/-- What a PDU leaves for an LSP of another system: the instance that is stored, or its own,
which does not have a lower sequence number. -/
def Forward (hdr x : LspHdr) (y : Option LspHdr) : Prop :=
  y = some x ∨ y = some hdr ∧ hdr.lspId = x.lspId ∧ x.seqNum ≤ hdr.seqNum

variable (hx : storedHdr st level x.lspId = some x)

include hx

theorem forward_insert {lsp' : IsisLsp} (hid : lsp'.header.lspId = hdr.lspId)
    (h : ∀ lsp, st.lspdb lv hdr.lspId = some lsp →
      lsp'.header = lsp.header ∨ lsp'.header = hdr ∧ lsp.header.seqNum ≤ hdr.seqNum) :
    Forward hdr x (storedHdr (lspInsert lv st lsp') level x.lspId) := by
  rw [storedHdr_lspInsert]
  split
  next hk =>
    obtain ⟨rfl, hk⟩ := hk
    rw [hid] at hk
    obtain ⟨lsp, hlsp, rfl⟩ := Option.map_eq_some_iff.mp hx
    rcases h lsp (hk ▸ hlsp) with hh | ⟨hh, hle⟩
    · exact .inl (congrArg some hh)
    · exact .inr ⟨congrArg some hh, hk.symm, hle⟩
  · exact .inl hx

/-- The LSP in the database stays, or it is not newer than the PDU. -/
theorem forward_answer {lsp lsp' : IsisLsp} (hlsp : st.lspdb lv hdr.lspId = some lsp)
    (h : lsp'.header = lsp.header ∨ lsp'.header = hdr ∧ ¬ LspOlder hdr lsp.header) :
    Forward hdr x (storedHdr (lspInsert lv st lsp') level x.lspId) := by
  have hid : lsp'.header.lspId = hdr.lspId := by
    rcases h with h | h
    · rw [h, st.keyed _ _ _ hlsp]
    · rw [h.1]
  refine forward_insert hx hid fun lsp1 hlsp1 => ?_
  cases hlsp.symm.trans hlsp1
  rwa [lspOlder_iff, UInt32.not_lt] at h

theorem storeLsp_forward {ssnFlags : Nat → Bool} (h : ∀ srm ssn, Forward hdr x
      (storedHdr (lspInsert lv st ⟨hdr, srm, ssn⟩) level x.lspId)) :
    Forward hdr x (storedHdr (storeLsp isis lv circuit hdr st ssnFlags) level x.lspId) := by
  unfold storeLsp
  split
  · exact .inl hx
  · exact h _ _

theorem processOther_forward :
    Forward hdr x (storedHdr (processOther isis lv circuit hdr st) level x.lspId) := by
  unfold processOther
  split
  next hno =>
    exact storeLsp_forward hx fun _ _ => forward_insert hx rfl fun lsp hlsp =>
      nomatch hno.symm.trans hlsp
  next lsp hlsp =>
    have hanswer srm ssn (hcomp : ¬ LspOlder hdr lsp.header) :
        Forward hdr x (storedHdr (lspInsert lv st ⟨hdr, srm, ssn⟩) level x.lspId) :=
      forward_answer hx hlsp (.inr ⟨rfl, hcomp⟩)
    split
    next hcomp => exact storeLsp_forward hx fun _ _ => hanswer _ _ (by simp [LspOlder, hcomp])
    next hcomp => exact hanswer _ _ (by simp [LspOlder, hcomp])
    · exact forward_answer hx hlsp (.inl rfl)

variable (ho : x.lspId.sysid ≠ isis.sysid)

include ho

theorem forward_own {lsp' : IsisLsp} (hsys : lsp'.header.lspId.sysid = isis.sysid) :
    Forward hdr x (storedHdr (lspInsert lv st lsp') level x.lspId) := by
  have hk : ¬ (level = lv ∧ x.lspId = lsp'.header.lspId) := fun hk => ho (hk.2 ▸ hsys)
  rw [storedHdr_lspInsert, if_neg hk]
  exact .inl hx

theorem processExpired_forward {lsp : IsisLsp} (hlsp : st.lspdb lv hdr.lspId = some lsp) :
    Forward hdr x (storedHdr (processExpired isis lv circuit hdr st lsp) level x.lspId) := by
  unfold processExpired
  dsimp only
  split
  · split
    next hcomp => exact forward_answer hx hlsp (.inr ⟨rfl, by simp [LspOlder, hcomp]⟩)
    · exact forward_answer hx hlsp (.inl rfl)
    · exact forward_answer hx hlsp (.inl rfl)
  next hsys =>
    have hown : lsp.header.lspId.sysid = isis.sysid := by rw [st.keyed _ _ _ hlsp, not_not.mp hsys]
    split
    · split
      · exact forward_own hx ho hown
      · exact forward_own hx ho hown
    · exact .inl hx

theorem processOwn_forward (hsys : hdr.lspId.sysid = isis.sysid) :
    Forward hdr x (storedHdr (processOwn isis lv hdr st) level x.lspId) := by
  unfold processOwn
  split
  · exact forward_own hx ho hsys
  next lsp hlsp =>
    refine forward_own hx ho ?_
    rw [← hsys, ← st.keyed _ _ _ hlsp]
    dsimp only
    split
    · rfl
    · rfl

theorem processLsp_forward (lv : IsisLevel) (circuit : IsisCircuit) (hdr : LspHdr) :
    Forward hdr x (storedHdr (processLsp isis lv circuit hdr st) level x.lspId) := by
  unfold processLsp
  split
  · split
    · split
      · exact .inl hx
      · exact .inl hx
    next lsp hlsp => exact processExpired_forward hx ho hlsp
  · split
    next hsys => exact processOwn_forward hx ho hsys
    · exact processOther_forward hx

end

/-! ## Runs -/

variable (isis : IsisSystem)

/-- The instances of an LSP are ordered by age, and no LSP of another system in the database is
replaced by an older one. -/
structure LspOrdered (S : Set LspHdr) : Prop where
  antisymm : ∀ a ∈ S, ∀ b ∈ S, a.lspId = b.lspId → (LspNewer a b ↔ LspOlder b a)
  trans : ∀ a ∈ S, ∀ b ∈ S, ∀ c ∈ S, a.lspId = b.lspId → b.lspId = c.lspId →
    LspNewer a b → LspNewer b c → LspNewer a c
  expired : ∀ a ∈ S, ∀ b ∈ S, a.lspId = b.lspId → a.seqNum = b.seqNum → a.remLifetime = 0 →
    b.remLifetime ≠ 0 → LspNewer a b
  run : ∀ (st : IsisLspState) (pdus : List LspPdu) (level : IsisLevel),
    (∀ pdu ∈ pdus, pdu.hdr ∈ S) → ∀ x ∈ S, x.lspId.sysid ≠ isis.sysid →
      storedHdr st level x.lspId = some x →
      ∃ y, storedHdr (processLsps isis st pdus) level x.lspId = some y ∧ ¬ LspNewer x y
        ∧ (x.remLifetime = 0 → y.seqNum = x.seqNum → y.remLifetime = 0)

/-- One sequence number has one contents. -/
def Consistent (S : Set LspHdr) : Prop :=
  ∀ a ∈ S, ∀ b ∈ S, a.lspId = b.lspId → a.seqNum = b.seqNum → SameContents a b

variable {isis} {S : Set LspHdr}

theorem processLsps_forward {level : IsisLevel} (pdus : List LspPdu) :
    ∀ {st : IsisLspState} {x : LspHdr}, (∀ pdu ∈ pdus, pdu.hdr ∈ S) → x ∈ S →
      x.lspId.sysid ≠ isis.sysid → storedHdr st level x.lspId = some x →
      ∃ y ∈ S, storedHdr (processLsps isis st pdus) level x.lspId = some y
        ∧ y.lspId = x.lspId ∧ x.seqNum ≤ y.seqNum := by
  induction pdus with
  | nil =>
    intro st x _ hm _ hx
    exact ⟨x, hm, hx, rfl, UInt32.le_refl _⟩
  | cons pdu pdus ih =>
    intro st x hpdus hm ho hx
    have hrs : ∀ pdu ∈ pdus, pdu.hdr ∈ S := fun p hp => hpdus p (List.mem_cons_of_mem _ hp)
    rcases processLsp_forward hx ho pdu.level pdu.circuit pdu.hdr with
      hkp | ⟨hn, hid, hle⟩
    · exact ih hrs hm ho hkp
    · rw [← hid] at hn ho ⊢
      obtain ⟨y, hy, hsto, hyid, hyle⟩ :=
        ih hrs (hpdus pdu List.mem_cons_self) ho hn
      exact ⟨y, hy, hsto, hyid, UInt32.le_trans hle hyle⟩

theorem Consistent.ordered (h : Consistent S) : LspOrdered isis S where
  antisymm a ha b hb hid := by rw [lspNewer_of_consistent (h a ha b hb hid), lspOlder_iff]
  trans a ha b hb c hc hab hbc hnwr hnwr' := by
    rw [lspNewer_of_consistent (h a ha b hb hab)] at hnwr
    rw [lspNewer_of_consistent (h b hb c hc hbc)] at hnwr'
    rw [lspNewer_of_consistent (h a ha c hc (hab.trans hbc))]
    exact UInt32.lt_trans hnwr' hnwr
  expired a ha b hb hid hsq hz hlv :=
    absurd ((h a ha b hb hid hsq).2.mp hz) hlv
  run st pdus level hpdus x hx ho hsto := by
    obtain ⟨y, hy, hsto', hid, hle⟩ := processLsps_forward pdus hpdus hx ho hsto
    refine ⟨y, hsto', ?_, fun hz hsq => (h y hy x hx hid hsq).2.mpr hz⟩
    rw [lspNewer_of_consistent (h x hx y hy hid.symm)]
    exact UInt32.not_lt.mpr hle

/-- The database is monotone exactly if no sequence number has two contents. -/
theorem lsp_ordered_iff (isis : IsisSystem) (S : Set LspHdr) :
    LspOrdered isis S ↔ Consistent S := by
  refine ⟨fun h a ha b hb hid hseq => ?_, Consistent.ordered⟩
  by_contra hdiffer
  -- each of the two is newer than the other
  have hnewer : LspNewer a b := lspNewer_iff.mpr ⟨UInt32.le_of_eq hseq.symm, fun h => hdiffer h.2⟩
  have holder := lspOlder_iff.mp ((h.antisymm a ha b hb hid).mp hnewer)
  exact UInt32.ne_of_lt holder hseq.symm

/-- A purge, and the instance it has purged. -/
def purgedLsp : LspHdr := ⟨⟨2, 0, 0⟩, 5, 0x1234, 0, 3⟩

def livePdu : LspPdu :=
  ⟨.l1, ⟨0, .p2p⟩, { purgedLsp with remLifetime := 1200 }⟩

/-- The purge is undone. -/
theorem purge_undone :
    let isis : IsisSystem := ⟨1, [⟨0, .p2p⟩], fun _ => 0⟩
    let st := lspInsert .l1 ⟨fun _ _ => none, [], nofun⟩ ⟨purgedLsp, fun _ => false, fun _ => false⟩
    storedHdr st .l1 purgedLsp.lspId = some purgedLsp
      ∧ storedHdr (processLsps isis st [livePdu]) .l1 purgedLsp.lspId = some livePdu.hdr
      ∧ livePdu.hdr.seqNum = purgedLsp.seqNum ∧ livePdu.hdr.remLifetime ≠ 0
      ∧ LspNewer purgedLsp livePdu.hdr ∧ LspNewer livePdu.hdr purgedLsp := by
  refine ⟨rfl, rfl, rfl, by decide, rfl, rfl⟩

end SdnQuagga
