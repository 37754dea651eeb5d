import Mathlib.Tactic.Ring

/-!
# Which instance of an OSPFv3 LSA is more recent

`ospf6_lsa_compare` of `ospf6d/ospf6_lsa.c`, and `ospf6_receive_lsa` of
`ospf6d/ospf6_flood.c`, which installs the received instance, takes it as an acknowledgment,
or sends the database copy back.

Between two instances with one sequence number the comparison looks at the checksums. It
answers that the one with the larger checksum is more recent, but to the question asked the
other way round it answers that they are the same. `recencyAgrees_iff` says that this is the
only place where the two answers do not fit. `Newer6` is the comparison without the slip.
-/

namespace SdnQuagga

open Function

/-! ## The code -/

structure Ospf6LsaKey where
  type : UInt16
  id : UInt32
  advRouter : UInt32
deriving DecidableEq, Repr

/-- `struct ospf6_lsa`, with the fields of the header in host order. Times are in
microseconds. -/
structure Ospf6Lsa (β : Type) where
  key : Ospf6LsaKey
  age : UInt16
  seqnum : UInt32
  checksum : UInt16
  body : β
  birth : Int
  installed : Int
deriving DecidableEq, Repr

def ospf6Maxage : Nat := 3600
def ospf6MaxAgeDiff : Nat := 900
def ospf6MaxSequenceNumber : UInt32 := 0x7fffffff

/-- The cast to `int`. -/
def signed32 (w : UInt32) : Int :=
  if w.toNat < 2 ^ 31 then w.toNat else w.toNat - 2 ^ 32

variable {β : Type} (now : Int)

/-- `ospf6_lsa_age_current`, which also writes the age to the header. -/
def ospf6LsaAgeCurrent (lsa : Ospf6Lsa β) : Nat :=
  if ospf6Maxage ≤ lsa.age.toNat then ospf6Maxage
  else
    let ulage := ((now / 1000000 - lsa.birth / 1000000) % 2 ^ 32).toNat
    if ospf6Maxage < ulage then ospf6Maxage else ulage

/-- It is -1 if `a` is more recent, and 1 if `b` is. -/
def ospf6LsaCompare (a b : Ospf6Lsa β) : Int :=
  if signed32 a.seqnum > signed32 b.seqnum then -1
  else if signed32 a.seqnum < signed32 b.seqnum then 1
  else if a.checksum > b.checksum then -1
  else if a.checksum < b.checksum then 0
  else
    let agea := ospf6LsaAgeCurrent now a
    let ageb := ospf6LsaAgeCurrent now b
    if agea = ospf6Maxage ∧ ageb ≠ ospf6Maxage then -1
    else if agea ≠ ospf6Maxage ∧ ageb = ospf6Maxage then 1
    else if agea > ageb ∧ agea - ageb ≥ ospf6MaxAgeDiff then 1
    else if agea < ageb ∧ ageb - agea ≥ ospf6MaxAgeDiff then -1
    else 0

/-- What else is read when an LSA is received. -/
structure Ospf6Context (β : Type) where
  /-- `ospf6_lsa_checksum` -/
  lsaChecksum : Ospf6Lsa β → UInt16
  stub : Bool
  /-- some neighbor is in state Exchange or Loading -/
  exchanging : Bool
  /-- on the request list of the neighbor that sends -/
  requested : Ospf6LsaKey → Bool
  /-- the interface is in state BDR -/
  bdr : Bool
  /-- the neighbor that sends is the designated router -/
  fromDr : Bool

/-- The database, the retransmission list of the neighbor that sends, and the LSAs that wait
to be acknowledged or sent back. -/
structure Ospf6Lists (β : Type) where
  lsdb : Ospf6LsaKey → Option (Ospf6Lsa β)
  retransList : Ospf6LsaKey → Option (Ospf6Lsa β)
  direct : List (Ospf6Lsa β)
  delayed : List (Ospf6Lsa β)
  lsupdateList : List (Ospf6Lsa β)

/-- How the LSA is dealt with. -/
inductive Ospf6Verdict where
  | discard
  | install
  | badLsReq
  | same
  | older
deriving DecidableEq, Repr

variable (ctx : Ospf6Context β) (lsa : Ospf6Lsa β)

/-- `ospf6_acknowledge_lsa`. `OSPF6_LSA_FLOODBACK` is never set. -/
def ospf6AcknowledgeLsa
    (moreRecent duplicate impliedack : Bool) (st : Ospf6Lists β) : Ospf6Lists β :=
  if moreRecent then
    if ctx.bdr && !ctx.fromDr then st else { st with delayed := lsa :: st.delayed }
  else if duplicate && impliedack then
    if ctx.bdr && ctx.fromDr then { st with delayed := lsa :: st.delayed } else st
  else if duplicate then { st with direct := lsa :: st.direct }
  else st

def ospf6LsaScope (type : UInt16) : UInt16 := type &&& 0x6000

/-- `ospf6_install_lsa`; `ospf6_flood_clear` takes the old instance off the list. -/
def ospf6InstallLsa (st : Ospf6Lists β) : Ospf6Lists β where
  lsdb := update st.lsdb lsa.key (some { lsa with installed := now })
  retransList :=
    if (st.lsdb lsa.key).isSome then update st.retransList lsa.key none
    else st.retransList
  direct := st.direct
  delayed := st.delayed
  lsupdateList := st.lsupdateList

/-- `ospf6_receive_lsa` when there is a database copy that is as recent or more recent. -/
def ospf6ReceiveKnown (new old : Ospf6Lsa β) (st : Ospf6Lists β) : Ospf6Verdict × Ospf6Lists β :=
  if ctx.requested new.key then (.badLsReq, st)
  else if ospf6LsaCompare now new old = 0 then
    let impliedack := (st.retransList new.key).isSome
    (.same, ospf6AcknowledgeLsa ctx new false (new.seqnum = old.seqnum) impliedack
      { st with retransList := update st.retransList new.key none })
  else if ospf6LsaAgeCurrent now old = ospf6Maxage ∧ old.seqnum = ospf6MaxSequenceNumber then
    (.discard, st)
  else (.older, { st with lsupdateList := old :: st.lsupdateList })

def ospf6ReceiveLsa (new : Ospf6Lsa β) (st : Ospf6Lists β) : Ospf6Verdict × Ospf6Lists β :=
  if ctx.lsaChecksum new ≠ new.checksum then (.discard, st)
  else if ctx.stub = true ∧ ospf6LsaScope new.key.type = 0x4000 then (.discard, st)
  else if ospf6LsaScope new.key.type = 0x6000 then (.discard, st)
  else
    match st.lsdb new.key with
    | none =>
      if ospf6LsaAgeCurrent now new = ospf6Maxage ∧ ctx.exchanging = false then
        (.discard, { st with direct := new :: st.direct })
      else
        (.install, ospf6AcknowledgeLsa ctx new true false false (ospf6InstallLsa now new st))
    | some old =>
      if ospf6LsaCompare now new old < 0 then
        -- MinLSArrival
        if (now - old.installed) / 1000000 < 1 then (.discard, st)
        else
          (.install, ospf6AcknowledgeLsa ctx new true (new.seqnum = old.seqnum) false
            (ospf6InstallLsa now new st))
      else ospf6ReceiveKnown now ctx new old st

/-! ## The order -/

/-- The first instance is more recent than the second. -/
def Newer6 (a b : Ospf6Lsa β) : Prop :=
  signed32 b.seqnum < signed32 a.seqnum ∨ signed32 b.seqnum = signed32 a.seqnum ∧
      (b.checksum.toNat < a.checksum.toNat ∨ b.checksum.toNat = a.checksum.toNat ∧
        ospf6LsaAgeCurrent now b ≠ ospf6Maxage ∧ (ospf6LsaAgeCurrent now a = ospf6Maxage ∨
            ospf6LsaAgeCurrent now a + ospf6MaxAgeDiff ≤ ospf6LsaAgeCurrent now b))

section

variable {now : Int} {a b c : Ospf6Lsa β}

theorem ageCurrent_le (now : Int) (lsa : Ospf6Lsa β) :
    ospf6LsaAgeCurrent now lsa ≤ ospf6Maxage := by
  unfold ospf6LsaAgeCurrent
  dsimp only
  split_ifs with h h'
  · exact Nat.le_refl _
  · exact Nat.le_refl _
  · exact Nat.not_lt.mp h'

/-- Sequence numbers first, then checksums, then the ages. -/
theorem lex_trans {s1 s2 s3 : Int} {c1 c2 c3 : Nat} {p q r : Prop} (hage : p → q → r)
    (h : s2 < s1 ∨ s2 = s1 ∧ (c2 < c1 ∨ c2 = c1 ∧ p))
    (h' : s3 < s2 ∨ s3 = s2 ∧ (c3 < c2 ∨ c3 = c2 ∧ q)) :
    s3 < s1 ∨ s3 = s1 ∧ (c3 < c1 ∨ c3 = c1 ∧ r) := by
  rcases h with hsq | ⟨hsq, hsu | ⟨hsu, hp⟩⟩
  · rcases h' with hsq' | ⟨hsq', -⟩ <;> exact .inl (by omega)
  · rcases h' with hsq' | ⟨hsq', hsu' | ⟨hsu', -⟩⟩
    · exact .inl (by omega)
    · exact .inr ⟨by omega, .inl (by omega)⟩
    · exact .inr ⟨by omega, .inl (by omega)⟩
  · rcases h' with hsq' | ⟨hsq', hsu' | ⟨hsu', hq⟩⟩
    · exact .inl (by omega)
    · exact .inr ⟨by omega, .inl (by omega)⟩
    · exact .inr ⟨by omega, .inr ⟨by omega, hage hp hq⟩⟩

theorem Newer6.trans (h : Newer6 now a b) (h' : Newer6 now b c) : Newer6 now a c := by
  refine lex_trans (fun ⟨hmx, hage⟩ ⟨hmx', hage'⟩ => ⟨hmx', ?_⟩) h h'
  rcases hage' with hb | hdf'
  · exact (hmx hb).elim
  · rcases hage with ha | hdf
    · exact .inl ha
    · exact .inr (by omega)

theorem compare_neg_one : ospf6LsaCompare now a b = -1 ↔ Newer6 now a b := by
  have ha := ageCurrent_le now a
  have hb := ageCurrent_le now b
  unfold ospf6LsaCompare Newer6 ospf6MaxAgeDiff
  unfold ospf6Maxage at ha hb ⊢
  simp only [gt_iff_lt, UInt16.lt_iff_toNat_lt]
  split_ifs <;> constructor <;> intro h <;> first | exact h.elim | omega

theorem signed32_inj {v w : UInt32} : signed32 v = signed32 w ↔ v = w := by
  refine ⟨fun h => UInt32.toNat_inj.mp ?_, congrArg _⟩
  have hv := v.toNat_lt
  have hw := w.toNat_lt
  unfold signed32 at h
  split_ifs at h <;> omega

/-- The answer 1 is only given for a sequence number or an age. -/
theorem compare_one : ospf6LsaCompare now a b = 1 ↔
    Newer6 now b a ∧ (a.seqnum ≠ b.seqnum ∨ a.checksum = b.checksum) := by
  have ha := ageCurrent_le now a
  have hb := ageCurrent_le now b
  rw [Ne, ← signed32_inj, ← UInt16.toNat_inj]
  unfold ospf6LsaCompare Newer6 ospf6MaxAgeDiff
  unfold ospf6Maxage at ha hb ⊢
  simp only [gt_iff_lt, UInt16.lt_iff_toNat_lt]
  split_ifs <;> constructor <;> intro h <;> first | exact h.elim | omega

theorem Newer6.asymm (h : Newer6 now a b) : ¬ Newer6 now b a := by
  intro h'
  have hsf := h.trans h'
  have ha := ageCurrent_le now a
  unfold Newer6 ospf6MaxAgeDiff at hsf
  unfold ospf6Maxage at ha hsf
  omega

/-- Both ends give answers that fit. -/
def RecencyAgrees (now : Int) (a b : Ospf6Lsa β) : Prop :=
  (ospf6LsaCompare now a b = -1 ↔ ospf6LsaCompare now b a = 1)
    ∧ (ospf6LsaCompare now b a = -1 ↔ ospf6LsaCompare now a b = 1)

/-- One of two instances is more recent, unless they differ in the age only. -/
theorem newer6_total (h : a.seqnum ≠ b.seqnum ∨ a.checksum ≠ b.checksum) :
    Newer6 now a b ∨ Newer6 now b a := by
  unfold Newer6
  rw [Ne, Ne, ← signed32_inj, ← UInt16.toNat_inj] at h
  omega

theorem recencyAgrees_iff :
    RecencyAgrees now a b ↔ a.seqnum ≠ b.seqnum ∨ a.checksum = b.checksum := by
  have hsym : (b.seqnum ≠ a.seqnum ∨ b.checksum = a.checksum)
      ↔ (a.seqnum ≠ b.seqnum ∨ a.checksum = b.checksum) := by rw [ne_comm, eq_comm]
  unfold RecencyAgrees
  rw [compare_neg_one, compare_one, compare_neg_one, compare_one, hsym]
  refine ⟨fun ⟨hab, hba⟩ => ?_, fun h => ⟨⟨fun hn => ⟨hn, h⟩, And.left⟩,
    ⟨fun hn => ⟨hn, h⟩, And.left⟩⟩⟩
  by_cases h : a.seqnum ≠ b.seqnum ∨ a.checksum = b.checksum
  · exact h
  · obtain ⟨-, hsu⟩ := not_or.mp h
    rcases @newer6_total β now a b (.inr hsu) with hn | hn
    · exact (hab.mp hn).2
    · exact (hba.mp hn).2

theorem compare_values (now : Int) (a b : Ospf6Lsa β) :
    ospf6LsaCompare now a b = -1 ∨ ospf6LsaCompare now a b = 0 ∨ ospf6LsaCompare now a b = 1 := by
  unfold ospf6LsaCompare
  dsimp only
  split_ifs <;> omega

theorem compare_zero : ospf6LsaCompare now a b = 0 ↔
    ¬ Newer6 now a b ∧ ¬ ospf6LsaCompare now a b = 1 := by
  rw [← compare_neg_one]
  rcases compare_values now a b with h | h | h <;> rw [h] <;> decide

/-- Two instances that are the same for one end are the same for the other, if their
checksums are. -/
theorem compare_zero_swap (h : ospf6LsaCompare now a b = 0) :
    ospf6LsaCompare now b a = 0 ↔ a.checksum = b.checksum := by
  obtain ⟨hab, hone⟩ := compare_zero.mp h
  refine ⟨fun hz => ?_, fun hsu => ?_⟩
  · by_contra hsu
    rcases @newer6_total β now a b (.inr hsu) with hn | hn
    · exact hab hn
    · exact (compare_zero.mp hz).1 hn
  · have hag := (@recencyAgrees_iff β now a b).mpr (.inr hsu)
    refine compare_zero.mpr ⟨fun hn => hone (hag.2.mp (compare_neg_one.mpr hn)), fun hn => ?_⟩
    exact hab (compare_neg_one.mp (hag.1.mpr hn))

end

/-! ## What the flooding makes of it -/

section

variable {now : Int} {ctx : Ospf6Context β} {a b : Ospf6Lsa β} {st : Ospf6Lists β}

@[simp] theorem acknowledge_lsdb (lsa : Ospf6Lsa β) (moreRecent duplicate impliedack : Bool)
    (st : Ospf6Lists β) :
    (ospf6AcknowledgeLsa ctx lsa moreRecent duplicate impliedack st).lsdb = st.lsdb := by
  unfold ospf6AcknowledgeLsa
  split_ifs <;> rfl

/-- An instance is only installed over a database copy that is less recent. -/
theorem receive_lsdb (h : st.lsdb a.key = some b) :
    (ospf6ReceiveLsa now ctx a st).2.lsdb = st.lsdb ∨ ospf6LsaCompare now a b = -1
        ∧ (ospf6ReceiveLsa now ctx a st).2.lsdb
          = update st.lsdb a.key (some { a with installed := now }) := by
  unfold ospf6ReceiveLsa
  rw [h]
  dsimp only
  split_ifs with h1 h2 h3 hless hsoon
  · exact .inl rfl
  · exact .inl rfl
  · exact .inl rfl
  · exact .inl rfl
  · refine .inr ⟨?_, acknowledge_lsdb _ _ _ _ _⟩
    rcases compare_values now a b with hv | hv | hv <;> omega
  · unfold ospf6ReceiveKnown
    split_ifs
    · exact .inl rfl
    · exact .inl (acknowledge_lsdb _ _ _ _ _)
    · exact .inl rfl
    · exact .inl rfl

theorem receive_same (h : st.lsdb a.key = some b)
    (hsm : (ospf6ReceiveLsa now ctx a st).1 = .same) : ospf6LsaCompare now a b = 0 := by
  unfold ospf6ReceiveLsa at hsm
  rw [h] at hsm
  dsimp only at hsm
  unfold ospf6ReceiveKnown at hsm
  split_ifs at hsm with h1 h2 h3 hless hsoon hreq hz
  exact hz

/-- The order, and what it is used for. The two ends agree unless only the checksums tell
which instance is more recent; a database copy is never replaced by a less recent instance. -/
theorem compare_order_iff (now : Int) (a b c : Ospf6Lsa β) (ctx : Ospf6Context β)
    (st : Ospf6Lists β) (h : st.lsdb a.key = some b) :
    (RecencyAgrees now a b ↔ a.seqnum ≠ b.seqnum ∨ a.checksum = b.checksum)
      ∧ (ospf6LsaCompare now a b = -1 → ospf6LsaCompare now b c = -1 → ospf6LsaCompare now a c = -1)
      ∧ ((ospf6ReceiveLsa now ctx a st).1 = .same →
        (ospf6LsaCompare now b a = 0 ↔ a.checksum = b.checksum))
      ∧ ((ospf6ReceiveLsa now ctx a st).2.lsdb a.key ≠ some b → ospf6LsaCompare now b a ≠ -1) := by
  refine ⟨recencyAgrees_iff, fun hab hbc => ?_, fun hsame => ?_, fun hchanged => ?_⟩
  · exact compare_neg_one.mpr ((compare_neg_one.mp hab).trans (compare_neg_one.mp hbc))
  · exact compare_zero_swap (receive_same h hsame)
  · rcases @receive_lsdb β now ctx a b st h with hkept | ⟨hnewer, -⟩
    · rw [hkept] at hchanged
      exact (hchanged h).elim
    · intro holder
      exact (compare_neg_one.mp hnewer).asymm (compare_neg_one.mp holder)

end

/-- A network LSA with this sequence number and checksum. -/
def networkInstance (seqnum : UInt32) (checksum : UInt16) : Ospf6Lsa Unit :=
  ⟨⟨0x2002, 1, 1⟩, 1, seqnum, checksum, (), 0, 0⟩

/-- A router whose database and retransmission list hold one instance. -/
def holding (lsa : Ospf6Lsa Unit) : Ospf6Lists Unit where
  lsdb := update (fun _ => none) lsa.key (some lsa)
  retransList := update (fun _ => none) lsa.key (some lsa)
  direct := []
  delayed := []
  lsupdateList := []

/-- A context that takes the checksum for right. -/
def plainContext : Ospf6Context Unit :=
  ⟨Ospf6Lsa.checksum, false, false, fun _ => false, false, false⟩

theorem compare_order_iff_holding :
    (holding (networkInstance 2 5)).lsdb (networkInstance 3 4).key = some (networkInstance 2 5)
      ∧ (RecencyAgrees 0 (networkInstance 3 4) (networkInstance 2 5)
        ↔ (3 : UInt32) ≠ 2 ∨ (4 : UInt16) = 5) :=
  ⟨rfl, (compare_order_iff 0 (networkInstance 3 4) (networkInstance 2 5) (networkInstance 1 1)
    plainContext (holding (networkInstance 2 5)) rfl).1⟩

/-- A neighbor sends an instance with the smaller checksum. It is taken as an acknowledgment
of the database copy, which goes off the retransmission list, and the neighbor keeps what
it has. -/
theorem smaller_checksum_acknowledges :
    ospf6LsaCompare 0 (networkInstance 2 4) (networkInstance 2 5) = 0
      ∧ ospf6LsaCompare 0 (networkInstance 2 5) (networkInstance 2 4) = -1
      ∧ (ospf6ReceiveLsa 0 plainContext (networkInstance 2 4) (holding (networkInstance 2 5))).1
        = .same ∧ (ospf6ReceiveLsa 0 plainContext (networkInstance 2 4)
        (holding (networkInstance 2 5))).2.retransList (networkInstance 2 5).key = none := by
  decide

end SdnQuagga
