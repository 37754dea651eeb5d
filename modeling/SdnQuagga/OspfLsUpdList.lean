import SdnQuagga.Checksum
import SdnQuagga.OspfPacketExamin

/-!
# The LSAs of an update

`ospf_ls_upd_list_lsa` of `ospfd/ospf_packet.c`: a second walk over the LSAs of an update,
after `ospf_packet_examin` has let it pass. It goes as far as the number of LSAs in the
packet says, and takes those with a right checksum and a type that the neighbor and the area
can have.

The first walk compares the number of LSAs with those in the packet, but not if it is zero.
An update that announces none passes with any number of LSAs, and the second walk takes none
of them.
-/

namespace SdnQuagga

open List

/-! ## The code -/

variable (lsah : List UInt8)

/-- `ospf_lsa_checksum`, from the options on: the two bytes that `fletcher_checksum` writes. -/
def ospfLsaChecksum : List UInt8 :=
  (Checksum.fletcherChecksum (lsah.drop 2) 14).elim [] fun r => (r.1.drop 14).take 2

def isOpaqueLsa (type : UInt8) : Bool := type = 9 ∨ type = 10 ∨ type = 11

/-- An age beyond `MaxAge` is taken as `MaxAge`. -/
def capAge : List UInt8 :=
  if 3600 < wordAt lsah 0 then be16 3600 ++ lsah.drop 2 else lsah

/-- The loop of `ospf_ls_upd_list_lsa`. The neighbor has set `OSPF_OPTION_O` or not, and the
area is a stub or not. -/
def listLsaLoop (optionO stub : Bool) : Nat → List UInt8 → List (List UInt8)
  | 0, _ => []
  | count + 1, s =>
    if s.length < 20 then []
    else
      let length := wordAt s 18
      if s.length < length then []
      else
        let lsah := s.take length
        let lsas := listLsaLoop optionO stub count (s.drop length)
        let type := lsah.getD 3 0
        if (lsah.drop 16).take 2 ≠ ospfLsaChecksum lsah then lsas
        else if type < 1 ∨ 12 ≤ type then lsas
        else if optionO then
          if type = 11 ∧ stub then lsas else capAge lsah :: lsas
        else if isOpaqueLsa type then lsas
        else capAge lsah :: lsas

variable (optionO stub : Bool)

/-- `ospf_ls_upd_list_lsa` on the body of an update; the number of LSAs is kept in 16
bits. -/
def ospfLsUpdListLsa (s : List UInt8) : List (List UInt8) :=
  listLsaLoop optionO stub (UInt16.ofNat (longAt s 0)).toNat (s.drop 4)

/-! ## What an update contains -/

/-- The LSAs that follow each other. -/
def lsasOf (p : List UInt8) : List (List UInt8) :=
  if 20 ≤ wordAt p 18 ∧ wordAt p 18 ≤ p.length then
    p.take (wordAt p 18) :: lsasOf (p.drop (wordAt p 18))
  else []
termination_by p.length
decreasing_by
  rw [length_drop]
  omega

/-- LSAs without gap up to the end, and the first walk finds nothing wrong with any of
them. -/
inductive LsasSound : List UInt8 → Prop where
  | nil : LsasSound []
  | cons {p : List UInt8} : 20 ≤ wordAt p 18 → wordAt p 18 ≤ p.length →
      (ospfLsaExamin 0 p (wordAt p 18) false).ok = true →
      LsasSound (p.drop (wordAt p 18)) → LsasSound p

def ChecksumValid (lsah : List UInt8) : Prop := (lsah.drop 16).take 2 = ospfLsaChecksum lsah

/-- A type of LSA that this neighbor may send into this area. -/
def TypeSupported (type : UInt8) : Prop :=
  1 ≤ type ∧ type < 12 ∧ (isOpaqueLsa type = true → optionO = true) ∧ (type = 11 → stub = false)

/-- What is taken from an update. -/
def LsaTaken (lsah : List UInt8) : Prop :=
  ChecksumValid lsah ∧ TypeSupported optionO stub (lsah.getD 3 0)

instance (optionO stub : Bool) (lsah : List UInt8) : Decidable (LsaTaken optionO stub lsah) := by
  unfold LsaTaken ChecksumValid TypeSupported
  infer_instance

variable {optionO stub : Bool} {behind : UInt8}

theorem lsasOf_nil : lsasOf [] = [] := by
  rw [lsasOf]
  rfl

variable {p : List UInt8}

theorem lsasOf_cons (hh : 20 ≤ wordAt p 18) (hle : wordAt p 18 ≤ p.length) :
    lsasOf p = p.take (wordAt p 18) :: lsasOf (p.drop (wordAt p 18)) := by
  rw [lsasOf, if_pos ⟨hh, hle⟩]

theorem length_lsasOf (h : LsasSound p) : 20 * (lsasOf p).length ≤ p.length := by
  induction h with
  | nil => simp [lsasOf_nil]
  | @cons p hh hle _ _ ih =>
    rw [lsasOf_cons hh hle, length_cons]
    rw [length_drop] at ih
    omega

/-- The first walk accepts sound LSAs, as many as announced unless that is zero. -/
theorem lsaseqExamin_ok_iff {declared counted : Nat} :
    (ospfLsaseqExamin behind p false declared counted).ok = true
      ↔ LsasSound p ∧ (declared = 0 ∨ counted + (lsasOf p).length = declared) := by
  induction hlen : p.length using Nat.strongRecOn generalizing p counted with
  | ind n ih =>
    subst hlen
    unfold ospfLsaseqExamin
    split
    next hz =>
      obtain rfl := length_eq_zero_iff.mp hz
      rw [lsasOf_nil]
      simp [Examined.of, LsasSound.nil]
    next hne =>
      -- What stops the walk is what a sound sequence cannot begin with.
      have hrf (hnt : ¬ (20 ≤ wordAt p 18 ∧ wordAt p 18 ≤ p.length
          ∧ (ospfLsaExamin 0 p (wordAt p 18) false).ok = true)) :
          ¬ (LsasSound p ∧ (declared = 0 ∨ counted + (lsasOf p).length = declared)) := by
        rintro ⟨hsd, -⟩
        cases hsd with
        | nil => exact hne rfl
        | cons hh hle hok _ => exact hnt ⟨hh, hle, hok⟩
      split
      next hsh => exact iff_of_false Bool.false_ne_true (hrf fun h => by omega)
      next hh =>
        dsimp only
        split
        next hsm => exact iff_of_false Bool.false_ne_true (hrf fun h => by omega)
        next hsize =>
          rw [if_neg Bool.false_ne_true]
          split
          next hov => exact iff_of_false Bool.false_ne_true (hrf fun h => by omega)
          next hle =>
            have hbh := @lsaExamin_ok_behind behind p (wordAt p 18) (by omega) (by omega)
            split
            next hok =>
              rw [hbh] at hok
              have hsd : LsasSound p ↔ LsasSound (p.drop (wordAt p 18)) := by
                constructor
                · intro h
                  cases h with
                  | nil => exact (hne rfl).elim
                  | cons _ _ _ hrs => exact hrs
                · exact .cons (by omega) (by omega) hok
              have hlsas : lsasOf p = _ := lsasOf_cons (by omega) (by omega)
              rw [ih _ (by rw [length_drop]; omega) rfl, hsd, hlsas,
                length_cons, Nat.add_assoc, Nat.add_comm 1]
            next hb =>
              rw [hbh] at hb
              exact iff_of_false (hbh ▸ hb) (hrf fun h => hb h.2.2)

theorem listLsaLoop_cons (hh : 20 ≤ wordAt p 18) (hle : wordAt p 18 ≤ p.length) (count : Nat) :
    listLsaLoop optionO stub (count + 1) p = if LsaTaken optionO stub (p.take (wordAt p 18)) then
          capAge (p.take (wordAt p 18)) :: listLsaLoop optionO stub count (p.drop (wordAt p 18))
        else listLsaLoop optionO stub count (p.drop (wordAt p 18)) := by
  rw [listLsaLoop, if_neg (by omega)]
  dsimp only
  rw [if_neg (by omega)]
  generalize p.take (wordAt p 18) = lsah
  generalize listLsaLoop optionO stub count _ = lsas
  generalize hty : lsah.getD 3 0 = type
  have hrng : type < 1 ∨ 12 ≤ type ↔ ¬ (1 ≤ type ∧ type < 12) := by
    rw [not_and_or, UInt8.not_le, UInt8.not_lt]
  by_cases hsu : (lsah.drop 16).take 2 = ospfLsaChecksum lsah
  · rw [if_neg (not_not.mpr hsu)]
    by_cases hin : 1 ≤ type ∧ type < 12
    · rw [if_neg (mt hrng.mp (not_not.mpr hin))]
      have htak : LsaTaken optionO stub lsah
          ↔ (isOpaqueLsa type = true → optionO = true) ∧ (type = 11 → stub = false) := by
        rw [LsaTaken, TypeSupported, hty]
        exact ⟨fun h => h.2.2.2, fun h => ⟨hsu, hin.1, hin.2, h⟩⟩
      simp only [htak]
      cases optionO with
      | true => by_cases h11 : type = 11 <;> cases stub <;> simp [h11]
      | false =>
        have heleven : type = 11 → isOpaqueLsa type = true := by
          rintro rfl
          rfl
        cases hop : isOpaqueLsa type with
        | true => simp
        | false =>
          have h11 : type ≠ 11 := fun h => by simp [heleven h] at hop
          simp [h11]
    · have hlf : ¬ LsaTaken optionO stub lsah := by
        rintro ⟨-, h1, h12, -⟩
        rw [hty] at h1 h12
        exact hin ⟨h1, h12⟩
      rw [if_pos (hrng.mpr hin), if_neg hlf]
  · rw [if_pos hsu, if_neg fun h => hsu h.1]

/-- The second walk takes from the LSAs it gets to those that it may take. -/
theorem listLsaLoop_eq (h : LsasSound p) (count : Nat) :
    listLsaLoop optionO stub count p
      = (((lsasOf p).take count).filter fun lsah => LsaTaken optionO stub lsah).map capAge := by
  induction h generalizing count with
  | nil =>
    rw [lsasOf_nil]
    cases count <;> rfl
  | @cons p hh hle _ _ ih =>
    cases count with
    | zero => rfl
    | succ count =>
      rw [listLsaLoop_cons hh hle, lsasOf_cons hh hle, take_succ_cons, filter_cons, ih]
      split
      next htak => simp [htak]
      next hlf => simp [hlf]

/-! ## An update as a whole -/

/-- From the update exactly those LSAs are taken that may be taken, in their order, and with
the others they are as many as the packet announces. -/
structure UpdComplete (optionO stub : Bool) (wire : List UInt8) : Prop where
  taken : ospfLsUpdListLsa optionO stub ((wire.take (declaredLength wire)).drop 24)
    = ((lsasOf (updLsas wire)).filter fun lsah => LsaTaken optionO stub lsah).map capAge
  counted : (ospfLsUpdListLsa optionO stub ((wire.take (declaredLength wire)).drop 24)).length
      + ((lsasOf (updLsas wire)).filter fun lsah => ¬ LsaTaken optionO stub lsah).length
    = longAt wire 24

/-- Nothing is read outside of the declared length, and an update that is accepted is
taken completely. -/
def UpdProcessed (behind : UInt8) (optionO stub : Bool) (wire : List UInt8) : Prop :=
  (ospfPacketExamin behind wire).inside = true
    ∧ ((ospfPacketExamin behind wire).ok = true → wire.getD 1 0 = 4 → UpdComplete optionO stub wire)

/-- An update as large as it declares does not break off within a link, and has no LSAs if
it announces none. -/
def UpdPlain (wire : List UInt8) : Prop :=
  UpdSized wire → ¬ LsasCutOff (updLsas wire)
    ∧ (longAt wire 24 = 0 → LsasSound (updLsas wire) → updLsas wire = [])

theorem wordAt_lt (p : List UInt8) (offset : Nat) : wordAt p offset < 65536 := by
  have hlt := ofBE_lt ((p.drop offset).take 2)
  have hpow : 256 ^ ((p.drop offset).take 2).length ≤ 256 ^ 2 :=
    Nat.pow_le_pow_right (by omega) (length_take_le 2 _)
  unfold wordAt
  omega

theorem length_filter_not {α : Type} (l : List α) (p : α → Prop) [DecidablePred p] :
    (l.filter fun a => p a).length + (l.filter fun a => ¬ p a).length = l.length := by
  induction l with
  | nil => rfl
  | cons a l ih =>
    by_cases h : p a
    · simp [h] at ih ⊢
      omega
    · simp [h] at ih ⊢
      omega

theorem lsasOf_eq_nil (h : LsasSound p) : lsasOf p = [] ↔ p = [] := by
  cases h with
  | nil => simp [lsasOf_nil]
  | cons hh hle _ _ =>
    rw [lsasOf_cons hh hle]
    refine iff_of_false (cons_ne_nil _ _) ?_
    rintro rfl
    simp at hle
    omega

/-- The second walk starts where the first one has read the number of LSAs. -/
theorem listLsa_sized {wire : List UInt8} (h : UpdSized wire) :
    ospfLsUpdListLsa optionO stub ((wire.take (declaredLength wire)).drop 24)
      = listLsaLoop optionO stub (UInt16.ofNat (longAt wire 24)).toNat (updLsas wire) := by
  have hdec := h.declared
  have hct : longAt ((wire.take (declaredLength wire)).drop 24) 0 = longAt wire 24 := by
    rw [longAt, longAt, drop_zero, drop_take, take_take, Nat.min_eq_left (by omega)]
  rw [ospfLsUpdListLsa, hct, drop_drop, updLsas]

/-- A sound update is taken completely unless it hides its LSAs behind a zero. -/
theorem updComplete_iff {wire : List UInt8} (hsz : UpdSized wire) (hsd : LsasSound (updLsas wire))
    (hct : longAt wire 24 = 0 ∨ (lsasOf (updLsas wire)).length = longAt wire 24) :
    UpdComplete optionO stub wire ↔ (longAt wire 24 = 0 → updLsas wire = []) := by
  have hli := @listLsa_sized optionO stub wire hsz
  rw [listLsaLoop_eq hsd] at hli
  constructor
  · rintro ⟨htak, hcn⟩ hz
    rw [htak, length_map, length_filter_not, hz] at hcn
    exact (lsasOf_eq_nil hsd).mp (length_eq_zero_iff.mp hcn)
  · intro hpln
    have hmy : (lsasOf (updLsas wire)).length = longAt wire 24 := by
      rcases hct with hz | hmy
      · rw [hpln hz, lsasOf_nil, hz]
        rfl
      · exact hmy
    -- Each LSA has a header, so that 16 bits are enough for their number.
    have hfew : longAt wire 24 < 65536 := by
      have hhds := length_lsasOf hsd
      have hbd : (updLsas wire).length ≤ declaredLength wire := by
        rw [updLsas, length_drop, length_take]
        omega
      have hwo := wordAt_lt wire 2
      unfold declaredLength at hbd
      omega
    have hal : (UInt16.ofNat (longAt wire 24)).toNat = (lsasOf (updLsas wire)).length := by
      rw [UInt16.toNat_ofNat', Nat.mod_eq_of_lt hfew, hmy]
    rw [hal, take_length] at hli
    refine ⟨hli, ?_⟩
    rw [hli, length_map, length_filter_not, hmy]

/-- Every LS Update is processed safely and completely if and only if it is plain. -/
theorem update_processed_iff_plain (behind : UInt8) (optionO stub : Bool) (wire : List UInt8) :
    UpdProcessed behind optionO stub wire ↔ UpdPlain wire := by
  unfold UpdProcessed UpdPlain
  rw [packetExamin_inside_iff]
  by_cases hsized : UpdSized wire
  · rw [packetExamin_upd hsized, lsaseqExamin_ok_iff, Nat.zero_add]
    constructor
    · rintro ⟨hcut, hcomplete⟩ -
      refine ⟨fun h => hcut ⟨hsized, h⟩, fun hzero hsound => ?_⟩
      exact (updComplete_iff hsized hsound (.inl hzero)).mp
        (hcomplete ⟨hsound, .inl hzero⟩ hsized.type) hzero
    · intro h
      obtain ⟨hcut, hplain⟩ := h hsized
      refine ⟨fun h => hcut h.2, fun ⟨hsound, hcount⟩ _ => ?_⟩
      exact (updComplete_iff hsized hsound hcount).mpr fun hzero => hplain hzero hsound
  · refine iff_of_true ⟨fun h => hsized h.1, fun hok htype => ?_⟩ fun h => (hsized h).elim
    rw [(packetExamin_not_sized hsized).2 htype] at hok
    cases hok

/-- A router LSA without links. -/
def linklessLsa : List UInt8 :=
  [0, 1, 2, 1, 10, 0, 0, 1, 10, 0, 0, 1, 128, 0, 0, 1, 146, 186, 0, 24, 0, 0, 0, 0]

/-- A router LSA that ends with four bytes of a link. -/
def cutOffLsa : List UInt8 :=
  [0, 1, 2, 1, 10, 0, 0, 1, 10, 0, 0, 1, 128, 0, 0, 1, 0, 0, 0, 28, 0, 0, 0, 1, 10, 0, 0, 2]

/-- An update without authentication. -/
def plainUpd (length count : UInt8) (lsas : List UInt8) : List UInt8 :=
  [2, 4, 0, length, 10, 0, 0, 1, 0, 0, 0, 0, 0, 0, 0, 0, 0, 0, 0, 0, 0, 0, 0, 0, 0, 0, 0, count]
    ++ lsas

theorem linklessLsa_taken : LsaTaken true false linklessLsa := by
  refine ⟨?_, by decide, by decide, fun _ => rfl, fun h => by cases h⟩
  unfold ChecksumValid ospfLsaChecksum Checksum.fletcherChecksum Checksum.fletcherLoop
    Checksum.fletcherLoop
  decide

/-- One update makes the first walk read behind it, and another one loses its only LSA. -/
theorem cut_off_read_and_hidden_lost :
    (¬ UpdProcessed 0 true false (plainUpd 56 1 cutOffLsa)
      ∧ (ospfPacketExamin 0 (plainUpd 56 1 cutOffLsa)).inside = false)
    ∧ ¬ UpdProcessed 0 true false (plainUpd 52 0 linklessLsa)
      ∧ (ospfPacketExamin 0 (plainUpd 52 0 linklessLsa)).ok = true ∧ LsaTaken true false linklessLsa
      ∧ lsasOf (updLsas (plainUpd 52 0 linklessLsa)) = [linklessLsa]
      ∧ ospfLsUpdListLsa true false ((plainUpd 52 0 linklessLsa).drop 24) = [] := by
  have houtside : (ospfPacketExamin 0 (plainUpd 56 1 cutOffLsa)).inside = false := by
    have hlsas : updLsas (plainUpd 56 1 cutOffLsa) = cutOffLsa := by decide
    have hcut : LsasCutOff cutOffLsa :=
      .here (by decide) rfl (by decide) (.here (by decide) (by decide))
    refine Bool.eq_false_of_not_eq_true fun hinside => ?_
    refine (packetExamin_inside_iff _).mp hinside ⟨⟨rfl, rfl, ?_, ?_, ?_⟩, hlsas ▸ hcut⟩
    all_goals decide
  have hsized : UpdSized (plainUpd 52 0 linklessLsa) := ⟨rfl, rfl, by decide, by decide, by decide⟩
  have hlsas : updLsas (plainUpd 52 0 linklessLsa) = linklessLsa := by decide
  have hsound : LsasSound linklessLsa := by
    refine .cons (by decide) (by decide) ?_ .nil
    rw [lsaExamin_router rfl, if_neg (by decide)]
    unfold ospfRouterLsaLinksExamin
    decide
  have hone : lsasOf linklessLsa = [linklessLsa] := by
    have hlength : wordAt linklessLsa 18 = linklessLsa.length := by decide
    rw [lsasOf_cons (by decide) (by decide), hlength, take_length, drop_length, lsasOf_nil]
  have hok : (ospfPacketExamin 0 (plainUpd 52 0 linklessLsa)).ok = true := by
    rw [packetExamin_upd hsized, lsaseqExamin_ok_iff, hlsas]
    exact ⟨hsound, .inl rfl⟩
  refine ⟨⟨fun h => ?_, houtside⟩, fun h => ?_, hok, linklessLsa_taken, hlsas ▸ hone, rfl⟩
  · rw [h.1] at houtside
    cases houtside
  · have hcounted := (h.2 hok rfl).counted
    rw [(h.2 hok rfl).taken, length_map, length_filter_not, hlsas, hone] at hcounted
    exact absurd hcounted (by decide)

end SdnQuagga
