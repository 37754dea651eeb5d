import SdnQuagga.BigEndian
import Mathlib.Data.List.GetD

/-!
# The first look at an OSPF packet

`ospf_packet_examin` of `ospfd/ospf_packet.c` and what it calls: it checks that the parts of
a packet have their sizes before anything else looks at them. A pointer into the packet is
what is left of the packet behind it, as long as its header declares. A read behind the end
gives a byte that is not known, and `Examined.inside` says that there was none.

There is one place where that happens. The walk over the links of a router LSA reads the
number of TOS metrics of a link before it checks that there are as many bytes. The LSA is
refused then, whatever was read.
-/

namespace SdnQuagga

open List

/-! ## The code -/

/-- `MSG_OK` or `MSG_NG`, and whether only bytes of the header and of the declared length
were read. -/
structure Examined where
  ok : Bool
  inside : Bool
deriving DecidableEq, Repr

/-- Nothing was read outside. -/
def Examined.of (ok : Bool) : Examined := ⟨ok, true⟩

/-- The 16-bit word at an offset, in host order. -/
def wordAt (p : List UInt8) (offset : Nat) : Nat := ofBE ((p.drop offset).take 2)

/-- The 32-bit word at an offset, in host order. -/
def longAt (p : List UInt8) (offset : Nat) : Nat := ofBE ((p.drop offset).take 4)

variable (behind : UInt8)

/-- `OSPF_ROUTER_LSA_LINK_SIZE + 4 * link->m[0].tos_count`. -/
def linkLength (link : List UInt8) : Nat := 12 + 4 * (link.getD 9 behind).toNat

def ospfRouterLsaLinksExamin (link : List UInt8)
    (linkbytes numLinks countedLinks : Nat) : Examined :=
  if linkbytes = 0 then .of (countedLinks = numLinks)
  else
    let inside : Bool := 9 < link.length
    let thislinklen := linkLength behind link
    if linkbytes < thislinklen then ⟨false, inside⟩
    else
      let rest := ospfRouterLsaLinksExamin (link.drop thislinklen)
        (linkbytes - thislinklen) numLinks (countedLinks + 1)
      ⟨rest.ok, inside && rest.inside⟩
termination_by linkbytes
decreasing_by
  unfold linkLength
  omega

def ospfLsaMinlen : UInt8 → Nat
  | 1 => 4
  | 2 => 8
  | 3 => 8
  | 4 => 8
  | 5 => 16
  | 7 => 16
  | _ => 0

def ospfLsaExamin (lsah : List UInt8) (lsalen : Nat) (headeronly : Bool) :
    Examined :=
  let type := lsah.getD 3 0
  if type < 12 ∧ ospfLsaMinlen type ≠ 0 ∧ lsalen < 20 + ospfLsaMinlen type then .of false
  else match type with
    | 1 =>
      if headeronly then .of ((lsalen - 24) % 4 = 0)
      else ospfRouterLsaLinksExamin behind (lsah.drop 24) (lsalen - 24) (wordAt lsah 22) 0
    | 5 | 7 => .of ((lsalen - 36) % 12 = 0)
    | 2 | 3 | 4 | 9 | 10 | 11 => .of (lsalen % 4 = 0)
    | _ => .of false

/-- `ospf_lsaseq_examin`, with as many bytes as there are. -/
def ospfLsaseqExamin (lsah : List UInt8) (headeronly : Bool)
    (declaredNumLsas countedLsas : Nat) : Examined :=
  if lsah.length = 0 then .of (declaredNumLsas = 0 ∨ countedLsas = declaredNumLsas)
  else if lsah.length < 20 then .of false
  else
    let lsalen := wordAt lsah 18
    if lsalen < 20 then .of false
    else if headeronly then
      let first := ospfLsaExamin behind lsah lsalen true
      if first.ok then
        let rest := ospfLsaseqExamin (lsah.drop 20) headeronly declaredNumLsas
          (countedLsas + 1)
        ⟨rest.ok, first.inside && rest.inside⟩
      else first
    else if lsah.length < lsalen then .of false
    else
      let first := ospfLsaExamin behind lsah lsalen false
      if first.ok then
        let rest := ospfLsaseqExamin (lsah.drop lsalen) headeronly declaredNumLsas
          (countedLsas + 1)
        ⟨rest.ok, first.inside && rest.inside⟩
      else first
termination_by lsah.length
decreasing_by
  · rw [length_drop]
    omega
  · rw [length_drop]
    omega

def ospfPacketMinlen : UInt8 → Nat
  | 1 => 20
  | 2 => 8
  | 4 => 4
  | _ => 0

variable (wire : List UInt8)

/-- `bytesdeclared`. -/
def declaredLength : Nat := wordAt wire 2

def bytesAuth : Nat := if wordAt wire 14 = 2 then 16 else 0

/-- `ospf_packet_examin` on all bytes that were received. -/
def ospfPacketExamin (behind : UInt8) (wire : List UInt8) : Examined :=
  let bytesonwire := wire.length
  if bytesonwire < 24 then .of false
  else if wire.getD 0 0 ≠ 2 then .of false
  else
    let bytesdeclared := declaredLength wire
    if wordAt wire 14 = 2 ∧ wire.getD 19 0 ≠ 16 then .of false
    else if bytesonwire < bytesdeclared + bytesAuth wire then .of false
    else
      let type := wire.getD 1 0
      let packet := wire.take bytesdeclared
      if 1 ≤ type ∧ type ≤ 5 ∧ bytesdeclared < 24 + ospfPacketMinlen type then .of false
      else match type with
        | 1 => .of ((bytesdeclared - 44) % 4 = 0)
        | 2 => ospfLsaseqExamin behind (packet.drop 32) true 0 0
        | 3 => .of ((bytesdeclared - 24) % 12 = 0)
        | 4 => ospfLsaseqExamin behind (packet.drop 28) false (longAt wire 24) 0
        | 5 => ospfLsaseqExamin behind (packet.drop 24) true 0 0
        | _ => .of false

/-! ## The links of a router LSA -/

/-- After some whole links there are bytes left for a link, and the packet ends before the
number of its TOS metrics. -/
inductive LinksCutOff : List UInt8 → Nat → Prop where
  | here {link : List UInt8} {linkbytes : Nat} :
      0 < linkbytes → link.length ≤ 9 → LinksCutOff link linkbytes
  | next {link : List UInt8} {linkbytes : Nat} : 9 < link.length → linkLength 0 link ≤ linkbytes →
      LinksCutOff (link.drop (linkLength 0 link)) (linkbytes - linkLength 0 link) →
      LinksCutOff link linkbytes

variable {behind : UInt8} {link : List UInt8}

theorem linkLength_behind (h : 9 < link.length) : linkLength behind link = linkLength 0 link := by
  rw [linkLength, linkLength, getD_eq_getElem _ _ h, getD_eq_getElem _ _ h]

theorem linkLength_large (link : List UInt8) : 12 ≤ linkLength behind link := Nat.le_add_right 12 _

theorem not_linksCutOff_zero : ¬ LinksCutOff link 0 := by
  intro h
  cases h with
  | here hp _ => exact Nat.lt_irrefl 0 hp
  | next _ hle _ =>
    have := @linkLength_large 0 link
    omega

variable (link : List UInt8) (linkbytes numLinks countedLinks : Nat)

theorem linksExamin_inside_iff (hle : linkbytes ≤ link.length) :
    (ospfRouterLsaLinksExamin behind link linkbytes numLinks countedLinks).inside = true
      ↔ ¬ LinksCutOff link linkbytes := by
  induction linkbytes using Nat.strongRecOn generalizing link countedLinks with
  | ind linkbytes ih =>
    unfold ospfRouterLsaLinksExamin
    have hlrg := @linkLength_large behind link
    by_cases hz : linkbytes = 0
    · subst hz
      simp [Examined.of, not_linksCutOff_zero]
    · rw [if_neg hz]
      dsimp only
      by_cases hsh : link.length ≤ 9
      · rw [if_pos (by omega)]
        have hcut : LinksCutOff link linkbytes := .here (Nat.pos_of_ne_zero hz) hsh
        simp [hcut, hsh]
      · have hrd : 9 < link.length := Nat.lt_of_not_le hsh
        rw [linkLength_behind hrd] at hlrg ⊢
        split_ifs with hov
        · have hwhole : ¬ LinksCutOff link linkbytes := by
            intro hcut
            cases hcut with
            | here _ hlen => exact hsh hlen
            | next _ hle' _ => omega
          simp [hwhole, hrd]
        · have hrs := ih (linkbytes - linkLength 0 link) (by omega)
            (link.drop (linkLength 0 link)) (countedLinks + 1)
            (by rw [length_drop]; omega)
          have hcut : LinksCutOff link linkbytes
              ↔ LinksCutOff (link.drop (linkLength 0 link)) (linkbytes - linkLength 0 link) := by
            constructor
            · intro hcut
              cases hcut with
              | here _ hlen => exact (hsh hlen).elim
              | next _ _ hnx => exact hnx
            · exact .next hrd (by omega)
          rw [hcut, ← hrs]
          simp [hrd]

theorem linksExamin_ok_take (hle : linkbytes ≤ link.length) :
    (ospfRouterLsaLinksExamin behind link linkbytes numLinks countedLinks).ok
      = (ospfRouterLsaLinksExamin 0 (link.take linkbytes) linkbytes numLinks countedLinks).ok := by
  induction linkbytes using Nat.strongRecOn generalizing link countedLinks with
  | ind linkbytes ih =>
    have hlrg := @linkLength_large behind link
    have hlrg0 := @linkLength_large 0 (link.take linkbytes)
    rw [ospfRouterLsaLinksExamin, ospfRouterLsaLinksExamin]
    by_cases hz : linkbytes = 0
    · rw [if_pos hz, if_pos hz]
    · rw [if_neg hz, if_neg hz]
      dsimp only
      by_cases hsh : linkbytes ≤ 9
      · rw [if_pos (by omega), if_pos (by omega)]
      · have hsm : linkLength 0 (link.take linkbytes) = linkLength behind link := by
          rw [linkLength, linkLength, getD_eq_getElem _ _ (by rw [length_take]; omega),
            getD_eq_getElem _ _ (by omega), getElem_take]
        rw [hsm]
        by_cases hov : linkbytes < linkLength behind link
        · rw [if_pos hov, if_pos hov]
        · rw [if_neg hov, if_neg hov, drop_take]
          exact ih _ (by omega) _ _ (by rw [length_drop]; omega)

theorem linksExamin_words
    (h : (ospfRouterLsaLinksExamin behind link linkbytes numLinks countedLinks).ok = true) :
    linkbytes % 4 = 0 := by
  induction linkbytes using Nat.strongRecOn generalizing link countedLinks with
  | ind linkbytes ih =>
    unfold ospfRouterLsaLinksExamin at h
    dsimp only at h
    split at h
    next hz => rw [hz]
    next hp =>
      split at h
      · cases h
      next hov =>
        have hlrg := @linkLength_large behind link
        have hrs := ih (linkbytes - linkLength behind link) (by omega) _ _ h
        unfold linkLength at hrs hov hlrg
        omega

/-! ## LSAs -/

variable {lsah : List UInt8} {lsalen : Nat}

/-- A router LSA has its links behind 24 bytes. -/
theorem lsaExamin_router (hty : lsah.getD 3 0 = 1) (lsalen : Nat) :
    ospfLsaExamin behind lsah lsalen false = if lsalen < 24 then .of false
      else ospfRouterLsaLinksExamin behind (lsah.drop 24) (lsalen - 24) (wordAt lsah 22) 0 := by
  unfold ospfLsaExamin
  rw [hty]
  by_cases hsh : lsalen < 24
  · rw [if_pos hsh, if_pos ⟨by decide, by decide, hsh⟩]
  · rw [if_neg hsh, if_neg fun h => hsh h.2.2]
    rfl

theorem lsaExamin_other {headeronly : Bool}
    (h : lsah.getD 3 0 ≠ 1 ∨ headeronly = true) (lsalen : Nat) :
    ∃ ok, ∀ behind, ospfLsaExamin behind lsah lsalen headeronly = .of ok := by
  unfold ospfLsaExamin
  dsimp only
  split
  · exact ⟨false, fun _ => rfl⟩
  · split
    next heq =>
      rcases h with h | h
      · exact (h heq).elim
      · exact ⟨_, fun _ => if_pos h⟩
    all_goals exact ⟨_, fun _ => rfl⟩

theorem lsaExamin_headeronly_inside (lsah : List UInt8) (lsalen : Nat) :
    (ospfLsaExamin behind lsah lsalen true).inside = true := by
  obtain ⟨ok, hok⟩ := @lsaExamin_other lsah true (.inr rfl) lsalen
  rw [hok]
  rfl

theorem lsaExamin_not_router {lsah' : List UInt8} (hty : lsah'.getD 3 0 = lsah.getD 3 0)
    (hrt : lsah.getD 3 0 ≠ 1) (behind' behind : UInt8) (lsalen : Nat)
    (headeronly' headeronly : Bool) :
    ospfLsaExamin behind' lsah' lsalen headeronly'
      = ospfLsaExamin behind lsah lsalen headeronly := by
  unfold ospfLsaExamin
  rw [hty]
  dsimp only
  split
  · rfl
  · split
    next heq => exact (hrt heq).elim
    all_goals rfl

/-- Only the bytes of the LSA matter. -/
theorem lsaExamin_ok_take (hh : 20 ≤ lsalen) (hle : lsalen ≤ lsah.length) :
    (ospfLsaExamin behind lsah lsalen false).ok
      = (ospfLsaExamin 0 (lsah.take lsalen) lsalen false).ok := by
  have hty : (lsah.take lsalen).getD 3 0 = lsah.getD 3 0 := by
    rw [getD_eq_getElem _ _ (by rw [length_take]; omega),
      getD_eq_getElem _ _ (by omega), getElem_take]
  by_cases hrt : lsah.getD 3 0 = 1
  · rw [lsaExamin_router hrt, lsaExamin_router (hty.trans hrt)]
    split
    · rfl
    next hlg =>
      have hct : wordAt (lsah.take lsalen) 22 = wordAt lsah 22 := by
        rw [wordAt, wordAt, drop_take, take_take, Nat.min_eq_left (by omega)]
      rw [hct, drop_take]
      exact linksExamin_ok_take _ _ _ _ (by rw [length_drop]; omega)
  · rw [lsaExamin_not_router hty hrt 0 behind lsalen false false]

/-- The byte behind the end of the packet does not matter. -/
theorem lsaExamin_ok_behind (hh : 20 ≤ lsalen) (hle : lsalen ≤ lsah.length) :
    (ospfLsaExamin behind lsah lsalen false).ok = (ospfLsaExamin 0 lsah lsalen false).ok :=
  (lsaExamin_ok_take hh hle).trans (lsaExamin_ok_take hh hle).symm

/-- What is said about the LSA can be said about its header. -/
theorem lsaExamin_headeronly {header : List UInt8}
    (hty : header.getD 3 0 = lsah.getD 3 0) (h : (ospfLsaExamin 0 lsah lsalen false).ok = true) :
    (ospfLsaExamin behind header lsalen true).ok = true := by
  by_cases hrt : lsah.getD 3 0 = 1
  · rw [lsaExamin_router hrt] at h
    split at h
    · cases h
    next hlg =>
      have hwords := linksExamin_words _ _ _ _ h
      unfold ospfLsaExamin
      rw [hty, hrt]
      dsimp only
      rw [if_neg fun hb => hlg hb.2.2, if_pos rfl]
      exact decide_eq_true hwords
  · rwa [lsaExamin_not_router hty hrt behind 0 lsalen true false]

theorem lsaExamin_inside_iff (hle : lsalen ≤ lsah.length) :
    (ospfLsaExamin behind lsah lsalen false).inside = true
      ↔ ¬ (lsah.getD 3 0 = 1 ∧ 24 ≤ lsalen ∧ LinksCutOff (lsah.drop 24) (lsalen - 24)) := by
  by_cases hty : lsah.getD 3 0 = 1
  · rw [lsaExamin_router hty]
    split_ifs with hsh
    · exact ⟨fun _ h => by omega, fun _ => rfl⟩
    · rw [linksExamin_inside_iff _ _ _ _ (by rw [length_drop]; omega)]
      exact not_congr ⟨fun h => ⟨hty, by omega, h⟩, fun h => h.2.2⟩
  · obtain ⟨ok, hok⟩ := @lsaExamin_other lsah false (.inl hty) lsalen
    rw [hok]
    exact ⟨fun _ h => hty h.1, fun _ => rfl⟩

/-- The packet ends within a link of a router LSA, and all LSAs before it are whole. -/
inductive LsasCutOff : List UInt8 → Prop where
  | here {lsah : List UInt8} : wordAt lsah 18 ≤ lsah.length → lsah.getD 3 0 = 1 →
      24 ≤ wordAt lsah 18 → LinksCutOff (lsah.drop 24) (wordAt lsah 18 - 24) → LsasCutOff lsah
  | next {lsah : List UInt8} : wordAt lsah 18 ≤ lsah.length → 20 ≤ wordAt lsah 18 →
      (ospfLsaExamin 0 lsah (wordAt lsah 18) false).ok = true →
      LsasCutOff (lsah.drop (wordAt lsah 18)) → LsasCutOff lsah

theorem lsasCutOff_iff (hle : wordAt lsah 18 ≤ lsah.length) (hh : 20 ≤ wordAt lsah 18) :
    LsasCutOff lsah ↔ (ospfLsaExamin behind lsah (wordAt lsah 18) false).inside = false
      ∨ (ospfLsaExamin behind lsah (wordAt lsah 18) false).ok = true
        ∧ LsasCutOff (lsah.drop (wordAt lsah 18)) := by
  rw [lsaExamin_ok_behind hh hle, ← Bool.not_eq_true, lsaExamin_inside_iff hle, not_not]
  constructor
  · intro h
    cases h with
    | here _ hty hlg hcut => exact .inl ⟨hty, hlg, hcut⟩
    | next _ _ hok hrs => exact .inr ⟨hok, hrs⟩
  · rintro (⟨hty, hlg, hcut⟩ | ⟨hok, hrs⟩)
    · exact .here hle hty hlg hcut
    · exact .next hle hh hok hrs

variable (lsah) (declared counted : Nat)

theorem lsaseqExamin_headeronly_inside :
    (ospfLsaseqExamin behind lsah true declared counted).inside = true := by
  induction hlen : lsah.length using Nat.strongRecOn generalizing lsah counted with
  | ind n ih =>
    subst hlen
    unfold ospfLsaseqExamin
    split
    · rfl
    next hne =>
      split
      · rfl
      next hlg =>
        dsimp only
        split
        · rfl
        · have hf := @lsaExamin_headeronly_inside behind lsah (wordAt lsah 18)
          rw [if_pos rfl]
          split
          · rw [hf, ih _ (by rw [length_drop]; omega) _ _ rfl]
            rfl
          · exact hf

theorem lsaseqExamin_inside_iff :
    (ospfLsaseqExamin behind lsah false declared counted).inside = true ↔ ¬ LsasCutOff lsah := by
  induction hlen : lsah.length using Nat.strongRecOn generalizing lsah counted with
  | ind n ih =>
    subst hlen
    have hsh (h : ¬ (wordAt lsah 18 ≤ lsah.length ∧ 20 ≤ wordAt lsah 18)) :
        ¬ LsasCutOff lsah := by
      intro hcut
      cases hcut with
      | here hle _ hlg _ => exact h ⟨hle, by omega⟩
      | next hle hlg _ _ => exact h ⟨hle, hlg⟩
    unfold ospfLsaseqExamin
    split
    next hz => exact ⟨fun _ => hsh (by omega), fun _ => rfl⟩
    next hne =>
      split
      next hfew => exact ⟨fun _ => hsh (by omega), fun _ => rfl⟩
      next hlg =>
        dsimp only
        split
        next hlsalen => exact ⟨fun _ => hsh (by omega), fun _ => rfl⟩
        next hh =>
          rw [if_neg Bool.false_ne_true]
          split
          next hov => exact ⟨fun _ => hsh (by omega), fun _ => rfl⟩
          next hft =>
            have hle : wordAt lsah 18 ≤ lsah.length := Nat.not_lt.mp hft
            rw [@lsasCutOff_iff behind lsah hle (Nat.not_lt.mp hh)]
            split
            next hok =>
              have hrs := ih _ (by rw [length_drop]; omega)
                (lsah.drop (wordAt lsah 18)) (counted + 1) rfl
              rw [Bool.and_eq_true, hrs, hok, not_or, Bool.not_eq_false]
              simp
            next hb => simp [Bool.eq_false_of_not_eq_true hb]

variable {lsah}

/-! ## Packets -/

/-- A link state update whose header is right and that is as long as it declares. -/
structure UpdSized (wire : List UInt8) : Prop where
  type : wire.getD 1 0 = 4
  version : wire.getD 0 0 = 2
  auth : wordAt wire 14 = 2 → wire.getD 19 0 = 16
  received : declaredLength wire + bytesAuth wire ≤ wire.length
  declared : 28 ≤ declaredLength wire

def updLsas : List UInt8 := (wire.take (declaredLength wire)).drop 28

theorem packetExamin_upd {wire : List UInt8} (h : UpdSized wire) :
    ospfPacketExamin behind wire
      = ospfLsaseqExamin behind (updLsas wire) false (longAt wire 24) 0 := by
  have hrcv := h.received
  have hdec := h.declared
  unfold ospfPacketExamin
  dsimp only
  rw [if_neg (by omega), if_neg (by rw [h.version]; exact not_not.mpr rfl),
    if_neg fun hau => hau.2 (h.auth hau.1), if_neg (Nat.not_lt.mpr hrcv), h.type,
    if_neg fun hsh => Nat.not_lt.mpr hdec hsh.2.2]
  rfl

/-- Only in an update a packet is read behind its end, and only such an update is taken. -/
theorem packetExamin_not_sized {wire : List UInt8} (h : ¬ UpdSized wire) :
    (ospfPacketExamin behind wire).inside = true
      ∧ (wire.getD 1 0 = 4 → (ospfPacketExamin behind wire).ok = false) := by
  have hrf : (Examined.of false).inside = true
      ∧ (wire.getD 1 0 = 4 → (Examined.of false).ok = false) := ⟨rfl, fun _ => rfl⟩
  have ho {type : UInt8} (hty : wire.getD 1 0 = type) (hne : type ≠ 4) (e : Examined)
      (hn : e.inside = true) :
      e.inside = true ∧ (wire.getD 1 0 = 4 → e.ok = false) :=
    ⟨hn, fun hfo => (hne (hty.symm.trans hfo)).elim⟩
  unfold ospfPacketExamin
  dsimp only
  split
  · exact hrf
  · split
    · exact hrf
    next hvers =>
      split
      · exact hrf
      next hau =>
        split
        · exact hrf
        next hrcv =>
          split
          · exact hrf
          next hdec =>
            split
            case h_1 hty => exact ho hty (by decide) _ rfl
            case h_2 hty =>
              exact ho hty (by decide) _ (lsaseqExamin_headeronly_inside _ _ _)
            case h_3 hty => exact ho hty (by decide) _ rfl
            case h_4 hty =>
              refine (h ⟨hty, not_not.mp hvers, ?_, Nat.not_lt.mp hrcv, ?_⟩).elim
              · exact fun hcrypto => not_not.mp fun hlen => hau ⟨hcrypto, hlen⟩
              · rw [hty] at hdec
                exact Nat.not_lt.mp fun hsh => hdec ⟨by decide, by decide, hsh⟩
            case h_5 hty =>
              exact ho hty (by decide) _ (lsaseqExamin_headeronly_inside _ _ _)
            case h_6 => exact hrf

/-- A packet is read inside its declared length unless it is an update that breaks off within
a link. -/
theorem packetExamin_inside_iff :
    (ospfPacketExamin behind wire).inside = true
      ↔ ¬ (UpdSized wire ∧ LsasCutOff (updLsas wire)) := by
  by_cases hsz : UpdSized wire
  · rw [packetExamin_upd hsz, lsaseqExamin_inside_iff]
    exact not_congr ⟨fun h => ⟨hsz, h⟩, fun h => h.2⟩
  · exact iff_of_true (packetExamin_not_sized hsz).1 fun h => hsz h.1

end SdnQuagga
