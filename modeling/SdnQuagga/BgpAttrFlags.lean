import SdnQuagga.BgpAttrFrame

/-!
# What the attribute handlers return, and the well-known attributes

Which errors end the parse, and how. `bgp_attr_check` wants the flags of
four attributes set. Each is set by the handler of its attribute, as the
last thing before the handler goes on, and by nothing else.
-/

namespace SdnQuagga

open FaultM SdnQuagga.Stream List Mandatory

/-! ## What the handlers return -/

section

variable {peer : Peer} {args : AttrArgs}

/-- The three verdicts on an error. -/
theorem malformed_ret {subcode : UInt8} {n : Nat} {ret : ParseRet} {st p : ParseState}
    (hr : bgpAttrMalformed peer args subcode n st = .ok (ret, p)) :
    (ret = .proceed → args.type ∈ ignorableAttrs)
      ∧ (ret = .withdraw ↔ peerSort peer = .ebgp ∧ args.type ∉ ignorableAttrs
        ∧ args.type ∉ coreAttrs ∧ checkFlag args.flags attrFlagTrans
        ∧ checkFlag args.flags attrFlagOptional ∧ checkFlag args.flags attrFlagPartial) := by
  rw [bgpAttrMalformed] at hr
  split at hr
  next hst =>
    obtain ⟨u, st1, -, hrs⟩ := bind_eq_ok hr
    cases hrs
    exact ⟨nofun, nofun, fun h => absurd h.1 hst⟩
  rename_i hst
  obtain ⟨u, st1, -, hrs⟩ := bind_eq_ok hr
  split at hrs
  next hig =>
    cases hrs
    exact ⟨fun _ => hig, nofun, fun h => absurd hig h.2.1⟩
  rename_i hig
  split at hrs
  next hcore =>
    obtain ⟨u, st2, -, hla⟩ := bind_eq_ok hrs
    cases hla
    exact ⟨nofun, nofun, fun h => absurd hcore h.2.2.1⟩
  rename_i hcore
  split at hrs
  next hfl =>
    cases hrs
    exact ⟨nofun, fun _ => ⟨not_not.mp hst, hig, hcore, hfl⟩, fun _ => rfl⟩
  next hfl =>
    cases hrs
    exact ⟨nofun, nofun, fun h => absurd h.2.2.2 hfl⟩

end

/-! ## The flags -/

instance : Offstream mandatoryOf := ⟨fun _ _ _ => rfl⟩

variable {peer : Peer} {args : AttrArgs} {uninit : UInt8 → UInt16}

theorem keeps_dispatch (h : args.type ∉ mandatoryAttrs) :
    Preserves mandatoryOf (attrDispatch peer args uninit) := by
  refine preserves_dispatch_of peer args uninit fun u hu st => ?_
  cases hu with
  | value u hu => exact congrArg mandatory (hu st.attr).1
  | flag u hu => exact hu st.attr.flag
  | mandatory u ht => exact absurd ht h
  | other u hu => exact congrArg (fun attr => mandatory attr.flag) (hu st).1
  | _ => rfl

/-! ## The four handlers -/

variable {st p : ParseState} {ret : ParseRet}

/-- The flags behind a handler that sets one of them: a handler that goes on
has set it, any other has left them alone. -/
def Sets (f : Mandatory → Mandatory) (m : ParseM ParseRet) : Prop :=
  ∀ st ret p, m st = .ok (ret, p) → mandatoryOf p = if ret = .proceed then f (mandatoryOf st)
      else mandatoryOf st

variable {f : Mandatory → Mandatory}

theorem Sets.malformed (hig : args.type ∉ ignorableAttrs) (subcode : UInt8) (n : Nat) :
    Sets f (bgpAttrMalformed peer args subcode n) := by
  intro st ret p hr
  rw [if_neg fun hrt => hig ((malformed_ret hr).1 hrt)]
  exact preserves_malformed peer args subcode n _ _ _ hr

theorem Sets.proceed {g : AttrFlags → AttrFlags}
    (hg : ∀ flag, mandatory (g flag) = f (mandatory flag)) :
    Sets f (do
      modifyFlag g
      return .proceed) := by
  intro st ret p hr
  cases hr
  exact hg st.attr.flag

theorem Sets.bind {α : Type} {m : ParseM α} {k : α → ParseM ParseRet} (hm : Preserves mandatoryOf m)
    (hk : ∀ a, Sets f (k a)) : Sets f (m >>= k) := by
  intro st ret p hr
  obtain ⟨a, st1, hf, hrs⟩ := bind_eq_ok hr
  rw [hk a st1 ret p hrs, hm st a st1 hf]

theorem Sets.ite {c : Prop} [Decidable c]
    {m n : ParseM ParseRet} (hm : c → Sets f m) (hn : ¬ c → Sets f n) :
    Sets f (if c then m else n) := by
  split_ifs with hc
  · exact hm hc
  · exact hn hc

/-- What the handler of the type does to the flags. -/
def Mandatory.add (peer : Peer) (type : UInt8) (flags : Mandatory) :
    Mandatory where
  origin := flags.origin || type = attrOrigin
  asPath := flags.asPath || type = attrAsPath
  nextHop := flags.nextHop || type = attrNextHop
  localPref := flags.localPref || (peerSort peer ≠ .ebgp && type = attrLocalPref)

theorem Mandatory.add_other {type : UInt8} (h : type ∉ mandatoryAttrs)
    (flags : Mandatory) : flags.add peer type = flags := by
  simp only [mandatoryAttrs, mem_cons, not_mem_nil, or_false, not_or] at h
  simp [add, h]

theorem sets_dispatch (h : args.type ∈ mandatoryAttrs) :
    Sets (add peer args.type) (attrDispatch peer args uninit) := by
  have hig : args.type ∉ ignorableAttrs := by
    simp only [mandatoryAttrs, mem_cons, not_mem_nil, or_false] at h
    rcases h with h | h | h | h <;> rw [h] <;> decide
  have hm {subcode n} : Sets (add peer args.type)
      (bgpAttrMalformed peer args subcode n) := .malformed hig subcode n
  rw [attrDispatch]
  refine .ite (fun hty => ?_) fun horg => .ite (fun hty => ?_) fun has => ?_
  · refine .ite (fun _ => hm) fun _ => .bind (preserves_input _) fun _ =>
      .bind (.modify fun _ => rfl) fun _ => .ite (fun _ => hm) fun _ =>
        .proceed fun flag => ?_
    simp [add, mandatory, hty, attrOrigin, attrAsPath, attrNextHop, attrLocalPref]
  · refine .bind (preserves_input _) fun _ => .bind (.modify fun _ => rfl) fun _ =>
      .ite (fun _ => hm) fun _ => .proceed fun flag => ?_
    simp [add, mandatory, hty, attrOrigin, attrAsPath, attrNextHop, attrLocalPref]
  have hnx : args.type = attrNextHop ∨ args.type = attrLocalPref := by
    simpa [mandatoryAttrs, horg, has] using h
  rcases hnx with hty | hty
  · rw [if_neg (by rw [hty]; decide), if_pos hty]
    refine .ite (fun _ => hm) fun _ => .bind (preserves_input _) fun _ =>
      .ite (fun _ => hm) fun _ => .bind (.modify fun _ => rfl) fun _ =>
        .proceed fun flag => ?_
    simp [add, mandatory, hty, attrOrigin, attrAsPath, attrNextHop, attrLocalPref]
  · rw [if_neg (by rw [hty]; decide), if_neg (by rw [hty]; decide),
      if_neg (by rw [hty]; decide), if_pos hty]
    refine .ite (fun _ => hm) fun _ => .ite (fun hst => ?_) fun hst =>
      .bind (preserves_input _) fun _ => .bind (.modify fun _ => rfl) fun _ =>
        .proceed fun flag => ?_
    · -- an eBGP peer's LOCAL_PREF is skipped
      refine .bind (preserves_input _) fun _ st ret p hr => ?_
      cases hr
      simp [add, hty, hst, attrOrigin, attrAsPath, attrNextHop, attrLocalPref]
    · simp [add, mandatory, hty, hst, attrOrigin, attrAsPath, attrNextHop, attrLocalPref]

end SdnQuagga
