import SdnQuagga.BgpAttrParse

/-!
# What the attribute parser leaves alone

The parser keeps references to interned objects: the parts of the
attribute set in `HeldParts`, and the AS4_PATH. Each of them is set by
one handler only, so what is followed here, any function `g` of these
parts, is unchanged by every handler whose part it does not look at.
Once a type has been seen, nothing in the rest of the message gets to its
handler again, because a second attribute of the type is an error.
-/

namespace SdnQuagga

open FaultM SdnQuagga.Stream List Preserves

/-- The parts that refer to interned objects. -/
structure HeldParts where
  aspath : Option (List Assegment)
  as4Path : Option (List Assegment)
  community : Option Community
  ecommunity : Option Ecommunity
  cluster : Option (List UInt32)
  transit : Option (List UInt8)

variable (st : ParseState)

def heldParts : HeldParts where
  aspath := st.attr.aspath
  as4Path := st.as4Path
  community := st.attr.community
  ecommunity := st.attr.extra.bind AttrExtra.ecommunity
  cluster := st.attr.extra.bind AttrExtra.cluster
  transit := st.attr.extra.bind AttrExtra.transit

/-- The cluster list of the attribute set. -/
def clusterOf : Option (List UInt32) :=
  st.attr.extra.bind AttrExtra.cluster

/-- What is followed. -/
def follow {γ : Type} (g : HeldParts → γ) (st : ParseState) : γ :=
  g (heldParts st)

/-- `g` does not look at what the handler of the type sets. -/
structure Blind {γ : Type} (g : HeldParts → γ) (type : UInt8) : Prop where
  aspath : type = attrAsPath → ∀ h p, g { h with aspath := p } = g h
  as4Path : type = attrAs4Path → ∀ h p, g { h with as4Path := p } = g h
  community : type = attrCommunities → ∀ h c, g { h with community := c } = g h
  ecommunity : type = attrExtCommunities → ∀ h c, g { h with ecommunity := c } = g h
  cluster : type = attrClusterList → ∀ h c, g { h with cluster := c } = g h
  transit : type ∉ knownAttrs → ∀ h val, g { h with transit := val } = g h

section

variable {type : UInt8}

theorem blind_aspath (h : type ≠ attrAsPath) : Blind HeldParts.aspath type :=
  ⟨fun heq => absurd heq h, fun _ _ _ => rfl, fun _ _ _ => rfl,
    fun _ _ _ => rfl, fun _ _ _ => rfl, fun _ _ _ => rfl⟩

theorem blind_as4Path (h : type ≠ attrAs4Path) : Blind HeldParts.as4Path type :=
  ⟨fun _ _ _ => rfl, fun heq => absurd heq h, fun _ _ _ => rfl,
    fun _ _ _ => rfl, fun _ _ _ => rfl, fun _ _ _ => rfl⟩

theorem blind_community (h : type ≠ attrCommunities) : Blind HeldParts.community type :=
  ⟨fun _ _ _ => rfl, fun _ _ _ => rfl, fun heq => absurd heq h,
    fun _ _ _ => rfl, fun _ _ _ => rfl, fun _ _ _ => rfl⟩

theorem blind_ecommunity (h : type ≠ attrExtCommunities) : Blind HeldParts.ecommunity type :=
  ⟨fun _ _ _ => rfl, fun _ _ _ => rfl, fun _ _ _ => rfl,
    fun heq => absurd heq h, fun _ _ _ => rfl, fun _ _ _ => rfl⟩

theorem blind_cluster (h : type ≠ attrClusterList) : Blind HeldParts.cluster type :=
  ⟨fun _ _ _ => rfl, fun _ _ _ => rfl, fun _ _ _ => rfl, fun _ _ _ => rfl,
    fun heq => absurd heq h, fun _ _ _ => rfl⟩

theorem blind_transit (h : type ∈ knownAttrs) : Blind HeldParts.transit type :=
  ⟨fun _ _ _ => rfl, fun _ _ _ => rfl, fun _ _ _ => rfl, fun _ _ _ => rfl,
    fun _ _ _ => rfl, fun hkn => absurd h hkn⟩

end

/-! ## The building blocks -/

/-- What is followed is neither in the input stream nor in the notifications. -/
class Offstream {γ : Type} (f : ParseState → γ) : Prop where
  off : ∀ st s ns, f { st with input := s, notified := ns } = f st

instance {γ : Type} {g : HeldParts → γ} : Offstream (follow g) := ⟨fun _ _ _ => rfl⟩

section

variable {γ : Type} {f : ParseState → γ}

theorem preserves_pointBytes (pos n : Nat) : Preserves f (pointBytes pos n) := by
  intro st a st' h
  rw [pointBytes] at h
  split at h
  · cases h
  · cases h
    rfl

theorem preserves_inputBytes (n : Nat) : Preserves f (inputBytes n) :=
  get.bind fun _ => preserves_pointBytes _ _

theorem preserves_whenever {c : Prop} [Decidable c] {m : ParseM Unit} (hm : Preserves f m) :
    Preserves f (whenever c m) :=
  .ite hm (.pure _)

variable {α : Type}

theorem preserves_derefParse (p : Option α) : Preserves f (derefParse p) := by
  cases p with
  | none => exact .throw _
  | some a => exact .pure a

variable [Offstream f]

theorem preserves_input (m : StreamM α) : Preserves f (input m) := by
  intro st a st' h
  rw [input] at h
  split at h
  · cases h
  · split at h
    · cases h
    · cases h
      exact Offstream.off st _ _

variable (subcode : UInt8) (data : List UInt8)

theorem preserves_notifySend : Preserves f (notifySend subcode data) :=
  .modify fun st => Offstream.off st _ _

theorem preserves_notified (a : α) : Preserves f (do notifySend subcode data; return a) :=
  (preserves_notifySend _ _).bind fun _ => .pure _

theorem preserves_malformed (peer : Peer) (args : AttrArgs) (subcode : UInt8) (n : Nat) :
    Preserves f (bgpAttrMalformed peer args subcode n) := by
  have hntf : Preserves f (do
      notifyAttr args subcode n
      return ParseRet.error) :=
    (ite ((preserves_pointBytes _ _).bind fun _ => preserves_notifySend _ _)
      (preserves_notifySend _ _)).bind fun _ => .pure _
  exact .ite hntf ((preserves_input _).bind fun _ =>
    .ite (.pure _) (.ite hntf (.ite (.pure _) (.pure _))))

theorem preserves_nlriSane (afi : UInt16) (safi : UInt8) (n : Nat) :
    Preserves f (nlriSane afi safi n) :=
  .ite ((preserves_inputBytes _).bind fun _ => .ite (.pure _) (preserves_notified _ _ _)) (.pure _)

end

/-! ## The handlers -/

/-- The flags that `bgp_attr_check` looks at. -/
structure Mandatory where
  origin : Bool
  asPath : Bool
  nextHop : Bool
  localPref : Bool
deriving DecidableEq, Repr

def mandatory (flag : AttrFlags) : Mandatory :=
  ⟨flag.origin, flag.asPath, flag.nextHop, flag.localPref⟩

def mandatoryOf (st : ParseState) : Mandatory := mandatory st.attr.flag

def mandatoryAttrs : List UInt8 :=
  [attrOrigin, attrAsPath, attrNextHop, attrLocalPref]

/-- The assignments that the handler of a type makes. -/
inductive Assigns (type : UInt8) : (ParseState → ParseState) → Prop
  | value (f : Attr → Attr) (hf : ∀ attr, (f attr).flag = attr.flag
      ∧ (f attr).aspath = attr.aspath ∧ (f attr).community = attr.community
      ∧ (f attr).extra = attr.extra) : Assigns type fun st => { st with attr := f st.attr }
  | flag (f : AttrFlags → AttrFlags) (hf : ∀ flag, mandatory (f flag) = mandatory flag) :
      Assigns type fun st => { st with attr := { st.attr with flag := f st.attr.flag } }
  | mandatory (f : AttrFlags → AttrFlags) (ht : type ∈ mandatoryAttrs) :
      Assigns type fun st => { st with attr := { st.attr with flag := f st.attr.flag } }
  | extra (f : AttrExtra → AttrExtra) (hf : ∀ attre, (f attre).ecommunity = attre.ecommunity
      ∧ (f attre).cluster = attre.cluster ∧ (f attre).transit = attre.transit) :
      Assigns type fun st =>
        { st with attr := { st.attr with extra := some (f st.attr.extraGet) } }
  | other (f : ParseState → ParseState)
      (hf : ∀ st, (f st).attr = st.attr ∧ (f st).as4Path = st.as4Path) : Assigns type f
  | aspath (ht : type = attrAsPath) (p : Option (List Assegment)) :
      Assigns type fun st => { st with attr := { st.attr with aspath := p } }
  | as4Path (ht : type = attrAs4Path) (p : Option (List Assegment)) :
      Assigns type fun st => { st with as4Path := p }
  | community (ht : type = attrCommunities) (c : Option Community) :
      Assigns type fun st => { st with attr := { st.attr with community := c } }
  | ecommunity (ht : type = attrExtCommunities) (c : Option Ecommunity) : Assigns type fun st =>
    { st with attr := { st.attr with
      extra := some { st.attr.extraGet with ecommunity := c } } }
  | noEcommunity (ht : type = attrExtCommunities) : Assigns type fun st =>
    { st with attr := { st.attr with
      extra := st.attr.extra.map fun attre => { attre with ecommunity := none } } }
  | cluster (ht : type = attrClusterList) (c : List UInt32) : Assigns type fun st =>
    { st with attr := { st.attr with
      extra := some { st.attr.extraGet with cluster := some c } } }
  | transit (ht : type ∉ knownAttrs) (val : List UInt8) : Assigns type fun st =>
    { st with attr := { st.attr with extra := some { st.attr.extraGet with
      transit := some (st.attr.extraGet.transit.getD [] ++ val) } } }

variable {γ : Type} {f : ParseState → γ} {P : ParseRet → Prop}

/-- What is followed is kept, and what is returned is in `P`. -/
structure Handled (f : ParseState → γ) (P : ParseRet → Prop) (m : ParseM ParseRet) : Prop where
  kept : Preserves f m
  returned : Returns P m

theorem Handled.pure {ret : ParseRet} (h : P ret) : Handled f P (pure ret) := ⟨.pure _, .pure h⟩

theorem Handled.bind {α : Type} {m : ParseM α} {k : α → ParseM ParseRet} (hm : Preserves f m)
    (hk : ∀ a, Handled f P (k a)) : Handled f P (m >>= k) :=
  ⟨hm.bind fun a => (hk a).kept, .bind fun a => (hk a).returned⟩

theorem Handled.ite {c : Prop} [Decidable c] {m n : ParseM ParseRet} (hm : Handled f P m)
    (hn : Handled f P n) : Handled f P (if c then m else n) :=
  ⟨.ite hm.kept hn.kept, .ite hm.returned hn.returned⟩

theorem Handled.read [Offstream f] {α : Type} {m : StreamM α} {k : α → ParseM ParseRet}
    (hk : ∀ a, Handled f P (k a)) : Handled f P (input m >>= k) :=
  .bind (preserves_input m) hk

variable (peer : Peer) (args : AttrArgs) (uninit : UInt8 → UInt16)

/-- The handlers assign, read and notify. -/
theorem handled_dispatch [Offstream f] (h : ∀ u, Assigns args.type u → ∀ st, f (u st) = f st)
    (hp : P .proceed) (he : P .error)
    (hmal : ∀ subcode n, Returns P (bgpAttrMalformed peer args subcode n)) :
    Handled f P (attrDispatch peer args uninit) := by
  have hite {c} [Decidable c] {m n : ParseM ParseRet}
      (hm : c → Handled f P m) (hn : ¬ c → Handled f P n) :
      Handled f P (if c then m else n) := by
    split_ifs with hc
    · exact hm hc
    · exact hn hc
  have hm {subcode n} : Handled f P (bgpAttrMalformed peer args subcode n) :=
    ⟨preserves_malformed peer args subcode n, hmal subcode n⟩
  have hv {u} (hu : ∀ attr, (u attr).flag = attr.flag
      ∧ (u attr).aspath = attr.aspath ∧ (u attr).community = attr.community
      ∧ (u attr).extra = attr.extra) : Preserves f (modifyAttr u) := .modify (h _ (.value u hu))
  have hx {u} (hu : ∀ attre, (u attre).ecommunity = attre.ecommunity
      ∧ (u attre).cluster = attre.cluster ∧ (u attre).transit = attre.transit) :
      Preserves f (modifyExtra u) := .modify (h _ (.extra u hu))
  have ho {u}
      (hu : ∀ st, (u st).attr = st.attr ∧ (u st).as4Path = st.as4Path) :
      Preserves f (modify u : ParseM Unit) := .modify (h _ (.other u hu))
  have hs {u} (hu : Assigns args.type u) :
      Preserves f (modify u : ParseM Unit) := .modify (h u hu)
  have hdn {u} (hu : ∀ flag, mandatory (u flag) = mandatory flag) :
      Handled f P (do modifyFlag u; return ParseRet.proceed) :=
    .bind (hs (.flag u hu)) fun _ => .pure hp
  have hwell {u} (hu : args.type ∈ mandatoryAttrs) :
      Handled f P (do modifyFlag u; return ParseRet.proceed) :=
    .bind (hs (.mandatory u hu)) fun _ => .pure hp
  have hnlri (afi : UInt16) (safi : UInt8) (n : Nat) {u : List UInt8 → ParseState → ParseState}
      (hu : ∀ bs st, (u bs st).attr = st.attr ∧ (u bs st).as4Path = st.as4Path) : Handled f P (do
        if !(← nlriSane afi safi n) then return ParseRet.error
        else
          let nlri ← inputBytes n
          modify (u nlri)
          input (forwardGetp n)
          return .proceed) :=
    .bind (preserves_nlriSane _ _ _) fun _ => .ite (.pure he)
      (.bind (preserves_inputBytes _) fun bs => .bind (ho (hu bs)) fun _ =>
        .read fun _ => .pure hp)
  have hnexthop len : Preserves f (mpNexthop len) := by
    refine .ite (.bind (preserves_input _) fun _ => .bind (hx (by simp)) fun _ =>
      .bind .get fun _ => .bind (preserves_whenever (hv (by simp))) fun _ =>
        .pure _) ?_
    refine .ite (.bind (preserves_input _) fun _ => .bind (preserves_input _) fun _ =>
      .bind (preserves_input _) fun _ => .bind (hx (by simp)) fun _ => .pure _) ?_
    refine .ite (.bind (preserves_input _) fun _ => .bind (hx (by simp)) fun _ => .pure _) ?_
    exact .ite (.bind (preserves_input _) fun _ => .bind (hx (by simp)) fun _ =>
      .bind (preserves_input _) fun _ => .bind (hx (by simp)) fun _ =>
        .bind (preserves_whenever (hx (by simp))) fun _ => .pure _) (.pure _)
  refine hite (fun ht => .ite hm (.read fun _ =>
    .bind (hv (by simp)) fun _ =>
    .ite hm (hwell (by rw [ht]; decide)))) fun h1 => ?_
  refine hite (fun ht => .read fun _ => .bind (hs (.aspath ht _)) fun _ =>
    .ite hm (hwell (by rw [ht]; decide))) fun h2 => ?_
  refine hite (fun ht => .read fun _ => .bind (hs (.as4Path ht _)) fun _ =>
    .ite hm (hdn fun _ => rfl)) fun h3 => ?_
  refine hite (fun ht => .ite hm (.read fun _ => .ite hm
    (.bind (hv (by simp)) fun _ => hwell (by rw [ht]; decide)))) fun h4 => ?_
  refine hite (fun _ => .ite hm (.read fun _ =>
    .bind (hv (by simp)) fun _ =>
    hdn fun _ => rfl)) fun h5 => ?_
  refine hite (fun ht => .ite hm (.ite (.read fun _ => .pure hp)
    (.read fun _ => .bind (hv (by simp)) fun _ =>
      hwell (by rw [ht]; decide)))) fun h6 => ?_
  refine hite (fun _ => .ite hm (hdn fun _ => rfl)) fun h7 => ?_
  refine hite (fun _ => .bind (hx (by simp)) fun _ => .ite hm
    (.read fun _ => .bind (hx (by simp)) fun _ =>
      .read fun _ => .bind (hx (by simp)) fun _ =>
        hdn fun _ => rfl)) fun h8 => ?_
  refine hite (fun _ => .ite hm (.read fun _ =>
    .bind (ho (by simp)) fun _ =>
    .read fun _ => .bind (ho (by simp)) fun _ =>
      hdn fun _ => rfl)) fun h9 => ?_
  refine hite (fun ht => .ite (.bind (hs (.community ht _)) fun _ => .pure hp)
    (.bind (preserves_inputBytes _) fun _ => .bind (hs (.community ht _)) fun _ =>
      .read fun _ => .ite hm (hdn fun _ => rfl))) fun h10 => ?_
  refine hite (fun _ => .ite hm (.read fun _ =>
    .bind (hx (by simp)) fun _ =>
    hdn fun _ => rfl)) fun h11 => ?_
  refine hite (fun ht => .ite hm (.bind (preserves_inputBytes _) fun _ =>
    .bind (hs (.cluster ht _)) fun _ => .read fun _ =>
      hdn fun _ => rfl)) fun h12 => ?_
  refine hite (fun _ => .bind (hx fun _ => ⟨rfl, rfl, rfl⟩) fun _ => .bind .get fun _ =>
    .ite (.pure he) (.read fun _ => .read fun _ =>
      .read fun _ => .bind (hx (by simp)) fun _ => .bind .get fun _ =>
        .ite (.pure he) (.bind (hnexthop _) fun _ => .ite (.bind .get fun _ =>
          .ite (.pure he) (.read fun _ => .bind .get fun _ =>
            .ite (.pure he) (hnlri _ _ _ (by simp)))) (.pure he)))) fun h13 => ?_
  refine hite (fun _ => .bind .get fun _ => .ite (.pure he) (.read fun _ => .read fun _ =>
      hnlri _ _ _ (by simp))) fun h14 => ?_
  refine hite (fun ht => .ite (.bind (hs (.noEcommunity ht)) fun _ => .pure hp)
    (.bind (preserves_inputBytes _) fun _ => .bind (hs (.ecommunity ht _)) fun _ =>
      .read fun _ => .ite hm (hdn fun _ => rfl))) fun h15 => ?_
  refine .read fun _ => .ite hm (.ite (.pure hp)
    (.bind (ho (by simp)) fun _ => .bind (preserves_pointBytes _ _) fun _ =>
      .bind (hs (.transit ?_ _)) fun _ => .pure hp))
  simp only [knownAttrs, mem_cons, not_mem_nil, or_false, not_or]
  exact ⟨h1, h2, h3, h4, h5, h6, h7, h8, h9, h10, h11, h12, h13, h14, h15⟩

theorem preserves_dispatch_of [Offstream f] (h : ∀ u, Assigns args.type u → ∀ st, f (u st) = f st) :
    Preserves f (attrDispatch peer args uninit) :=
  (handled_dispatch (P := fun _ => True) peer args uninit h trivial trivial
    fun _ _ _ _ _ _ => trivial).kept

theorem extraGet_parts (st : ParseState) :
    st.attr.extraGet.ecommunity = (heldParts st).ecommunity
      ∧ st.attr.extraGet.cluster = (heldParts st).cluster
      ∧ st.attr.extraGet.transit = (heldParts st).transit := by
  simp only [heldParts, Attr.extraGet]
  cases st.attr.extra with
  | none | some attre => exact ⟨rfl, rfl, rfl⟩

variable {g : HeldParts → γ}

/-- The other fields of `attr->extra`. -/
theorem follow_extra {f : AttrExtra → AttrExtra} (hf : ∀ attre,
      (f attre).ecommunity = attre.ecommunity ∧ (f attre).cluster = attre.cluster
      ∧ (f attre).transit = attre.transit) (st : ParseState) :
    follow g { st with attr := { st.attr with extra := some (f st.attr.extraGet) } }
      = follow g st := by
  obtain ⟨hec, hcl, htr⟩ := hf st.attr.extraGet
  obtain ⟨hec', hcl', htr'⟩ := extraGet_parts st
  refine congrArg g (?_ : heldParts _ = _)
  simp only [heldParts, Option.bind_some, hec, hcl, htr]
  rw [hec', hcl', htr']
  rfl

/-- A part is set by one handler only. -/
theorem preserves_dispatch (h : Blind g args.type) :
    Preserves (follow g) (attrDispatch peer args uninit) := by
  refine preserves_dispatch_of peer args uninit fun u hu st => ?_
  obtain ⟨hec, hcl, htr⟩ := extraGet_parts st
  cases hu with
  | value u hu =>
    obtain ⟨-, hasp, hcom, hx⟩ := hu st.attr
    simp only [follow, heldParts, hasp, hcom, hx]
  | flag u hu => rfl
  | mandatory u ht => rfl
  | extra u hu => exact follow_extra hu st
  | other u hu =>
    obtain ⟨hattr, has4Path⟩ := hu st
    simp only [follow, heldParts, hattr, has4Path]
  | aspath ht p => exact h.aspath ht (heldParts st) p
  | as4Path ht p => exact h.as4Path ht (heldParts st) p
  | community ht c => exact h.community ht (heldParts st) c
  | ecommunity ht c =>
    refine Eq.trans ?_ (h.ecommunity ht (heldParts st) c)
    simp only [follow, ← hcl, ← htr]
    rfl
  | noEcommunity ht =>
    refine Eq.trans ?_ (h.ecommunity ht (heldParts st) none)
    simp only [follow, heldParts]
    cases st.attr.extra <;> rfl
  | cluster ht c =>
    refine Eq.trans ?_ (h.cluster ht (heldParts st) (some c))
    simp only [follow, ← hec, ← htr]
    rfl
  | transit ht val =>
    refine Eq.trans ?_ (h.transit ht (heldParts st)
      (some (st.attr.extraGet.transit.getD [] ++ val)))
    simp only [follow, ← hec, ← hcl]
    rfl

/-! ## The loop -/

theorem preserves_flagInvalid : Preserves (follow g) (bgpAttrFlagInvalid args) := by
  refine .ite (.pure _) ?_
  split
  · exact .throw _
  · exact .ite (.pure _) (.pure _)

theorem preserves_fetched (ret : ParseRet) : Preserves (follow g) (attrFetched args ret) := by
  cases ret with
  | proceed => exact get.bind fun _ => .ite (preserves_notified _ _ _) (.pure _)
  | error => exact preserves_notified _ _ _
  | withdraw => exact .pure _

variable {args : AttrArgs}

theorem preserves_body_of (h : Preserves (follow g) (attrDispatch peer args uninit)) :
    Preserves (follow g) (attrBody peer uninit args) := by
  refine (preserves_flagInvalid args).bind fun _ => .ite ?_
    (h.bind fun ret => preserves_fetched args ret)
  refine (preserves_malformed _ _ _ _).bind fun ret => ?_
  cases ret with
  | proceed | error | withdraw => exact .pure _

theorem preserves_body (h : Blind g args.type) : Preserves (follow g) (attrBody peer uninit args) :=
  preserves_body_of peer uninit (preserves_dispatch peer args uninit h)

theorem preserves_attrLength (extlen : Bool) : Preserves (follow g) (attrLength extlen) :=
  .ite ((preserves_input _).bind fun _ => .pure _) ((preserves_input _).bind fun _ => .pure _)

theorem preserves_attrError {β : Type} (subcode : UInt8) (f : Option ParseRet → β) :
    Preserves (follow g) (do return f (← attrError subcode)) :=
  bind (preserves_notified _ _ _) fun _ => .pure _

/-- Once the type has been seen, a turn does not get to its handler. -/
theorem preserves_step (endp : Nat) {seen : List UInt8} (h : ∀ type ∉ seen, Blind g type) :
    Preserves (follow g) (attrStep peer uninit endp seen) := by
  refine get.bind fun _ =>
    .ite (preserves_attrError _ (·, seen)) ?_
  refine (preserves_input _).bind fun _ => (preserves_input _).bind fun type =>
    .ite (preserves_attrError _ (·, seen)) ?_
  refine (preserves_attrLength _).bind fun _ => ?_
  split_ifs with hse
  · exact preserves_attrError _ (·, seen)
  · refine get.bind fun _ =>
      .ite (preserves_attrError _ (·, type :: seen)) ?_
    exact (preserves_body peer uninit (h type hse)).bind fun _ => .pure _

variable {seen seen' : List UInt8} {ret : Option ParseRet} {st st' : ParseState}

theorem attrStep_returns {endp : Nat}
    (h : attrStep peer uninit endp seen st = .ok ((ret, seen'), st')) : seen <:+ seen'
      ∧ (ret = some .error ∨ ∃ args st1, attrBody peer uninit args st1 = .ok (ret, st')) := by
  have herr {subcode st seen''} (hse : seen <:+ seen'')
      (h : (do return (← attrError subcode, seen'') :
        ParseM (Option ParseRet × List UInt8)) st = .ok ((ret, seen'), st')) :
      seen <:+ seen' ∧ (ret = some .error
        ∨ ∃ args st1, attrBody peer uninit args st1 = .ok (ret, st')) := by
    cases h
    exact ⟨hse, .inl rfl⟩
  rw [attrStep, get_bind] at h
  split at h
  · exact herr suffix_rfl h
  obtain ⟨flag, st1, -, h⟩ := bind_eq_ok h
  obtain ⟨type, st2, -, h⟩ := bind_eq_ok h
  split at h
  · exact herr suffix_rfl h
  obtain ⟨length, st3, -, h⟩ := bind_eq_ok h
  split at h
  · exact herr suffix_rfl h
  rw [get_bind] at h
  split at h
  · exact herr (suffix_cons ..) h
  · obtain ⟨ret', st4, hbd, h⟩ := bind_eq_ok h
    cases h
    exact ⟨suffix_cons .., .inr ⟨_, _, hbd⟩⟩

/-- The rest of the loop leaves the parts it has seen alone. -/
theorem preserves_loop (endp bound : Nat) {seen : List UInt8} (h : ∀ type ∉ seen, Blind g type) :
    Preserves (follow g) (attrLoop peer uninit endp bound seen) := by
  induction bound generalizing seen with
  | zero =>
    rw [attrLoop]
    exact get.bind fun _ =>
      .ite (.throw _) (.pure _)
  | succ bound ih =>
    rw [attrLoop]
    refine get.bind fun _ => .ite ?_ (.pure _)
    intro st ret st' hr
    obtain ⟨⟨ret', seen'⟩, st1, hst, hrs⟩ := bind_eq_ok hr
    have hfrm := preserves_step peer uninit endp h st _ st1 hst
    cases ret' with
    | some ret' =>
      cases hrs
      exact hfrm
    | none =>
      have hse := (attrStep_returns peer uninit hst).1.subset
      rw [ih (fun t ht => h t fun hmb => ht (hse hmb)) st1 ret st' hrs, hfrm]

theorem preserves_mungeAggregator : Preserves (follow g) mungeAggregator := by
  refine get.bind fun st => .ite (.ite ?_ ?_) (.pure _)
  · split
    · exact .throw _
    · exact .ite (.pure _)
        (.bind (.modify (follow_extra fun _ => ⟨rfl, rfl, rfl⟩)) fun _ => .pure _)
  · exact .bind (.modify (follow_extra fun _ => ⟨rfl, rfl, rfl⟩)) fun _ =>
      bind (.modify fun _ => rfl) fun _ => .pure _

/-- Behind the loop only the AS path changes. -/
theorem preserves_finish (endp : Nat) (hg : ∀ h p, g { h with aspath := p } = g h) :
    Preserves (follow g) (attrFinish peer endp) := by
  have hmun : Preserves (follow g) (bgpAttrMungeAs4Attrs peer) :=
    .ite (.pure _) (preserves_mungeAggregator.bind fun _ => get.bind fun _ =>
        .ite ((preserves_derefParse _).bind fun _ =>
            (preserves_derefParse _).bind fun _ =>
              .modify fun st => hg (heldParts st) _)
          (.pure _))
  have hck : Preserves (follow g) (bgpAttrAspathCheck peer) :=
    get.bind fun _ => (preserves_derefParse _).bind fun _ =>
      .ite (preserves_notified _ _ _) (.ite (preserves_notified _ _ _) (bind
            (preserves_whenever (.modify fun st => hg (heldParts st) _)) fun _ => .pure _))
  exact get.bind fun _ => .ite (preserves_notified _ _ _)
    (hmun.bind fun _ => get.bind fun _ =>
      .ite hck (.pure _))

end SdnQuagga
