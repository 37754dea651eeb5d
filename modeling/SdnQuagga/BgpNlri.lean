import SdnQuagga.BgpAttrParse

/-!
# Reachability information

`bgp_nlri_parse` and the records that `stream_put_prefix` writes for it. The
encoder, `bgp_nlri_sanity_check` and the parser each compute the size of a
record, and agree.
-/

namespace SdnQuagga

open FaultM SdnQuagga.Stream List

/-! ## Records -/

def Afi.maxBitlen : Afi → Nat
  | .ip => 32
  | .ip6 => 128

/-- The numbers of `AFI_IP` and `AFI_IP6`. -/
def Afi.number : Afi → UInt16
  | .ip => 1
  | .ip6 => 2

namespace Addr

def afi : Addr → Afi
  | .inet _ => .ip
  | .inet6 _ => .ip6

/-- `IN_CLASSD` -/
def isMulticast : Addr → Bool
  | .inet a => a &&& 0xf0000000 = 0xe0000000
  | .inet6 _ => false

def isLinklocal : Addr → Bool
  | .inet _ => false
  | .inet6 a => in6IsAddrLinklocal a

end Addr

/-- Bytes copied to the front of a cleared address. -/
def fetchAddr : Afi → List UInt8 → Addr
  | .ip, bs => .inet (.ofNat (ofBE bs * 256 ^ (4 - bs.length)))
  | .ip6, bs => .inet6 (.ofNat 128 (ofBE bs * 256 ^ (16 - bs.length)))

/-- The prefix of a record, unless its length is too large. -/
def fetchPrefix (afi : Afi) (prefixlen : Nat) (bs : List UInt8) : Option Prefix :=
  if h : prefixlen ≤ afi.maxBitlen then
    some ⟨prefixlen, fetchAddr afi bs, by cases afi <;> exact h⟩
  else none

/-- The ways out of `bgp_nlri_parse`. -/
inductive NlriRet where
  | done
  | badLength
  | multicast
  | refused
deriving DecidableEq

variable (afi : Afi) (safi : Safi) (call : List Prefix → Prefix → Bool)

/-- The loop of `bgp_nlri_parse`. `call` is whether `bgp_update` or
`bgp_withdraw` succeeds after the calls `fed`. -/
def nlriLoop (fed : List Prefix) (bs : List UInt8) : List Prefix × NlriRet :=
  match bs with
  | [] => (fed, .done)
  | len :: rest =>
    match fetchPrefix afi len.toNat (rest.take (psize len.toNat)) with
    | none => (fed, .badLength)
    | some p =>
      if rest.length < psize len.toNat then (fed, .badLength)
      else if safi = .unicast ∧ p.addr.isMulticast then (fed, .multicast)
      else if safi = .unicast ∧ p.addr.isLinklocal then
        nlriLoop fed (rest.drop (psize len.toNat))
      else if call fed p then nlriLoop (fed ++ [p]) (rest.drop (psize len.toNat))
      else (fed ++ [p], .refused)
termination_by bs.length
decreasing_by all_goals
  rw [length_drop, length_cons]
  omega

/-- The prefixes that are handed on, and how it ends. -/
def bgpNlriParse (established : Bool) (bs : List UInt8) : List Prefix × NlriRet :=
  if established then nlriLoop afi safi call [] bs else ([], .done)

def Prefix.record (p : Prefix) : List UInt8 :=
  UInt8.ofNat p.prefixlen :: p.addr.bytes.take (psize p.prefixlen)

/-- No host bits, and an address that is taken. -/
structure Prefix.Plain (p : Prefix) : Prop where
  family : p.addr.afi = afi
  host : 2 ^ (p.addr.maxBitlen - p.prefixlen) ∣ ofBE p.addr.bytes
  unicast : p.addr.isMulticast = false
  global : p.addr.isLinklocal = false

/-! ## From prefixes to bytes and back -/

variable {afi safi call} {p : Prefix} {rest : List UInt8} {fed : List Prefix}

theorem ofBE_append (as bs : List UInt8) :
    ofBE (as ++ bs) = ofBE as * 256 ^ bs.length + ofBE bs := by
  induction as with
  | nil => simp [ofBE]
  | cons a as ih =>
    rw [cons_append, ofBE, ih, ofBE, length_append, pow_add]
    ring

theorem ofBE_front (bs : List UInt8) {len : Nat} (hlen : len ≤ 8 * bs.length)
    (h : 2 ^ (8 * bs.length - len) ∣ ofBE bs) :
    ofBE (bs.take (psize len)) * 256 ^ (bs.length - (bs.take (psize len)).length) = ofBE bs := by
  have hsize : psize len ≤ bs.length := by rw [psize]; omega
  have hla := length_drop (l := bs) (i := psize len)
  have hpt := ofBE_append (bs.take (psize len)) (bs.drop (psize len))
  rw [take_append_drop, hla] at hpt
  have hdvd : 256 ^ (bs.length - psize len) ∣ ofBE bs := by
    refine Dvd.dvd.trans ?_ h
    rw [show 256 = 2 ^ 8 from rfl, ← pow_mul]
    refine pow_dvd_pow 2 ?_
    rw [psize]
    omega
  have hz : ofBE (bs.drop (psize len)) = 0 := by
    rw [hpt] at hdvd
    refine Nat.eq_zero_of_dvd_of_lt ((Nat.dvd_add_right (Dvd.intro_left _ rfl)).mp hdvd) ?_
    exact hla ▸ ofBE_lt _
  rw [length_take_of_le hsize, hpt, hz, Nat.add_zero]

theorem fetchAddr_front {addr : Addr} {len : Nat} (hle : len ≤ addr.maxBitlen)
    (h : 2 ^ (addr.maxBitlen - len) ∣ ofBE addr.bytes) :
    fetchAddr addr.afi (addr.bytes.take (psize len)) = addr := by
  cases addr with
  | inet a =>
    have hv := ofBE_front (be32 a) hle h
    exact congrArg Addr.inet ((congrArg UInt32.ofNat hv).trans (ofNat_ofBE_be32 a))
  | inet6 a =>
    have hv := ofBE_front (be128 a) hle h
    exact congrArg Addr.inet6 ((congrArg (BitVec.ofNat 128) hv).trans (ofNat_ofBE_be128 a))

theorem prefixlen_le_afi (h : p.addr.afi = afi) : p.prefixlen ≤ afi.maxBitlen := by
  have hle := p.prefixlen_le
  subst h
  cases hp : p.addr <;> rwa [hp] at hle

theorem fetchPrefix_record (h : p.Plain afi) :
    fetchPrefix afi p.prefixlen (p.addr.bytes.take (psize p.prefixlen)) = some p := by
  rw [fetchPrefix, dif_pos (prefixlen_le_afi h.family)]
  obtain ⟨rfl, hhost, -, -⟩ := h
  simp only [fetchAddr_front p.prefixlen_le hhost]

variable (p)

theorem toNat_prefixlen : (UInt8.ofNat p.prefixlen).toNat = p.prefixlen := by
  have hle := prefixlen_le_afi (p := p) rfl
  have : p.addr.afi.maxBitlen ≤ 128 := by cases p.addr.afi <;> decide
  rw [UInt8.toNat_ofNat', Nat.mod_eq_of_lt (by omega)]

theorem length_front : (p.addr.bytes.take (psize p.prefixlen)).length = psize p.prefixlen := by
  have hle := p.prefixlen_le
  refine length_take_of_le ?_
  rw [psize]
  cases hp : p.addr <;> rw [hp] at hle <;> simp [Addr.bytes, Addr.maxBitlen] at hle ⊢ <;> omega

theorem front_fits :
    ¬ (p.addr.bytes.take (psize p.prefixlen) ++ rest).length < psize p.prefixlen := by
  rw [length_append, length_front]
  omega

theorem emits_streamPutPrefix : Emits (streamPutPrefix p) p.record (psize p.prefixlen) := by
  intro s hs
  have hlen := length_front p
  rw [Prefix.record, length_cons, hlen] at hs
  have hrm : [UInt8.ofNat p.prefixlen].length ≤ s.writeable := by
    rw [length_singleton]
    omega
  have hlf : psize p.prefixlen ≤ (s.append [UInt8.ofNat p.prefixlen]).writeable := by
    rw [append_writeable hrm, length_singleton]
    omega
  rw [streamPutPrefix, get_bind, if_neg (by omega), bind_ok (emits_putc _ s hrm), get_bind,
    if_neg (Nat.not_lt.mpr hlf), bind_ok (emits_putBytes _ _ (hlen.trans_le hlf)),
    append_append]
  rfl

variable {p}

theorem not_tooLong_iff (afi : Afi) (len : UInt8) :
    ¬ (afi.number = 1 ∧ len > 32 ∨ afi.number = 2 ∧ len > 128) ↔ len.toNat ≤ afi.maxBitlen := by
  cases afi <;> simp [Afi.number, Afi.maxBitlen, UInt8.lt_iff_toNat_lt]

theorem nlriSanityCheck_record (h : p.addr.afi = afi) :
    nlriSanityCheck afi.number (p.record ++ rest) = nlriSanityCheck afi.number rest := by
  have hlen := toNat_prefixlen p
  have hlg := (not_tooLong_iff afi (UInt8.ofNat p.prefixlen)).mpr
    (hlen.trans_le (prefixlen_le_afi h))
  rw [Prefix.record, cons_append, nlriSanityCheck, if_neg hlg, hlen,
    drop_left' (length_front p), if_neg (front_fits p)]

theorem nlriLoop_record (h : p.Plain afi) :
    nlriLoop afi safi call fed (p.record ++ rest)
      = if call fed p then nlriLoop afi safi call (fed ++ [p]) rest
        else (fed ++ [p], .refused) := by
  rw [Prefix.record, cons_append, nlriLoop, toNat_prefixlen, take_left' (length_front p),
    fetchPrefix_record h]
  dsimp only
  rw [if_neg (front_fits p), if_neg (by simp [h.unicast]), if_neg (by simp [h.global]),
    drop_left' (length_front p)]

/-- The calls for the prefixes succeed, each after those before it. -/
def CallsOk (call : List Prefix → Prefix → Bool) : List Prefix → List Prefix → Prop
  | _, [] => True
  | fed, p :: ps => call fed p = true ∧ CallsOk call (fed ++ [p]) ps

theorem nlriLoop_flatMap {ps : List Prefix} (h : ∀ p ∈ ps, p.Plain afi)
    (hca : CallsOk call fed ps) :
    nlriLoop afi safi call fed (ps.flatMap Prefix.record ++ rest)
      = nlriLoop afi safi call (fed ++ ps) rest := by
  induction ps generalizing fed with
  | nil => rw [flatMap_nil, nil_append, List.append_nil]
  | cons p ps ih =>
    obtain ⟨hp, hps⟩ := forall_mem_cons.mp h
    rw [flatMap_cons, append_assoc, nlriLoop_record hp, if_pos hca.1, ih hps hca.2, append_assoc,
      singleton_append]

theorem nlriSanityCheck_flatMap {ps : List Prefix} (h : ∀ p ∈ ps, p.Plain afi) :
    nlriSanityCheck afi.number (ps.flatMap Prefix.record) = true := by
  induction ps with
  | nil => rw [flatMap_nil, nlriSanityCheck]
  | cons p ps ih =>
    obtain ⟨hp, hps⟩ := forall_mem_cons.mp h
    rw [flatMap_cons, nlriSanityCheck_record hp.family, ih hps]

/-- Records of a length and the bytes that it covers. -/
inductive Records (afi : Afi) : List UInt8 → Prop
  | nil : Records afi []
  | cons {len : UInt8} {bs rest : List UInt8} (hlen : len.toNat ≤ afi.maxBitlen)
      (hsize : bs.length = psize len.toNat) (h : Records afi rest) :
      Records afi (len :: (bs ++ rest))

theorem records_of_sane (bs : List UInt8) (h : nlriSanityCheck afi.number bs = true) :
    Records afi bs ∧ ∀ fed, (nlriLoop afi safi call fed bs).2 ≠ .badLength := by
  induction bs using nlriSanityCheck.induct afi.number with
  | case1 =>
    refine ⟨.nil, fun fed => ?_⟩
    rw [nlriLoop]
    nofun
  | case2 len rest hlg =>
    rw [nlriSanityCheck, if_pos hlg] at h
    cases h
  | case3 len rest hlg hsh =>
    rw [nlriSanityCheck, if_neg hlg, if_pos hsh] at h
    cases h
  | case4 len rest hlg hrm ih =>
    rw [nlriSanityCheck, if_neg hlg, if_neg hrm] at h
    obtain ⟨hrecords, hlp⟩ := ih h
    rw [not_tooLong_iff] at hlg
    constructor
    · rw [← take_append_drop (psize len.toNat) rest]
      exact .cons hlg (length_take_of_le (Nat.not_lt.mp hrm)) hrecords
    · intro fed
      rw [nlriLoop, fetchPrefix, dif_pos hlg]
      dsimp only
      rw [if_neg hrm]
      split
      · nofun
      · split
        · exact hlp fed
        · split
          · exact hlp _
          · nofun

/-! ## The codec -/

/-- Every prefix is handed on if all calls succeed, and else those up to the first call that
fails. -/
structure NlriCodec (afi : Afi) (safi : Safi) (call : List Prefix → Prefix → Bool) : Prop where
  encoded : ∀ p, Emits (streamPutPrefix p) p.record (psize p.prefixlen)
  accepted : ∀ ps : List Prefix, (∀ p ∈ ps, p.Plain afi) →
    nlriSanityCheck afi.number (ps.flatMap Prefix.record) = true
  parsed : ∀ ps : List Prefix, (∀ p ∈ ps, p.Plain afi) → CallsOk call [] ps →
    bgpNlriParse afi safi call true (ps.flatMap Prefix.record) = (ps, .done)
  stops : ∀ (ps : List Prefix) (p : Prefix) (qs : List Prefix), (∀ q ∈ ps ++ p :: qs, q.Plain afi) →
    CallsOk call [] ps → call ps p = false →
    bgpNlriParse afi safi call true ((ps ++ p :: qs).flatMap Prefix.record)
      = (ps ++ [p], .refused)
  records : ∀ bs, nlriSanityCheck afi.number bs = true → Records afi bs
    ∧ ∀ established, (bgpNlriParse afi safi call established bs).2 ≠ .badLength

theorem nlri_codec (afi : Afi) (safi : Safi) (call : List Prefix → Prefix → Bool) :
    NlriCodec afi safi call where
  encoded := emits_streamPutPrefix
  accepted _ := nlriSanityCheck_flatMap
  parsed ps h hca := by
    have hlp := @nlriLoop_flatMap afi safi call [] [] ps h hca
    rwa [List.append_nil, nlriLoop] at hlp
  stops ps p qs h hca hno := by
    obtain ⟨hps, hp⟩ := forall_mem_append.mp h
    rw [flatMap_append, flatMap_cons]
    refine (nlriLoop_flatMap hps hca).trans ?_
    rw [nil_append, nlriLoop_record (hp p mem_cons_self), if_neg (by simp [hno])]
  records := fun bs h => (records_of_sane bs h).imp_right fun hloop established => by
    cases established with
    | false => nofun
    | true => exact hloop []

/-- `bgp_update` fails for the first prefix, and is not called for the second. -/
theorem nlri_stops : bgpNlriParse .ip .unicast (fun _ _ => false) true
      ([⟨8, .inet 0x0a000000, by decide⟩, ⟨8, .inet 0x0b000000, by decide⟩].flatMap Prefix.record)
    = ([⟨8, .inet 0x0a000000, by decide⟩], .refused) := by
  decide +kernel

end SdnQuagga
