import SdnQuagga.OspfPacket
import SdnQuagga.OspfPacketExamin

/-!
# Authentication of OSPF packets

The two ends of `ospfd/ospf_packet.c`: `ospf_make_md5_digest`, with which a packet gets its
sequence number and its digest just before it is written, and `ospf_check_auth` of the peer.
MD5 is a parameter.

What is in the header of a packet is stated on `OspfHeader`: the assignments of
`ospf_make_header` and `ospf_fill_header` change one field each. A packet that is `Built`
with a sound body is accepted (`PeerAccepts`) if the peer finds the key that the digest was
made with: the sender takes the last key of its list, and the peer the first one with the
same number.
-/

namespace SdnQuagga

open FaultM
open SdnQuagga.Stream (poke forwardEndp put)

variable (md5 : List UInt8 → Vector UInt8 16)

open List (drop_zero length_append length_replicate replicate take_left)

/-! ## The code -/

/-- `if (t > oi->crypt_seqnum) oi->crypt_seqnum = t; else oi->crypt_seqnum++;` -/
def nextSeqnum (t cryptSeqnum : UInt32) : UInt32 :=
  if cryptSeqnum < t then t else cryptSeqnum + 1

/-- `ospf_make_md5_digest` at a time of the clock; the state is `oi->crypt_seqnum`. -/
def ospfMakeMd5Digest (oi : OspfIf) (time : Nat) (op : OspfPacket) : FaultM UInt32 OspfPacket :=
  if wordAt op.s.data 14 ≠ OspfAuth.cryptographic.code.toNat then return op
  else do
    modify (nextSeqnum (.ofNat time))
    let cryptSeqnum ← get
    let numbered ← on (poke 20 (be32 cryptSeqnum)) op.s
    match oi.authCrypt.getLast? with
    -- sixteen bytes from the empty string
    | none => throw .outOfBounds
    | some ck =>
      let length := wordAt numbered.2.data 2
      let digest := md5 (numbered.2.data.take length ++ ck.authKey.toList)
      let signed ← on (put digest.toList) numbered.2
      return { op with s := signed.2, length := .ofNat (length + ospfAuthMd5Size) }

/-- The bytes that `ospf_write` gives to `sendmsg`. -/
def sentBytes (op : OspfPacket) : FaultM UInt32 (List UInt8) :=
  if op.length.toNat ≤ op.s.size then return op.s.data.take op.length.toNat
  else throw .outOfBounds

def ospfCryptKeyLookup (authCrypt : List CryptKey) (keyId : UInt8) : Option CryptKey :=
  authCrypt.find? (·.keyId = keyId)

def ospfCheckSum (wire : List UInt8) : Bool :=
  let cleared := wire.take 12 ++ [0, 0] ++ (wire.drop 14).take 2 ++ replicate 8 0 ++ wire.drop 24
  (inCksum (cleared.take (declaredLength wire))).toNat = wordAt wire 12

/-- `ospf_check_md5_digest`, and the number that is then stored for the neighbor. -/
def ospfCheckMd5Digest (oi : OspfIf)
    (stored : Option UInt32) (wire : List UInt8) : Bool × Option UInt32 :=
  let length := declaredLength wire
  match ospfCryptKeyLookup oi.authCrypt (wire.getD 18 0) with
  | none => (false, stored)
  | some ck =>
    let cryptSeqnum := UInt32.ofNat (longAt wire 20)
    if stored.any (cryptSeqnum < ·) then (false, stored)
    else if (wire.drop length).take 16
        ≠ (md5 (wire.take length ++ ck.authKey.toList)).toList then (false, stored)
    else (true, stored.map fun _ => cryptSeqnum)

/-- `ospf_check_auth`. There is a last key where it is asked for, because without keys the
interface has no cryptographic authentication. -/
def ospfCheckAuth (oi : OspfIf) (stored : Option UInt32)
    (wire : List UInt8) : Bool × Option UInt32 :=
  match wordAt wire 14 with
  | 0 => (ospfAuthType oi = .null ∧ ospfCheckSum wire = true, stored)
  | 1 => (ospfAuthType oi = .simple ∧ oi.authSimple.toList = (wire.drop 16).take 8
      ∧ ospfCheckSum wire = true, stored)
  | 2 =>
    if ospfAuthType oi ≠ .cryptographic then (false, stored)
    else if wordAt wire 12 ≠ 0 then (false, stored)
    else match oi.authCrypt.getLast? with
      | none => (false, stored)
      | some ck =>
        if wire.getD 18 0 ≠ ck.keyId then (false, stored)
        else ospfCheckMd5Digest md5 oi stored wire
  | _ => (false, stored)

/-! ## Replays -/

/-- The numbers of the packets of a neighbor that are taken, if `n` is stored for it. -/
def md5Taken (oi : OspfIf) : UInt32 → List (List UInt8) → List UInt32
  | _, [] => []
  | n, wire :: wires =>
    match ospfCheckMd5Digest md5 oi (some n) wire with
    | (true, stored) => .ofNat (longAt wire 20) :: md5Taken oi (stored.getD n) wires
    | (false, stored) => md5Taken oi (stored.getD n) wires

theorem md5_numbers_ascend (oi : OspfIf) (n : UInt32) (wires : List (List UInt8)) :
    (n :: md5Taken md5 oi n wires).Pairwise (· ≤ ·) := by
  induction wires generalizing n with
  | nil => exact List.pairwise_singleton _ n
  | cons wire wires ih =>
    have hck : ospfCheckMd5Digest md5 oi (some n) wire = (false, some n)
        ∨ ∃ m, n ≤ m ∧ m = .ofNat (longAt wire 20)
          ∧ ospfCheckMd5Digest md5 oi (some n) wire = (true, some m) := by
      unfold ospfCheckMd5Digest
      grind [UInt32.not_lt]
    rw [md5Taken]
    rcases hck with h | ⟨m, hle, rfl, h⟩
    · rw [h]
      exact ih n
    · have hms := List.pairwise_cons.mp (ih (.ofNat (longAt wire 20)))
      rw [h]
      refine List.pairwise_cons.mpr ⟨List.forall_mem_cons.mpr ⟨hle, fun k hk => ?_⟩, ih _⟩
      exact UInt32.le_trans hle (hms.1 k hk)

/-! ## Headers -/

/-- `struct ospf_header`. -/
structure OspfHeader where
  version : UInt8
  type : UInt8
  length : UInt16
  routerId : UInt32
  areaId : UInt32
  checksum : UInt16
  authType : UInt16
  auth : List UInt8
  length_auth : auth.length = 8

/-- The header, and what is behind it. -/
def OspfHeader.onto (h : OspfHeader) (rest : List UInt8) : List UInt8 :=
  h.version :: h.type :: (be16 h.length ++ (be32 h.routerId ++ (be32 h.areaId
    ++ (be16 h.checksum ++ (be16 h.authType ++ (h.auth ++ rest))))))

theorem ofBE_be16 (w : UInt16) : ofBE (be16 w) = w.toNat := by
  rw [be16, ofBE_toBE_of_lt w.toNat_lt]

theorem ofBE_be32 (l : UInt32) : ofBE (be32 l) = l.toNat := by
  rw [be32, ofBE_toBE_of_lt l.toNat_lt]

section

variable (h : OspfHeader) (rest : List UInt8)

@[simp] theorem length_onto : (h.onto rest).length = 24 + rest.length := by
  have := h.length_auth
  simp only [OspfHeader.onto, List.length_cons, length_append, be16_length, be32_length]
  omega

theorem take_onto (n : Nat) : (h.onto rest).take (24 + n) = h.onto (rest.take n) := by
  have hau := h.length_auth
  have htk : (h.auth ++ rest).take (n + 8) = h.auth ++ rest.take n := by
    rw [List.take_append, List.take_of_length_le (by omega), hau, Nat.add_sub_cancel]
  rw [Nat.add_comm]
  show h.version :: h.type :: (be16 h.length ++ (be32 h.routerId ++ (be32 h.areaId
    ++ (be16 h.checksum ++ (be16 h.authType ++ (h.auth ++ rest).take (n + 8)))))) = _
  rw [htk]
  rfl

theorem drop_onto (n : Nat) : (h.onto rest).drop (24 + n) = rest.drop n := by
  have hau := h.length_auth
  rw [Nat.add_comm]
  show (h.auth ++ rest).drop (n + 8) = _
  rw [List.drop_append, List.drop_eq_nil_of_le (by omega), hau, Nat.add_sub_cancel, List.nil_append]

theorem onto_append (rest' : List UInt8) : h.onto rest ++ rest' = h.onto (rest ++ rest') := by
  simp [OspfHeader.onto]

theorem wordAt_onto_length : wordAt (h.onto rest) 2 = h.length.toNat :=
  ofBE_be16 h.length

theorem wordAt_onto_checksum : wordAt (h.onto rest) 12 = h.checksum.toNat :=
  ofBE_be16 h.checksum

theorem wordAt_onto_authType : wordAt (h.onto rest) 14 = h.authType.toNat :=
  ofBE_be16 h.authType

theorem auth_onto : ((h.onto rest).drop 16).take 8 = h.auth :=
  List.take_left' h.length_auth

end

/-- The computation changes the header from `h` to `h'` and leaves what is behind it. -/
def HeaderSets (m : StreamM Unit) (h h' : OspfHeader) : Prop :=
  ∀ (s : Stream) (rest : List UInt8), s.data = h.onto rest →
    ∃ s', m s = .ok ((), s') ∧ s'.data = h'.onto rest ∧ s'.endp = s.endp

theorem HeaderSets.seq {m n : StreamM Unit} {h h' h'' : OspfHeader} (hm : HeaderSets m h h')
    (hn : HeaderSets n h' h'') : HeaderSets (do m; n) h h'' := by
  intro s rest hda
  obtain ⟨s', hr, hda', he⟩ := hm s rest hda
  obtain ⟨s'', hr', hdata'', he'⟩ := hn s' rest hda'
  exact ⟨s'', by rw [bind_ok hr, hr'], hdata'', he'.trans he⟩

theorem sets_poke {pos : Nat} {bs : List UInt8} {h h' : OspfHeader} (hft : pos + bs.length ≤ 24)
    (hs : ∀ rest, (h.onto rest).take pos ++ bs ++ (h.onto rest).drop (pos + bs.length)
      = h'.onto rest) : HeaderSets (poke pos bs) h h' := by
  intro s rest hda
  have hrm : pos + bs.length ≤ s.size := by
    rw [Stream.size, hda, length_onto]
    omega
  refine ⟨_, dif_pos hrm, ?_, rfl⟩
  show s.data.take pos ++ bs ++ s.data.drop (pos + bs.length) = _
  rw [hda, hs]

section

variable (h : OspfHeader)

theorem sets_versionType (version type : UInt8) :
    HeaderSets (poke 0 [version, type]) h { h with version := version, type := type } :=
  sets_poke (Nat.le_add_left 2 22) fun _ => rfl

theorem sets_length (length : UInt16) :
    HeaderSets (poke 2 (be16 length)) h { h with length := length } :=
  sets_poke (Nat.le_add_left 4 20) fun _ => rfl

theorem sets_routerId (routerId : UInt32) :
    HeaderSets (poke 4 (be32 routerId)) h { h with routerId := routerId } :=
  sets_poke (Nat.le_add_left 8 16) fun _ => rfl

theorem sets_areaId (areaId : UInt32) :
    HeaderSets (poke 8 (be32 areaId)) h { h with areaId := areaId } :=
  sets_poke (Nat.le_add_left 12 12) fun _ => rfl

theorem sets_checksum (checksum : UInt16) :
    HeaderSets (poke 12 (be16 checksum)) h { h with checksum := checksum } :=
  sets_poke (Nat.le_add_left 14 10) fun _ => rfl

theorem sets_authType (authType : UInt16) :
    HeaderSets (poke 14 (be16 authType)) h { h with authType := authType } :=
  sets_poke (Nat.le_add_left 16 8) fun _ => rfl

theorem sets_auth {pos : Nat} {bs auth : List UInt8} (hlen : auth.length = 8)
    (hft : pos + bs.length ≤ 8)
    (hs : h.auth.take pos ++ bs ++ h.auth.drop (pos + bs.length) = auth) :
    HeaderSets (poke (16 + pos) bs) h { h with auth := auth, length_auth := hlen } := by
  have hau := h.length_auth
  refine sets_poke (by omega) fun rest => ?_
  have htk : (h.onto rest).take (16 + pos) = h.version :: h.type :: (be16 h.length
      ++ (be32 h.routerId ++ (be32 h.areaId ++ (be16 h.checksum ++ (be16 h.authType
        ++ h.auth.take pos))))) := by
    have hfront : h.auth.take pos = (h.auth ++ rest).take pos :=
      (List.take_append_of_le_length (by omega)).symm
    rw [Nat.add_comm, hfront]
    rfl
  have hdr : (h.onto rest).drop (16 + pos + bs.length) = h.auth.drop (pos + bs.length) ++ rest := by
    have hba : h.auth.drop (pos + bs.length) ++ rest = (h.auth ++ rest).drop (pos + bs.length) :=
      (List.drop_append_of_le_length (by omega)).symm
    rw [Nat.add_assoc, Nat.add_comm 16, hba]
    rfl
  subst hs
  rw [htk, hdr]
  simp [OspfHeader.onto]

end

/-! ## Packets with their header -/

theorem OspfAuth.code_ne {auth : OspfAuth} (h : auth ≠ cryptographic) :
    auth.code.toNat ≠ cryptographic.code.toNat := by
  cases auth with
  | null => decide
  | simple => decide
  | cryptographic => exact (h rfl).elim

variable (oi : OspfIf)

/-- The header after `ospf_make_header`. -/
def openedHeader (type : UInt8) : OspfHeader where
  version := ospfVersion
  type := type
  length := 0
  routerId := oi.routerId
  areaId := oi.areaId
  checksum := 0
  authType := (ospfAuthType oi).code
  auth := replicate 8 0
  length_auth := length_replicate ..

/-- What `ospf_make_auth` fills in; of the keys the last one is taken. -/
def authData : List UInt8 :=
  match ospfAuthType oi with
  | .null => replicate 8 0
  | .simple => oi.authSimple.toList
  | .cryptographic => [0, 0, (oi.authCrypt.getLast?.map CryptKey.keyId).getD 0, 16, 0, 0, 0, 0]

theorem length_authData : (authData oi).length = 8 := by
  unfold authData
  split
  · rfl
  · exact Vector.length_toList
  · rfl

/-- The header after `ospf_fill_header`. -/
def filledHeader (type : UInt8) (body : List UInt8) : OspfHeader :=
  let h := { openedHeader oi type with length := .ofNat (24 + body.length) }
  { h with
    checksum := if ospfAuthType oi = .cryptographic then 0 else inCksum (h.onto body)
    auth := authData oi
    length_auth := length_authData oi }

theorem makeHeader_opened (oi : OspfIf) (type : UInt8) {size : Nat} (hsize : 24 ≤ size) :
    ∃ s, ospfMakeHeader type oi (Stream.new size) = .ok ((), s) ∧ s.size = size
      ∧ s.endp = 24 ∧ s.written = (openedHeader oi type).onto [] := by
  let zero : OspfHeader := ⟨0, 0, 0, 0, 0, 0, 0, replicate 8 0, length_replicate ..⟩
  have hnw : (Stream.new size).data = zero.onto (replicate (size - 24) 0) := by
    have hwo : be16 0 = replicate 2 0 := by decide
    have hlg : be32 0 = replicate 4 0 := by decide
    have hz : zero.onto (replicate (size - 24) 0) = replicate 24 0 ++ replicate (size - 24) 0 := by
      simp only [zero, OspfHeader.onto, hwo, hlg]
      rfl
    rw [hz, List.replicate_append_replicate, Nat.add_sub_cancel' hsize]
    rfl
  have hau : HeaderSets (poke 16 (replicate 8 0)) _ (openedHeader oi type) :=
    @sets_auth { openedHeader oi type with } 0 _ _ (length_replicate ..) (Nat.le_refl 8) rfl
  have hsets : HeaderSets (do
      poke 0 [ospfVersion, type]
      poke 4 (be32 oi.routerId)
      poke 12 (be16 0)
      poke 8 (be32 oi.areaId)
      poke 14 (be16 (ospfAuthType oi).code)
      poke 16 (replicate 8 0)) zero (openedHeader oi type) :=
    (sets_versionType _ _ _).seq <| (sets_routerId _ _).seq <| (sets_checksum _ _).seq <|
    (sets_areaId _ _).seq <| (sets_authType _ _).seq hau
  obtain ⟨s, hr, hda, he⟩ := hsets _ _ hnw
  have hfu : s.size = size := by
    rw [Stream.size, hda, length_onto, length_replicate]
    omega
  have hz : s.endp = 0 := he
  obtain ⟨s', hfwd, hda', he'⟩ :=
    Stream.forwardEndp_ok (show s.endp + ospfHeaderSize ≤ s.size by rw [ospfHeaderSize]; omega)
  refine ⟨s', ?_, (congrArg List.length hda').trans hfu, by rw [he', hz]; rfl, ?_⟩
  · unfold ospfMakeHeader
    simp only [← bind_assoc] at hr ⊢
    rw [bind_ok hr, hfwd]
  · rw [Stream.written, hda', he', hda, hz, Nat.zero_add]
    exact take_onto _ _ 0

theorem makeAuth_sets {h : OspfHeader} {auth : List UInt8}
    (hlen : auth.length = 8) (hz : h.auth = replicate 8 0) (hau : authData oi = auth) :
    HeaderSets (ospfMakeAuth oi) h { h with auth := auth, length_auth := hlen } := by
  unfold ospfMakeAuth
  unfold authData at hau
  cases hty : ospfAuthType oi with
  | null =>
    rw [hty] at hau
    have hnull : replicate 8 0 = auth := hau
    intro s rest hda
    exact ⟨s, rfl, by rw [hda, OspfHeader.onto, hz, hnull]; rfl, rfl⟩
  | simple =>
    rw [hty] at hau
    refine @sets_auth h 0 _ _ hlen ?_ ?_
    · rw [Vector.length_toList]
    · rw [Vector.length_toList, hz, ← hau]
      exact List.append_nil _
  | cryptographic =>
    rw [hty] at hau
    cases hla : oi.authCrypt.getLast? with
    | none | some ck =>
      rw [hla] at hau
      exact @sets_auth h 0 _ _ hlen (Nat.le_add_right 4 4) (by rw [hz, ← hau]; rfl)

theorem fillHeader_filled {oi : OspfIf} {type : UInt8} {length : UInt16} {s : Stream}
    {body : List UInt8} (hwr : s.written = (openedHeader oi type).onto body)
    (hln : length.toNat = 24 + body.length) :
    ∃ s', ospfFillHeader oi length s = .ok ((), s') ∧ s'.size = s.size
      ∧ s'.written = (filledHeader oi type body).onto body := by
  have hda : s.data = (openedHeader oi type).onto (body ++ s.data.drop s.endp) := by
    rw [← onto_append, ← hwr, Stream.written, List.take_append_drop]
  have he : s.endp = 24 + body.length := by rw [← Stream.written_length, hwr, length_onto]
  generalize s.data.drop s.endp = free at hda
  have hwo : length = .ofNat (24 + body.length) := by rw [← hln, UInt16.ofNat_toNat]
  obtain ⟨s1, hr1, hda1, he1⟩ := sets_length (openedHeader oi type) length s _ hda
  have hty : ofBE ((s1.data.drop 14).take 2) = (ospfAuthType oi).code.toNat := by
    show wordAt s1.data 14 = _
    rw [hda1, wordAt_onto_authType, openedHeader]
  have hby : s1.data.take length.toNat
      = OspfHeader.onto { openedHeader oi type with length := length } body := by
    rw [hda1, hln, take_onto, take_left]
  have hsets checksum :=
    (sets_checksum { openedHeader oi type with length := length } checksum).seq
      (makeAuth_sets oi (length_authData oi) rfl rfl) s1 _ hda1
  obtain ⟨s2, hr2, hda2, he2⟩ : ∃ s2, ospfFillHeader oi length s = .ok ((), s2)
      ∧ s2.data = (filledHeader oi type body).onto (body ++ free) ∧ s2.endp = s1.endp := by
    unfold ospfFillHeader
    rw [bind_ok hr1, get_bind, hty, hby]
    rw [filledHeader, ← hwo]
    by_cases hcy : ospfAuthType oi = .cryptographic
    · rw [if_neg (by rw [hcy]; exact not_not.mpr rfl), if_pos hcy]
      exact hsets 0
    · rw [if_pos (OspfAuth.code_ne hcy), if_neg hcy]
      generalize inCksum _ = checksum
      exact hsets checksum
  refine ⟨s2, hr2, ?_, ?_⟩
  · rw [Stream.size, Stream.size, hda, hda2, length_onto, length_onto]
  · rw [Stream.written, hda2, he2, he1, he, take_onto, take_left]

/-- A packet that waits to be written, with room for a digest. -/
structure Built (oi : OspfIf) (type : UInt8) (body : List UInt8) (op : OspfPacket) : Prop where
  written : op.s.written = (filledHeader oi type body).onto body
  length : op.length.toNat = 24 + body.length
  room : op.s.endp + ospfPacketAuthspace oi ≤ op.s.size
  short : 24 + body.length + ospfPacketAuthspace oi ≤ ospfMaxPacketSize

/-- A list that needs this many bytes gives a body that fits into a packet. -/
def ListFits (bytes : Nat) : Prop :=
  24 + min bytes (ospfPacketMax oi).toNat + ospfPacketAuthspace oi ≤ ospfMaxPacketSize

theorem fill_built {oi : OspfIf} {type : UInt8} {length : UInt16} {s : Stream}
    {body : List UInt8} (hwr : s.written = (openedHeader oi type).onto body)
    (hln : length.toNat = body.length) (hrm : s.endp + ospfPacketAuthspace oi ≤ s.size)
    (hsh : 24 + body.length + ospfPacketAuthspace oi ≤ ospfMaxPacketSize) :
    ∃ s', ospfFillHeader oi (.ofNat ospfHeaderSize + length) s = .ok ((), s')
      ∧ ∀ dst, Built oi type body ⟨s', dst, .ofNat ospfHeaderSize + length⟩ := by
  have htot : (UInt16.ofNat ospfHeaderSize + length).toNat = 24 + body.length := by
    unfold ospfMaxPacketSize at hsh
    rw [UInt16.toNat_add, hln]
    exact Nat.mod_eq_of_lt (show 24 + body.length < 65536 by omega)
  obtain ⟨s', hfl, hsize, hfilled⟩ := fillHeader_filled hwr htot
  refine ⟨s', hfl, fun dst => ⟨hfilled, htot, ?_, hsh⟩⟩
  have he : s'.endp = s.endp := by
    rw [← Stream.written_length, ← Stream.written_length, hwr, hfilled, length_onto, length_onto]
  rwa [hsize, he]

/-- What `ospf_packet_examin` asks of the part behind the header. -/
def bodyExamin (behind type : UInt8) (body : List UInt8) : Examined :=
  if body.length < ospfPacketMinlen type then .of false
  else match type with
    | 1 => .of ((body.length - 20) % 4 = 0)
    | 2 => ospfLsaseqExamin behind (body.drop 8) true 0 0
    | 3 => .of (body.length % 12 = 0)
    | 4 => ospfLsaseqExamin behind (body.drop 4) false (longAt body 0) 0
    | 5 => ospfLsaseqExamin behind body true 0 0
    | _ => .of false

theorem bodyExamin_other (behind : UInt8) {type : UInt8} (body : List UInt8) (h1 : type ≠ 1)
    (h2 : type ≠ 2) (h3 : type ≠ 3) (h4 : type ≠ 4) (h5 : type ≠ 5) :
    bodyExamin behind type body = .of false := by
  unfold bodyExamin
  split
  · rfl
  · split
    · exact (h1 rfl).elim
    · exact (h2 rfl).elim
    · exact (h3 rfl).elim
    · exact (h4 rfl).elim
    · exact (h5 rfl).elim
    · rfl

theorem packetExamin_onto (behind : UInt8) {h : OspfHeader} {body digest : List UInt8}
    (hvers : h.version = 2) (hln : h.length.toNat = 24 + body.length)
    (hau : h.authType.toNat = 2 → h.auth.getD 3 0 = 16 ∧ digest.length = 16) :
    ospfPacketExamin behind (h.onto (body ++ digest)) = bodyExamin behind h.type body := by
  have hdec : declaredLength (h.onto (body ++ digest)) = 24 + body.length := by
    rw [declaredLength, wordAt_onto_length, hln]
  have hpkt : (h.onto (body ++ digest)).take (24 + body.length) = h.onto body := by
    rw [take_onto, take_left]
  have hk : (h.onto (body ++ digest)).getD 19 0 = h.auth.getD 3 0 :=
    List.getD_append h.auth _ 0 3 (by rw [h.length_auth]; omega)
  have hty : (h.onto (body ++ digest)).getD 1 0 = h.type := rfl
  have hf : (h.onto (body ++ digest)).getD 0 0 = 2 := hvers
  have hby : bytesAuth (h.onto (body ++ digest)) ≤ digest.length := by
    rw [bytesAuth, wordAt_onto_authType]
    split
    next hcy => exact (hau hcy).2.ge
    · exact Nat.zero_le _
  have hlg : longAt (h.onto (body ++ digest)) 24 = longAt (body ++ digest) 0 := by
    rw [longAt, longAt, drop_onto _ _ 0]
  unfold ospfPacketExamin
  dsimp only
  rw [length_onto, length_append, if_neg (by omega), hf, if_neg (not_not.mpr rfl),
    wordAt_onto_authType, hk, if_neg (fun hb => hb.2 (hau hb.1).1), hdec,
    if_neg (by omega), hty, hpkt, drop_onto _ _ 8, drop_onto _ _ 4, drop_onto _ _ 0,
    drop_zero, hlg]
  generalize h.type = type
  by_cases hmi : body.length < ospfPacketMinlen type
  · have hrng : 1 ≤ type ∧ type ≤ 5 := by
      unfold ospfPacketMinlen at hmi
      split at hmi
      · decide
      · decide
      · decide
      · exact absurd hmi (Nat.not_lt_zero _)
    unfold bodyExamin
    rw [if_pos hmi, if_pos ⟨hrng.1, hrng.2, by omega⟩]
  · have hbd : bodyExamin behind type body = _ := if_neg hmi
    rw [if_neg (fun hb => by omega)]
    split
    · have hsb : 24 + body.length - 44 = body.length - 20 := by omega
      rw [hbd, hsb]
      rfl
    · exact hbd.symm
    · rw [hbd, Nat.add_sub_cancel_left]
      rfl
    · have hfo : 4 ≤ body.length := Nat.not_lt.mp hmi
      have hct : longAt (body ++ digest) 0 = longAt body 0 := by
        rw [longAt, longAt, drop_zero, drop_zero, List.take_append_of_le_length hfo]
      rw [hbd, hct]
      rfl
    · exact hbd.symm
    next _ h1 h2 h3 h4 h5 => exact (bodyExamin_other behind body h1 h2 h3 h4 h5).symm

/-! ## What the peer says -/

/-- The last key of the list, which the sender takes, is the one that the peer finds under
its number. -/
def KeysAgree (authCrypt : List CryptKey) : Prop :=
  ∀ ck ∈ authCrypt.getLast?,
    (ospfCryptKeyLookup authCrypt ck.keyId).map CryptKey.authKey = some ck.authKey

/-- The peer has the same authentication settings. -/
structure SameAuth (oi peer : OspfIf) : Prop where
  authType : peer.authType = oi.authType
  areaAuthType : peer.areaAuthType = oi.areaAuthType
  authSimple : peer.authSimple = oi.authSimple
  authCrypt : peer.authCrypt = oi.authCrypt

/-- The packet passes `ospf_packet_examin` and `ospf_check_auth`. -/
def PeerAccepts (peer : OspfIf) (stored : Option UInt32) (wire : List UInt8) : Prop :=
  (∀ behind, (ospfPacketExamin behind wire).ok = true)
    ∧ (ospfCheckAuth md5 peer stored wire).1 = true

/-- The header with the sequence number. -/
def signedHeader (type : UInt8) (body : List UInt8) (ck : CryptKey)
    (cryptSeqnum : UInt32) : OspfHeader :=
  { filledHeader oi type body with
    auth := [0, 0, ck.keyId, 16] ++ be32 cryptSeqnum
    length_auth := by rw [length_append, be32_length]; rfl }

/-- What is sent, with the key `ck`, as number `cryptSeqnum`. -/
def signedWire (oi : OspfIf) (type : UInt8)
    (body : List UInt8) (ck : CryptKey) (cryptSeqnum : UInt32) : List UInt8 :=
  let h := signedHeader oi type body ck cryptSeqnum
  h.onto (body ++ (md5 (h.onto body ++ ck.authKey.toList)).toList)

theorem SameAuth.type {oi peer : OspfIf} (h : SameAuth oi peer) :
    ospfAuthType peer = ospfAuthType oi := by
  rw [ospfAuthType, ospfAuthType, h.authType, h.areaAuthType, h.authCrypt]

variable {md5} {oi peer : OspfIf} {type : UInt8}
  {body : List UInt8} {op : OspfPacket}

theorem exists_last_key (hcy : ospfAuthType oi = .cryptographic) :
    ∃ ck, oi.authCrypt.getLast? = some ck := by
  cases hla : oi.authCrypt.getLast? with
  | some ck => exact ⟨ck, rfl⟩
  | none =>
    have hni : oi.authCrypt = [] := List.getLast?_eq_none_iff.mp hla
    unfold ospfAuthType at hcy
    dsimp only at hcy
    split at hcy
    · cases hcy
    next hnt => exact (hnt ⟨hcy, hni⟩).elim

theorem filled_length (h : Built oi type body op) :
    (filledHeader oi type body).length.toNat = 24 + body.length := by
  have hsh := h.short
  unfold ospfMaxPacketSize at hsh
  exact UInt16.toNat_ofNat_of_lt' (show 24 + body.length < 65536 by omega)

theorem Built.endp (h : Built oi type body op) : op.s.endp = 24 + body.length := by
  rw [← Stream.written_length, h.written, length_onto]

theorem Built.data (h : Built oi type body op) :
    op.s.data = (filledHeader oi type body).onto (body ++ op.s.data.drop op.s.endp) := by
  rw [← onto_append, ← h.written, Stream.written, List.take_append_drop]

theorem sentBytes_written (hln : op.length.toNat = op.s.endp) (cryptSeqnum : UInt32) :
    sentBytes op cryptSeqnum = .ok (op.s.written, cryptSeqnum) := by
  rw [sentBytes, if_pos (hln ▸ op.s.endp_le_size), hln]
  rfl

/-- Without cryptographic authentication a packet is sent as it was built. -/
theorem Built.sent_plain (h : Built oi type body op)
    (hpln : ospfAuthType oi ≠ .cryptographic) (time : Nat) (cryptSeqnum : UInt32) :
    (ospfMakeMd5Digest md5 oi time op >>= sentBytes) cryptSeqnum
      = .ok ((filledHeader oi type body).onto body, cryptSeqnum) := by
  have ho : wordAt op.s.data 14 ≠ OspfAuth.cryptographic.code.toNat := by
    rw [h.data, wordAt_onto_authType]
    exact OspfAuth.code_ne hpln
  have hdig : ospfMakeMd5Digest md5 oi time op cryptSeqnum = .ok (op, cryptSeqnum) := by
    rw [ospfMakeMd5Digest, if_pos ho]
    rfl
  rw [bind_ok hdig, sentBytes_written (h.length.trans h.endp.symm), h.written]

/-- With it a packet gets its number and its digest. -/
theorem Built.sent_signed (h : Built oi type body op)
    (hcy : ospfAuthType oi = .cryptographic) {ck : CryptKey}
    (hla : oi.authCrypt.getLast? = some ck) (time : Nat) (cryptSeqnum : UInt32) :
    (ospfMakeMd5Digest md5 oi time op >>= sentBytes) cryptSeqnum
      = .ok (signedWire md5 oi type body ck (nextSeqnum (.ofNat time) cryptSeqnum),
        nextSeqnum (.ofNat time) cryptSeqnum) := by
  have hrm := h.room
  have hsh := h.short
  have he := h.endp
  rw [ospfPacketAuthspace, if_pos hcy, ospfAuthMd5Size] at hrm hsh
  unfold ospfMaxPacketSize at hsh
  generalize hsn : nextSeqnum (.ofNat time) cryptSeqnum = seqnum
  have hco : wordAt op.s.data 14 = OspfAuth.cryptographic.code.toNat := by
    rw [h.data, wordAt_onto_authType, ← hcy]
    rfl
  -- The number replaces the last four bytes of the authentication data.
  have hsets : HeaderSets (poke 20 (be32 seqnum)) (filledHeader oi type body)
      (signedHeader oi type body ck seqnum) := by
    refine @sets_auth _ 4 _ _ _ (Nat.le_refl 8) ?_
    show (authData oi).take 4 ++ be32 seqnum ++ (authData oi).drop 8 = _
    rw [authData, hcy, hla]
    rfl
  obtain ⟨s1, hpoke, hda1, he1⟩ := hsets _ _ h.data
  have hl1 : wordAt s1.data 2 = 24 + body.length := by
    rw [hda1, wordAt_onto_length]
    exact filled_length h
  have hwr1 : s1.written = (signedHeader oi type body ck seqnum).onto body := by
    rw [Stream.written, hda1, he1, he, take_onto, take_left]
  have hsz1 : s1.size = op.s.size := by
    rw [Stream.size, Stream.size, hda1, length_onto, ← length_onto, ← h.data]
  have hby : s1.data.take (24 + body.length) = (signedHeader oi type body ck seqnum).onto body := by
    rw [← hwr1, Stream.written, he1, he]
  generalize hdig : md5 ((signedHeader oi type body ck seqnum).onto body ++ ck.authKey.toList)
    = digest
  have hput : put digest.toList s1 = .ok ((), s1.append digest.toList) := by
    refine Stream.emits_put _ s1 ?_
    rw [Vector.length_toList, Stream.writeable, hsz1, he1]
    omega
  have hmake : ospfMakeMd5Digest md5 oi time op cryptSeqnum = .ok ({ op with
      s := s1.append digest.toList,
      length := .ofNat (24 + body.length + ospfAuthMd5Size) }, seqnum) := by
    unfold ospfMakeMd5Digest
    rw [if_neg (not_not.mpr hco), modify_bind, get_bind, hsn, on_bind_ok hpoke, hla]
    dsimp only
    rw [hl1, hby, hdig, on_bind_ok hput]
    rfl
  rw [bind_ok hmake, sentBytes_written]
  · dsimp only
    rw [Stream.append_written, hwr1, onto_append, signedWire, hdig]
  · dsimp only
    rw [Stream.append_endp, Vector.length_toList, he1, he]
    exact UInt16.toNat_ofNat_of_lt' (show 24 + body.length + 16 < 65536 by omega)

/-- The peer clears what the sender had not yet filled in when it made the checksum. -/
theorem checkSum_filled (h : Built oi type body op) (hpln : ospfAuthType oi ≠ .cryptographic) :
    ospfCheckSum ((filledHeader oi type body).onto body) = true := by
  have hln := filled_length h
  unfold ospfCheckSum
  dsimp only
  have hcleared : ((filledHeader oi type body).onto body).take 12 ++ [0, 0]
      ++ (((filledHeader oi type body).onto body).drop 14).take 2 ++ replicate 8 0
      ++ ((filledHeader oi type body).onto body).drop 24
      = OspfHeader.onto { openedHeader oi type with length := .ofNat (24 + body.length) } body := by
    have hwo : ([0, 0] : List UInt8) = be16 0 := by decide
    rw [drop_onto _ _ 0, hwo]
    rfl
  rw [declaredLength, wordAt_onto_length, wordAt_onto_checksum, hln, hcleared, take_onto,
    List.take_length]
  simp [filledHeader, hpln]

theorem plain_accepted (h : Built oi type body op) (hpln : ospfAuthType oi ≠ .cryptographic)
    (hsm : SameAuth oi peer) (hbd : ∀ behind, (bodyExamin behind type body).ok = true)
    (stored : Option UInt32) :
    PeerAccepts md5 peer stored ((filledHeader oi type body).onto body) := by
  have hsu := checkSum_filled h hpln
  have hco : wordAt ((filledHeader oi type body).onto body) 14 = (ospfAuthType oi).code.toNat :=
    wordAt_onto_authType _ _
  constructor
  · intro behind
    have hexamin := @packetExamin_onto behind (filledHeader oi type body) body [] rfl
      (filled_length h) fun hcy => (OspfAuth.code_ne hpln hcy).elim
    rw [List.append_nil] at hexamin
    rw [hexamin]
    exact hbd behind
  · unfold ospfCheckAuth
    rw [hco]
    cases hau : ospfAuthType oi with
    | null => exact decide_eq_true ⟨hsm.type.trans hau, hsu⟩
    | simple =>
      refine decide_eq_true ⟨hsm.type.trans hau, ?_, hsu⟩
      rw [auth_onto, hsm.authSimple]
      show _ = authData oi
      rw [authData, hau]
    | cryptographic => exact (hpln hau).elim

theorem signed_accepted (h : Built oi type body op) (hcy : ospfAuthType oi = .cryptographic)
    {ck : CryptKey} (hla : oi.authCrypt.getLast? = some ck) (hks : KeysAgree oi.authCrypt)
    (hsm : SameAuth oi peer) (hbd : ∀ behind, (bodyExamin behind type body).ok = true)
    {stored : Option UInt32} {cryptSeqnum : UInt32} (hsto : ∀ v ∈ stored, v ≤ cryptSeqnum) :
    PeerAccepts md5 peer stored (signedWire md5 oi type body ck cryptSeqnum) := by
  obtain ⟨ck', hlk, hk⟩ := Option.map_eq_some_iff.mp (hks ck hla)
  have hln : (signedHeader oi type body ck cryptSeqnum).length.toNat = 24 + body.length :=
    filled_length h
  have hco : (signedHeader oi type body ck cryptSeqnum).authType.toNat
      = OspfAuth.cryptographic.code.toNat := by
    rw [← hcy]
    rfl
  have hchecksum : (signedHeader oi type body ck cryptSeqnum).checksum.toNat = 0 := by
    show (filledHeader oi type body).checksum.toNat = 0
    simp [filledHeader, hcy]
  have hnum rest :
      longAt ((signedHeader oi type body ck cryptSeqnum).onto rest) 20 = cryptSeqnum.toNat :=
    ofBE_be32 cryptSeqnum
  unfold signedWire
  dsimp only
  generalize hdig :
    (md5 ((signedHeader oi type body ck cryptSeqnum).onto body ++ ck.authKey.toList)).toList
    = digest
  have hsize : digest.length = 16 := by rw [← hdig, Vector.length_toList]
  constructor
  · intro behind
    rw [packetExamin_onto behind rfl hln fun _ => ⟨rfl, hsize⟩]
    exact hbd behind
  · have hid : ((signedHeader oi type body ck cryptSeqnum).onto (body ++ digest)).getD 18 0
        = ck.keyId := rfl
    have hmd5 : ospfCheckMd5Digest md5 peer stored
        ((signedHeader oi type body ck cryptSeqnum).onto (body ++ digest))
        = (true, stored.map fun _ => cryptSeqnum) := by
      have hnotlater : ¬ stored.any (cryptSeqnum < ·) = true := by
        cases stored with
        | none => exact Bool.false_ne_true
        | some v =>
          have hle := hsto v rfl
          simpa using hle
      unfold ospfCheckMd5Digest
      dsimp only
      rw [hid, hsm.authCrypt, hlk]
      dsimp only
      rw [hnum, UInt32.ofNat_toNat, if_neg hnotlater, declaredLength, wordAt_onto_length,
        hln, take_onto, take_left, drop_onto, List.drop_left, hk, hdig,
        List.take_of_length_le hsize.le, if_neg (not_not.mpr rfl)]
    unfold ospfCheckAuth
    rw [wordAt_onto_authType, hco]
    show (if ospfAuthType peer ≠ .cryptographic then (false, stored) else _).1 = true
    rw [if_neg (not_not.mpr (hsm.type.trans hcy)), wordAt_onto_checksum, hchecksum,
      if_neg (not_not.mpr rfl), hsm.authCrypt, hla]
    dsimp only
    rw [hid, if_neg (not_not.mpr rfl), hmd5]

end SdnQuagga
