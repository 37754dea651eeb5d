import SdnQuagga.Checksum
import SdnQuagga.Stream

/-!
# OSPF packets under construction

The parts of `ospfd/ospf_packet.c` that all packets go through: the room that the
authentication takes, the common header, and what is filled in when the body is there.
A packet is built in a stream, and its header is written by assignments through a pointer to
the first byte.

`OspfIf` is what stays the same while an interface sends, and `OspfIfState` are its queues.
An LSA in a queue is a pointer into a memory, and the queue holds a reference to it.
-/

namespace SdnQuagga

open FaultM
open SdnQuagga.Stream (poke forwardEndp put)

/-! ## Interfaces -/

inductive OspfAuth where
  | null
  | simple
  | cryptographic
deriving DecidableEq, Repr

def OspfAuth.code : OspfAuth → UInt16
  | null => 0
  | simple => 1
  | cryptographic => 2

/-- `struct crypt_key`, with the bytes of the key that go into a digest. -/
structure CryptKey where
  keyId : UInt8
  authKey : Vector UInt8 16
deriving DecidableEq, Repr

/-- `OSPF_IFTYPE_*`. -/
inductive OspfIfType where
  | none
  | pointopoint
  | broadcast
  | nbma
  | pointomultipoint
  | virtuallink
  | loopback
deriving DecidableEq, Repr

/-- `ISM_*`. -/
inductive IsmState where
  | dependUpon
  | down
  | loopback
  | waiting
  | pointToPoint
  | drOther
  | backup
  | dr
deriving DecidableEq, Repr

/-- `NSM_*`. -/
inductive NsmState where
  | dependUpon
  | deleted
  | down
  | attempt
  | init
  | twoWay
  | exStart
  | exchange
  | loading
  | full
deriving DecidableEq, Repr

/-- `state >= NSM_Exchange`. -/
def NsmState.exchanging : NsmState → Bool
  | exchange | loading | full => true
  | _ => false

/-- `struct ospf_neighbor`; `self` marks the one that `nbr_self` points to. -/
structure OspfNbr where
  address : UInt32
  routerId : UInt32
  state : NsmState
  dRouter : UInt32
  bdRouter : UInt32
  self : Bool
deriving DecidableEq, Repr

/-- `struct ospf_interface`, with the parts of its instance and its area that packets
carry. The neighbors stand in the order of their table, which has one for each address. The
transmit delay is configured with 16 bits. -/
structure OspfIf where
  mtu : UInt32
  routerId : UInt32
  areaId : UInt32
  address : UInt32
  type : OspfIfType
  state : IsmState
  /-- none is `OSPF_AUTH_NOTSET` -/
  authType : Option OspfAuth
  areaAuthType : OspfAuth
  authSimple : Vector UInt8 8
  authCrypt : List CryptKey
  transmitDelay : UInt16
  /-- of the virtual link -/
  peerAddr : UInt32
  nbrs : List OspfNbr
  nodup_nbrs : (nbrs.map OspfNbr.address).Nodup

open List

def ospfAllspfrouters : UInt32 := 0xe0000005
def ospfAlldrouters : UInt32 := 0xe0000006

def ospfHeaderSize : Nat := 24
def ospfLsaMaxage : Nat := 3600
def ospfLsaHeaderSize : Nat := 20
def ospfAuthMd5Size : Nat := 16
def ospfMaxPacketSize : Nat := 65535

/-- `sizeof (struct ip)`. -/
def ipHeaderSize : Nat := 20

variable (oi : OspfIf)

def ospfAuthType : OspfAuth :=
  let authType := oi.authType.getD oi.areaAuthType
  if authType = .cryptographic ∧ oi.authCrypt = [] then .null else authType

def ospfPacketAuthspace : Nat :=
  if ospfAuthType oi = .cryptographic then ospfAuthMd5Size else 0

def ospfPacketMax : UInt32 :=
  oi.mtu - .ofNat (ospfPacketAuthspace oi) - .ofNat (ospfHeaderSize + ipHeaderSize)

theorem authspace_le : ospfPacketAuthspace oi ≤ 16 := by
  unfold ospfPacketAuthspace ospfAuthMd5Size
  split <;> omega

theorem toNat_ospfPacketMax {oi : OspfIf} (h : 68 ≤ oi.mtu.toNat) :
    (ospfPacketMax oi).toNat = oi.mtu.toNat - ospfPacketAuthspace oi - 44 := by
  have hau := authspace_le oi
  have hspc : (UInt32.ofNat (ospfPacketAuthspace oi)).toNat = ospfPacketAuthspace oi :=
    UInt32.toNat_ofNat_of_lt' (Nat.lt_of_le_of_lt hau (Nat.lt_of_sub_eq_succ rfl))
  have hh : (UInt32.ofNat (ospfHeaderSize + ipHeaderSize)).toNat = 44 := rfl
  have hle : UInt32.ofNat (ospfPacketAuthspace oi) ≤ oi.mtu := by
    rw [UInt32.le_iff_toNat_le, hspc]
    omega
  unfold ospfPacketMax
  rw [UInt32.toNat_sub_of_le _ _ ?_, UInt32.toNat_sub_of_le _ _ hle, hspc, hh]
  rw [UInt32.le_iff_toNat_le, UInt32.toNat_sub_of_le _ _ hle, hspc, hh]
  omega

/-! ## The common header -/

/-- `in_cksum`. The words are read in the order of the network; in the other order the sum
has its bytes exchanged, and so has the word that it is stored to. -/
def inCksum (bs : List UInt8) : UInt16 := .ofNat (Checksum.inCksum true bs)

structure OspfPacket where
  s : Stream
  dst : UInt32
  length : UInt16
deriving DecidableEq, Repr

def ospfVersion : UInt8 := 2

def ospfMakeHeader (type : UInt8) (oi : OspfIf) : StreamM Unit := do
  poke 0 [ospfVersion, type]
  poke 4 (be32 oi.routerId)
  poke 12 (be16 0)
  poke 8 (be32 oi.areaId)
  poke 14 (be16 (ospfAuthType oi).code)
  poke 16 (replicate 8 0)
  forwardEndp ospfHeaderSize

def ospfMakeAuth : StreamM Unit :=
  match ospfAuthType oi with
  | .null => pure ()
  | .simple => poke 16 oi.authSimple.toList
  | .cryptographic =>
    match oi.authCrypt.getLast? with
    | none => poke 16 [0, 0, 0, .ofNat ospfAuthMd5Size]
    | some ck => poke 16 [0, 0, ck.keyId, .ofNat ospfAuthMd5Size]

variable (length : UInt16)

/-- `ospf_fill_header`. The checksum is over `length` bytes from the first one. -/
def ospfFillHeader : StreamM Unit := do
  poke 2 (be16 length)
  let s ← get
  if ofBE ((s.data.drop 14).take 2) ≠ OspfAuth.cryptographic.code.toNat then
    poke 12 (be16 (inCksum (s.data.take length.toNat)))
  else poke 12 (be16 0)
  ospfMakeAuth oi

/-! ## What the header does to the rest of the packet -/

/-- The stream keeps its size, its positions and its bytes from the body on. -/
structure SameBody (s s' : Stream) : Prop where
  size : s'.size = s.size
  endp : s'.endp = s.endp
  body : s'.written.drop ospfHeaderSize = s.written.drop ospfHeaderSize

/-- A step on the header that does not fail. -/
def HeaderStep (m : StreamM Unit) : Prop :=
  ∀ s : Stream, ospfHeaderSize ≤ s.size → ∃ s', m s = .ok ((), s') ∧ SameBody s s'

theorem SameBody.trans {s s' s'' : Stream} (h : SameBody s s') (h' : SameBody s' s'') :
    SameBody s s'' :=
  ⟨h'.size.trans h.size, h'.endp.trans h.endp, h'.body.trans h.body⟩

theorem headerStep_poke {pos : Nat} {bs : List UInt8} (h : pos + bs.length ≤ 24) :
    HeaderStep (poke pos bs) := by
  intro s hs
  have hft : pos + bs.length ≤ s.size := Nat.le_trans h hs
  exact ⟨_, dif_pos hft, Stream.splice_size _ _ _ hft, rfl, Stream.splice_drop_written _ hft h⟩

theorem headerStep_pure : HeaderStep (pure ()) := fun s _ => ⟨s, rfl, rfl, rfl, rfl⟩

theorem HeaderStep.seq {m n : StreamM Unit} (hm : HeaderStep m) (hn : HeaderStep n) :
    HeaderStep (do m; n) := by
  intro s hs
  obtain ⟨s', hrn, hsm⟩ := hm s hs
  obtain ⟨s'', hr', hsm'⟩ := hn s' (by rw [hsm.size]; exact hs)
  exact ⟨s'', by rw [bind_ok hrn, hr'], hsm.trans hsm'⟩

theorem headerStep_makeAuth : HeaderStep (ospfMakeAuth oi) := by
  have hk : 16 + oi.authSimple.toList.length ≤ 24 := by rw [Vector.length_toList]
  unfold ospfMakeAuth
  split
  · exact headerStep_pure
  · exact headerStep_poke hk
  · split
    · exact headerStep_poke (Nat.le_add_right 20 4)
    · exact headerStep_poke (Nat.le_add_right 20 4)

theorem headerStep_fillHeader : HeaderStep (ospfFillHeader oi length) := by
  refine (headerStep_poke (by rw [be16_length]; omega)).seq fun s => ?_
  rw [get_bind]
  split
  · exact (headerStep_poke (by rw [be16_length]; omega)).seq (headerStep_makeAuth oi) s
  · exact (headerStep_poke (by rw [be16_length]; omega)).seq (headerStep_makeAuth oi) s

/-! ## LSAs and the references to them -/

/-- `struct ospf_lsa`: the LSA as it lies in memory, as long as its header says.
`tvRecv` is in microseconds. -/
structure LsaData where
  data : List UInt8
  tvRecv : Int
  /-- `OSPF_LSA_DISCARD` -/
  discard : Bool
  header_le : 20 ≤ data.length
  length_eq : ofBE ((data.drop 18).take 2) = data.length

variable (lsa : LsaData)

def LsaData.header : List UInt8 := lsa.data.take ospfLsaHeaderSize

@[simp] theorem LsaData.length_header : lsa.header.length = 20 := by
  rw [header, length_take]
  exact Nat.min_eq_left lsa.header_le

theorem LsaData.length_lt : lsa.data.length < 65536 := by
  have hlt := ofBE_lt ((lsa.data.drop 18).take 2)
  have hlen : ((lsa.data.drop 18).take 2).length = 2 := by
    have := lsa.header_le
    rw [length_take, length_drop]
    omega
  rwa [hlen, lsa.length_eq] at hlt

/-- The queues of an interface, and the lock of each LSA. A list of updates belongs to the
address that it goes to. -/
structure OspfIfState where
  lock : Nat → Int
  lsUpdQueue : List (UInt32 × List Nat)
  lsAckDirect : List Nat
  lsAckDirectDst : UInt32
  lsAck : List Nat
  obuf : List OspfPacket

abbrev OspfIfM := FaultM OspfIfState

variable (st : OspfIfState) (refs : List Nat)

/-- The locks when these references are given back. -/
def OspfIfState.release : OspfIfState :=
  { st with lock := fun r => st.lock r - refs.count r }

/-- The references are given back, and the packets are in the output queue. -/
def OspfIfState.sent (pkts : List OspfPacket) :
    OspfIfState :=
  { st.release refs with obuf := st.obuf ++ pkts }

def ospfLsaLock (lsa : Nat) : OspfIfM Unit :=
  modify fun st => { st with lock := fun r => if r = lsa then st.lock r + 1 else st.lock r }

variable (mem : Nat → LsaData)

/-- `ospf_lsa_unlock`; the last reference to an LSA is given back after it is discarded. -/
def ospfLsaUnlock (lsa : Nat) : OspfIfM Unit := do
  modify (·.release [lsa])
  let st ← get
  check (0 ≤ st.lock lsa)
  when (st.lock lsa = 0) (check ((mem lsa).discard = true))

def ospfPacketAdd (op : OspfPacket) : OspfIfM Unit :=
  modify fun st => { st with obuf := st.obuf ++ [op] }

/-- Without these references each LSA is held by others, or free to go. -/
def LsaHeld (lock : Nat → Int) (refs : List Nat) : Prop :=
  ∀ r, 0 ≤ lock r - refs.count r ∧ (lock r - refs.count r = 0 → (mem r).discard = true)

section

variable {mem : Nat → LsaData} {st : OspfIfState} {r : Nat} {refs : List Nat}

@[simp] theorem release_nil : st.release [] = st := by
  cases st
  simp [OspfIfState.release]

variable (st)

theorem release_release (refs refs' : List Nat) :
    (st.release refs).release refs' = st.release (refs ++ refs') := by
  simp only [OspfIfState.release, count_append, Nat.cast_add, OspfIfState.mk.injEq, and_true]
  funext r
  omega

theorem sent_sent (refs refs' : List Nat) (pkts pkts' : List OspfPacket) :
    (st.sent refs pkts).sent refs' pkts' = st.sent (refs ++ refs') (pkts ++ pkts') := by
  have hrl := congrArg OspfIfState.lock (release_release st refs refs')
  simp only [OspfIfState.sent, OspfIfState.release, append_assoc] at hrl ⊢
  rw [hrl]

variable {st}

variable {lock : Nat → Int}

theorem LsaHeld.drop (batch : List Nat) (h : LsaHeld mem lock (batch ++ refs)) :
    LsaHeld mem (fun x => lock x - batch.count x) refs := by
  intro x
  have hx := h x
  rw [count_append, Nat.cast_add] at hx
  have hsb : lock x - ((batch.count x : Int) + refs.count x)
      = lock x - batch.count x - refs.count x := by omega
  rwa [hsb] at hx

theorem LsaHeld.mono {refs' : List Nat} (h : LsaHeld mem lock refs)
    (hle : ∀ r, refs'.count r ≤ refs.count r) : LsaHeld mem lock refs' := by
  intro r
  have hr := h r
  have hct := hle r
  refine ⟨by omega, fun hz => hr.2 ?_⟩
  omega

theorem LsaHeld.nil {refs : List Nat} (h : LsaHeld mem lock refs) : LsaHeld mem lock [] :=
  h.mono fun _ => Nat.zero_le _

theorem LsaHeld.queued {lock lock' : Nat → Int} {refs : List Nat} (h : LsaHeld mem lock [])
    (hlo : ∀ r, lock' r = lock r + refs.count r) : LsaHeld mem lock' refs := by
  intro r
  have hr := h r
  rw [count_nil] at hr
  rw [hlo, Int.add_sub_cancel]
  simpa using hr

theorem forM_ospfLsaLock (update : List Nat) (st : OspfIfState) :
    update.forM ospfLsaLock st
      = .ok ((), { st with lock := fun r => st.lock r + update.count r }) := by
  induction update generalizing st with
  | nil => simp; rfl
  | cons lsa update ih =>
    rw [forM_cons_ok (f := ospfLsaLock) rfl, ih]
    refine congrArg (fun lock => Except.ok ((), { st with lock := lock })) (funext fun r => ?_)
    dsimp only
    rw [count_cons]
    split
    next h => simp [h]; omega
    next h => simp [Ne.symm h]

theorem unlock_held (h : LsaHeld mem st.lock (r :: refs)) :
    ospfLsaUnlock mem r st = .ok ((), st.release [r]) := by
  have hr := h r
  rw [count_cons_self] at hr
  have hlo : (st.release [r]).lock r = st.lock r - 1 := by simp [OspfIfState.release]
  have hp : 0 ≤ (st.release [r]).lock r := by
    rw [hlo]
    omega
  rw [ospfLsaUnlock, modify_bind, get_bind, check, if_pos hp]
  by_cases hz : (st.release [r]).lock r = 0
  · have hdiscard : (mem r).discard = true := by
      refine hr.2 ?_
      rw [hlo] at hz
      omega
    rw [when, if_pos hz, check, if_pos hdiscard]
    rfl
  · rw [when, if_neg hz]
    rfl

end

/-! ## A small interface -/

theorem header_le_zeros (n : UInt16) :
    20 ≤ (replicate 18 0 ++ (be16 n ++ replicate (n.toNat - 20) 0)).length := by
  simp only [length_append, length_replicate, be16_length]
  omega

theorem length_eq_zeros (n : UInt16) (h : 20 ≤ n.toNat) :
    ofBE (((replicate 18 0 ++ (be16 n ++ replicate (n.toNat - 20) 0)).drop 18).take 2)
      = (replicate 18 0 ++ (be16 n ++ replicate (n.toNat - 20) 0)).length := by
  rw [drop_left' (length_replicate ..), take_left' (be16_length n), be16,
    ofBE_toBE_of_lt n.toNat_lt]
  simp only [length_append, length_replicate, toBE_length]
  omega

/-- An LSA of this length with nothing in it. -/
def zeroLsa (n : UInt16) (h : 20 ≤ n.toNat) : LsaData where
  data := replicate 18 0 ++ (be16 n ++ replicate (n.toNat - 20) 0)
  tvRecv := 0
  discard := false
  header_le := header_le_zeros n
  length_eq := length_eq_zeros n h

theorem length_zeroLsa (n : UInt16) (h : 20 ≤ n.toNat) : (zeroLsa n h).data.length = n.toNat := by
  simp only [zeroLsa, length_append, length_replicate, be16_length]
  omega

def bareLsa : LsaData := zeroLsa 20 (Nat.le_refl 20)

def fullNbr (address : UInt32) : OspfNbr := ⟨address, address, .full, 0, 0, false⟩

/-- An interface with two adjacent neighbors. -/
def twoNbrs (mtu : UInt32) (type : OspfIfType) : OspfIf where
  mtu := mtu
  routerId := 1
  areaId := 0
  address := 1
  type := type
  state := .drOther
  authType := none
  areaAuthType := .null
  authSimple := .replicate 8 0
  authCrypt := []
  transmitDelay := 1
  peerAddr := 0
  nbrs := [fullNbr 2, fullNbr 3]
  nodup_nbrs := by simp [fullNbr]

end SdnQuagga
