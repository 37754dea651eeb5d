import SdnQuagga.BgpAspathTable
import SdnQuagga.BgpAttrRoundTrip

/-!
# The path behind a packet

`bgp_packet_attribute` copies the path of the attribute set when it is to
change it, for an EBGP or a confederation peer, and works on the path in
`ashash` for any other. The confederation segments that AS4_PATH must not
carry are deleted in place in both cases, so that a shared path loses them.
-/

namespace SdnQuagga

open List

/-- `aspath_delete_confed_seq`, with the string. -/
def Aspath.deleteConfedSeq (aspath : Aspath) : Aspath :=
  match aspath.segments with
  | [] => aspath
  | seg :: _ =>
    if seg.type ≠ .confedSequence then aspath
    else
      let segments := aspathDeleteConfedSeq aspath.segments
      { aspath with segments := segments, str := some (aspathMakeStrCount segments) }

/-- The branches of `packetAspath` behind an `aspath_dup`. -/
def copiesPath (peer : Peer) (af : PeerAfFlags) (aspath : List Assegment) : Bool :=
  peerSort peer = .ebgp ∧ (¬ af.asPathUnchanged ∨ aspath = []) ∧ ¬ af.rserverClient
    ∨ peerSort peer = .confed

/-- `bgp_packet_attribute` of an attribute set whose path is at `addr`, with
the table that it leaves. -/
def packetAttributeShared (table : Ashash) (addr : Nat) (bgp : Bgp) (peer : Peer) (attr : Attr)
    (p : Prefix) (afi : Afi) (safi : Safi) (src : Option Peer) (prd tag : List UInt8) :
    StreamM Ashash := do
  let aspath ← deref (table.live addr)
  let af := peer.afFlags afi safi
  let _ ← bgpPacketAttribute bgp peer { attr with aspath := some aspath.segments } p afi safi
    src prd tag
  if !peer.capAs4Rcv && aspathHasAs4 (packetAspath bgp peer af aspath.segments) then
    -- a copy is not in the table, and is freed
    if copiesPath peer af aspath.segments then return table
    else return table.update addr Aspath.deleteConfedSeq
  else return table

variable {table table' : Ashash} {addr : Nat} {aspath : Aspath}

theorem Aspath.deleteConfedSeq_eq_iff : aspath.deleteConfedSeq = aspath
    ↔ ∀ seg ∈ aspath.segments.head?, seg.type ≠ .confedSequence := by
  unfold Aspath.deleteConfedSeq
  split
  next hni => simp [hni]
  next seg next hcn =>
    split
    next hty => exact iff_of_true rfl (by simpa [hcn] using hty)
    next hty =>
      refine iff_of_false (fun heq => ?_) (by simpa [hcn] using hty)
      have hsg : aspathDeleteConfedSeq aspath.segments = aspath.segments :=
        congrArg Aspath.segments heq
      have hlen := (dropWhile_suffix (l := next) fun s => s.type.isConfed).length_le
      rw [not_not] at hty
      rw [hcn, aspathDeleteConfedSeq, if_neg (not_not.mpr hty),
        dropWhile_cons_of_pos (by rw [hty]; rfl)] at hsg
      rw [hsg, length_cons] at hlen
      omega

theorem Ashash.update_eq_iff {f : Aspath → Aspath}
    (had : (table.backets.map fun backet => backet.data.addr).Nodup)
    (hlv : table.live addr = some aspath) : table.update addr f = table ↔ f aspath = aspath := by
  obtain ⟨backet, hfind, rfl⟩ := Option.map_eq_some_iff.mp hlv
  have hm := mem_of_find?_eq_some hfind
  have hat : backet.data.addr = addr := by simpa using find?_some hfind
  constructor
  · intro h
    have hmp := congrArg Ashash.backets h
    have := map_inj_left.mp (hmp.trans (map_id _).symm) backet hm
    rw [if_pos hat] at this
    exact congrArg Backet.data this
  · intro h
    refine congrArg (Ashash.mk · _) ((map_congr_left fun other ho => ?_).trans (map_id _))
    split
    next hat' =>
      rw [inj_on_of_nodup_map had ho hm (hat'.trans hat.symm), h]
      rfl
    · rfl

theorem packetAspath_shared {bgp : Bgp} {peer : Peer} {af : PeerAfFlags} {segs : List Assegment}
    (h : copiesPath peer af segs = false) : packetAspath bgp peer af segs = segs := by
  obtain ⟨hebgp, hcf⟩ := not_or.mp (of_decide_eq_false h)
  rw [packetAspath, if_neg hebgp, if_neg hcf]

/-- What makes the deletion one in `ashash`. -/
structure EditsShared (peer : Peer) (af : PeerAfFlags) (segments : List Assegment) : Prop where
  shared : copiesPath peer af segments = false
  old : peer.capAs4Rcv = false
  as4 : aspathHasAs4 segments
  confed : ∃ seg ∈ segments.head?, seg.type = .confedSequence

theorem packet_keeps_table_iff {bgp : Bgp} {peer : Peer} {attr : Attr} {p : Prefix} {afi : Afi}
    {safi : Safi} {src : Option Peer} {prd tag : List UInt8} {s s' : Stream}
    (haddr : (table.backets.map fun backet => backet.data.addr).Nodup)
    (hlive : table.live addr = some aspath)
    (hrun : packetAttributeShared table addr bgp peer attr p afi safi src prd tag s
      = .ok (table', s')) :
    table' = table ↔ ¬ EditsShared peer (peer.afFlags afi safi) aspath.segments := by
  rw [packetAttributeShared, hlive] at hrun
  obtain ⟨_, _, ⟨⟩, hrun⟩ := FaultM.bind_eq_ok hrun
  obtain ⟨_, _, _, hrun⟩ := FaultM.bind_eq_ok hrun
  split at hrun
  next has4 =>
    rw [Bool.and_eq_true, Bool.not_eq_true'] at has4
    split at hrun
    next hcopy =>
      obtain ⟨⟩ := hrun
      exact iff_of_true rfl fun h => Bool.false_ne_true (h.shared.symm.trans hcopy)
    next hshared =>
      obtain ⟨⟩ := hrun
      rw [Bool.not_eq_true] at hshared
      rw [packetAspath_shared hshared] at has4
      rw [Ashash.update_eq_iff haddr hlive, Aspath.deleteConfedSeq_eq_iff]
      constructor
      · intro hhead h
        obtain ⟨seg, hseg, htype⟩ := h.confed
        exact hhead seg hseg htype
      · intro h seg hseg htype
        exact h ⟨hshared, has4.1, has4.2, seg, hseg, htype⟩
  next has4 =>
    obtain ⟨⟩ := hrun
    refine iff_of_true rfl fun h => has4 ?_
    rw [packetAspath_shared h.shared, h.old, h.as4]
    rfl

/-- `(65001) 70000` -/
def confedPath : List Assegment :=
  [⟨.confedSequence, [65001], by decide⟩, ⟨.sequence, [70000], by decide⟩]

def sendConfed (peer : Peer) : Except Fault (Ashash × Stream) :=
  packetAttributeShared (Ashash.empty.parse confedPath) 0 peer.bgp peer .empty defaultRoute .ip
    .unicast none [] [] (.new 64)

theorem packet_keeps_table_as4 :
    ∃ s', sendConfed reflectorPeer = .ok (Ashash.empty.parse confedPath, s') := by
  have hok : (sendConfed reflectorPeer).isOk := by decide +kernel
  cases hrun : sendConfed reflectorPeer with
  | error e =>
    rw [hrun] at hok
    cases hok
  | ok r =>
    have hkept := (packet_keeps_table_iff (by decide) rfl hrun).mpr fun h => by cases h.old
    exact ⟨r.2, by rw [← hkept]⟩

theorem packet_loses_confed :
    ((sendConfed { reflectorPeer with capAs4Rcv := false }).toOption.map fun r =>
        r.1.backets.map fun backet => backet.data.segments)
      = some [[⟨.sequence, [70000], by decide⟩]] := by
  decide +kernel

end SdnQuagga
