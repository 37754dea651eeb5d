import SdnQuagga.BgpAttrRead
import SdnQuagga.BgpAttrFrame
import SdnQuagga.RefTable

/-!
# The attribute parser and its references

`bgp_attr_parse` once more, with the reference counts of the intern
tables. AS paths, communities, extended communities and cluster lists are
interned by the handlers as they are read, unknown transitive attributes
at the very end. The AS4_PATH is a local of the parser: it has to be
released before each return.
-/

namespace SdnQuagga

open FaultM SdnQuagga.Stream RefTable

/-! ## Intern tables -/

/-- The reference counts of the tables `ashash`, `comhash`, `ecomhash`,
`cluster_hash` and `transit_hash`. -/
@[ext] structure Interns where
  aspath : List Assegment → Nat
  community : Community → Nat
  ecommunity : Ecommunity → Nat
  cluster : List UInt32 → Nat
  transit : List UInt8 → Nat

/-- One of the tables. -/
structure Slot (α : Type) where
  get : Interns → α → Nat
  set : Interns → (α → Nat) → Interns
  set_get : ∀ i, set i (get i) = i

def aspathSlot : Slot (List Assegment) :=
  ⟨Interns.aspath, fun i t => { i with aspath := t }, fun _ => rfl⟩

def communitySlot : Slot Community :=
  ⟨Interns.community, fun i t => { i with community := t }, fun _ => rfl⟩

def ecommunitySlot : Slot Ecommunity :=
  ⟨Interns.ecommunity, fun i t => { i with ecommunity := t }, fun _ => rfl⟩

def clusterSlot : Slot (List UInt32) :=
  ⟨Interns.cluster, fun i t => { i with cluster := t }, fun _ => rfl⟩

def transitSlot : Slot (List UInt8) :=
  ⟨Interns.transit, fun i t => { i with transit := t }, fun _ => rfl⟩

/-- The parser's state, the tables, and whether `attr->extra->transit` is
an interned object. -/
structure RefState where
  parse : ParseState
  interns : Interns
  transitInterned : Bool

abbrev RefM := FaultM RefState

/-- A step of the parser that does not touch the tables. -/
def inParse {α : Type} (m : ParseM α) : RefM α := fun st =>
  match m st.parse with
  | .error e => .error e
  | .ok (a, p) => .ok (a, { st with parse := p })

section

variable {α : Type} [DecidableEq α]

/-- `aspath_intern` and the like: one more reference. -/
def internIn (slot : Slot α) (o : Option α) : RefM Unit :=
  modify fun st => { st with
    interns := slot.set st.interns (slot.get st.interns + held o) }

/-- `aspath_unintern` and the like: one reference less. The object must be
in the table. -/
def uninternIn (slot : Slot α) : Option α → RefM Unit
  | none => return
  | some a => do
    let st ← get
    if slot.get st.interns a = 0 then throw .assertion
    else set { st with
      interns := slot.set st.interns (slot.get st.interns - held (some a)) }

end

/-! ## The loop -/

/-- What the handler of the type has interned, with the parts it has set. -/
def internNew (type : UInt8) (h : HeldParts) (i : Interns) : Interns :=
  if type = attrAsPath then { i with aspath := i.aspath + held h.aspath }
  else if type = attrAs4Path then
    { i with aspath := i.aspath + held h.as4Path }
  else if type = attrCommunities then
    { i with community := i.community + held h.community }
  else if type = attrExtCommunities then
    { i with ecommunity := i.ecommunity + held h.ecommunity }
  else if type = attrClusterList then
    { i with cluster := i.cluster + held h.cluster }
  else i

/-- `if (as4_path) aspath_unintern (&as4_path)`. -/
def releaseAs4Path : RefM Unit := do
  uninternIn aspathSlot (← get).parse.as4Path

section

variable (peer : Peer) (uninit : UInt8 → UInt16) (args : AttrArgs)

/-- The `switch` of `bgp_attr_parse`. A type comes once only, so that the
part of a handler is empty before it. -/
def refDispatch : RefM ParseRet := do
  let ret ← inParse (attrDispatch peer args uninit)
  modify fun st => { st with
    interns := internNew args.type (heldParts st.parse) st.interns }
  return ret

/-- What follows a handler: each of the exits here releases the
AS4_PATH. -/
def refFetched (ret : ParseRet) :
    RefM (Option ParseRet) := do
  match ← inParse (attrFetched args ret) with
  | none => return none
  | some ret =>
    releaseAs4Path
    return some ret

/-- The exit for wrong flags does not release it. -/
def refBody : RefM (Option ParseRet) := do
  if ← inParse (bgpAttrFlagInvalid args) then
    match ← inParse
        (bgpAttrMalformed peer args notifyUpdateAttrFlagErr args.total) with
    | .proceed => return none
    | ret => return some ret
  else refFetched args (← refDispatch peer uninit args)

/-- One turn of the loop. The exits in the header do not release it. -/
def refStep (endp : Nat) (seen : List UInt8) :
    RefM (Option ParseRet × List UInt8) := do
  match ← inParse (attrHeader endp seen) with
  | .inl seen' => return (some .error, seen')
  | .inr args => return (← refBody peer uninit args, args.type :: seen)

def refLoop (endp : Nat) : Nat → List UInt8 → RefM ParseRet
  | bound, seen => do
    if (← get).parse.input.getp < endp then
      match bound with
      | 0 => throw .loopBound
      | bound + 1 =>
        match ← refStep peer uninit endp seen with
        | (some ret, _) => return ret
        | (none, seen) => refLoop endp bound seen
    else return .proceed

end

/-! ## Behind the loop -/

/-- The path of the attribute set is replaced by another one. -/
def replaceAspath (old new : List Assegment) : RefM Unit := do
  uninternIn aspathSlot (some old)
  inParse (modifyAttr fun attr => { attr with aspath := some new })
  internIn aspathSlot (some new)

variable (peer : Peer)

/-- `bgp_attr_munge_as4_attrs`. -/
def refMunge : RefM Unit := do
  if peer.capAs4Rcv then return
  else
    let ignoreAs4Path ← inParse mungeAggregator
    let st := (← get).parse
    if !ignoreAs4Path && st.attr.flag.as4Path then
      let as4Path ← inParse (derefParse st.as4Path)
      let aspath ← inParse (derefParse st.attr.aspath)
      replaceAspath aspath (aspathReconcileAs4 aspath as4Path)
    else return

/-- `bgp_attr_aspath_check`. -/
def refAspathCheck : RefM ParseRet := do
  let aspath ← inParse (derefParse (← get).parse.attr.aspath)
  if (peerSort peer = .confed ∧ ¬ aspathLeftConfedCheck aspath)
      ∨ (peerSort peer = .ebgp ∧ aspathConfedCheck aspath) then
    inParse (notifySend notifyUpdateMalAsPath [])
    return .error
  else if peer.bgp.enforceFirstAs ∧ peerSort peer = .ebgp ∧ ¬ aspathFirstasCheck aspath peer.as then
    inParse (notifySend notifyUpdateMalAsPath [])
    return .error
  else
    if peer.changeLocalAs ≠ 0 ∧ ¬ peer.localAsNoPrepend then
      replaceAspath aspath (aspathAddSeq peer.changeLocalAs aspath)
    return .proceed

/-- `transit_intern` at the end of the parser. -/
def internTransit : RefM Unit := do
  let transit := (heldParts (← get).parse).transit
  internIn transitSlot transit
  modify fun st => { st with transitInterned := transit.isSome }

/-- The path is checked if there is one. -/
def refChecked : RefM ParseRet := do
  if (← get).parse.attr.flag.asPath then refAspathCheck peer
  else return .proceed

/-- What `bgp_attr_parse` does behind its loop. -/
def refFinish (endp : Nat) : RefM ParseRet := do
  if (← get).parse.input.getp ≠ endp then
    inParse (notifySend notifyUpdateAttrLengErr [])
    releaseAs4Path
    return .error
  else
    refMunge peer
    releaseAs4Path
    match ← refChecked peer with
    | .proceed =>
      internTransit
      return .proceed
    | ret => return ret

/-- `bgp_attr_parse` of `size` bytes of the input. -/
def refAttrParse (uninit : UInt8 → UInt16) (size : Nat) :
    RefM ParseRet := do
  let endp := (← get).parse.input.getp + size
  match ← refLoop peer uninit endp size [] with
  | .proceed => refFinish peer endp
  | ret => return ret

end SdnQuagga
