import SdnQuagga.FaultM
import SdnQuagga.OspfLsa
import SdnQuagga.Pqueue

/-!
# The OSPF shortest path tree

`ospfd/ospf_spf.c` up to the end of the first stage of
`ospf_spf_calculate`. An LSA is named by its place in the area's
database, a vertex by a number in place of its address. `installed` is
the list of the vertices handed to `ospf_intra_add_router` and
`ospf_intra_add_transit`.
-/

namespace SdnQuagga

open FaultM Function

/-! ## The area -/

/-- The fields of `struct ospf_interface` that next hops are found by. -/
structure OspfInterface where
  ifindex : Nat
  pointomultipoint : Bool
  address : UInt32
  prefixlen : Nat
deriving DecidableEq, Repr

/-- `struct vertex_nexthop`. -/
structure VertexNexthop where
  oi : OspfInterface
  router : UInt32
deriving DecidableEq, Repr

/-- `struct ospf_area`, with the router and network LSAs of its database
in the order of the tables. `ifIsConfigured` is `ospf_if_is_configured`,
`vlNexthop` the next hop of the approved virtual link to a router. -/
structure OspfArea (n : Nat) where
  lsdb : Fin n → OspfLsa
  routerLsaSelf : Option (Fin n)
  self_router : ∀ root, routerLsaSelf = some root → (lsdb root).isNetwork = false
  ifIsConfigured : UInt32 → Option OspfInterface
  vlNexthop : UInt32 → Option VertexNexthop

namespace OspfArea

variable {n : Nat} (area : OspfArea n)

/-- The first LSA in the database that is asked for. -/
def find (p : OspfLsa → Bool) : Option (Fin n) :=
  (List.finRange n).find? fun ref => p (area.lsdb ref)

/-- `ospf_lsa_lookup` of an `OSPF_ROUTER_LSA`. -/
def ospfLsaLookup (id advRouter : UInt32) : Option (Fin n) :=
  area.find fun lsa => !lsa.isNetwork && lsa.id = id && lsa.advRouter = advRouter

/-- `ospf_lsa_lookup_by_id`: router LSAs are stored under their id twice,
network LSAs are searched. -/
def ospfLsaLookupById (network : Bool) (id : UInt32) : Option (Fin n) :=
  if network then area.find fun lsa => lsa.isNetwork && lsa.id = id
  else area.ospfLsaLookup id id

end OspfArea

/-! ## Vertices -/

/-- The address of a `struct vertex`. -/
abbrev VertexRef := Nat

/-- `struct vertex_parent`; no `backlink` is -1. -/
structure VertexParent where
  parent : VertexRef
  backlink : Option Nat
  nexthop : VertexNexthop
deriving DecidableEq, Repr

/-- `struct vertex`. Type and id are those of the LSA. -/
structure Vertex (n : Nat) where
  lsa : Fin n
  distance : UInt32
  parents : List VertexParent
  children : List VertexRef
deriving DecidableEq, Repr

def lsaSpfNotExplored : Int := -1

def lsaSpfInSpftree : Int := -2

/-- The state of a calculation: `lsa->stat` of each LSA, the vertices
and how many there are, `area->spf`, the candidates, `area->transit` and
the vertices that have been installed. -/
structure SpfState (n : Nat) where
  stat : Fin n → Int
  vertex : VertexRef → Vertex n
  vertices : Nat
  spf : VertexRef
  candidate : PQueue VertexRef
  transit : Bool
  installed : List VertexRef

abbrev SpfM (n : Nat) := FaultM (SpfState n)

variable {n : Nat} (area : OspfArea n) (vertex : VertexRef → Vertex n)

/-- `cmp`: by distance, as a difference of 32 bits, and networks before
routers. -/
def spfCmp (v1 v2 : VertexRef) : Int :=
  let diff := (vertex v1).distance - (vertex v2).distance
  let network1 := (area.lsdb (vertex v1).lsa).isNetwork
  let network2 := (area.lsdb (vertex v2).lsa).isNetwork
  if diff = 0 ∧ network1 ≠ network2 then if network1 then -1 else 1
  else diff.toBitVec.toInt

def updateStat (node : VertexRef) (position : Nat) (stat : Fin n → Int) : Fin n → Int :=
  update stat (vertex node).lsa position

def ospfVertexNew (lsa : Fin n) : SpfM n VertexRef := do
  let st ← get
  set { st with
    vertex := update st.vertex st.vertices ⟨lsa, 0, [], []⟩
    vertices := st.vertices + 1 }
  return st.vertices

variable (v : VertexRef)

def modifyVertex (f : Vertex n → Vertex n) : SpfM n Unit :=
  modify fun st => { st with
    vertex := update st.vertex v (f (st.vertex v)) }

variable (st : SpfState n)

def vertexLsa (v : VertexRef) : OspfLsa :=
  area.lsdb (st.vertex v).lsa

/-! ## Next hops -/

/-- `ospf_spf_add_parent`. A distance of 0 stands for none yet. -/
def ospfSpfAddParent (v w : VertexRef) (distance : UInt32)
    (newhop : VertexNexthop) : SpfM n Unit := do
  let st ← get
  if distance = 0 then throw .assertion
  else if (st.vertex w).distance ≠ 0 ∧ (st.vertex w).distance < distance then
    throw .assertion
  else
    modifyVertex w fun vertex =>
      let better := vertex.distance ≠ 0 ∧ distance < vertex.distance
      { vertex with
        distance := distance
        parents := (if better then [] else vertex.parents)
          ++ [⟨v, ospfLsaHasLink (vertexLsa area st w) (vertexLsa area st v), newhop⟩] }

/-- What `ospf_get_next_link` returns one by one: the links of a router
`v` to `w`, virtual ones not included. -/
def ospfGetNextLinks (v w : OspfLsa) : List RouterLink :=
  v.links.filter fun l => l.type
    = (if w.isNetwork then lsaLinkTypeTransit else lsaLinkTypePointopoint) ∧ l.linkId = w.id

/-- `prefix_cmp` of two addresses with one prefix length. -/
def samePrefix (prefixlen : Nat) (a b : UInt32) : Bool :=
  a.toNat / 2 ^ (32 - prefixlen) = b.toNat / 2 ^ (32 - prefixlen)

/-- The branch of `ospf_nexthop_calculation` for the root: the interface
that the link is on, and the neighbour's address on it. -/
def rootNexthop (v w : OspfLsa) (l : RouterLink) : Option VertexNexthop :=
  if w.isNetwork then
    (area.ifIsConfigured l.linkData).map fun oi => ⟨oi, 0⟩
  else if l.type = lsaLinkTypePointopoint then
    match (area.ifIsConfigured l.linkData).filter (·.pointomultipoint) with
    | some oi =>
      (ospfGetNextLinks w v).find? (fun l2 =>
        samePrefix oi.prefixlen l2.linkData oi.address)
      |>.map fun l2 => ⟨oi, l2.linkData⟩
    | none =>
      (ospfGetNextLinks w v).findSome? fun l2 =>
        (area.ifIsConfigured l2.linkData).filter (·.address = l.linkData)
        |>.map fun oi => ⟨oi, l2.linkData⟩
  else if l.type = lsaLinkTypeVirtuallink then area.vlNexthop l.linkId
  else none

/-- The next hops through a network that the root is attached to. -/
def networkNexthops (v w : VertexRef) :
    List VertexNexthop :=
  if (vertexLsa area st v).isNetwork then
    ((st.vertex v).parents.filter (·.parent = st.spf)).flatMap fun vp =>
      (ospfGetNextLinks (vertexLsa area st w) (vertexLsa area st v)).map
        fun l => ⟨vp.nexthop.oi, l.linkData⟩
  else []

/-- `ospf_nexthop_calculation`, with the next hops of a vertex behind the
root made before they are added. (The asserted type of `w` behind a
network is that of the lookup it comes from.) -/
def ospfNexthopCalculation (v w : VertexRef) (l : Option RouterLink)
    (distance : UInt32) : SpfM n Bool := do
  let st ← get
  if v = st.spf then
    match l with
    | none => throw .assertion
    | some l =>
      match rootNexthop area (vertexLsa area st v) (vertexLsa area st w) l with
      | none => return false
      | some nh =>
        ospfSpfAddParent area v w distance nh
        return true
  else
    let attached := networkNexthops area st v w
    let nexthops := if attached.isEmpty
      then (st.vertex v).parents.map (·.nexthop) else attached
    nexthops.forM (ospfSpfAddParent area v w distance)
    return !nexthops.isEmpty

/-! ## The loop over the links -/

/-- What the loop of `ospf_spf_next` steps over. -/
inductive SpfLink where
  | link (l : RouterLink)
  | router (r : UInt32)
deriving DecidableEq, Repr

/-- The link, NULL in the loop over a network's routers. -/
def SpfLink.l : SpfLink → Option RouterLink
  | link l => some l
  | router _ => none

def SpfLink.metric : SpfLink → UInt16
  | link l => l.metric
  | router _ => 0

def spfLinks (lsa : OspfLsa) : List SpfLink :=
  match lsa.body with
  | .router _ links => links.map .link
  | .network routers => routers.map .router

/-- The LSA that a link leads to; `isRoot` is `v == area->spf`. -/
def spfLookup (isRoot : Bool) : SpfLink → Option (Fin n)
  | .link l =>
    if l.type = lsaLinkTypeStub then none
    else if !isRoot && l.metric ≥ ospfOutputCostInfinite then none
    else if l.type = lsaLinkTypePointopoint ∨ l.type = lsaLinkTypeVirtuallink then
      area.ospfLsaLookup l.linkId l.linkId
    else if l.type = lsaLinkTypeTransit then
      area.ospfLsaLookupById true l.linkId
    else none
  | .router r => area.ospfLsaLookupById false r

/-- The LSA, if it exists, is not MaxAge and has a link back to `v`. -/
def spfTarget (isRoot : Bool) (v : OspfLsa) (link : SpfLink) :
    Option (Fin n) :=
  match spfLookup area isRoot link with
  | none => none
  | some w =>
    if (area.lsdb w).maxAge then none
    else if (ospfLsaHasLink (area.lsdb w) v).isNone then none
    else some w

/-- `pqueue_enqueue (w, candidate)`. -/
def spfEnqueue (w : VertexRef) : SpfM n Unit :=
  modify fun st =>
    let (candidate, stat) := pqueueEnqueue (spfCmp area st.vertex)
      (updateStat st.vertex) w st.candidate st.stat
    { st with candidate, stat }

/-- `trickle_up (position, candidate)`. -/
def spfTrickleUp (position : Nat) : SpfM n Unit :=
  modify fun st =>
    let (candidate, stat) := trickleUp (spfCmp area st.vertex)
      (updateStat st.vertex) position st.candidate st.stat
    { st with candidate, stat }

/-- One turn of the loop, from the test for the tree on: `w` can be
reached from `v` at this distance. -/
def spfConsider (l : Option RouterLink) (wLsa : Fin n) (distance : UInt32) : SpfM n Unit := do
  let st ← get
  if st.stat wLsa = lsaSpfInSpftree then return
  else if st.stat wLsa = lsaSpfNotExplored then
    let w ← ospfVertexNew wLsa
    if ← ospfNexthopCalculation area v w l distance then spfEnqueue area w
    else return
  else if st.stat wLsa ≥ 0 then
    let w := st.candidate.array (st.stat wLsa).toNat
    if (st.vertex w).distance < distance then return
    else if (st.vertex w).distance = distance then
      let _ ← ospfNexthopCalculation area v w l distance
      return
    else if ← ospfNexthopCalculation area v w l distance then
      spfTrickleUp area (st.stat wLsa).toNat
    else return
  else return

def spfTurn (link : SpfLink) : SpfM n Unit := do
  let st ← get
  match spfTarget area (v = st.spf) (vertexLsa area st v) link with
  | none => return
  | some wLsa =>
    spfConsider area v link.l wLsa ((st.vertex v).distance + link.metric.toUInt32)

/-- A router with virtual links makes the area a transit area. -/
def spfTransit : SpfM n Unit :=
  modify fun st =>
    match (vertexLsa area st v).body with
    | .router flags _ => { st with
        transit := st.transit || flags &&& routerLsaVirtual ≠ 0 }
    | .network _ => st

def ospfSpfNext : SpfM n Unit := do
  spfTransit area v
  (spfLinks (vertexLsa area (← get) v)).forM (spfTurn area v)

/-! ## The main loop -/

def ospfVertexAddParent : SpfM n Unit := do
  ((← get).vertex v).parents.forM fun vp =>
    modifyVertex vp.parent fun parent => { parent with
      children := if v ∈ parent.children then parent.children
        else parent.children ++ [v] }

/-- Steps (3) and (4): the nearest candidate goes to the tree. -/
def spfExtract : SpfM n (Option VertexRef) := do
  let st ← get
  if st.candidate.size = 0 then return none
  else
    let (v, candidate, stat) := pqueueDequeue (spfCmp area st.vertex)
      (updateStat st.vertex) st.candidate st.stat
    set { st with
      candidate
      stat := update stat (st.vertex v).lsa lsaSpfInSpftree
      installed := st.installed ++ [v] }
    ospfVertexAddParent v
    return some v

/-- The `for (;;)`. Every turn but the last moves a candidate to the
tree, so one turn for each LSA is never too few. -/
def spfLoop : Nat → VertexRef → SpfM n Unit
  | 0, _ => throw .loopBound
  | bound + 1, v => do
    ospfSpfNext area v
    match ← spfExtract area with
    | none => return
    | some v => spfLoop bound v

/-- Everything is set up and the root is in the tree. -/
def spfStart (root : Fin n) : SpfM n VertexRef := do
  modify fun st => { st with
    stat := fun _ => lsaSpfNotExplored
    candidate := ⟨fun _ => 0, 0⟩
    installed := [] }
  let v ← ospfVertexNew root
  modify fun st => { st with
    spf := v
    stat := update st.stat root lsaSpfInSpftree
    transit := false }
  return v

/-- `ospf_spf_calculate`, first stage. -/
def ospfSpfCalculate : SpfM n Unit := do
  match area.routerLsaSelf with
  | none => return
  | some root => spfLoop area n (← spfStart root)

end SdnQuagga
