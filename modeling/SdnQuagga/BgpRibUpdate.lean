import SdnQuagga.BgpDamp

/-!
# Updates, withdrawals and processing of the BGP table

`bgp_update_main`, `bgp_withdraw` and `bgp_process_main` of `bgpd/bgp_route.c`, as
far as they change routes. What depends on the configuration and on the rest of the
daemon comes with the call.
-/

namespace SdnQuagga

variable {slots : Nat}

/-! ## Routes of a node -/

/-- What an update or a withdrawal is about: the node of its prefix, and the
route there that it replaces. -/
structure RouteKey where
  rn : Nat
  peer : Nat
  type : Nat
  subType : Nat
deriving DecidableEq

def StoredRoute.key (ri : StoredRoute) : RouteKey := ⟨ri.rn, ri.peer, ri.type, ri.subType⟩

variable (st : BgpRib slots)

/-- The loop that looks for the previously received route. -/
def BgpRib.lookup (key : RouteKey) : Option Nat :=
  st.rib.find? fun a => (st.routes a).any (·.key = key)

/-- `bgp_info_new`. -/
@[simps]
def BgpRib.allocRoute (ri : StoredRoute) : BgpRib slots :=
  { st with routes := Function.update st.routes st.next (some ri), next := st.next + 1 }

variable (a : Nat)

@[simps]
def BgpRib.freeRoute : BgpRib slots :=
  { st with routes := Function.update st.routes a none }

/-- Link a route in front of the list of its node. -/
@[simps]
def BgpRib.linkRoute : BgpRib slots :=
  { st with rib := a :: st.rib }

@[simps]
def BgpRib.unlinkRoute : BgpRib slots :=
  { st with rib := st.rib.erase a }

def bgpInfoAdd : RibM slots Unit := do
  modify (·.linkRoute a)
  updateRoute a fun ri => { ri with lock := ri.lock + 1 }

variable (cfg : RibConfig)

def bgpInfoExtraFree (dampInfo : Option Nat) : RibM slots Unit :=
  match dampInfo with
  | some d => bgpDampInfoFree cfg d false
  | none => return ()

/-- `bgp_info_unlock`, with `bgp_info_free` at the last one. -/
def bgpInfoUnlock (a : Nat) : RibM slots Unit := do
  let ri ← routeAt a
  FaultM.check (0 < ri.lock)
  updateRoute a fun ri => { ri with lock := ri.lock - 1 }
  FaultM.when (ri.lock = 1) do
    bgpInfoExtraFree cfg ri.dampInfo
    modify (·.freeRoute a)

def bgpInfoReap (a : Nat) : RibM slots Unit := do
  modify (·.unlinkRoute a)
  bgpInfoUnlock cfg a

/-! ## Withdrawals -/

def bgpRibRemove (rn a : Nat) : RibM slots Unit := do
  let ri ← routeAt a
  FaultM.when (ri.flags .history = false) (bgpInfoDelete cfg rn a)

/-- `bgp_rib_withdraw`; `dampening` is `BGP_CONFIG_DAMPENING` for a peer that is
an EBGP peer. -/
def bgpRibWithdraw [NeZero slots] (rn a : Nat) (dampening : Bool)
    (now : Int) : RibM slots Unit := do
  if dampening then
    let status ← bgpDampWithdraw cfg a rn false now
    FaultM.when (status ≠ .suppressed) (bgpRibRemove cfg rn a)
  else bgpRibRemove cfg rn a

/-- `bgp_withdraw_rsclient`, and the part of `bgp_withdraw` for the main table. -/
def withdrawAt [NeZero slots] (key : RouteKey) (dampening : Bool)
    (now : Int) : RibM slots Unit := do
  match (← get).lookup key with
  | none => return ()
  | some a =>
    let ri ← routeAt a
    FaultM.when (ri.flags .history = false) (bgpRibWithdraw cfg key.rn a dampening now)

/-- The loop over the route server clients, by their nodes for the prefix. -/
def withdrawClients [NeZero slots] (cfg : RibConfig) (key : RouteKey) (dampening : Bool)
    (now : Int) : List Nat → RibM slots Unit
  | [] => return ()
  | client :: clients => do
    withdrawAt cfg { key with rn := client } dampening now
    withdrawClients cfg key dampening now clients

def bgpWithdraw [NeZero slots] (key : RouteKey) (dampening : Bool)
    (clients : List Nat) (now : Int) : RibM slots Unit := do
  withdrawClients cfg key dampening now clients
  withdrawAt cfg key dampening now

/-! ## Updates -/

/-- An update with what the checks of `bgp_update_main` say of it. -/
structure RibUpdate where
  key : RouteKey
  /-- the attributes after the route map -/
  attr : FullAttr
  /-- one of the checks before has denied the update -/
  filtered : Bool
  /-- `BGP_CONFIG_DAMPENING`, and the peer is an EBGP peer -/
  dampening : Bool
  /-- the next hop has to be looked up -/
  nexthopCheck : Bool
  /-- `bgp_nexthop_lookup` -/
  nexthopLookup : Bool
  /-- `bgp_maximum_prefix_overflow` for a count -/
  overflow : Nat → Bool

variable (upd : RibUpdate) (a : Nat)

def nexthopValid : RibM slots Unit :=
  if upd.nexthopCheck then
    if upd.nexthopLookup then bgpInfoSetFlag cfg upd.key.rn a [.valid]
    else bgpInfoUnsetFlag cfg upd.key.rn a [.valid]
  else bgpInfoSetFlag cfg upd.key.rn a [.valid]

variable (now : Int)

/-- The same attributes come in again. -/
def updateSame :
    RibM slots Unit := do
  bgpInfoUnsetFlag cfg upd.key.rn a [.attrChanged]
  let ri ← routeAt a
  if upd.dampening && ri.flags .history then
    let _ ← bgpDampUpdate cfg a upd.key.rn now
  else FaultM.when (ri.flags .stale) (bgpInfoUnsetFlag cfg upd.key.rn a [.stale])

/-- The dampening of an implicit withdrawal. -/
def implicitWithdraw [NeZero slots] : RibM slots Unit := do
  let ri ← routeAt a
  FaultM.when (upd.dampening ∧ ri.flags .history = false) do
    let _ ← bgpDampWithdraw cfg a upd.key.rn true now

/-- The attributes of the route change. A route that was removed and not yet
processed is restored. -/
def updateChanged [NeZero slots] : RibM slots Unit := do
  let ri ← routeAt a
  FaultM.when (ri.flags .removed) (bgpInfoRestore cfg upd.key.rn a)
  FaultM.when (ri.flags .stale) (bgpInfoUnsetFlag cfg upd.key.rn a [.stale])
  bgpInfoSetFlag cfg upd.key.rn a [.attrChanged]
  implicitWithdraw cfg upd a now
  updateRoute a fun ri => { ri with attr := upd.attr }
  if upd.dampening then
    let status ← bgpDampUpdate cfg a upd.key.rn now
    FaultM.when (status ≠ .suppressed) (nexthopValid cfg upd a)
  else nexthopValid cfg upd a

/-- A route that was not there before. It is counted before it is linked. -/
def updateNew : RibM slots Int := do
  let a := (← get).next
  modify (·.allocRoute
    { rn := upd.key.rn, peer := upd.key.peer, type := upd.key.type,
      subType := upd.key.subType, attr := upd.attr, lock := 0, flags := fun _ => false,
      dampInfo := none })
  nexthopValid cfg upd a
  bgpInfoAdd a
  let table := cfg.table upd.key.rn
  if upd.overflow ((← get).pcount upd.key.peer table.afi table.safi) then return -1
  else return 0

/-- An update for a route that is there. -/
def updateKnown [NeZero slots] :
    RibM slots Unit := do
  let ri ← routeAt a
  if upd.filtered then bgpRibRemove cfg upd.key.rn a
  else if !ri.flags .removed && attrhashCmp ri.attr upd.attr then
    updateSame cfg upd a now
  else updateChanged cfg upd a now

def bgpUpdateMain [NeZero slots] :
    RibM slots Int := do
  match (← get).lookup upd.key with
  | some a =>
    updateKnown cfg upd a now
    return 0
  | none => if upd.filtered then return 0 else updateNew cfg upd

/-! ## Processing -/

def BgpRib.node (st : BgpRib slots) (rn : Nat) : List Nat :=
  st.rib.filter fun a => (st.routes a).any (·.rn = rn)

/-- The second loop of `bgp_best_selection`, with the selected route found so far
and the best. `better` is the comparison; it is also false for a route that the
selection by MED has left out. -/
def selectRoutes (cfg : RibConfig) (better : StoredRoute → Option Nat → Bool) :
    List Nat → Option Nat × Option Nat → RibM slots (Option Nat × Option Nat)
  | [], found => return found
  | a :: as, (old, new) => do
    let ri ← routeAt a
    let old := if ri.flags .selected then some a else old
    if ri.holddown then
      FaultM.when (ri.flags .removed ∧ old ≠ some a) (bgpInfoReap cfg a)
      selectRoutes cfg better as (old, new)
    else if better ri new then selectRoutes cfg better as (old, some a)
    else selectRoutes cfg better as (old, new)

/-- A pointer that may be null. -/
def whenSome (o : Option Nat) (m : Nat → RibM slots Unit) : RibM slots Unit :=
  match o with
  | some a => m a
  | none => return ()

/-- Nothing has changed: the route is selected already, with these attributes. -/
def unchanged (old new : Option Nat) : RibM slots Bool :=
  match old with
  | none => return false
  | some a => do
    let ri ← routeAt a
    return old = new && !ri.flags .attrChanged

/-- `bgp_process_main`, without the announcements. -/
def bgpProcessMain (better : StoredRoute → Option Nat → Bool) (rn : Nat) : RibM slots Unit := do
  let (old, new) ← selectRoutes cfg better ((← get).node rn) (none, none)
  if ← unchanged old new then return ()
  else
    whenSome old fun a => bgpInfoUnsetFlag cfg rn a [.selected]
    whenSome new fun a => do
      bgpInfoSetFlag cfg rn a [.selected]
      bgpInfoUnsetFlag cfg rn a [.attrChanged]
    whenSome old fun a => do
      let ri ← routeAt a
      FaultM.when (ri.flags .removed) (bgpInfoReap cfg a)

end SdnQuagga
