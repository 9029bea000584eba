import Mathlib.Data.List.Pairwise
import Mathlib.Logic.Function.Basic

/-!
# Minimum weight routing of the overlay

Every daemon keeps the same link state: the nodes in the order of their addresses and the
edges between them. From it the daemon computes a route for every pair of nodes, and which of
its neighbors, if any, a packet between the two goes to next. A packet names its source and its
destination, and each daemon on the way looks up the pair.
-/

namespace Spire.Routing

/-- An address. Those of nodes and those of groups share one space. -/
abbrev NodeId := Nat

def isMcastAddr (x : NodeId) : Bool := x &&& 0xF0000000 == 0xE0000000 || x &&& 0xFFFFFF00 == 0xFEFF0000

def isAcastAddr (x : NodeId) : Bool := x &&& 0xF0000000 == 0xF0000000 && x &&& 0xFFFFFF00 != 0xFEFF0000

/-- An edge of the overlay; the cost -1 says that it is down. -/
structure Edge where
  src : NodeId
  dst : NodeId
  cost : Int
deriving DecidableEq

/-- `All_Nodes_by_ID`, and `All_Edges` in the order in which its tables yield them. -/
structure LinkState where
  nodes : List NodeId
  edges : List Edge
  sorted : nodes.Pairwise (· < ·)
  ends : ∀ e ∈ edges, e.src ∈ nodes ∧ e.dst ∈ nodes
  keys : (edges.map fun e => (e.src, e.dst)).Nodup

structure Route where
  distance : Int
  cost : Int
  forwarder : Option NodeId
  predecessor : NodeId
deriving DecidableEq

/-- The routes by the indexes of their ends. -/
abbrev Routes := Nat × Nat → Route

/-- A `Routing_Regime`. -/
structure Regime where
  nodeIds : List NodeId
  routes : Routes

/-! ## Computing the routes -/

section Init

variable (self : NodeId)

def initRoutes : Routes := fun x =>
  if x.1 ≠ x.2 then { cost := -1, distance := -1, forwarder := none, predecessor := 0 }
  else { cost := 0, distance := 0, forwarder := none, predecessor := 0 }

/-- The route over an edge. The cost of an edge at which a problem was seen is negative. -/
def edgeRoute (e : Edge) : Route where
  cost := e.cost.natAbs
  distance := 1
  predecessor := e.src
  forwarder := if e.src ≠ self then none else some e.dst

def fillEdge (ids : List NodeId) (routes : Routes) (e : Edge) : Routes :=
  if e.cost = -1 then routes
  else Function.update routes (ids.idxOf e.src, ids.idxOf e.dst) (edgeRoute self e)

/-- The innermost loop's body. -/
def relaxRoute (ids : List NodeId) (k i : Nat) (routes : Routes) (j : Nat) : Routes :=
  if i = j ∨ j = k ∨ (routes (k, j)).cost < 0 then routes
  else if (routes (i, j)).cost < 0 ∨ (routes (i, k)).cost + (routes (k, j)).cost < (routes (i, j)).cost then
    Function.update routes (i, j)
      { cost := (routes (i, k)).cost + (routes (k, j)).cost
        distance := (routes (i, k)).distance + (routes (k, j)).distance
        predecessor := ids.getD k 0
        forwarder :=
          match (routes (k, j)).forwarder with
          | some node => some node
          | none => (routes (i, k)).forwarder }
  else routes

def relaxRow (ids : List NodeId) (k : Nat) (routes : Routes) (i : Nat) : Routes :=
  if i = k ∨ (routes (i, k)).cost < 0 then routes
  else (List.range ids.length).foldl (relaxRoute ids k i) routes

/-- The pairs of nodes, one after the other, by a path through the node of index `k`. -/
def relaxThrough (ids : List NodeId) (routes : Routes) (k : Nat) : Routes :=
  (List.range ids.length).foldl (relaxRow ids k) routes

/-- `RR_Init` at the daemon `self`. -/
def init (s : LinkState) : Regime where
  nodeIds := s.nodes
  routes := (List.range s.nodes.length).foldl (relaxThrough s.nodes)
    (s.edges.foldl (fillEdge self s.nodes) initRoutes)

end Init

/-! ## Looking up routes -/

namespace Regime

variable (rr : Regime)

def getNodeIndex (nid : NodeId) : Option Nat :=
  if nid ∈ rr.nodeIds then some (rr.nodeIds.idxOf nid) else none

def findRoute (src dst : NodeId) : Option Route :=
  match rr.getNodeIndex src, rr.getNodeIndex dst with
  | some i, some j => some (rr.routes (i, j))
  | _, _ => none

def getNextHop (src dst : NodeId) : Option NodeId := (rr.findRoute src dst).bind Route.forwarder

end Regime

/-! ## Forwarding and delivering packets -/

/-- A daemon that joined a group at some time, and whether it is a member now. -/
structure GroupState where
  node : NodeId
  active : Bool
deriving DecidableEq

/-- `All_Groups_by_Name`: the states of a group in the order in which its table yields them. -/
abbrev Groups := NodeId → Option (List GroupState)

structure Packet where
  source : NodeId
  dest : NodeId
  ttl : Nat
deriving DecidableEq

section Deliver

variable (rr : Regime) (self : NodeId) (nodeCost : NodeId → Int)

/-- `stdhash_put`: a neighbor is in the table once. -/
def put (neighbors : List NodeId) (hop : NodeId) : List NodeId :=
  if hop ∈ neighbors then neighbors else neighbors ++ [hop]

def betterHop (best : Option NodeId) (hop : NodeId) : Option NodeId :=
  match best with
  | none => some hop
  | some b => if nodeCost hop < nodeCost b then some hop else some b

/-- The loop over the states of a group. -/
def neighborsLoop (sender group : NodeId) : List GroupState → List NodeId → Option NodeId → List NodeId × Option NodeId
  | [], neighbors, best => (neighbors, best)
  | g :: gs, neighbors, best =>
    if g.active then
      -- a member of an anycast group is the final destination
      if isAcastAddr group ∧ g.node = self then (neighbors, none)
      else
        match rr.getNextHop sender g.node with
        | none => neighborsLoop sender group gs neighbors best
        | some hop =>
          if isMcastAddr group then neighborsLoop sender group gs (put neighbors hop) best
          else if isAcastAddr group then neighborsLoop sender group gs neighbors (betterHop nodeCost best hop)
          else neighborsLoop sender group gs neighbors best
    else neighborsLoop sender group gs neighbors best

/-- `RR_Get_Mcast_Neighbors`, for a group whose neighbors are not cached. -/
def getMcastNeighbors (groups : Groups) (sender group : NodeId) : Option (List NodeId) :=
  (groups group).map fun states =>
    match neighborsLoop rr self nodeCost sender group states [] none with
    | (neighbors, some best) => if isAcastAddr group then put neighbors best else neighbors
    | (neighbors, none) => neighbors

/-- What became of a packet: whether a client got it, and the packets that were sent. -/
structure Handling where
  delivered : Bool
  forwarded : List (NodeId × Packet)
deriving DecidableEq

/-- `Find_State(&All_Groups_by_Node, My_Address, dest)` is there and active. -/
def isMember (groups : Groups) (group : NodeId) : Bool :=
  match groups group with
  | none => false
  | some states => states.any fun g => g.node == self && g.active

/-- `Deliver_and_Forward_Data` with `MIN_WEIGHT_ROUTING`; `none` where an assertion fails. -/
def deliverAndForward (connected : NodeId → Bool) (groups : Groups) (pkt : Packet) : Option Handling :=
  if pkt.ttl = 0 then some ⟨false, []⟩
  else
    let pkt := { pkt with ttl := pkt.ttl - 1 }
    if !isMcastAddr pkt.dest && !isAcastAddr pkt.dest then
      let hops := if pkt.dest ≠ self ∧ 0 < pkt.ttl then (rr.getNextHop pkt.source pkt.dest).toList else []
      if self ∈ hops then none else some ⟨pkt.dest == self, hops.map fun hop => (hop, pkt)⟩
    else
      let hops := if 0 < pkt.ttl then (getMcastNeighbors rr self nodeCost groups pkt.source pkt.dest).getD [] else []
      if self ∈ hops then none
      else some ⟨isMember self groups pkt.dest, (hops.filter connected).map fun hop => (hop, pkt)⟩

end Deliver

end Spire.Routing
