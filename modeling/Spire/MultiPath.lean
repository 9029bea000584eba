import Spire.Lib.UnitFlow

/-!
# K node-disjoint paths

`multipath.c` of Spines. The sender of a packet stamps it with a bitmask, which has a bit for each
edge of the configuration file. The bits of `k` paths to the destination are set, no two of which
share a node between the ends. They are found as a flow of least cost: each node is an inbound and
an outbound one with an edge of capacity one from the one to the other, and each round
(`MultiPath_Compute`) finds with Bellman and Ford's algorithm a cheapest way through what the flow
leaves. The masks are kept until a cost changes (`MP_Cache`).

A mask is a number with the bit `i` for the edge of the index `i`. Costs are of type `int16`,
distances of type `int16u`.
-/

namespace Spire.MultiPath

open Function (update)
open Lib.BellmanFord (Labels)
open Lib.UnitFlow (Step)

/-! ## What the daemons know of the overlay -/

/-- The order of `Edge_Cmp`. -/
def edgeLt (a b : Nat × Nat) : Prop := a.1 < b.1 ∨ a.1 = b.1 ∧ a.2 < b.2

instance (a b : Nat × Nat) : Decidable (edgeLt a b) := by
  unfold edgeLt
  infer_instance

/-- The hosts of the configuration file by their ids, `Sorted_Edges`, and the bits of a mask. An undirected
edge is there once; of a directed one `Init_MultiPath` wants the reverse to be there too. That a mask has a
bit for every edge is not checked anywhere. -/
structure Conf where
  nodes : List Nat
  edges : List (Nat × Nat)
  directed : Bool
  myId : Nat
  maskBits : Nat
  nodes_sorted : nodes.Pairwise (· < ·)
  edges_sorted : edges.Pairwise edgeLt
  ends : ∀ e ∈ edges, e.1 ∈ nodes ∧ e.2 ∈ nodes ∧ e.1 ≠ e.2
  keys : ∀ e ∈ edges, if directed then (e.2, e.1) ∈ edges else e.1 < e.2
  myId_mem : myId ∈ nodes
  fits : edges.length ≤ maskBits

/-- The costs of all edges, as announced and as configured. -/
structure Costs where
  cost : Nat → Nat → Int
  baseCost : Nat → Nat → Int
  cost_int16 : ∀ s d, -32768 ≤ cost s d ∧ cost s d ≤ 32767
  baseCost_int16 : ∀ s d, -32768 ≤ baseCost s d ∧ baseCost s d ≤ 32767

/-- A number put into an `int16`. -/
def int16 (x : Int) : Int := (x + 32768) % 65536 - 32768

inductive FlowNode
  | inbound (id : Nat)
  | outbound (id : Nat)
deriving DecidableEq

/-- A real edge, through a node or along an edge of the overlay. -/
inductive Arc
  | through (id : Nat)
  | link (src dst : Nat)
deriving DecidableEq

def Arc.tail : Arc → FlowNode
  | .through id => .inbound id
  | .link src _ => .outbound src

def Arc.head : Arc → FlowNode
  | .through id => .outbound id
  | .link _ dst => .inbound dst

/-- A real edge or its residual one. -/
abbrev FlowEdge := Step Arc

abbrev startNode : FlowEdge → FlowNode := Lib.UnitFlow.start Arc.tail Arc.head

abbrev endNode : FlowEdge → FlowNode := Lib.UnitFlow.stop Arc.tail Arc.head

namespace Conf

variable (c : Conf)

/-- The key of an edge in `Sorted_Edges`. -/
def key (s d : Nat) : Nat × Nat := if ¬c.directed ∧ d < s then (d, s) else (s, d)

def index (s d : Nat) : Nat := c.edges.idxOf (c.key s d)

def linkArcs (e : Nat × Nat) : List Arc := if c.directed then [.link e.1 e.2] else [.link e.1 e.2, .link e.2 e.1]

/-- The real edges in the order in which `Init_MultiPath` makes them. -/
def arcs : List Arc := c.nodes.map .through ++ c.edges.flatMap c.linkArcs

/-- The edges from `Flow_Edge_Head` on; each is put at its front. -/
def flowEdges : List FlowEdge := (c.arcs.flatMap fun a => [⟨a, false⟩, ⟨a, true⟩]).reverse

/-- `Neighbor_IDs` of a node. -/
def neighbors (self : Nat) : List Nat := c.nodes.filter fun ngbr => .link self ngbr ∈ c.arcs

/-- `MP_Neighbor_Mask` at a node. -/
def neighborMask (self ngbr : Nat) : Nat := 2 ^ c.index self ngbr

/-- `MultiPath_Neighbor_On_Path` at a node. -/
def neighborOnPath (self mask ngbr : Nat) : Bool := decide (mask &&& c.neighborMask self ngbr ≠ 0)

end Conf

/-! ## Computing the paths -/

/-- What ends the daemon: an `Alarm(EXIT, …)`, or a step that is undefined. -/
inductive Crash
  | negativeCycle
  | nullNode
  | nullEdge
  | endOfBag
  | endless
deriving DecidableEq

section Cost

variable (w : Costs) (useBaseCost requireReverse : Bool)

/-- The cost of a link; none where it is considered broken. -/
def linkCost (s d : Nat) : Option Int :=
  if useBaseCost then some (if requireReverse then max (w.baseCost s d) (w.baseCost d s) else w.baseCost s d)
  else if w.cost s d = -1 ∨ requireReverse ∧ w.cost d s = -1 then none
  else some (if requireReverse then max (int16 |w.cost s d|) (int16 |w.cost d s|) else int16 |w.cost s d|)

def arcCost : Arc → Option Int
  | .through _ => some 0
  | .link s d => linkCost w useBaseCost requireReverse s d

end Cost

section Compute

/-- `flow` of every edge. -/
abbrev Flow := FlowEdge → Nat

def capacity : Nat := 1

variable (c : Conf) (cost : Arc → Option Int)

def flowCost (e : FlowEdge) : Option Int := (cost e.arc).map fun x => if e.residual then int16 (-x) else x

/-- The innermost loop's body. -/
def relax (flow : Flow) (st : Labels FlowNode FlowEdge × Bool) (e : FlowEdge) : Labels FlowNode FlowEdge × Bool :=
  match flowCost cost e with
  | none => st
  | some x =>
    if flow e < capacity ∧ st.1.dist (startNode e) + x < st.1.dist (endNode e) then
      ({ dist := update st.1.dist (endNode e) ((st.1.dist (startNode e) + x) % 65536)
         prev := update st.1.prev (endNode e) (some e) }, true)
    else st

/-- Relaxing all edges, for as often as there is progress; none when there still is in the end. -/
def rounds (flow : Flow) : Nat → Labels FlowNode FlowEdge → Option (Labels FlowNode FlowEdge)
  | 0, _ => none
  | n + 1, l =>
    match c.flowEdges.foldl (relax cost flow) (l, false) with
    | (l, true) => rounds flow n l
    | (l, false) => some l

def startLabels : Labels FlowNode FlowEdge where
  dist v := if v = .outbound c.myId then 0 else 65535
  prev _ := none

def putInBag (bag : List Arc) (e : FlowEdge) : Except Crash (List Arc) :=
  if e.residual then if e.arc ∈ bag then .ok (bag.erase e.arc) else .error .endOfBag else .ok (e.arc :: bag)

/-- Going back along the edges that were found, from the destination. -/
def augment (prev : FlowNode → Option FlowEdge) : Nat → FlowNode → Flow → List Arc → Except Crash (Flow × List Arc)
  | 0, _, _, _ => .error .endless
  | n + 1, t, flow, bag =>
    if t = .outbound c.myId then .ok (flow, bag)
    else
      match prev t with
      | none => .error .nullEdge
      | some e =>
        (putInBag bag e).bind fun bag =>
          augment prev n (startNode e) (update (update flow e capacity) e.twin 0) bag

/-- One round after the other; how many paths were found, and the bag of edges. -/
def findPaths (dest : Nat) : Nat → Nat → Flow → List Arc → Except Crash (Nat × List Arc)
  | 0, found, _, bag => .ok (found, bag)
  | k + 1, found, flow, bag =>
    match rounds c cost flow (c.nodes.length * 2 + 1) (startLabels c) with
    | none => .error .negativeCycle
    | some l =>
      if l.dist (.inbound dest) = 65535 then .ok (found, bag)
      else
        (augment c l.prev (c.nodes.length * 2 + 1) (.inbound dest) flow bag).bind fun (flow, bag) =>
          findPaths dest k (found + 1) flow bag

def setBit (mask : Nat) : Arc → Nat
  | .through _ => mask
  | .link s d => mask ||| 2 ^ c.index s d

def startFlow : Flow := fun e => if e.residual then capacity else 0

end Compute

variable (c : Conf) (w : Costs)

/-- `MultiPath_Compute`: how many paths there are, and their mask. -/
def compute (dest k : Nat) (useBaseCost requireReverse : Bool) : Except Crash (Nat × Nat) :=
  if dest = c.myId then .ok (k, 0)
  else if dest ∉ c.nodes then .error .nullNode
  else (findPaths c (arcCost w useBaseCost requireReverse) dest k 0 startFlow []).map fun (found, bag) =>
    (found, bag.foldl (setBit c) 0)

/-! ## Stamping packets -/

/-- `MULTIPATH_MAX_K`. -/
def maxK : Nat := 5

/-- `DG_K_FLAG`. -/
def dgKFlag : Nat := maxK + 1

/-- `MAX_NODES`. -/
def maxNodes : Nat := 50

inductive GraphType
  | none
  | k2
  | src
  | dst
  | srcDst
deriving DecidableEq

/-- Of `DG_Dst`, the graph that is used now and the masks that were computed in the beginning. -/
structure Graphs where
  current : GraphType
  bitmasks : GraphType → Nat

/-- `MP_Cache`, by destination and number of paths. -/
abbrev Cache := Nat × Nat → Option Nat

/-- `MultiPath_Clear_Cache`. -/
def emptyCache : Cache := fun _ => none

/-- Fewer paths than wanted are all that any higher number gets. -/
def fill (cache : Cache) (dest k ret mask : Nat) : Cache := fun x =>
  if ret ≠ 0 ∧ ret < k ∧ x.1 = dest ∧ ret ≤ x.2 ∧ x.2 ≤ maxK then some mask else cache x

/-- The mask of `k` disjoint paths, from the cache if it is there. -/
def disjointPathsMask (cache : Cache) (dest k : Nat) : Except Crash (Nat × Cache) :=
  match cache (dest, k) with
  | some mask => .ok (mask, cache)
  | none =>
    (compute c w dest k false false).map fun (ret, mask) => (mask, fill (update cache (dest, k) (some mask)) dest k ret mask)

/-- The mask of two disjoint paths for a graph that changes with the costs. -/
def twoPathsMask (cache : Cache) (dest : Nat) : Except Crash (Nat × Cache) :=
  match cache (dest, 2) with
  | some mask => .ok (mask, cache)
  | none => (compute c w dest 2 false false).map fun (_, mask) => (mask, update cache (dest, 2) (some mask))

/-- `MultiPath_Stamp_Bitmask`; no mask for a destination that is not valid. -/
def stampBitmask (graphs : Nat → Graphs) (cache : Cache) (dest k : Nat) : Except Crash (Option Nat × Cache) :=
  if (dest = 0 ∧ 0 < k) ∨ maxNodes < dest then .ok (none, cache)
  else
    let k := if maxK < k ∧ k ≠ dgKFlag then maxK else k
    if k = 0 then .ok (some (2 ^ c.maskBits - 1), cache)
    else if k = dgKFlag then
      match (graphs dest).current with
      | .src => .ok (some ((graphs dest).bitmasks .src), cache)
      | .dst => .ok (some ((graphs dest).bitmasks .dst), cache)
      | .k2 => (twoPathsMask c w cache dest).map fun (mask, cache) => (some mask, cache)
      | .srcDst => (twoPathsMask c w cache dest).map fun (mask, cache) => (some (mask ||| (graphs dest).bitmasks .srcDst), cache)
      | .none => (disjointPathsMask c w cache dest 2).map fun (mask, cache) => (some mask, cache)
    else (disjointPathsMask c w cache dest k).map fun (mask, cache) => (some mask, cache)

end Spire.MultiPath
