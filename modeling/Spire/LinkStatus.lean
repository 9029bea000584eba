import Spire.Flood

/-!
# Link status changes

The part of `reliable_flood.c` of Spines by which the nodes tell each other what their links cost.
A node announces the links to its neighbours in a signed `status_change`, with a number for each
link that goes up when its cost changes, under the epoch of the daemon. A node that gets one keeps it
if it is newer than what it has of that creator, applies the costs that are new, and sends
it on.

The configuration file is the same at all nodes. What else hangs on a change is left out here: when
the change is sent on, the cache of paths, and the restamping of messages.
-/

namespace Spire.LinkStatus

open Function (update)
open Flood (maxNodes nodes)

/-! ## The configuration -/

/-- `Directed_Edges`, the edges as `Conf_add_edge` gets them, and `Loss_Penalty`. -/
structure Conf where
  directed : Bool
  edges : List ((Nat × Nat) × Int)
  edges_mem : ∀ e ∈ edges, e.1.1 ∈ nodes ∧ e.1.2 ∈ nodes
  costs : ∀ e ∈ edges, -2 ^ 15 ≤ e.2 ∧ e.2 < 2 ^ 15
  lossPenalty : Nat
  lossPenalty_lt : lossPenalty < 2 ^ 31

namespace Conf

variable (c : Conf)

/-- The key of an edge in `Sorted_Edges`. -/
def key (a b : Nat) : Nat × Nat := if c.directed = false ∧ b < a then (b, a) else (a, b)

/-- The cost that `Sorted_Edges` has for two nodes. -/
def findCost (a b : Nat) : Option Int :=
  (c.edges.find? fun e => decide (c.key e.1.1 e.1.2 = c.key a b)).map Prod.snd

/-- `ref_cost`. There is one for every neighbour (`findCost_of_neighbor`), and it is only used for these. -/
def refCost (a b : Nat) : Int := (c.findCost a b).getD 0

/-- `Neighbor_IDs`. -/
def neighborIds (a : Nat) : List Nat :=
  c.edges.flatMap fun e =>
    (if e.1.1 = a then [e.1.2] else []) ++ if c.directed = false ∧ e.1.2 = a then [e.1.1] else []

/-- `Degree`. -/
def degree (a : Nat) : Nat := (c.neighborIds a).length

end Conf

/-! ## Status changes -/

/-- `status_change_cell`. -/
structure Cell where
  seq : Nat
  cost : Int
deriving DecidableEq, Repr

/-- `status_change`. -/
structure StatusChange where
  epoch : Nat
  creator : Nat
  cell : Nat → Cell

namespace StatusChange

/-- What `Init_Reliable_Flooding` sets for a creator. -/
def empty (id : Nat) : StatusChange := { epoch := 0, creator := id, cell := fun _ => ⟨0, 0⟩ }

/-- What it sets for the node itself, whose links are not up yet. -/
def own (c : Conf) (id : Nat) : StatusChange :=
  { epoch := 0, creator := id, cell := fun i => ⟨0, if i ∈ c.neighborIds id then -1 else 0⟩ }

/-- What `Generate_Link_Status_Change` makes of what is stored: the link to a neighbour gets its next number, and the
first change after the start gets the epoch. -/
def generate (stored : StatusChange) (sourceEpoch nbr : Nat) (cost : Int) : StatusChange :=
  { stored with
    epoch := if stored.epoch = 0 then sourceEpoch else stored.epoch
    cell := update stored.cell nbr ⟨((stored.cell nbr).seq + 1) % 2 ^ 64, cost⟩ }

end StatusChange

/-- The cost of a link that is down, up or lossy. The penalty is added in 32 bits without sign. -/
def newCost (c : Conf) (id nbr status : Nat) : Option Int :=
  match status with
  | 0 => some (-1)
  | 1 => some (c.refCost id nbr)
  | 2 => some (min ((c.refCost id nbr + c.lossPenalty) % 2 ^ 32) (2 ^ 15 - 1))
  | _ => none

/-! ## Processing -/

/-- The loop that validates the cells of a change, from what was found so far: whether there is old and whether there is
new content. Without a result the change is thrown away. -/
def validate (c : Conf) (old new : StatusChange) (newEpoch : Bool) : List Nat → Bool → Bool → Option (Bool × Bool)
  | [], oldContent, newContent => some (oldContent, newContent)
  | i :: is, oldContent, newContent =>
    if i ∉ c.neighborIds new.creator ∧ (0 < (new.cell i).seq ∨ (new.cell i).cost ≠ 0) then none
    else if i ∈ c.neighborIds new.creator ∧ (new.cell i).cost ≠ -1 ∧ (new.cell i).cost < c.refCost new.creator i then
      none
    else if newEpoch then validate c old new newEpoch is oldContent newContent
    else
      validate c old new newEpoch is (oldContent || decide ((new.cell i).seq < (old.cell i).seq))
        (newContent || decide ((old.cell i).seq < (new.cell i).seq))

/-- A change that comes over the link to a neighbour, with the signature. -/
structure Arrival where
  lastHop : Nat
  change : StatusChange
  sig : List UInt8

/-- `My_ID`, `Status_Change`, `Status_Change_Sig`, the costs of the edges that `Get_Edge` finds, the `unsent` flags of
`status_change_stats` by neighbour and creator, and `Local_Status_Change_Progress`. -/
structure Node where
  id : Nat
  table : Nat → StatusChange
  sig : Nat → List UInt8
  cost : Nat → Nat → Option Int
  unsent : Nat → Nat → Bool
  localProgress : Bool

namespace Node

variable (c : Conf)

/-- A daemon that starts. The edges of the configuration are there and down. -/
def init (id : Nat) : Node :=
  { id := id
    table := update StatusChange.empty id (.own c id)
    sig := fun _ => []
    cost := fun a b => (c.findCost a b).map fun _ => -1
    unsent := fun _ _ => false
    localProgress := false }

variable (n : Node)

/-- `Apply_Link_Status_Change`. -/
def applyLinkStatusChange (id1 id2 : Nat) (cost : Int) : Node :=
  if cost ≠ -1 ∧ cost < c.refCost id1 id2 then n
  else
    match n.cost id1 id2 with
    | none => n
    | some old => if old = cost then n else { n with cost := update n.cost id1 (update (n.cost id1) id2 (some cost)) }

/-- `Generate_Link_Status_Change`, while `Flow_Source_Epoch[My_ID]` is `sourceEpoch`. -/
def generateLinkStatusChange (sourceEpoch nbr status : Nat) : Node :=
  match newCost c n.id nbr status with
  | none => n
  | some cost =>
    let n := n.applyLinkStatusChange c n.id nbr cost
    { n with
      table := update n.table n.id ((n.table n.id).generate sourceEpoch nbr cost)
      localProgress := true }

/-- The costs of a change that are new are applied. -/
def applyCells (old new : StatusChange) (newEpoch : Bool) (is : List Nat) : Node :=
  is.foldl
    (fun n i =>
      if i ∈ c.neighborIds new.creator ∧ (newEpoch ∨ (old.cell i).seq < (new.cell i).seq) then
        n.applyLinkStatusChange c new.creator i (new.cell i).cost
      else n)
    n

/-- The change is to be sent to all neighbours but the one it came from. -/
def queue (lastHop creator : Nat) : Node :=
  { n with
    unsent := fun k => if 1 ≤ k ∧ k ≤ c.degree n.id ∧ k ≠ lastHop then update (n.unsent k) creator true else n.unsent k }

/-- `Process_Status_Change`. -/
def processStatusChange (a : Arrival) : Node :=
  let new := a.change
  let old := n.table new.creator
  if new.creator < 1 ∨ maxNodes < new.creator then n
  else if new.epoch < old.epoch then n
  else
    let newEpoch := decide (old.epoch < new.epoch)
    match validate c old new newEpoch nodes false newEpoch with
    | none => n
    | some (oldContent, newContent) =>
      if newEpoch = false ∧ oldContent ∧ newContent then n
      else if newContent = false then n
      else
        let n := n.applyCells c old new newEpoch nodes
        ({ n with table := update n.table new.creator new, sig := update n.sig new.creator a.sig }).queue c a.lastHop
          new.creator

/-- What moves the table and the costs of a node. -/
inductive Action
  | process (a : Arrival)
  | generate (sourceEpoch nbr status : Nat)

def step (n : Node) : Action → Node
  | .process a => n.processStatusChange c a
  | .generate sourceEpoch nbr status => n.generateLinkStatusChange c sourceEpoch nbr status

/-- A run of a daemon from its start. -/
def run (id : Nat) (acts : List Action) : Node := acts.foldl (step c) (init c id)

end Node

/-! ## Creators -/

/-- The messages of a correct creator, oldest first. Each is made by `Generate_Link_Status_Change` from what the
node has of itself: what is set at the start, or one of its messages. A daemon that started again may have got the message back
from its neighbours. The clock from which the epoch is taken is not at zero. -/
inductive Generated (c : Conf) (id : Nat) : List StatusChange → Prop
  | nil : Generated c id []
  | generate {log : List StatusChange} {stored : StatusChange} {sourceEpoch nbr status : Nat} {cost : Int} (h : Generated c id log)
      (hstored : stored = .own c id ∨ stored ∈ log) (hepoch : 0 < sourceEpoch) (hnbr : nbr ∈ c.neighborIds id)
      (hcost : newCost c id nbr status = some cost) : Generated c id (log ++ [stored.generate sourceEpoch nbr cost])

/-- The node of a creator over the times that its daemon is started, and the messages it made. -/
structure Creator where
  node : Node
  made : List StatusChange

/-- What happens there. -/
inductive CreatorAction
  | act (x : Node.Action)
  | restart

def Creator.step (c : Conf) (id : Nat) (s : Creator) : CreatorAction → Creator
  | .act x =>
    { node := s.node.step c x
      made :=
        match x with
        | .process _ => s.made
        | .generate _ nbr status =>
          if (newCost c s.node.id nbr status).isSome then s.made ++ [(s.node.step c x).table id] else s.made }
  | .restart => { s with node := .init c id }

/-- Only the creator can sign its messages, the links are to its neighbours, and the clock is not at zero. -/
def Creator.Correct (c : Conf) (id : Nat) (s : Creator) : CreatorAction → Prop
  | .act (.process a) => a.change.creator = id → a.change ∈ s.made
  | .act (.generate sourceEpoch nbr _) => 0 < sourceEpoch ∧ nbr ∈ c.neighborIds id
  | .restart => True

/-- A change is older than another, in the order of the epoch and the numbers of the links. -/
def Older (a b : StatusChange) : Prop :=
  a.epoch < b.epoch ∨
    a.epoch = b.epoch ∧ (∀ i ∈ nodes, (a.cell i).seq ≤ (b.cell i).seq) ∧ ∃ i ∈ nodes, (a.cell i).seq < (b.cell i).seq

instance (a b : StatusChange) : Decidable (Older a b) := by
  unfold Older
  infer_instance

/-- A cell concerns a neighbour, or is empty, and its cost is not below the configured one. -/
structure ValidCell (c : Conf) (m : StatusChange) (i : Nat) : Prop where
  neighbor : i ∉ c.neighborIds m.creator → (m.cell i).seq = 0 ∧ (m.cell i).cost = 0
  cost : i ∈ c.neighborIds m.creator → (m.cell i).cost = -1 ∨ c.refCost m.creator i ≤ (m.cell i).cost

def Valid (c : Conf) (m : StatusChange) : Prop := ∀ i ∈ nodes, ValidCell c m i

namespace Node.Action

/-- The node whose links an action is about. -/
def creator (id : Nat) : Action → Nat
  | .process a => a.change.creator
  | .generate _ _ _ => id

/-- An action brings a message. -/
def Brings (m : StatusChange) : Action → Prop
  | .process a => a.change = m
  | .generate _ _ _ => False

end Node.Action

/-- In a run of node `me`, all that is about a creator are messages of its log, in any order, not all of them and some
more than once, but the last one is there. -/
structure Hears (me creator : Nat) (log : List StatusChange) (acts : List Node.Action) : Prop where
  only : ∀ a ∈ acts, a.creator me = creator → ∃ m ∈ log, a.Brings m
  last : ∀ m, log.getLast? = some m → ∃ a ∈ acts, a.Brings m

end Spire.LinkStatus
