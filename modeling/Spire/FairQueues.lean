import Spire.Lib.Ends
import Spire.Lib.LinkedLists
import Spire.FlowWindow

/-!
# The queues of a link in reliable flooding

`reliable_flood.c` has three linked lists for each link: the urgent and the normal queue of flows that
have something to send there, and the flows whose state the neighbour is still to hear of. `FloodNode`
has of the first two only the marks of the flows that are in one of them. Here the lists are there, with
their cells in memory, and the handlers append, move, rotate and delete nodes as the source does.

A handler of `FloodNode` that marks a flow as queued is followed by the new node (`Daemon.onFlow`).
`Reliable_Flood_Send_Data` is the loop over the first nodes of the two queues.
-/

namespace Spire.Flood

open Function (update)
open Lib (LinkedLists)

/-! ## Nodes and queues -/

/-- The lists of a link, by the names of their heads. -/
inductive Which
  | urgent | norm | hbhUnsent
deriving DecidableEq, Repr

/-- `Flow_Queue`, with a penalty of type `int16u`. -/
structure FlowQueue where
  srcId : Nat
  destId : Nat
  penalty : Nat
deriving DecidableEq, Repr

namespace FlowQueue

variable (fq : FlowQueue)

/-- `penalty--` and `penalty++`. -/
@[irreducible] def pay : FlowQueue := { fq with penalty := (fq.penalty + (2 ^ 16 - 1)) % 2 ^ 16 }

@[irreducible] def payBack : FlowQueue := { fq with penalty := (fq.penalty + 1) % 2 ^ 16 }

@[irreducible] def owe (packets : Nat) : FlowQueue := { fq with penalty := packets % 2 ^ 16 }

@[simp] theorem pay_srcId : fq.pay.srcId = fq.srcId := by simp [pay]

@[simp] theorem pay_destId : fq.pay.destId = fq.destId := by simp [pay]

theorem pay_penalty : fq.pay.penalty = (fq.penalty + (2 ^ 16 - 1)) % 2 ^ 16 := by simp [pay]

@[simp] theorem payBack_srcId : fq.payBack.srcId = fq.srcId := by simp [payBack]

@[simp] theorem payBack_destId : fq.payBack.destId = fq.destId := by simp [payBack]

theorem payBack_penalty : fq.payBack.penalty = (fq.penalty + 1) % 2 ^ 16 := by simp [payBack]

@[simp] theorem owe_srcId (packets : Nat) : (fq.owe packets).srcId = fq.srcId := by simp [owe]

@[simp] theorem owe_destId (packets : Nat) : (fq.owe packets).destId = fq.destId := by simp [owe]

theorem owe_penalty (packets : Nat) : (fq.owe packets).penalty = packets % 2 ^ 16 := by simp [owe]

end FlowQueue

abbrev Queues : Type := LinkedLists (Nat × Which) FlowQueue

/-- What ends the daemon: a fault of the handlers, or a pointer to a node that is not there. The last one
is for a loop that does not end. -/
inductive Halt
  | flood (f : Fault)
  | dangling
  | rounds
deriving DecidableEq, Repr

def Halt.lift {α : Type} : Except Fault α → Except Halt α
  | .ok a => .ok a
  | .error f => .error (.flood f)

/-- The result of an operation that follows pointers. -/
def Halt.follow {α : Type} : Option α → Except Halt α
  | some a => .ok a
  | none => .error .dangling

open Halt (lift follow)

/-- An entry of an array for the links and the flows is set. -/
def setEntry (m : Nat → Nat → Nat → Bool) (k s d : Nat) (b : Bool) : Nat → Nat → Nat → Bool :=
  update m k (update (m k) s (update (m k s) d b))

/-- The node with what `RF_Edge_Data` has of the links besides, and `RF_State_Change`. -/
structure Daemon where
  node : Node
  queues : Queues
  unsentState : Nat → Nat → Nat → Bool
  unsentStateCount : Nat → Nat
  rfStateChange : Bool

/-- `sizeof(rel_flood_hbh_ack)`. -/
def hbhAckSize : Nat := 24

/-- A packet that a link sends: in how many packets of the link it goes, the room that is left in the last
of them, and whether `Forward_Data` takes it. `Calculate_Packets_In_Message` counts from one, in an
`int16u`, and there are fewer elements than could make it wrap. -/
structure Packet where
  packets : Nat
  remaining : Nat
  forwarded : Bool
  packets_pos : 1 ≤ packets
  packets_lt : packets < 2 ^ 16
deriving DecidableEq, Repr

/-- What a link sends next: `status_change_ready`, `e2e_ready` with the destination whose
acknowledgement is due, or neither. -/
inductive Ready
  | statusChange
  | e2e (d : Nat)
  | data
deriving DecidableEq, Repr

/-- A link that is asked for room and has it. `saaInQueue` is `E_in_queue(Reliable_Flood_SAA_Event)`, and
`saa` the packet of a standalone acknowledgement, where it comes to one. -/
structure Room where
  link : Nat
  ready : Ready
  packet : Packet
  saaInQueue : Bool
  saa : Packet
deriving DecidableEq, Repr

/-- What comes out of the topology and of the keys, and what the links do, while a node restamps. -/
structure Restamping where
  stamps : Nat → Flow.Stamps
  rooms : Nat → Nat → List Room

/-- What a message carries besides the hop-by-hop acknowledgements. -/
inductive Body
  | data (m : Message)
  | e2e (new : E2E) (now : Nat)
  | saa
  | statusChange

namespace Daemon

variable (c : Conf) (x : Daemon)

def init (now : Nat) : Daemon :=
  { node := Node.init c now, queues := LinkedLists.empty _ _, unsentState := fun _ _ _ => false
    unsentStateCount := fun _ => 0, rfStateChange := false }

def setFlow (s d : Nat) (f : Flow) : Daemon := { x with node := x.node.setFlow s d f }

/-! ## Flows that come into the queues -/

/-- The flow gets a node at the end of a queue. -/
def enqueue (w : Which) (k s d : Nat) : Except Halt Daemon :=
  (follow (x.queues.push (k, w) ⟨s, d, 1⟩)).map fun q => { x with queues := q }

/-- A handler works on a flow. Where it marks the flow as queued on the link, there is the node. -/
def onFlow (w : Which) (k s d : Nat) (g : Flow → Except Fault Flow) : Except Halt Daemon :=
  lift (g (x.node.flow s d)) >>= fun f =>
    if (x.node.flow s d).inFlowQueue k = false ∧ f.inFlowQueue k = true then (x.setFlow s d f).enqueue w k s d
    else .ok (x.setFlow s d f)

/-- The neighbour is to hear of the state of the flow. The penalty of this node is nowhere set or read. -/
def noteUnsent (k s d : Nat) : Except Halt Daemon :=
  if x.unsentState k s d then .ok x
  else
    (follow (x.queues.push (k, .hbhUnsent) ⟨s, d, 0⟩)).map fun q =>
      { x with
        queues := q
        unsentState := setEntry x.unsentState k s d true
        unsentStateCount := update x.unsentStateCount k (x.unsentStateCount k + 1) }

/-- All of them are. -/
def noteAll (s d : Nat) : Except Halt Daemon := c.neighbors.foldlM (fun (x : Daemon) k => x.noteUnsent k s d) x

/-! ### `Reliable_Flood_Process_E2E` -/

def apply (lastHop : Nat) (new : E2E) : Except Halt Daemon :=
  let old := x.node.e2e new.dest
  (nodes.foldlM (fun (x : Daemon) i =>
    x.onFlow .norm lastHop i new.dest fun f => f.onCell c lastHop (old.cell i) (new.cell i)) x).map
      fun x => { x with node := { x.node with e2e := update x.node.e2e new.dest new } }

def processE2E (lastHop : Nat) (new : E2E) (now : Nat) : Except Halt Daemon :=
  if new.dest < 1 ∨ maxNodes < new.dest then .ok x
  else if ¬ (x.node.e2e new.dest).Accepts new then .ok x
  else
    let n := if x.node.Opens c new then x.node.answer c new now else x.node
    if n.Completes c new then
      if (new.cell c.myId).aru ≠ 0 then .ok { x with node := n }
      else
        apply c { x with node := { n with handshakeComplete := update n.handshakeComplete new.dest true } } lastHop new
    else apply c { x with node := n } lastHop new

/-! ### `Reliable_Flood_Process_Data` -/

/-- A round of the loop at the end, for a neighbour. `old` is the flow before. -/
def spreadTo (old : Flow) (s d : Nat) (x : Daemon) (k : Nat) : Except Halt Daemon :=
  (if old.inFlowQueue k = false ∧ (x.node.flow s d).inFlowQueue k = true then x.enqueue .urgent k s d else .ok x) >>=
    fun x => if x.rfStateChange then x.noteUnsent k s d else .ok x

/-- A message that is accepted changes the state, unless it was restamped. -/
def processData (lastHop : Nat) (m : Message) : Except Halt Daemon :=
  let old := x.node.flow m.src m.dest
  lift (x.node.processData c lastHop m) >>= fun y =>
    let x := { x with node := y.2 }
    if y.1 = .buffOk then
      c.neighbors.foldlM (spreadTo old m.src m.dest)
        { x with rfStateChange := x.rfStateChange || decide (m.seqNum = old.headSeq) }
    else .ok x

/-! ### `Reliable_Flood_Process_Acks` -/

/-- An acknowledgement. There is `progress` where `sow` moves up. -/
def onAck (lastHop : Nat) (a : HbhAck) : Except Halt Daemon :=
  let old := x.node.flow a.src a.dest
  lift (old.onAck c lastHop a) >>= fun f =>
    (if old.sow < f.sow then noteAll c { x.setFlow a.src a.dest f with rfStateChange := true } a.src a.dest
      else .ok (x.setFlow a.src a.dest f)) >>= fun x =>
        if old.inFlowQueue lastHop = false ∧ f.inFlowQueue lastHop = true then x.enqueue .norm lastHop a.src a.dest
        else .ok x

def processAcks (lastHop : Nat) : List HbhAck → Daemon → Except Halt Daemon
  | [], x => .ok x
  | a :: acks, x =>
    if a.src ∉ nodes ∨ a.dest ∉ nodes then .ok x else x.onAck c lastHop a >>= processAcks lastHop acks

/-! ### `Reliable_Flood_Neighbor_Transfer` -/

/-- `unsent` is `e2e_stats[d].unsent`. -/
def neighborTransfer (k : Nat) (unsent : Nat → Bool) : Except Halt Daemon :=
  nodes.foldlM (fun (x : Daemon) d =>
    let blocked := !unsent d && decide (d ≠ c.neighborId k ∧ (x.node.e2e d).dest = d)
    nodes.foldlM (fun (x : Daemon) s => x.onFlow .urgent k s d fun f => f.onTransfer c k blocked) x) x

/-! ## What a link sends -/

/-- `Reliable_Flood_Add_Acks`, with the number of acknowledgements there is room for. -/
def addAcks (k : Nat) : Nat → Daemon → Except Halt (List HbhAck × Daemon)
  | 0, x => .ok ([], x)
  | n + 1, x =>
    if (x.queues.first (k, .hbhUnsent)).isNone then .ok ([], x)
    else
      follow (x.queues.unlinkFirst (k, .hbhUnsent)) >>= fun y =>
        let s := y.2.1.val.srcId
        let d := y.2.1.val.destId
        let f := x.node.flow s d
        let q := (y.2.2.resetTail (k, .hbhUnsent) y.2.1.next.isNone).free y.1
        (addAcks k n
          { x with
            queues := q
            unsentState := setEntry x.unsentState k s d false
            unsentStateCount := update x.unsentStateCount k (x.unsentStateCount k - 1) }).map fun z =>
              (⟨s, d, f.srcEpoch, pred64 f.headSeq, f.sow⟩ :: z.1, z.2)

def addAcksTo (k : Nat) (p : Packet) : Except Halt (List HbhAck × Daemon) := addAcks k (p.remaining / hbhAckSize) x

/-- `Send_Status_Change` and `Reliable_Flood_Send_SAA`, of which the queues see the acknowledgements only. -/
def sendStatusChange (k : Nat) (p : Packet) : Except Halt (List HbhAck × Daemon) := x.addAcksTo k p

def sendSaa (k : Nat) (p : Packet) : Except Halt (List HbhAck × Daemon) := x.addAcksTo k p

/-- `Reliable_Flood_Send_E2E`. -/
def sendE2E (k d : Nat) (p : Packet) : Except Halt (List HbhAck × Daemon) :=
  x.addAcksTo k p >>= fun y =>
    if p.forwarded then
      (nodes.foldlM (fun (x : Daemon) i => x.onFlow .norm k i d fun f => f.unblock c k) y.2).map fun x => (y.1, x)
    else .ok y

/-! ### `Reliable_Flood_Send_Data` -/

/-- The flow can send nothing to the neighbour at the moment. -/
@[irreducible] def heldOn (k s d : Nat) : Except Fault Bool := (x.node.flow s d).held c s k (x.node.handshakeComplete d)

def held (k : Nat) (fq : FlowQueue) : Except Halt Bool := lift (x.heldOn c k fq.srcId fq.destId)

/-- A round with the first node of the urgent queue, which moves to the normal one unless the flow can
send. The result says whether it can. -/
def urgentRound (k a : Nat) : Except Halt (Bool × Daemon) :=
  let q := x.queues.modify a FlowQueue.pay
  follow (q.get a) >>= fun fq =>
    (if 0 < fq.penalty then .ok true else x.held c k fq) >>= fun held =>
      if held then
        follow (q.unlinkFirst (k, .urgent)) >>= fun y =>
          let q := y.2.2.resetTail (k, .urgent) (decide (y.2.2.tail (k, .urgent) = some a))
          (follow (q.append (k, .norm) a)).map fun q => (false, { x with queues := q })
      else .ok (true, { x with queues := q })

/-- A round with the first node of the normal queue: it goes to the end while it pays, and is deleted when
it has paid and the flow cannot send. -/
def normRound (k a : Nat) : Except Halt (Bool × Daemon) :=
  let q := x.queues.modify a FlowQueue.pay
  follow (q.get a) >>= fun fq =>
    if 0 < fq.penalty then
      follow (q.unlinkFirst (k, .norm)) >>= fun y =>
        let q := y.2.2.resetTail (k, .norm) (y.2.2.first (k, .norm)).isNone
        (follow (q.append (k, .norm) a)).map fun q => (false, { x with queues := q })
    else
      x.held c k fq >>= fun held =>
        if held then
          follow (q.unlinkFirst (k, .norm)) >>= fun y =>
            let q := y.2.2.resetTail (k, .norm) (y.2.2.first (k, .norm)).isNone
            let f := x.node.flow fq.srcId fq.destId
            .ok (false, { x.setFlow fq.srcId fq.destId { f with inFlowQueue := update f.inFlowQueue k false } with
              queues := q.free a })
        else .ok (true, { x with queues := q })

/-- A round of the loop, if there is a node for it: the queue, the node, and what comes of it. -/
def round (k : Nat) : Option (Which × Nat × Except Halt (Bool × Daemon)) :=
  match x.queues.first (k, .urgent) with
  | some a => some (.urgent, a, x.urgentRound c k a)
  | none => (x.queues.first (k, .norm)).map fun a => (.norm, a, x.normRound c k a)

/-- The rounds up to a flow that can send, with a bound on their number. -/
def nextFlow (k : Nat) : Nat → Daemon → Except Halt (Option Nat × Daemon)
  | 0, _ => .error .rounds
  | n + 1, x =>
    match x.round c k with
    | none => .ok (none, x)
    | some (_, a, y) => y >>= fun y => if y.1 then .ok (some a, y.2) else nextFlow k n y.2

/-- A node that has sent leaves the queue it is the first of. -/
def detach (k a : Nat) (q : Queues) : Except Halt Queues :=
  if q.first (k, .urgent) = some a then
    (follow (q.unlinkFirst (k, .urgent))).map fun y =>
      y.2.2.resetTail (k, .urgent) (decide (y.2.2.tail (k, .urgent) = some a))
  else if q.first (k, .norm) = some a then
    (follow (q.unlinkFirst (k, .norm))).map fun y =>
      y.2.2.resetTail (k, .norm) (decide (y.2.2.tail (k, .norm) = some a))
  else .ok q

/-- The message that is next for the flow is sent, with acknowledgements. The result says whether it was,
and what these are. -/
def sendNext (k a : Nat) (p : Packet) : Except Halt (Bool × List HbhAck × Daemon) :=
  follow (x.queues.get a) >>= fun fq =>
    let f := x.node.flow fq.srcId fq.destId
    if (f.msg (slot (f.nextSeq k))).isNone then .error (.flood .assertion)
    else
      x.addAcksTo k p >>= fun y =>
        let x := y.2
        if p.forwarded then
          detach k a x.queues >>= fun q =>
            follow ((q.modify a fun fq => fq.owe p.packets).append (k, .norm) a) >>= fun q =>
              lift (f.onSent c k) >>= fun g =>
                let x := { x.setFlow fq.srcId fq.destId g with queues := q }
                (if f.sow < g.sow then noteAll c x fq.srcId fq.destId else .ok x).map fun x => (true, y.1, x)
        else .ok (false, y.1, { x with queues := x.queues.modify a FlowQueue.payBack })

/-- Each node moves out of the urgent queue once, and its penalty is paid in 65536 rounds at most. -/
def rounds : Nat := (2 ^ 16 + 1) * x.queues.brk + 1

def sendData (k : Nat) (p : Packet) : Except Halt (Bool × List HbhAck × Daemon) :=
  nextFlow c k x.rounds x >>= fun y =>
    match y.1 with
    | none => .ok (false, [], y.2)
    | some a => y.2.sendNext c k a p

/-- `Reliable_Flood_Send_One`, with the acknowledgements that go out. -/
def sendOne (r : Room) : Except Halt (List HbhAck × Daemon) :=
  match r.ready with
  | .statusChange => x.sendStatusChange r.link r.packet
  | .e2e d => x.sendE2E c r.link d r.packet
  | .data =>
    x.sendData c r.link r.packet >>= fun y =>
      if y.1 then .ok y.2
      else if 0 < y.2.2.unsentStateCount r.link ∧ r.saaInQueue = false then
        (y.2.2.sendSaa r.link r.saa).map fun z => (y.2.1 ++ z.1, z.2)
      else .ok y.2

/-! ## Restamping -/

def resendTo (r : Restamping) (i : Nat) (x : Daemon) (k : Nat) : Except Halt Daemon :=
  lift ((x.node.flow c.myId i).resend c k) >>= fun y =>
    let x := x.setFlow c.myId i y.2
    if y.1 then
      x.enqueue .urgent k c.myId i >>= fun x =>
        (r.rooms i k).foldlM (fun (x : Daemon) room => (x.sendOne c room).map Prod.snd) x
    else .ok x

def restampTo (r : Restamping) (x : Daemon) (i : Nat) : Except Halt Daemon :=
  let f := x.node.flow c.myId i
  if i = c.myId ∨ f.sow = f.headSeq then .ok x
  else
    lift (f.restampFrom c (r.stamps i) (f.headSeq - f.sow) f.sow false) >>= fun y =>
      let x := x.setFlow c.myId i y.1
      if y.2.2 = false ∧ y.2.1 = true then c.neighbors.foldlM (resendTo c r i) x else .ok x

/-- `Reliable_Flood_Restamp`. -/
def restamp (r : Restamping) : Except Halt Daemon := nodes.foldlM (restampTo c r) x

/-! ## Runs -/

/-- `Reliable_Flood_Disseminate` up to the loop in which the links are asked for room. -/
def disseminate (lastHop : Nat) (acks : List HbhAck) (b : Body) : Except Halt Daemon :=
  processAcks c lastHop acks { x with rfStateChange := false } >>= fun x =>
    match b with
    | .data m => if m.src ∉ nodes ∨ m.dest ∉ nodes then .ok x else x.processData c lastHop m
    | .e2e new now => x.processE2E c lastHop new now
    | .saa | .statusChange => .ok x

/-- What happens at a daemon. -/
inductive Action
  | disseminate (lastHop : Nat) (acks : List HbhAck) (b : Body)
  | send (r : Room)
  | transfer (k : Nat) (unsent : Nat → Bool)
  | restamp (r : Restamping)
  | gen
  | fill (h : Message) (numPaths : Nat)

def step (x : Daemon) : Action → Except Halt Daemon
  | .disseminate lastHop acks b => x.disseminate c lastHop acks b
  | .send r => (x.sendOne c r).map Prod.snd
  | .transfer k unsent => x.neighborTransfer c k unsent
  | .restamp r => x.restamp c r
  | .gen => .ok { x with node := x.node.genE2E c }
  | .fill h numPaths => .ok { x with node := (x.node.fillPacketHeader h numPaths).2 }

end Daemon

end Spire.Flood
