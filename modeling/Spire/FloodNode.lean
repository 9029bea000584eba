import Spire.Flood

/-!
# A node of reliable flooding

The flows of a node together, the matrices of end-to-end acknowledgements with its own among them,
and the handshakes. An `Action` is what happens at a node: a message comes in, a link has room or
lost its neighbour, a client sends, the topology changes. What ends the daemon is a `Fault`.
-/

namespace Spire.Flood

open Function (update)

/-! ## Acknowledgements -/

/-- A cell goes back, in the order of epoch of the destination, epoch of the source and `aru`. -/
def Cell.Below (x y : Cell) : Prop :=
  x.destEpoch < y.destEpoch ∨
    x.destEpoch = y.destEpoch ∧ (x.srcEpoch < y.srcEpoch ∨ x.srcEpoch = y.srcEpoch ∧ x.aru < y.aru)

instance (x y : Cell) : Decidable (x.Below y) := by
  unfold Cell.Below
  infer_instance

namespace E2E

/-- The loop that validates an acknowledgement returns at a cell. -/
def Rejects (old new : E2E) : Prop := ∃ i ∈ nodes, (new.cell i).Below (old.cell i)

/-- It goes through, with `store_e2e` set. -/
def Accepts (old new : E2E) : Prop := ¬ old.Rejects new ∧ ∃ i ∈ nodes, (old.cell i).Below (new.cell i)

instance (old new : E2E) : Decidable (old.Rejects new) := by
  unfold Rejects
  infer_instance

instance (old new : E2E) : Decidable (old.Accepts new) := by
  unfold Accepts
  infer_instance

/-- What a node has of a destination before it hears of it. -/
def zero : E2E := { dest := 0, cell := fun _ => ⟨0, 0, 0⟩ }

end E2E

/-! ## The node -/

/-- `FB` and what goes with it, `E2E`, `Flow_Seq_No`, `Flow_Source_Epoch`, `Handshake_Complete`,
`Initial_E2E`, `E2E_Stop` and `Num_Paths_Snapshot`. -/
structure Node where
  flow : Nat → Nat → Flow
  e2e : Nat → E2E
  flowSeqNo : Nat → Nat
  flowSourceEpoch : Nat → Nat
  handshakeComplete : Nat → Bool
  initialE2E : Bool
  e2eStop : Bool
  numPathsSnapshot : Nat

namespace Node

variable (c : Conf) (n : Node)

/-- `Init_Reliable_Flooding` at a time of the clock. -/
def init (now : Nat) : Node :=
  { flow := fun s d => if s = c.myId ∧ d = c.myId then { Flow.init with srcEpoch := now } else Flow.init
    e2e := update (fun _ => E2E.zero) c.myId { dest := c.myId, cell := fun _ => ⟨now, 0, 0⟩ }
    flowSeqNo := fun _ => 1
    flowSourceEpoch := fun _ => now
    handshakeComplete := fun i => decide (i = c.myId)
    initialE2E := true
    e2eStop := false
    numPathsSnapshot := 0 }

/-- The matrix that the node generates. -/
def own : E2E := n.e2e c.myId

def setFlow (s d : Nat) (f : Flow) : Node := { n with flow := update n.flow s (update (n.flow s) d f) }

/-- A handler works on a flow. -/
def onFlow (s d : Nat) (g : Flow → Except Fault Flow) : Except Fault Node := (g (n.flow s d)).map (n.setFlow s d)

/-! ### `Reliable_Flood_Process_E2E` -/

/-- The destination asks for a new handshake. -/
def Opens (new : E2E) : Prop := ((n.e2e new.dest).cell c.myId).destEpoch < (new.cell c.myId).destEpoch

instance (new : E2E) : Decidable (n.Opens c new) := by
  unfold Opens
  infer_instance

/-- The epoch of the flow to the destination, once the request is answered. -/
def newSourceEpoch (d now : Nat) : Nat := if 1 < n.flowSeqNo d then now else n.flowSourceEpoch d

/-- The request is answered, in the cell of the node's own matrix and for the two flows. -/
def answer (new : E2E) (now : Nat) : Node :=
  let d := new.dest
  let epoch := (new.cell c.myId).destEpoch
  let cell := (n.own c).cell d
  let cell := { cell with destEpoch := if 1 < n.flowSeqNo d then now else cell.destEpoch, srcEpoch := epoch, aru := 0 }
  let f := n.flow d c.myId
  { n.setFlow d c.myId { f with sow := 1, headSeq := 1, nextSeq := c.each f.nextSeq fun _ => 1, srcEpoch := epoch } with
    e2e := update n.e2e c.myId { n.own c with cell := update (n.own c).cell d cell }
    flowSeqNo := update n.flowSeqNo d (if 1 < n.flowSeqNo d then 1 else n.flowSeqNo d)
    flowSourceEpoch := update n.flowSourceEpoch d (n.newSourceEpoch d now)
    handshakeComplete := update n.handshakeComplete d false
    initialE2E := true }

/-- The destination has seen the epoch of the flow to it. -/
def Completes (new : E2E) : Prop :=
  n.handshakeComplete new.dest = false ∧ (new.cell c.myId).srcEpoch = n.flowSourceEpoch new.dest

instance (new : E2E) : Decidable (n.Completes c new) := by
  unfold Completes
  infer_instance

/-- The loop over the flows to the destination, and the acknowledgement is stored. -/
def apply (lastHop : Nat) (new : E2E) : Except Fault Node :=
  let old := n.e2e new.dest
  (nodes.foldlM (fun (n : Node) i => n.onFlow i new.dest fun f => f.onCell c lastHop (old.cell i) (new.cell i)) n).map
    fun n => { n with e2e := update n.e2e new.dest new }

def processE2E (lastHop : Nat) (new : E2E) (now : Nat) : Except Fault Node :=
  if new.dest < 1 ∨ maxNodes < new.dest then .ok n
  else if ¬ (n.e2e new.dest).Accepts new then .ok n
  else
    let n := if n.Opens c new then n.answer c new now else n
    if n.Completes c new then
      if (new.cell c.myId).aru ≠ 0 then .ok n
      else apply c { n with handshakeComplete := update n.handshakeComplete new.dest true } lastHop new
    else n.apply c lastHop new

/-! ### The other handlers -/

/-- A cell of the matrix with what came of the flow since. -/
def genCell (i : Nat) : Cell :=
  let x := (n.own c).cell i
  let aru := pred64 (n.flow i c.myId).headSeq
  if i ∈ nodes ∧ x.srcEpoch = (n.flow i c.myId).srcEpoch ∧ x.aru < aru then { x with aru := aru } else x

/-- `Reliable_Flood_Gen_E2E`. -/
def genE2E : Node :=
  if c.e2eOpt = false ∧ n.e2eStop = true then n
  else if n.initialE2E then { n with initialE2E := false }
  else { n with e2e := update n.e2e c.myId { n.own c with cell := n.genCell c } }

/-- `Reliable_Flood_Process_Data`. -/
def processData (lastHop : Nat) (m : Message) : Except Fault (Ret × Node) :=
  let n := if c.e2eOpt then n else { n with e2eStop := true }
  ((n.flow m.src m.dest).onData c lastHop n.numPathsSnapshot m).map fun x => (x.1, n.setFlow m.src m.dest x.2)

/-- `Reliable_Flood_Process_Acks`. -/
def processAcks (lastHop : Nat) : List HbhAck → Node → Except Fault Node
  | [], n => .ok n
  | a :: acks, n =>
    if a.src ∉ nodes ∨ a.dest ∉ nodes then .ok n
    else n.onFlow a.src a.dest (fun f => f.onAck c lastHop a) >>= processAcks lastHop acks

/-- `Reliable_Flood_Neighbor_Transfer`. `unsent` is `e2e_stats[d].unsent`. -/
def neighborTransfer (k : Nat) (unsent : Nat → Bool) : Except Fault Node :=
  nodes.foldlM (fun (n : Node) d =>
    let blocked := !unsent d && decide (d ≠ c.neighborId k ∧ (n.e2e d).dest = d)
    nodes.foldlM (fun (n : Node) s => n.onFlow s d fun f => f.onTransfer c k blocked) n) n

/-- `Reliable_Flood_Send_E2E`, when the packet went out. -/
def sendE2E (k d : Nat) : Except Fault Node := nodes.foldlM (fun (n : Node) s => n.onFlow s d fun f => f.unblock c k) n

/-- `Reliable_Flood_Send_Data` with the flow from `s` to `d`. -/
def sendData (k s d : Nat) (t : Flow.Turn) : Except Fault Node :=
  n.onFlow s d fun f => f.onSend c s k (n.handshakeComplete d) t

/-- What a link does when it is asked for room, and has it. -/
inductive Slot
  | data (k s d : Nat) (t : Flow.Turn)
  | e2e (k d : Nat)

def sendOne (n : Node) : Slot → Except Fault Node
  | .data k s d t => n.sendData c k s d t
  | .e2e k d => n.sendE2E c k d

/-- What comes out of the topology and of the keys, and what the links do, while a node restamps. -/
structure Restamp where
  stamps : Nat → Flow.Stamps
  slots : Nat → Nat → List Slot

/-- `next_seq` goes back for a neighbour. Where that brings the flow into the queue the link is asked
for room, and may send at once. -/
def resendTo (r : Restamp) (i : Nat) (n : Node) (k : Nat) : Except Fault Node :=
  (n.flow c.myId i).resend c k >>= fun x =>
    let n := n.setFlow c.myId i x.2
    if x.1 then (r.slots i k).foldlM (sendOne c) n else .ok n

/-- A round of `Reliable_Flood_Restamp`, for a destination. -/
def restampTo (r : Restamp) (n : Node) (i : Nat) : Except Fault Node :=
  let f := n.flow c.myId i
  if i = c.myId ∨ f.sow = f.headSeq then .ok n
  else
    f.restampFrom c (r.stamps i) (f.headSeq - f.sow) f.sow false >>= fun x =>
      let n := n.setFlow c.myId i x.1
      if x.2.2 = false ∧ x.2.1 = true then c.neighbors.foldlM (resendTo c r i) n else .ok n

/-- `Reliable_Flood_Restamp`. -/
def restamp (r : Restamp) : Except Fault Node := nodes.foldlM (restampTo c r) n

/-- `Fill_Packet_Header_Reliable_Flood`. -/
def fillPacketHeader (h : Message) (numPaths : Nat) : Message × Node :=
  ({ h with srcEpoch := n.flowSourceEpoch h.dest, seqNum := n.flowSeqNo h.dest },
    { n with flowSeqNo := update n.flowSeqNo h.dest (add64 (n.flowSeqNo h.dest) 1), numPathsSnapshot := numPaths })

end Node

/-! ## Runs -/

/-- What happens at a node. -/
inductive Action
  | data (lastHop : Nat) (m : Message)
  | acks (lastHop : Nat) (acks : List HbhAck)
  | e2e (lastHop : Nat) (new : E2E) (now : Nat)
  | gen
  | transfer (k : Nat) (unsent : Nat → Bool)
  | send (slot : Node.Slot)
  | restamp (r : Node.Restamp)
  | fill (h : Message) (numPaths : Nat)

namespace Node

variable (c : Conf)

def step (n : Node) : Action → Except Fault Node
  | .data lastHop m => (n.processData c lastHop m).map Prod.snd
  | .acks lastHop acks => processAcks c lastHop acks n
  | .e2e lastHop new now => n.processE2E c lastHop new now
  | .gen => .ok (n.genE2E c)
  | .transfer k unsent => n.neighborTransfer c k unsent
  | .send slot => n.sendOne c slot
  | .restamp r => n.restamp c r
  | .fill h numPaths => .ok (n.fillPacketHeader h numPaths).2

end Node

end Spire.Flood
