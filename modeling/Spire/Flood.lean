import Spire.Lib.Runs
import Spire.Lib.Window
import Mathlib.Logic.Function.Basic

/-!
# Reliable flooding

`reliable_flood.c` of Spines. A node buffers each flow, from a source to a destination, in a window
of slots and sends it on to its neighbours. A neighbour says with hop-by-hop acknowledgements what
it has, the destination with an end-to-end acknowledgement, a signed matrix with a cell for each
source. Sources and destinations find each other again after a crash by epochs.

What `RF_Edge_Data[k]` has of a flow is here with the flow, as functions of the neighbour `k`. The
neighbours are counted from one; zero is a client of this node. Which of the queued flows the queues
of a link offer, and what their penalties are, is left to the caller of `send`, as is the timing of
the acknowledgements. Integers of 64 bits are taken modulo where they can wrap.
-/

namespace Spire.Flood

open Function (update)
open Lib (skipWhile)

/-! ## Constants and configuration -/

/-- `MAX_NODES`. -/
def maxNodes : Nat := 50

/-- `MAX_MESS_PER_FLOW`. -/
def maxMessPerFlow : Nat := 1000

def nodes : List Nat := List.range' 1 maxNodes

theorem one_mem_nodes : 1 ∈ nodes := by decide

/-- `My_ID`, `Neighbor_IDs`, `MP_Neighbor_Mask` and what of `Conf_Rel` the window depends on. -/
structure Conf where
  myId : Nat
  myId_mem : myId ∈ nodes
  neighborIds : List Nat
  neighborMask : Nat → Nat
  hbhAdvance : Bool
  hbhOpt : Bool
  e2eOpt : Bool
  crypto : Bool

namespace Conf

variable {α : Type} (c : Conf)

/-- `Degree[My_ID]`. -/
def degree : Nat := c.neighborIds.length

def neighbors : List Nat := List.range' 1 c.degree

def neighborId (k : Nat) : Nat := c.neighborIds.getD (k - 1) 0

/-- A loop over the neighbours that sets an entry for each. -/
def each (g : Nat → α) (h : Nat → α) : Nat → α := fun k => if 1 ≤ k ∧ k ≤ c.degree then h k else g k

/-- `MultiPath_Neighbor_On_Path`. -/
def onPath (mask k : Nat) : Bool := decide (mask &&& c.neighborMask k ≠ 0)

end Conf

/-- `MultiPath_Is_Superset`: the new mask is not the old one and has all its bits. -/
def isSuperset (old new : Nat) : Bool := decide (old ^^^ new ≠ 0 ∧ old &&& (old ^^^ new) = 0)

/-- `x - 1` and `x + y` of type `int64u`. -/
def pred64 (x : Nat) : Nat := (x + (2 ^ 64 - 1)) % 2 ^ 64

def add64 (x y : Nat) : Nat := (x + y) % 2 ^ 64

/-- A 64-bit number that was put into an `int`, where it is compared with one again. -/
def asInt (x : Nat) : Nat := if x % 2 ^ 32 < 2 ^ 31 then x % 2 ^ 32 else x % 2 ^ 32 + (2 ^ 64 - 2 ^ 32)

/-! ## Messages and flows -/

/-- `rel_flood_header` of a data message, and the bitmask behind it. -/
structure Message where
  src : Nat
  dest : Nat
  srcEpoch : Nat
  seqNum : Nat
  mask : Nat
deriving DecidableEq, Repr

/-- `rel_flood_hbh_ack`. -/
structure HbhAck where
  src : Nat
  dest : Nat
  srcEpoch : Nat
  aru : Nat
  sow : Nat
deriving DecidableEq, Repr

/-- `e2e_cell`. -/
structure Cell where
  destEpoch : Nat
  srcEpoch : Nat
  aru : Nat
deriving DecidableEq, Repr

/-- `rel_flood_e2e_ack`. -/
structure E2E where
  dest : Nat
  cell : Nat → Cell

/-- `Message_Sending_Status`. -/
inductive Status
  | empty | newUnsent | newSent | restampedUnsent | restampedSent
deriving DecidableEq, Repr

def Status.isSent : Status → Bool
  | .newSent | .restampedSent => true
  | _ => false

/-- What ends the daemon: a null pointer that is followed, the two calls of `Alarm(EXIT)`, the
assertion, and a loop without end. -/
inductive Fault
  | nullMessage | missing | notPossible | assertion | endless
deriving DecidableEq, Repr

/-- `NO_ROUTE` and `BUFF_OK`. -/
inductive Ret
  | noRoute | buffOk
deriving DecidableEq, Repr

/-- `Flow_Buffer`, and for each neighbour `flow_aru` and `flow_sow` of its `ns_matrix`,
`in_flow_queue` and `flow_block`. -/
structure Flow where
  msg : Nat → Option Message
  status : Nat → Nat → Status
  numPaths : Nat → Nat
  sow : Nat
  nextSeq : Nat → Nat
  headSeq : Nat
  srcEpoch : Nat
  flowAru : Nat → Nat
  flowSow : Nat → Nat
  inFlowQueue : Nat → Bool
  flowBlock : Nat → Bool

/-- The slot of a sequence number. -/
def slot (seq : Nat) : Nat := seq % maxMessPerFlow

namespace Flow

variable (c : Conf) (f : Flow)

def init : Flow :=
  { msg := fun _ => none, status := fun _ _ => .empty, numPaths := fun _ => 0, sow := 1, nextSeq := fun _ => 1
    headSeq := 1, srcEpoch := 0, flowAru := fun _ => 0, flowSow := fun _ => 1, inFlowQueue := fun _ => false
    flowBlock := fun _ => false }

/-! ### The loops that the handlers share -/

/-- The message with this number is marked as sent to the neighbour. -/
def sentTo (k seq : Nat) : Bool := (f.status (slot seq) k).isSent

/-- `while (next < head && sent(next)) next++`. -/
def firstUnsent (k next : Nat) : Nat := skipWhile (f.sentTo k) (f.headSeq - next) next

/-- The loop over what was sent already, for one neighbour and for all. -/
def advance (k : Nat) : Flow := { f with nextSeq := update f.nextSeq k (f.firstUnsent k (f.nextSeq k)) }

def advanceAll : Flow := { f with nextSeq := c.each f.nextSeq fun k => f.firstUnsent k (f.nextSeq k) }

/-- The same where `next_seq` may be behind `sow`. -/
def catchUp : Flow := { f with nextSeq := c.each f.nextSeq fun k => f.firstUnsent k (max (f.nextSeq k) f.sow) }

/-- `Cleanup_Scatter` on a slot, after which it is empty. -/
def clearSlot (i : Nat) : Flow :=
  { f with
    msg := update f.msg i none
    status := update f.status i (c.each (f.status i) fun _ => .empty)
    numPaths := update f.numPaths i 0 }

/-- The slots of `n` numbers from `seq` on; with `guarded` only those that hold a message. -/
def clearRange (guarded : Bool) : Nat → Nat → Flow → Flow
  | 0, _, f => f
  | n + 1, seq, f =>
    clearRange guarded n (seq + 1) (if guarded && (f.msg (slot seq)).isNone then f else f.clearSlot c (slot seq))

/-- `while (fb->sow <= min)` with the slot of `sow` cleared and `sow++`. -/
def release (guarded : Bool) (min : Nat) : Except Fault Flow :=
  if min = 2 ^ 64 - 1 then .error .endless
  else .ok { clearRange c guarded (min + 1 - f.sow) f.sow f with sow := max f.sow (min + 1) }

/-- The bitmask of the message that is next for a neighbour. -/
def nextMask (k : Nat) : Except Fault Nat :=
  match f.msg (slot (f.nextSeq k)) with
  | some m => .ok m.mask
  | none => .error .nullMessage

/-- The flow comes into a queue of the link, if it is in none and has something to send there. -/
def enqueue (k : Nat) : Except Fault Flow :=
  if f.inFlowQueue k = false ∧ f.nextSeq k < f.headSeq then
    (f.nextMask k).map fun mask => if c.onPath mask k then { f with inFlowQueue := update f.inFlowQueue k true } else f
  else .ok f

/-- What can be released when the window moves with hop-by-hop acknowledgements. -/
def leastKnown : Nat :=
  c.neighbors.foldl (fun min j =>
    let min := if f.flowAru j < min then f.flowAru j else min
    if c.hbhOpt = false ∧ pred64 (f.nextSeq j) < min then pred64 (f.nextSeq j) else min) (pred64 f.headSeq)

/-! ### `Reliable_Flood_Process_E2E` -/

/-- The window starts anew behind the `aru` of a cell. -/
def restart (new : Cell) : Flow :=
  let f := { f with sow := add64 new.aru 1, headSeq := add64 new.aru 1 }
  { f with
    nextSeq := c.each f.nextSeq fun k => f.firstUnsent k (add64 new.aru 1)
    flowAru := c.each f.flowAru fun _ => new.aru
    flowSow := c.each f.flowSow fun _ => add64 new.aru 1
    srcEpoch := new.srcEpoch }

/-- The normal case, in which the `aru` increases. -/
def acknowledge (new : Cell) : Except Fault Flow :=
  (f.release c true new.aru).map fun f =>
    let f := { f with headSeq := max f.headSeq f.sow }
    { f.catchUp c with
      flowAru := c.each f.flowAru fun k => max (f.flowAru k) new.aru
      flowSow := c.each f.flowSow fun k => if f.flowSow k ≤ new.aru then add64 new.aru 1 else f.flowSow k }

/-- The flow waits for the acknowledgement towards all neighbours but the one it came from. -/
def block (lastHop : Nat) : Except Fault Flow :=
  let f := { f with flowBlock := c.each f.flowBlock fun j => if j = lastHop then f.flowBlock j else true }
  if 1 ≤ lastHop ∧ lastHop ≤ c.degree then f.enqueue c lastHop else .ok f

/-- What the cell of its source does to a flow. -/
def onCell (lastHop : Nat) (old new : Cell) : Except Fault Flow :=
  if old.destEpoch < new.destEpoch then
    ((clearRange c false (f.headSeq - f.sow) f.sow f).restart c new).block c lastHop
  else if old.srcEpoch < new.srcEpoch then (f.restart c new).block c lastHop
  else if old.aru < new.aru then f.acknowledge c new >>= fun f => f.block c lastHop
  else .ok f

/-! ### `Reliable_Flood_Process_Data` -/

/-- A message whose bitmask is the stored one, from a neighbour. -/
def onEqual (lastHop i : Nat) : Flow :=
  let f :=
    if f.status i lastHop = .newUnsent ∧ c.hbhOpt = true then
      { f with status := update f.status i (update (f.status i) lastHop .newSent) }
    else if f.status i lastHop = .restampedUnsent ∧ c.hbhOpt = true then
      { f with status := update f.status i (update (f.status i) lastHop .restampedSent) }
    else f
  f.advance lastHop

/-- The message comes into its slot, with a mark for each neighbour. -/
def mark (lastHop : Nat) (restamped : Bool) (m : Message) : Flow :=
  let i := slot m.seqNum
  let fresh := if restamped then Status.restampedUnsent else .newUnsent
  let known := if restamped then Status.restampedSent else .newSent
  { f with
    msg := update f.msg i (some m)
    status := update f.status i <| c.each (f.status i) fun k =>
      if c.hbhOpt = true ∧ (k = lastHop ∨ c.neighborId k = m.src) then known else fresh }

/-- The message is stored. -/
def store (lastHop numPathsSnapshot : Nat) (restamped : Bool) (m : Message) : Flow :=
  let f := (f.mark c lastHop restamped m).advanceAll c
  if lastHop = 0 ∧ restamped = false then { f with numPaths := update f.numPaths (slot m.seqNum) numPathsSnapshot } else f

/-- `next_seq` goes back to a message that is stored again. -/
def rewind (seq : Nat) : Flow := { f with nextSeq := c.each f.nextSeq fun k => f.firstUnsent k (min (f.nextSeq k) seq) }

/-- What follows for the window. -/
def afterStore (restamped : Bool) (m : Message) : Except Fault Flow :=
  if c.hbhAdvance = true ∧ restamped = false then (f.release c false (f.leastKnown c)).map fun f => f.catchUp c
  else .ok (if restamped then f.rewind c m.seqNum else f)

/-- The loop at the end: who has the message, and to whom the flow is now to be sent. -/
def spread (lastHop : Nat) (m : Message) : Flow :=
  let learns k := (c.hbhAdvance && !c.hbhOpt) = false ∧ (k = lastHop ∨ c.neighborId k = m.src)
  { f with
    flowAru := c.each f.flowAru fun k => if learns k then max (f.flowAru k) m.seqNum else f.flowAru k
    inFlowQueue := c.each f.inFlowQueue fun k =>
      if ¬ learns k ∧ f.inFlowQueue k = false ∧ f.nextSeq k = m.seqNum ∧ c.onPath m.mask k then true
      else f.inFlowQueue k }

/-- A message that is new, or stored with a smaller bitmask, and for which there is room. -/
def accept (lastHop numPathsSnapshot : Nat) (m : Message) : Except Fault Flow :=
  let restamped := decide (m.seqNum ≠ f.headSeq)
  let f := if restamped then f else { f with headSeq := f.headSeq + 1 }
  let f : Except Fault Flow :=
    if m.dest = c.myId then
      .ok (if restamped then f else { f with sow := f.sow + 1, nextSeq := c.each f.nextSeq fun _ => f.headSeq })
    else (f.store c lastHop numPathsSnapshot restamped m).afterStore c restamped m
  f.map fun f => f.spread c lastHop m

def onData (lastHop numPathsSnapshot : Nat) (m : Message) : Except Fault (Ret × Flow) :=
  let room : Except Fault (Ret × Flow) :=
    if add64 f.sow maxMessPerFlow ≤ m.seqNum then .ok (.noRoute, f)
    else (f.accept c lastHop numPathsSnapshot m).map fun f => (.buffOk, f)
  if f.srcEpoch < m.srcEpoch ∨ m.srcEpoch < f.srcEpoch ∨ m.srcEpoch = 0 then .ok (.noRoute, f)
  else if m.seqNum < f.sow ∨ f.headSeq < m.seqNum then .ok (.noRoute, f)
  else if m.seqNum = f.headSeq then room
  else
    match f.msg (slot m.seqNum) with
    | none => .error .missing
    | some stored =>
      if isSuperset stored.mask m.mask then room
      else if stored.mask = m.mask then .ok (.noRoute, f.onEqual c lastHop (slot m.seqNum))
      else .ok (.noRoute, f)

/-! ### `Reliable_Flood_Process_Acks` -/

/-- The loop over what the neighbour has up to `aru`, with a bound on the number of rounds. -/
def ackUpTo (k aru : Nat) : Nat → Flow → Flow
  | 0, f => f
  | n + 1, f =>
    let seq := f.nextSeq k
    let pass (f : Flow) : Flow := { f with nextSeq := update f.nextSeq k (seq + 1) }
    if f.sentTo k seq then ackUpTo k aru n (pass f)
    else if f.status (slot seq) k = .newUnsent ∧ seq ≤ aru then
      ackUpTo k aru n
        (pass { f with status := update f.status (slot seq) (update (f.status (slot seq)) k .newSent) })
    else f

/-- The part for a neighbour that has more than it had. -/
def onAru (lastHop aru : Nat) : Except Fault Flow :=
  let aru := if aru = 2 ^ 64 - 1 then 2 ^ 64 - 2 else aru
  let f := { f with flowAru := update f.flowAru lastHop aru }
  let f :=
    if c.hbhOpt = true ∧ f.nextSeq lastHop ≤ aru then ackUpTo lastHop aru (f.headSeq - f.nextSeq lastHop) f else f
  if c.hbhAdvance then (f.release c true (f.leastKnown c)).map fun f => f.catchUp c else .ok f

def onAck (lastHop : Nat) (a : HbhAck) : Except Fault Flow :=
  if f.srcEpoch ≠ a.srcEpoch then .ok f
  else
    let f := { f with flowSow := update f.flowSow lastHop (max (f.flowSow lastHop) a.sow) }
    let f := if f.flowAru lastHop < a.aru then f.onAru c lastHop a.aru else .ok f
    f >>= fun f =>
      if f.nextSeq lastHop < add64 (f.flowSow lastHop) maxMessPerFlow then f.enqueue c lastHop else .ok f

/-! ### `Reliable_Flood_Neighbor_Transfer` and `Reliable_Flood_Send_E2E` -/

/-- All of the window is unsent again, for a neighbour that lost its state. -/
def unsend (k : Nat) : Nat → Nat → Flow → Flow
  | 0, _, f => f
  | n + 1, seq, f =>
    let s := match f.status (slot seq) k with
      | .newSent => .newUnsent
      | .restampedSent => .restampedUnsent
      | s => s
    unsend k n (seq + 1) { f with status := update f.status (slot seq) (update (f.status (slot seq)) k s) }

def onTransfer (k : Nat) (blocked : Bool) : Except Fault Flow :=
  let f := if blocked then { f with flowBlock := update f.flowBlock k true } else f
  let f := unsend k (f.headSeq - f.sow) f.sow f
  Flow.enqueue c { f with nextSeq := update f.nextSeq k f.sow } k

/-- The acknowledgement has gone to the neighbour. -/
def unblock (k : Nat) : Except Fault Flow :=
  Flow.enqueue c { f with flowBlock := update f.flowBlock k false } k

/-! ### `Reliable_Flood_Send_Data` -/

/-- How the flow that the queues offer comes off: whether it is from the urgent queue, what it has
still to pay, and whether `Forward_Data` takes the packet. -/
structure Turn where
  urgent : Bool
  penalty : Nat
  forwarded : Bool
deriving DecidableEq, Repr

/-- The minimum as this function has it, in an `int`. -/
def leastInt : Nat :=
  c.neighbors.foldl (fun min j =>
    let min := if f.flowAru j < min then asInt (f.flowAru j) else min
    if pred64 (f.nextSeq j) < min then asInt (pred64 (f.nextSeq j)) else min) (asInt (pred64 f.headSeq))

/-- The message that is next for the neighbour is marked as sent. -/
def markSent (k : Nat) : Flow :=
  let i := slot (f.nextSeq k)
  let s := match f.status i k with
    | .newUnsent => .newSent
    | .restampedUnsent => .restampedSent
    | s => s
  Flow.advance { f with status := update f.status i (update (f.status i) k s) } k

/-- After the packet went out. -/
def onSent (k : Nat) : Except Fault Flow :=
  let f := f.markSent k
  if c.hbhAdvance = true ∧ c.hbhOpt = false then (f.release c true (f.leastInt c)).map fun f => f.catchUp c else .ok f

/-- The flow can send nothing to the neighbour at the moment. -/
def held (src k : Nat) (handshake : Bool) : Except Fault Bool :=
  if add64 (f.flowSow k) maxMessPerFlow ≤ f.nextSeq k ∨ f.headSeq ≤ f.nextSeq k ∨ f.flowBlock k = true ∨
      (c.myId = src ∧ handshake = false) then
    .ok true
  else (f.nextMask k).map fun mask => !c.onPath mask k

def onSend (src k : Nat) (handshake : Bool) (t : Turn) : Except Fault Flow :=
  if f.inFlowQueue k = false then .ok f
  else if 0 < t.penalty then .ok f
  else
    f.held c src k handshake >>= fun held =>
      if held then .ok (if t.urgent then f else { f with inFlowQueue := update f.inFlowQueue k false })
      else if (f.msg (slot (f.nextSeq k))).isNone then .error .assertion
      else if t.forwarded then f.onSent c k else .ok f

/-! ### `Reliable_Flood_Restamp` -/

/-- What comes out for each message: the bitmask that `MultiPath_Stamp_Bitmask` computes for its
`num_paths`, if it does, and whether it can be signed. -/
structure Stamps where
  mask : Nat → Option Nat
  signs : Nat → Bool

/-- The loop over the window. The result says also whether a message was restamped, and whether the
loop ended in an error. -/
def restampFrom (r : Stamps) : Nat → Nat → Bool → Flow → Except Fault (Flow × Bool × Bool)
  | 0, _, flag, f => .ok (f, flag, false)
  | n + 1, seq, flag, f =>
    match r.mask (f.numPaths (slot seq)), f.msg (slot seq) with
    | none, _ => .ok (f, flag, true)
    | some _, none => .error .nullMessage
    | some mask, some m =>
      if m.mask = mask ||| m.mask then restampFrom r n (seq + 1) flag f
      else
        let f := { f with msg := update f.msg (slot seq) (some { m with mask := mask ||| m.mask }) }
        if c.crypto = true ∧ r.signs seq = false then .ok (f, true, true)
        else
          restampFrom r n (seq + 1) true
            { f with status := update f.status (slot seq) (c.each (f.status (slot seq)) fun _ => .restampedUnsent) }

/-- `next_seq` goes back to the first message that is to be sent again. The result says also whether
the flow came into the queue. -/
def resend (k : Nat) : Except Fault (Bool × Flow) :=
  if f.nextSeq k < f.firstUnsent k f.sow then .error .notPossible
  else
    let g := { f with nextSeq := update f.nextSeq k (f.firstUnsent k f.sow) }
    (g.enqueue c k).map fun h => (h.inFlowQueue k && !f.inFlowQueue k, h)

end Flow

end Spire.Flood
