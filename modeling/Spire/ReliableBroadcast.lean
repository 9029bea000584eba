import Spire.Replay
import Spire.Lib.Network

/-!
# Reliable broadcast

`reliable_broadcast.c`: Reports, certificate sets and the view-change messages of a
system reset travel inside `RB_INIT`, `RB_ECHO` and `RB_READY` messages. A payload
starts with a tag, and a server keeps one slot for each tag of the view it is in. A
slot stores the first payload it hears of, from whichever kind of message, and counts
only what carries the same payload.

The state of a server is what this protocol reads and writes, with three history
variables: the payloads `RB_Process_Ready` handed on, the messages processed in their
view, and the payloads the server signed and broadcast itself. `RB_Periodic_Retrans` sends again
what was sent, which the network does anyway. A message the state of a server does not
permit is a lost message. Slots are cleared on entering a view; that catchup also clears
them on leaving a view change (`CATCH_Process_ORD_Certificate`) is not part of a run of
this protocol.
-/

namespace Spire.Broadcast

open Spire.Lib Spire.Replay

variable {C D : Type}

/-! ## Messages -/

/-- What is broadcast: a signed message whose body starts with an `rb_tag`. `content` is
the rest of the body. -/
structure Payload (C : Type) where
  machineId : Nat
  incarnation : Nat
  type : PacketType
  tag : RbTag
  content : C
deriving DecidableEq, Repr

/-- `RB_INIT`, `RB_ECHO` and `RB_READY`. -/
inductive Kind
  | init | echo | ready
deriving DecidableEq, Repr

/-- A message of the protocol: its signer and the payload inside. -/
structure Msg (C : Type) where
  kind : Kind
  machineId : Nat
  payload : Payload C
deriving DecidableEq, Repr

/-- `OPENSSL_RSA_Make_Digest` on a payload, and the checks of `validate.c` on the content
of one (`Spire.Validate`). -/
structure Params (C D : Type) where
  digest : Payload C → D
  validContent : Payload C → Bool

/-! ## State -/

/-- `rb_state`. -/
inductive RbState
  | init | sentEcho | sentReady
deriving DecidableEq, Repr

/-- `rb_slot`. The digest of the stored payload is computed where it is read. -/
structure Slot (C : Type) where
  state : RbState
  rbMsg : Option (Payload C)
  echoReceived : Nat → Bool
  echoCount : Nat
  readyReceived : Nat → Bool
  readyCount : Nat

/-- A slot `UTIL_Get_RB_Slot` has just made. -/
def Slot.new : Slot C :=
  { state := .init, rbMsg := none, echoReceived := fun _ => false, echoCount := 0
    readyReceived := fun _ => false, readyCount := 0 }

/-- `DATA.RB`, `DATA.View` and the incarnation a server signs with. -/
structure Node (C : Type) where
  view : Nat
  incarnation : Nat
  rbSeq : Nat
  instances : Nat → Nat → Slot C
  delivered : List (Payload C)
  processed : List (Msg C)
  broadcasts : List (Nat × Payload C)

namespace Node

variable (st : Node C)

/-- `UTIL_Get_RB_Slot`. -/
def slot (tag : RbTag) : Slot C := st.instances tag.machineId tag.seqNum

def setSlot (tag : RbTag) (slot : Slot C) : Node C :=
  { st with
    instances := Function.update st.instances tag.machineId
      (Function.update (st.instances tag.machineId) tag.seqNum slot) }

/-- `RB_Initialize_Upon_View_Change`, in a view just entered. -/
def enterView (view : Nat) : Node C :=
  { st with view, rbSeq := 1, instances := fun _ _ => Slot.new }

def record (mess : Msg C) : Node C := { st with processed := mess :: st.processed }

@[simp] theorem setSlot_view (tag : RbTag) (slot : Slot C) : (st.setSlot tag slot).view = st.view := rfl

@[simp] theorem setSlot_delivered (tag : RbTag) (slot : Slot C) :
    (st.setSlot tag slot).delivered = st.delivered := rfl

@[simp] theorem setSlot_processed (tag : RbTag) (slot : Slot C) :
    (st.setSlot tag slot).processed = st.processed := rfl

@[simp] theorem setSlot_broadcasts (tag : RbTag) (slot : Slot C) :
    (st.setSlot tag slot).broadcasts = st.broadcasts := rfl

@[simp] theorem slot_setSlot_self (tag : RbTag) (slot : Slot C) : (st.setSlot tag slot).slot tag = slot := by
  simp [setSlot, Node.slot]

/-- Tags of one view have slots of their own. -/
theorem slot_setSlot_of_ne {tag t : RbTag} (hview : t.view = tag.view) (hne : t ≠ tag) (slot : Slot C) :
    (st.setSlot tag slot).slot t = st.slot t := by
  unfold setSlot Node.slot
  by_cases hm : t.machineId = tag.machineId
  · have hs : t.seqNum ≠ tag.seqNum := by
      intro hs
      apply hne
      cases t
      cases tag
      simp_all
    simp [hm, hs]
  · simp [hm]

@[simp] theorem slot_enterView (view : Nat) (t : RbTag) : (st.enterView view).slot t = Slot.new := rfl

@[simp] theorem record_slot (mess : Msg C) (t : RbTag) : (st.record mess).slot t = st.slot t := rfl

end Node

section Handlers

variable [DecidableEq D] (c : Config) (p : Params C D)

/-! ## Processing -/

/-- `RB_Construct_Message`, on the payload of a slot. -/
def constructMessage (me : Nat) (kind : Kind) (payload : Payload C) : Msg C :=
  { kind, machineId := me, payload }

/-- A slot stores the first payload it hears of. Any other of the same digest counts as
that one, and any other is turned away. -/
def Slot.hear (slot : Slot C) (payload : Payload C) : Option (Payload C × Slot C) :=
  match slot.rbMsg with
  | none => some (payload, { slot with rbMsg := some payload })
  | some rbMsg => if p.digest payload = p.digest rbMsg then some (rbMsg, slot) else none

/-- What a message does to the slot it is for: the slot, what is sent, and whether the
payload is handed to `PROCESS_Message`. -/
structure Outcome (C : Type) where
  slot : Slot C
  sends : List (Msg C)
  delivers : Bool

/-- The slot as it is, with nothing sent. -/
def Outcome.quiet (slot : Slot C) : Outcome C := { slot, sends := [], delivers := false }

/-- The switch of `RB_Process_Echo` and `RB_Process_Ready`: a server that has not echoed
does, and one that is not ready says that it is. -/
def becomeReady (me : Nat) (rbMsg : Payload C) (slot : Slot C) : Outcome C :=
  match slot.state with
  | .init =>
    { slot := { slot with state := .sentReady }
      sends := [constructMessage me .echo rbMsg, constructMessage me .ready rbMsg], delivers := false }
  | .sentEcho =>
    { slot := { slot with state := .sentReady }
      sends := [constructMessage me .ready rbMsg], delivers := false }
  | .sentReady => .quiet slot

/-- `RB_Process_Init` on a slot that holds the payload. -/
def initSlot (me : Nat) (rbMsg : Payload C) (slot : Slot C) : Outcome C :=
  match slot.state with
  | .init =>
    { slot := { slot with state := .sentEcho }
      sends := [constructMessage me .echo rbMsg], delivers := false }
  | .sentEcho | .sentReady => .quiet slot

def Slot.countEcho (slot : Slot C) (sender : Nat) : Slot C :=
  { slot with
    echoReceived := Function.update slot.echoReceived sender true
    echoCount := slot.echoCount + 1 }

def Slot.countReady (slot : Slot C) (sender : Nat) : Slot C :=
  { slot with
    readyReceived := Function.update slot.readyReceived sender true
    readyCount := slot.readyCount + 1 }

/-- `RB_Process_Echo` on a slot that holds the payload. -/
def echoSlot (me sender : Nat) (rbMsg : Payload C) (slot : Slot C) : Outcome C :=
  if slot.echoReceived sender then .quiet slot
  else if (slot.countEcho sender).echoCount ≠ c.quorum then .quiet (slot.countEcho sender)
  else becomeReady me rbMsg (slot.countEcho sender)

/-- `RB_Process_Ready` on a slot that holds the payload. With `f + 1` the handler
returns, so that a quorum no larger than that would never deliver. -/
def readySlot (me sender : Nat) (rbMsg : Payload C) (slot : Slot C) : Outcome C :=
  if slot.readyReceived sender then .quiet slot
  else if (slot.countReady sender).readyCount < c.F + 1 then .quiet (slot.countReady sender)
  else if (slot.countReady sender).readyCount = c.F + 1 then becomeReady me rbMsg (slot.countReady sender)
  else
    { slot := slot.countReady sender, sends := []
      delivers := decide ((slot.countReady sender).readyCount = c.quorum) }

/-- The slot changes, and a payload it gives is handed on. -/
def Node.apply (st : Node C) (tag : RbTag) (rbMsg : Payload C) (o : Outcome C) : Node C :=
  { st.setSlot tag o.slot with
    delivered := if o.delivers then rbMsg :: st.delivered else st.delivered }

/-- The first half of the three handlers: a message of another view or with another
payload than the slot's is dropped. -/
def onSlot (st : Node C) (mess : Msg C) (f : Payload C → Slot C → Outcome C) : Node C × List (Msg C) :=
  if mess.payload.tag.view ≠ st.view then (st, [])
  else
    match (st.slot mess.payload.tag).hear p mess.payload with
    | none => (st.record mess, [])
    | some (rbMsg, slot) =>
      ((st.record mess).apply mess.payload.tag rbMsg (f rbMsg slot), (f rbMsg slot).sends)

/-- `RB_Process_Init`. -/
def processInit (me : Nat) (st : Node C) (mess : Msg C) : Node C × List (Msg C) :=
  onSlot p st mess (initSlot me)

/-- `RB_Process_Echo`. -/
def processEcho (me : Nat) (st : Node C) (mess : Msg C) : Node C × List (Msg C) :=
  onSlot p st mess (echoSlot c me mess.machineId)

/-- `RB_Process_Ready`. -/
def processReady (me : Nat) (st : Node C) (mess : Msg C) : Node C × List (Msg C) :=
  onSlot p st mess (readySlot c me mess.machineId)

/-- What a server does with a validated message. -/
def process (me : Nat) (st : Node C) (mess : Msg C) : Node C × List (Msg C) :=
  match mess.kind with
  | .init => processInit p me st mess
  | .echo => processEcho c p me st mess
  | .ready => processReady c p me st mess

/-! ## The handler -/

/-- `VAL_Validate_RB_Init`, `VAL_Validate_RB_Echo` and `VAL_Validate_RB_Ready`, with the
checks of `VAL_Validate_Report` and `VAL_Validate_PC_Set` on the tag. Nothing compares
the tag with the signer of the payload, or either with that of the message. -/
def validated (mess : Msg C) : Bool :=
  decide (mess.machineId ∈ c.servers) &&
  decide (mess.payload.type ∈ [PacketType.report, .pcSet, .resetViewChange, .resetNewView]) &&
  decide (mess.payload.machineId ∈ c.servers) &&
  (!decide (mess.payload.type ∈ [PacketType.report, .pcSet]) || decide (mess.payload.tag.machineId ∈ c.servers)) &&
  p.validContent mess.payload

/-- What a server does without a message of this protocol: it enters a view, or it
signs a payload and broadcasts it. -/
inductive Action (C : Type)
  | enterView (view : Nat)
  | broadcast (type : PacketType) (content : C)

/-- The tag of a server's next broadcast: a Report has number 0
(`VIEW_Construct_Report`), anything else takes the next number. -/
def nextTag (me : Nat) (st : Node C) (type : PacketType) : RbTag :=
  { machineId := me, view := st.view, seqNum := if type = .report then 0 else st.rbSeq }

/-- The payload of a server's next broadcast. -/
def constructPayload (me : Nat) (st : Node C) (type : PacketType) (content : C) : Payload C :=
  { machineId := me, incarnation := st.incarnation, type, tag := nextTag me st type, content }

def perform (me : Nat) (st : Node C) : Action C → Node C × List (Msg C)
  | .enterView view => if st.view < view then (st.enterView view, []) else (st, [])
  | .broadcast type content =>
    ({ st with
        rbSeq := if type = .report then st.rbSeq else st.rbSeq + 1
        broadcasts := (st.view, constructPayload me st type content) :: st.broadcasts },
      [constructMessage me .init (constructPayload me st type content)])

/-- One step of a server. -/
def handle : Handler (Node C) (Msg C) (Action C) := fun me st x =>
  match x with
  | .msg mess => if validated c p mess then process c p me st mess else (st, [])
  | .act a => perform me st a

end Handlers

/-- Nobody forges signatures: a message of the adversary bears the signature of a server
it controls, and so does the payload, unless its signer has let it out. -/
def env [DecidableEq C] (d : Deployment) : Env (Msg C) where
  correct := d.correct
  forge sent m := !d.correct m.machineId &&
    (!d.correct m.payload.machineId || sent.any fun m' => decide (m'.payload = m.payload))

/-- Every server has just entered a view, and nothing has been sent. -/
def start (views incarnations : Nat → Nat) : World (Node C) (Msg C) where
  node i :=
    { view := views i, incarnation := incarnations i, rbSeq := 1, instances := fun _ _ => Slot.new
      delivered := [], processed := [], broadcasts := [] }
  sent := []

end Spire.Broadcast
