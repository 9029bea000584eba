import Spire.Replay

/-!
# View changes

`view_change.c`: how the servers agree on what a new view starts from. Each server
broadcasts a Report and its prepare certificates; a server that holds the complete
state of `2f + k + 1` others proposes their list; servers that hold the complete
state of a proposed list sign it, with the `startSeq` it implies, by a share of a
threshold signature; the leader turns a combined signature into a Replay, which is
prepared, committed and executed.

The state of a server is its ordering state with the view-change state beside it.
Ordering goes on during a view change, so the handler passes ordering messages on
to `Spire.Order`, and `VIEW_Execute_Replay` acts on the ordering state
(`Spire.Replay`).

Reports and certificate sets are handled whenever they are in the network; that
they travel by reliable broadcast is an assumption of the results that need it.
Entering a view (`suspect_leader.c`), and leaving a view change through catchup or
a jump (`catchup.c`), are actions. The threshold scheme is a parameter.

`executed` is a history variable: the replays a server has executed and the
Commits it held when it did.
-/

namespace Spire.ViewChange

open Spire.Order Spire.Replay

variable {D : Type}

/-! ## Messages -/

/-- `report_message`. -/
structure Report where
  tag : RbTag
  execAru : Nat
  pcSetSize : Nat
deriving DecidableEq, Repr

/-- `vc_list_message`. -/
structure VcList where
  view : Nat
  list : Bitmap
deriving DecidableEq

/-- The first three fields of `vc_partial_sig_message`, `vc_proof_message` and
`replay_message`, which the threshold signature covers. -/
structure VcContent where
  view : Nat
  list : Bitmap
  startSeq : Nat
deriving DecidableEq

/-- `vc_partial_sig_message`. -/
structure VcPartialSig where
  content : VcContent
  partialSig : Bytes
deriving DecidableEq

/-- `vc_proof_message` and `replay_message`, which have the same fields. -/
structure VcProof where
  content : VcContent
  threshSig : Bytes
deriving DecidableEq

/-- `replay_prepare_message` and `replay_commit_message`. -/
structure ReplayVouch (D : Type) where
  view : Nat
  digest : D
deriving DecidableEq

/-- The messages of ordering and of a view change. -/
inductive Msg (D : Type)
  | order (m : Order.Msg D)
  | report (m : Signed Report)
  | pcSet (m : Signed (PcSet D))
  | vcList (m : Signed VcList)
  | vcPartialSig (m : Signed VcPartialSig)
  | vcProof (m : Signed VcProof)
  | replay (m : Signed VcProof)
  | replayPrepare (m : Signed (ReplayVouch D))
  | replayCommit (m : Signed (ReplayVouch D))
deriving DecidableEq

/-- Whose signature a message bears. -/
def Msg.signer : Msg D → Nat
  | .order m => m.signer
  | .report m => m.machineId
  | .pcSet m => m.machineId
  | .vcList m => m.machineId
  | .vcPartialSig m => m.machineId
  | .vcProof m => m.machineId
  | .replay m => m.machineId
  | .replayPrepare m => m.machineId
  | .replayCommit m => m.machineId

/-- The threshold scheme of `tc_wrapper.c`: a server's share of a signature, the
combination of shares, and verification. -/
structure ThresholdScheme where
  generateSigShare : Nat → VcContent → Bytes
  combineShares : List (Nat × Bytes) → VcContent → Bytes
  verifySignature : VcContent → Bytes → Bool

/-- What the servers of one deployment have in common. -/
structure Params (D : Type) where
  config : Config
  proposalDigest : CompletePrePrepare → D
  replayDigest : VcProof → D
  tc : ThresholdScheme

/-! ## State -/

/-- `DATA.VIEW`. The digest of the stored replay is computed where it is read. -/
structure VcState (D : Type) where
  report : Nat → Option (Signed Report)
  pcSet : Nat → List (Signed (PcSet D))
  maxPcSeq : Nat → Nat
  numSeq : Nat
  completeState : Bitmap
  uniqueVcList : List Bitmap
  pendingVcList : List Bitmap
  uniquePartialSig : Bitmap → Nat → Option (Signed VcPartialSig)
  replay : Option (Signed VcProof)
  replayPrepare : Nat → Option (Signed (ReplayVouch D))
  replayCommit : Nat → Option (Signed (ReplayVouch D))
  replayPrepareCount : Nat
  replayCommitCount : Nat
  sentReplayPrepare : Bool
  sentReplayCommit : Bool
  executedReplay : Bool

/-- `VIEW_Initialize_Upon_View_Change`. The flag it clears lies in the ordering
state. -/
def VcState.init : VcState D :=
  { report := fun _ => none, pcSet := fun _ => [], maxPcSeq := fun _ => 0, numSeq := 0,
    completeState := 0#32, uniqueVcList := [], pendingVcList := [],
    uniquePartialSig := fun _ _ => none, replay := none, replayPrepare := fun _ => none,
    replayCommit := fun _ => none, replayPrepareCount := 0, replayCommitCount := 0,
    sentReplayPrepare := false, sentReplayCommit := false, executedReplay := false }

/-- A replay a server executed, and the Commits it held. -/
structure Executed (D : Type) where
  replay : VcProof
  commits : Nat → Option (Signed (ReplayVouch D))

/-- The state of a server. `ready` says of which ordinals the requests are there,
and `rbSeq` is the next broadcast number. -/
structure Node (D : Type) where
  ord : Order.Node D
  vc : VcState D
  rbSeq : Nat
  ready : Nat → Bool
  executed : List (Executed D)

/-- Insertion into the skip list of a server's certificate sets, ordered by
broadcast number. -/
def insertPcSet (mess : Signed (PcSet D)) : List (Signed (PcSet D)) → List (Signed (PcSet D))
  | [] => [mess]
  | pc :: pcs => if mess.body.tag.seqNum < pc.body.tag.seqNum then mess :: pc :: pcs else pc :: insertPcSet mess pcs

namespace Node

variable (st : Node D)

/-- `DATA.View`. -/
def view : Nat := st.ord.view

/-- `DATA.VIEW.view_change_done`. -/
def done : Bool := st.ord.viewChangeDone

/-- Change the view-change state only. -/
def withVc (vc : VcState D) : Node D := { st with vc }

/-- Change the ordering state only. -/
def withOrd (ord : Order.Node D) : Node D := { st with ord }

def halt : Node D := st.withOrd st.ord.halt

/-- The end of a view change. -/
def finish : Node D := st.withOrd { st.ord with viewChangeDone := true }

/-- Store a Report. Its `execAru` counts for the highest ordinal of its server. -/
def storeReport (mess : Signed Report) : Node D :=
  st.withVc
    { st.vc with
      report := Function.update st.vc.report mess.body.tag.machineId (some mess)
      maxPcSeq := Function.update st.vc.maxPcSeq mess.body.tag.machineId
        (max (st.vc.maxPcSeq mess.body.tag.machineId) mess.body.execAru) }

/-- Store a certificate set. Its ordinal counts for the highest of its server. -/
def storePcSet (mess : Signed (PcSet D)) : Node D :=
  st.withVc
    { st.vc with
      pcSet := Function.update st.vc.pcSet mess.body.tag.machineId
        (insertPcSet mess (st.vc.pcSet mess.body.tag.machineId))
      maxPcSeq := Function.update st.vc.maxPcSeq mess.body.tag.machineId
        (max (st.vc.maxPcSeq mess.body.tag.machineId) mess.body.seqNum) }

/-- `UTIL_Bitmap_Set(&DATA.VIEW.complete_state, serv)`. -/
def setComplete (serv : Nat) : Node D :=
  st.withVc { st.vc with completeState := st.vc.completeState.set serv }

/-- A list counts as seen. -/
def noteList (list : Bitmap) : Node D :=
  st.withVc { st.vc with uniqueVcList := list :: st.vc.uniqueVcList }

/-- A list waits for the state of the servers on it. -/
def pendList (list : Bitmap) : Node D :=
  st.withVc { st.vc with pendingVcList := st.vc.pendingVcList ++ [list] }

/-- Store a share of a threshold signature, under its list and its signer. -/
def storeShare (mess : Signed VcPartialSig) : Node D :=
  st.withVc
    { st.vc with
      uniquePartialSig := Function.update st.vc.uniquePartialSig mess.body.content.list
        (Function.update (st.vc.uniquePartialSig mess.body.content.list) mess.machineId (some mess)) }

def storeReplay (mess : Signed VcProof) : Node D := st.withVc { st.vc with replay := some mess }

def storeReplayPrepare (mess : Signed (ReplayVouch D)) : Node D :=
  st.withVc
    { st.vc with
      replayPrepare := Function.update st.vc.replayPrepare mess.machineId (some mess)
      replayPrepareCount := st.vc.replayPrepareCount + 1 }

def storeReplayCommit (mess : Signed (ReplayVouch D)) : Node D :=
  st.withVc
    { st.vc with
      replayCommit := Function.update st.vc.replayCommit mess.machineId (some mess)
      replayCommitCount := st.vc.replayCommitCount + 1 }

def markSentReplayPrepare : Node D := st.withVc { st.vc with sentReplayPrepare := true }

def markSentReplayCommit : Node D := st.withVc { st.vc with sentReplayCommit := true }

/-- The replay counts as executed. -/
def markReplayExecuted (replay : VcProof) : Node D :=
  { st with
    vc := { st.vc with executedReplay := true }
    executed := { replay, commits := st.vc.replayCommit } :: st.executed }

/-- `VIEW_Initialize_Upon_View_Change` and `RB_Initialize_Upon_View_Change`, with the
ordering state of the view the server is in then. -/
def resetViewChange (ord : Order.Node D) : Node D := { st with vc := VcState.init, rbSeq := 1, ord }

/-- One handler part after another, with the messages of both. -/
def andThen (r : Node D × List (Msg D)) (f : Node D → Node D × List (Msg D)) : Node D × List (Msg D) :=
  ((f r.1).1, r.2 ++ (f r.1).2)

/-- A loop over handler parts. -/
def forEach {α : Type} (f : Node D → α → Node D × List (Msg D)) (as : List α) (st : Node D) :
    Node D × List (Msg D) :=
  as.foldl (fun r a => andThen r fun st => f st a) (st, [])

end Node

section Handlers

variable [DecidableEq D] (p : Params D)

/-! ## Constructing messages -/

/-- `VIEW_Construct_Report`. -/
def constructReport (me : Nat) (st : Node D) : Signed Report :=
  { header := newHeader st.ord me .report 20
    body := { tag := { machineId := me, view := st.view, seqNum := 0 }
              execAru := st.ord.aru, pcSetSize := st.vc.numSeq } }

/-- `VIEW_Construct_VC_List`. -/
def constructVcList (me : Nat) (st : Node D) : Signed VcList :=
  { header := newHeader st.ord me .vcList 8
    body := { view := st.view, list := st.vc.completeState } }

/-- The loop of `VIEW_Construct_VC_Partial_Sig`: the highest ordinal the listed
servers have executed or prepared. -/
def maxSeq (vc : VcState D) (list : Bitmap) : Nat :=
  (List.range' 1 p.config.numServers).foldl
    (fun m i => if list.isSet i && decide (m < vc.maxPcSeq i) then vc.maxPcSeq i else m) 0

/-- `VIEW_Construct_VC_Partial_Sig`. -/
def constructVcPartialSig (me : Nat) (st : Node D) (list : Bitmap) : Signed VcPartialSig :=
  let content := { view := st.view, list, startSeq := maxSeq p st.vc list + 1 }
  { header := newHeader st.ord me .vcPartialSig 140
    body := { content, partialSig := p.tc.generateSigShare me content } }

/-- `VIEW_Construct_VC_Proof`, from the shares of one list. Missing when the
combined signature does not verify. -/
def constructVcProof (me : Nat) (st : Node D) (list : Bitmap) (startSeq : Nat)
    (shares : Nat → Option (Signed VcPartialSig)) : Option (Signed VcProof) :=
  let content := { view := st.view, list, startSeq }
  let matching := (List.range' 1 p.config.numServers).filterMap fun i =>
    (shares i).bind fun m =>
      if m.body.content.startSeq = startSeq then some (i, m.body.partialSig) else none
  let threshSig := p.tc.combineShares matching content
  if p.tc.verifySignature content threshSig then
    some { header := newHeader st.ord me .vcProof 140, body := { content, threshSig } }
  else none

/-- `VIEW_Construct_Replay`. -/
def constructReplay (me : Nat) (st : Node D) (proof : VcProof) : Signed VcProof :=
  { header := newHeader st.ord me .replay 140, body := proof }

/-- `VIEW_Construct_Replay_Prepare` and `VIEW_Construct_Replay_Commit` but for the
type. -/
def constructVouch (me : Nat) (st : Node D) (type : PacketType) (replay : VcProof) :
    Signed (ReplayVouch D) :=
  { header := newHeader st.ord me type 24
    body := { view := replay.content.view, digest := p.replayDigest replay } }

/-- `VIEW_Construct_Replay_Prepare`. -/
def constructReplayPrepare (me : Nat) (st : Node D) (replay : VcProof) : Signed (ReplayVouch D) :=
  constructVouch p me st .replayPrepare replay

/-- `VIEW_Construct_Replay_Commit`. -/
def constructReplayCommit (me : Nat) (st : Node D) (replay : VcProof) : Signed (ReplayVouch D) :=
  constructVouch p me st .replayCommit replay

/-! ## Moving the replay forward -/

/-- Stored Prepares or Commits whose digest is that of the replay. -/
def vouching (stored : Nat → Option (Signed (ReplayVouch D))) (replay : VcProof) (i : Nat) : Bool :=
  match stored i with
  | some m => decide (m.body.digest = p.replayDigest replay)
  | none => false

/-- `VIEW_Try_Send_Replay_Prepare`. -/
def trySendReplayPrepare (me : Nat) (st : Node D) : Node D × List (Msg D) :=
  if st.vc.sentReplayPrepare then (st, [])
  else
    match st.vc.replay with
    | none => (st, [])
    | some replay =>
      if replay.body.content.list.isSuperset st.vc.completeState then
        (st.markSentReplayPrepare,
          [.replayPrepare (constructReplayPrepare p me st replay.body)])
      else (st, [])

/-- `VIEW_Try_Send_Replay_Commit`. -/
def trySendReplayCommit (me : Nat) (st : Node D) : Node D × List (Msg D) :=
  if st.vc.sentReplayCommit then (st, [])
  else
    match st.vc.replay with
    | none => (st, [])
    | some replay =>
      if st.vc.replayPrepareCount < 2 * p.config.F + p.config.K then (st, [])
      else if 2 * p.config.F + p.config.K ≤
          Lib.tally p.config.numServers (vouching p st.vc.replayPrepare replay.body) then
        (st.markSentReplayCommit,
          [.replayCommit (constructReplayCommit p me st replay.body)])
      else (st, [])

/-! ## Collecting state -/

/-- The state of a server is complete: its Report, as many certificate sets as the
Report announces, and nothing executed there that is missing here. -/
def stateComplete (st : Node D) (serv : Nat) : Bool :=
  match st.vc.report serv with
  | none => false
  | some report => decide (report.body.pcSetSize = (st.vc.pcSet serv).length) &&
      decide (report.body.execAru ≤ st.ord.aru)

/-- The list a server proposes when its `2f + k + 1`-th state is complete. -/
def sendVcList (me : Nat) (st : Node D) : List (Msg D) :=
  if st.vc.completeState.numBitsSet p.config = p.config.quorum then [.vcList (constructVcList me st)] else []

/-- The loop over `pending_vc_list`: lists whose state is now complete are signed
and removed. -/
def signPending (me : Nat) (st : Node D) : Node D × List (Msg D) :=
  let signed := st.vc.pendingVcList.filter fun list => list.isSuperset st.vc.completeState
  (st.withVc
    { st.vc with
      pendingVcList := st.vc.pendingVcList.filter fun list => !list.isSuperset st.vc.completeState },
    signed.map fun list => .vcPartialSig (constructVcPartialSig p me st list))

/-- `VIEW_Check_Complete_State` up to its last call: a state that is now complete
is noted, and what waited for it goes out. -/
def noteCompleteState (me : Nat) (st : Node D) (serv : Nat) : Node D × List (Msg D) :=
  if st.vc.completeState.isSet serv then (st, [])
  else if stateComplete st serv = false then (st, [])
  else
    let st := st.setComplete serv
    Node.andThen (Node.andThen (st, sendVcList p me st) (signPending p me)) (trySendReplayPrepare p me)

/-! ## Executing the replay -/

/-- `ORDER_Execute_Commit` on the slot after `ARU`. During a view change it looks
for states that have become complete. -/
def executeOrdinal (me : Nat) (check : Node D → Nat → Node D × List (Msg D)) (st : Node D) :
    Node D × List (Msg D) :=
  let executed := Order.executeSlot st.ord
  let st := st.withOrd executed.1
  if executed.2 = false then (st, [])
  else
    Node.andThen (if st.done then (st, []) else Node.forEach check (List.range' 1 p.config.numServers) st)
      fun st =>
        let r := Order.afterExecution p.config p.proposalDigest me st.ord
        (st.withOrd r.1, r.2.map .order)

/-- One round of the loop of `VIEW_Execute_Replay`: put a slot and execute it, if
it is next and its requests are there. The replay counts as executed by then, so
that nothing executes it again from here. -/
def installSlot (me : Nat) (st : Node D) (slot : OrdSlot D) : Node D × List (Msg D) :=
  if st.ord.halted then (st, [])
  else if fits p.config slot = false then (st.halt, [])
  else
    let st := st.withOrd (st.ord.putOrdSlot slot.seqNum slot)
    if slot.seqNum = st.ord.aru + 1 ∧ st.ready slot.seqNum = true then
      executeOrdinal p me (noteCompleteState p me) st
    else (st, [])

/-- `VIEW_Execute_Replay`. It ends in the assertion that every slot was executed. -/
def executeReplay (me : Nat) (st : Node D) (replay : VcContent) : Node D × List (Msg D) :=
  match previous p.config st.ord with
  | none => (st.halt, [])
  | some prev =>
    let slots := replaySlots p.config replay.list (fun i => (st.vc.pcSet i).map (·.body)) st.ord.aru
      replay.startSeq prev
    let r := Node.forEach (installSlot p me) slots
      (st.withOrd { cleanHistory st.ord replay.startSeq with ppAru := st.ord.aru })
    let st := r.1.withOrd (adjustPpAru (adjustHighPrepared r.1.ord))
    (if st.ord.ppAru + 1 = replay.startSeq then st else st.halt, r.2)

/-- `VIEW_Try_Execute_Replay`. -/
def tryExecuteReplay (me : Nat) (st : Node D) : Node D × List (Msg D) :=
  if st.vc.executedReplay then (st, [])
  else
    match st.vc.replay with
    | none => (st, [])
    | some replay =>
      if st.vc.replayCommitCount < p.config.quorum then (st, [])
      else if replay.body.content.list.isSuperset st.vc.completeState = false then (st, [])
      else if Lib.tally p.config.numServers (vouching p st.vc.replayCommit replay.body) < p.config.quorum then
        (st, [])
      else
        let r := executeReplay p me (st.markReplayExecuted replay.body) replay.body.content
        (r.1.finish, r.2)

/-- `VIEW_Check_Complete_State`. -/
def checkCompleteState (me : Nat) (st : Node D) (serv : Nat) : Node D × List (Msg D) :=
  if st.vc.completeState.isSet serv then (st, [])
  else if stateComplete st serv = false then (st, [])
  else Node.andThen (noteCompleteState p me st serv) (tryExecuteReplay p me)

/-! ## Processing Reports and certificate sets -/

/-- `VIEW_Process_Report`. -/
def processReport (me : Nat) (st : Node D) (mess : Signed Report) : Node D × List (Msg D) :=
  if mess.body.tag.view ≠ st.view then (st, [])
  else if st.done then (st, [])
  else if mess.body.tag.seqNum ≠ 0 then (st, [])
  else if (st.vc.report mess.body.tag.machineId).isSome then (st.halt, [])
  else checkCompleteState p me (st.storeReport mess) mess.body.tag.machineId

/-- `VIEW_Process_PC_Set`. -/
def processPcSet (me : Nat) (st : Node D) (mess : Signed (PcSet D)) : Node D × List (Msg D) :=
  if mess.body.tag.view ≠ st.view then (st, [])
  else if st.done then (st, [])
  else if mess.body.tag.seqNum = 0 then (st, [])
  else if (st.vc.pcSet mess.body.tag.machineId).any fun pc => pc.body.tag.seqNum = mess.body.tag.seqNum then
    (st.halt, [])
  else checkCompleteState p me (st.storePcSet mess) mess.body.tag.machineId

/-! ## Agreeing on a list -/

/-- `VIEW_Process_VC_List`. -/
def processVcList (me : Nat) (st : Node D) (mess : Signed VcList) : Node D × List (Msg D) :=
  let list := mess.body.list
  if mess.body.view ≠ st.view then (st, [])
  else if st.done then (st, [])
  else if list ∈ st.vc.uniqueVcList then (st, [])
  else
    let st := st.noteList list
    if list.isSuperset st.vc.completeState then
      (st, [.vcPartialSig (constructVcPartialSig p me st list)])
    else (st.pendList list, [])

/-- `VIEW_Process_VC_Partial_Sig`. -/
def processVcPartialSig (me : Nat) (st : Node D) (mess : Signed VcPartialSig) : Node D × List (Msg D) :=
  let list := mess.body.content.list
  let startSeq := mess.body.content.startSeq
  if mess.body.content.view ≠ st.view then (st, [])
  else if st.done then (st, [])
  else if (st.vc.uniquePartialSig list mess.machineId).isSome then (st, [])
  else
    let st := st.storeShare mess
    let shares := st.vc.uniquePartialSig list
    let count := Lib.tally p.config.numServers fun i =>
      (shares i).any fun m => decide (m.body.content.startSeq = startSeq)
    if count ≠ p.config.quorum then (st, [])
    else
      match constructVcProof p me st list startSeq shares with
      | none => (st, [])
      | some proof => (st, [.vcProof proof])

/-- `VIEW_Process_VC_Proof`. -/
def processVcProof (me : Nat) (st : Node D) (mess : Signed VcProof) : Node D × List (Msg D) :=
  if me ≠ p.config.leaderOfView st.view then (st, [])
  else if mess.body.content.view ≠ st.view then (st, [])
  else if st.done then (st, [])
  else if st.vc.replay.isSome then (st, [])
  else
    let replay := constructReplay me st mess.body
    (st.storeReplay replay, [.replay replay])

/-! ## The replay -/

/-- `VIEW_Process_Replay`. -/
def processReplay (me : Nat) (st : Node D) (mess : Signed VcProof) : Node D × List (Msg D) :=
  if mess.machineId ≠ p.config.leaderOfView st.view then (st, [])
  else if mess.body.content.view ≠ st.view then (st, [])
  else if st.done then (st, [])
  else if st.vc.replay.isSome then (st, [])
  else
    let st := st.storeReplay mess
    Node.andThen (Node.andThen (trySendReplayPrepare p me st) (trySendReplayCommit p me))
      (tryExecuteReplay p me)

/-- `VIEW_Process_Replay_Prepare`. -/
def processReplayPrepare (me : Nat) (st : Node D) (mess : Signed (ReplayVouch D)) :
    Node D × List (Msg D) :=
  if mess.body.view ≠ st.view then (st, [])
  else if mess.machineId = p.config.leaderOfView st.view then (st, [])
  else if (st.vc.replayPrepare mess.machineId).isSome then (st, [])
  else
    let st := st.storeReplayPrepare mess
    if st.done then (st, []) else trySendReplayCommit p me st

/-- `VIEW_Process_Replay_Commit`. -/
def processReplayCommit (me : Nat) (st : Node D) (mess : Signed (ReplayVouch D)) :
    Node D × List (Msg D) :=
  if mess.body.view ≠ st.view then (st, [])
  else if (st.vc.replayCommit mess.machineId).isSome then (st, [])
  else
    let st := st.storeReplayCommit mess
    if st.done then (st, []) else tryExecuteReplay p me st

/-! ## Starting and leaving a view change -/

/-- The certificate set for a prepared slot: its Pre-Prepare and the first
`2f + k` Prepares of its certificate. Missing where the source asserts that there
are as many. -/
def constructPcSet (me : Nat) (st : Node D) (rbSeq : Nat) (slot : OrdSlot D) :
    Option (Signed (PcSet D)) :=
  let prepares := ((List.range' 1 p.config.numServers).filterMap slot.prepareCertificate.prepare).take
    (2 * p.config.F + p.config.K)
  (slot.prePrepareParts 1).bind fun prePrepare =>
    if prepares.length = 2 * p.config.F + p.config.K then
      some
        { header := newHeader st.ord me .pcSet 12
          body := { tag := { machineId := me, view := st.view, seqNum := rbSeq }, prePrepare, prepares } }
    else none

/-- The slots between `ARU` and `high_prepared` that hold a prepare certificate. -/
def preparedSlots (ord : Order.Node D) : List (OrdSlot D) :=
  ((List.range' (ord.aru + 1) (ord.highPrepared - ord.aru)).filterMap ord.slot?).filter
    OrdSlot.prepareCertificateReady

/-- `VIEW_Start_View_Change`, in a view just entered. -/
def startViewChange (me : Nat) (st : Node D) : Node D × List (Msg D) :=
  let st := st.resetViewChange { st.ord with viewChangeDone := false }
  let slots := preparedSlots st.ord
  let pcs := (slots.zipIdx st.rbSeq).filterMap fun s => constructPcSet p me st s.2 s.1
  if pcs.length = slots.length then
    let st := { st with rbSeq := st.rbSeq + slots.length, vc := { st.vc with numSeq := slots.length } }
    (st, .report (constructReport me st) :: pcs.map .pcSet)
  else (st.halt, [])

/-- What happens to a server without a message of these protocols. -/
inductive Action (D : Type)
  | order (a : Order.Action)
  | requests (ready : Nat → Bool)
  | enterView (view : Nat)
  | catchup (ord : Order.Node D) (leave : Bool)
  | leaveViewChange

/-- Catchup replaces the ordering state by `ord`, which is left open. It ends the
view change when `ord` is in a later view, and may end it in this one. -/
def catchup (me : Nat) (st : Node D) (ord : Order.Node D) (leave : Bool) : Node D × List (Msg D) :=
  if ord.view < st.view then (st, [])
  else if st.view < ord.view ∨ leave = true ∧ st.done = false then
    (st.resetViewChange { ord with viewChangeDone := true }, [])
  else
    let st := st.withOrd { ord with viewChangeDone := st.done }
    if st.done then (st, []) else Node.forEach (checkCompleteState p me) (List.range' 1 p.config.numServers) st

/-- A local action: ordering goes on, a higher view is entered, or catchup or a
jump ends the view change. -/
def perform (me : Nat) (st : Node D) : Action D → Node D × List (Msg D)
  | .order .execute => executeOrdinal p me (checkCompleteState p me) st
  | .order a =>
    let r := Order.handle p.config p.proposalDigest me st.ord (.act a)
    (st.withOrd r.1, r.2.map .order)
  | .requests ready => ({ st with ready }, [])
  | .enterView view =>
    if st.view < view then startViewChange p me (st.withOrd { st.ord with view }) else (st, [])
  | .catchup ord leave => catchup p me st ord leave
  | .leaveViewChange => (st.finish, [])

/-! ## The handler -/

/-- The checks of `validate.c` a message passes before its handler runs, signatures
of single servers apart. -/
def validated : Msg D → Bool
  | .order m => Order.validated p.config m
  | .report m => decide (m.machineId ∈ p.config.servers) &&
      decide (m.body.tag.machineId ∈ p.config.servers)
  | .pcSet m => decide (m.machineId ∈ p.config.servers) &&
      decide (m.body.tag.machineId ∈ p.config.servers)
  | .vcList m => decide (m.machineId ∈ p.config.servers)
  | .vcPartialSig m => decide (m.machineId ∈ p.config.servers)
  | .vcProof m => decide (m.machineId ∈ p.config.servers) &&
      p.tc.verifySignature m.body.content m.body.threshSig
  | .replay m => decide (m.machineId ∈ p.config.servers) &&
      p.tc.verifySignature m.body.content m.body.threshSig
  | .replayPrepare m => decide (m.machineId ∈ p.config.servers)
  | .replayCommit m => decide (m.machineId ∈ p.config.servers)

/-- What a server does with a validated message. -/
def process (me : Nat) (st : Node D) : Msg D → Node D × List (Msg D)
  | .order m =>
    let r := Order.handle p.config p.proposalDigest me st.ord (.msg m)
    (st.withOrd r.1, r.2.map .order)
  | .report m => processReport p me st m
  | .pcSet m => processPcSet p me st m
  | .vcList m => processVcList p me st m
  | .vcPartialSig m => processVcPartialSig p me st m
  | .vcProof m => processVcProof p me st m
  | .replay m => processReplay p me st m
  | .replayPrepare m => processReplayPrepare p me st m
  | .replayCommit m => processReplayCommit p me st m

/-- One step of a server. -/
def handle : Lib.Handler (Node D) (Msg D) (Action D) := fun me st x =>
  if st.ord.halted then (st, [])
  else
    match x with
    | .msg m => if validated p m then process p me st m else (st, [])
    | .act a => perform p me st a

end Handlers

/-- A server that starts in a view, with nothing of a view change. -/
def Node.boot (c : Config) (view gcWidth : Nat) (incarnations : List Nat) (proposalDigest : Bytes) : Node D :=
  { ord := Order.Node.boot c view gcWidth incarnations proposalDigest, vc := VcState.init, rbSeq := 1
    ready := fun _ => false, executed := [] }

end Spire.ViewChange
