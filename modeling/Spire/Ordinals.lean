import Spire.Lib.Advance
import Spire.Replay
import Spire.Validate

/-!
# The ordinals a server keeps

`DATA.ORD.History` over the life of a server: slots are created by messages, executed,
dropped behind the catchup history, and replaced by the replay of a view change, by ORD_CERTs
and by jumps. `order.c` moves two white lines over the slots on the way, one for slots whose
Pre-Prepare was forwarded and one for slots that were reconciled, and the collector exits
where it would drop a slot ahead of them.

What happens to the votes and proposals of a slot is `Spire.Order`. `ORDER_Execute_Commit` and
`ORDER_Attempt_To_Execute_Pending_Commits` call each other, a view change can end in the middle
of an execution, and its replay and the messages of an ORD_CERT go on when a call returns. So a
server that handles an input goes through steps of its own: `call` is the slot
`ORDER_Execute_Commit` is called on, and `calls` what the functions that are running do next.

Whether the requests an ordinal makes eligible are there comes with the step. A pending slot is
the slot of the history with that sequence number, since `ORDER_Garbage_Collect_ORD_Slot` drops
both. Ordinals are not taken modulo `2 ^ 32`, except in the two differences the code tests. Left
out are the server's own ORD_CERTs, which are stored with the slot, and what the same functions
do to `DATA.PO` and `DATA.PR`.
-/

namespace Spire.Ordinals

open Spire.Order Spire.Replay

variable {D : Type}

/-! ## State -/

/-- The exits and assertions of this part of the program. -/
inductive Fault
  /-- `ORDER_Execute_Commit` works on a slot that is not in the history. -/
  | staleSlot
  /-- `assert(gseq == 1)`. -/
  | notFirst
  /-- `assert(gseq == (DATA.ORD.ARU + 1))`. -/
  | wrongOrdinal
  /-- `can't gc slot`: a part is missing, or the slot is ahead of the forwarding white line. -/
  | notForwarded
  /-- `Can't gc slot`: the slot is ahead of the reconciliation white line. -/
  | notReconciled
  /-- `assert(prev_pop[i].incarnation <= cur_pop[i].incarnation)`. -/
  | backwards
  /-- The replay asserts that the slot executed last is there. -/
  | lastMissing
  /-- The replay asserts that every slot was gone through. -/
  | replayUnfinished
  /-- A leader proposes, and the slot before the proposal is missing. -/
  | previousMissing
deriving DecidableEq, Repr

/-- What is left of a function that has called another one. -/
inductive Frame (D : Type)
  /-- `ORDER_Execute_Commit`, after it has looked for complete states. -/
  | executed
  /-- `ORDER_Attempt_To_Execute_Pending_Commits`. -/
  | retry
  /-- `PROCESS_Message`. -/
  | message (mess : Msg D)
  /-- A round of the loop of `VIEW_Execute_Replay`, for the slot it fills. -/
  | install (slot : OrdSlot D)
  /-- `VIEW_Execute_Replay` after its loop. -/
  | replayed (startSeq : Nat)
  /-- `CATCH_Jump_Ahead`, after it has looked for complete states. -/
  | jumped

/-- A server, with the fields of its slots that `Spire.Order` leaves out. -/
structure Node (D : Type) where
  ord : Order.Node D
  /-- `num_forwarded_parts`. -/
  numForwarded : Nat → Nat
  reconciled : Nat → Bool
  /-- `DATA.ORD.Pending_Execution`. -/
  pending : List Nat
  /-- `DATA.ORD.seq`. -/
  seq : Nat
  call : Option Nat
  calls : List (Frame D)
  fault : Option Fault

/-- An ORD_CERT that passed validation: its `seq_num` is that of the Pre-Prepare and of the
Commits. -/
structure OrdCert (D : Type) where
  sender : Nat
  type : SlotType
  view : Nat
  prePrepare : Signed PrePrepare
  commits : List (Signed (Vouch D))

/-- The ordinal of a certificate. -/
def OrdCert.seqNum (cert : OrdCert D) : Nat := cert.prePrepare.body.seqNum

/-- What a server asked for when it sent a CATCHUP_REQUEST. -/
inductive CatchupFlag
  | catchup | periodic | jump | recovery
deriving DecidableEq, Repr

/-- What the scan of `ORDER_Ready_To_Execute` finds: the slot already waits for requests, it has
to wait for some from now on, or all are there. -/
inductive Requests
  | awaited | missing | there
deriving DecidableEq, Repr

/-- The difference of two 32-bit words. -/
def distance (a b : Nat) : Nat := Validate.wrap32 (a + (2 ^ 32 - b))

/-- `DATA.ORD.gc_width` for a `CATCHUP_HISTORY`. -/
def gcWidth (catchupHistory : Nat) : Nat := if 0 < catchupHistory then catchupHistory else 1

/-- A server after `ORDER_Initialize_Data_Structure`, which enters view `view`. -/
def Node.start (c : Config) (catchupHistory view : Nat) (incarnations : List Nat) (proposalDigest : Bytes) : Node D :=
  { ord := Order.Node.boot c view (gcWidth catchupHistory) incarnations proposalDigest
    numForwarded := fun _ => 0
    reconciled := fun _ => false
    pending := []
    seq := 1
    call := none
    calls := []
    fault := none }

namespace Node

variable (nd : Node D)

def slot? (seq : Nat) : Option (OrdSlot D) := nd.ord.slot? seq

def withOrd (ord : Order.Node D) : Node D := { nd with ord }

def putSlot (seq : Nat) (slot : OrdSlot D) : Node D := nd.withOrd (nd.ord.putOrdSlot seq slot)

def crash (f : Fault) : Node D := { nd with fault := some f }

/-- The process has not ended. -/
def running : Bool := !nd.ord.halted && nd.fault.isNone

/-- The server has returned to its event loop. -/
def idle : Bool := nd.call.isNone && nd.calls.isEmpty

/-- A part of a handler that is not reached once the process has ended. -/
def andThen (f : Node D → Node D) : Node D := if nd.running then f nd else nd

/-- `UTIL_Mark_ORD_Slot_As_Pending`. -/
def markPending (seq : Nat) : Node D :=
  { nd with pending := if seq ∈ nd.pending then nd.pending else nd.pending ++ [seq] }

/-- `ORDER_Garbage_Collect_ORD_Slot` and `stdhash_erase`, for the slots of some ordinals. -/
def dropSlots (drop : Nat → Bool) : Node D :=
  { nd with
    ord := { nd.ord with
      history := (nd.ord.history.keys.filter drop).foldl (fun h seq => h.erase seq) nd.ord.history }
    numForwarded := fun seq => if drop seq then 0 else nd.numForwarded seq
    reconciled := fun seq => if drop seq then false else nd.reconciled seq
    pending := nd.pending.filter fun seq => !drop seq }

/-! ## The white lines -/

/-- A slot the forwarding white line moves over. -/
def forwarded (seq : Nat) : Bool :=
  match nd.slot? seq with
  | none => false
  | some slot => slot.collectedAllParts && decide (nd.numForwarded seq = slot.totalParts)

/-- `ORDER_Update_Forwarding_White_Line`. -/
def updateForwardingWhiteLine : Node D :=
  nd.withOrd { nd.ord with
    forwardingWhiteLine :=
      Lib.advance nd.forwarded nd.ord.history.keys.length nd.ord.forwardingWhiteLine }

/-- `RECON_Update_Recon_White_Line`. -/
def updateReconWhiteLine : Node D :=
  nd.withOrd { nd.ord with
    reconWhiteLine :=
      Lib.advance (fun seq => (nd.slot? seq).isSome && nd.reconciled seq) nd.ord.history.keys.length
        nd.ord.reconWhiteLine }

end Node

section Code

variable [DecidableEq D] (c : Config) (catchupHistory : Nat) (digest : CompletePrePrepare → D)

/-- A server whose requests an ordinal would take back to an earlier incarnation. -/
def goesBack (isFirst : Bool) (pp : CompletePrePrepare) (slot : OrdSlot D) : Bool :=
  (List.range c.numServers).any fun i =>
    decide ((slot.madeEligible.getD i PoSeqPair.zero).incarnation <
      (if isFirst then PoSeqPair.zero else pp.lastExecuted.getD i PoSeqPair.zero).incarnation)

/-- `RECON_Do_Recon`, up to the messages it sends. -/
def doRecon (nd : Node D) (seq : Nat) : Node D :=
  match nd.slot? seq with
  | none => nd
  | some slot =>
    let gseq := slot.completePrePrepare.seqNum
    let prev := nd.slot? (gseq - 1)
    if nd.reconciled seq then nd
    else if slot.collectedAllParts = false then nd
    else if prev.isNone ∧ gseq ≠ 1 then nd
    else if prev.any fun p => !p.collectedAllParts then nd
    else if goesBack c prev.isNone slot.completePrePrepare slot then nd.crash .backwards
    else { nd with reconciled := Function.update nd.reconciled seq true }.updateReconWhiteLine

/-- A slot `ORDER_Send_Prepares` has prepared is reconciled. -/
def reconPrepared (nd : Node D) (seq : Nat) : Node D :=
  nd.andThen fun nd =>
    if (nd.slot? seq).any fun slot => decide (slot.type = .commit) && nd.ord.viewChangeDone then doRecon c nd seq
    else nd

/-- The slots prepared since `ppARU` was `before`. -/
def reconFrom (before : Nat) (nd : Node D) : Node D :=
  (List.range' (before + 1) (nd.ord.ppAru - before)).foldl (reconPrepared c) nd

/-- `ORDER_Send_Prepares`. -/
def sendPrepares (me : Nat) (nd : Node D) : Node D :=
  reconFrom c nd.ord.ppAru (nd.withOrd (Order.sendPrepares c digest me nd.ord).1)

/-! ## Garbage collection -/

/-- One slot of `ORDER_Attempt_To_Garbage_Collect_ORD_Slots`. A slot that is not there is
created, and has no parts. -/
def collectSlot (nd : Node D) (seq : Nat) : Node D :=
  nd.andThen fun nd =>
    if (nd.slot? seq).all (fun slot => !slot.collectedAllParts) ∨ nd.ord.forwardingWhiteLine < seq then
      nd.crash .notForwarded
    else if nd.ord.reconWhiteLine < seq + 1 then nd.crash .notReconciled
    else nd.dropSlots (fun s => s = seq)

/-- `ORDER_Attempt_To_Garbage_Collect_ORD_Slots`. -/
def garbageCollect (nd : Node D) : Node D :=
  if distance nd.ord.aru nd.ord.stableCatchup < 2 * nd.ord.gcWidth then nd
  else
    let stable := distance nd.ord.aru nd.ord.gcWidth
    ((List.range' nd.ord.stableCatchup (stable - nd.ord.stableCatchup)).foldl collectSlot nd).andThen fun nd =>
      nd.withOrd { nd.ord with stableCatchup := stable }

/-! ## Execution -/

/-- The slot before an ordinal was executed, or the ordinal is the first. -/
def Node.followsExecuted (nd : Node D) (gseq : Nat) : Bool :=
  match nd.slot? (gseq - 1) with
  | none => decide (gseq = 1)
  | some prev => prev.executed

/-- `ORDER_Execute_Commit` from the moment the slot is ready. -/
def executeReady (nd : Node D) (seq : Nat) (slot : OrdSlot D) : Node D :=
  let gseq := slot.proposal.seqNum
  if (nd.slot? (gseq - 1)).isNone ∧ gseq ≠ 1 then nd.crash .notFirst
  else if gseq ≠ nd.ord.aru + 1 then nd.crash .wrongOrdinal
  else
    let nd := doRecon c (nd.withOrd (nd.ord.putOrdSlot seq slot.markExecuted).advanceAru) seq
    { nd with calls := .executed :: nd.calls }

/-- `ORDER_Execute_Commit`, up to where it looks for complete states. -/
def executeCommit (ready : Nat → Requests) (nd : Node D) (seq : Nat) : Node D :=
  match nd.slot? seq with
  | none => nd.crash .staleSlot
  | some slot =>
    let gseq := slot.proposal.seqNum
    if nd.followsExecuted gseq = false then nd.markPending gseq
    else if ready gseq = .awaited then nd.markPending gseq
    else if goesBack c (nd.slot? (gseq - 1)).isNone slot.proposal slot then nd.crash .backwards
    else if ready gseq = .missing then nd.markPending gseq
    else executeReady c nd seq slot

/-- The end of `ORDER_Execute_Commit`. -/
def afterExecution (me : Nat) (nd : Node D) : Node D :=
  ((sendPrepares c digest me nd).andThen garbageCollect).andThen fun nd => { nd with calls := .retry :: nd.calls }

/-- `ORDER_Attempt_To_Execute_Pending_Commits`. -/
def attemptPending (nd : Node D) : Node D :=
  if nd.ord.aru + 1 ∈ nd.pending then { nd with call := some (nd.ord.aru + 1) } else nd

/-! ## Messages -/

/-- `ORDER_Flood_Pre_Prepare`, for a part that was stored. The slot does not count as complete
yet. -/
def floodPrePrepare (nd : Node D) (seq : Nat) (slot : OrdSlot D) : Node D :=
  let n := nd.numForwarded seq + 1
  let nd := { nd with numForwarded := Function.update nd.numForwarded seq n }
  if n = slot.totalParts then nd.updateForwardingWhiteLine else nd

/-- The middle of `ORDER_Process_Pre_Prepare`, as in `Spire.Order`. -/
def collectPart (me : Nat) (nd : Node D) (first : Bool) (slot : OrdSlot D) (mess : Signed PrePrepare) : Node D :=
  if first = false ∧ slot.view ≠ mess.body.view then nd
  else if first = false ∧ slot.view = nd.ord.view ∧ slot.prePrepareParts 1 ≠ some mess then
    nd.withOrd { nd.ord with leaderSuspected := true }
  else if slot.collectedAllParts then nd
  else if (slot.prePrepareParts mess.body.partNum).isSome then nd
  else if c.numServers < (mess.body.partNum - 1) * numAcksPerMessage c + mess.body.rows.length then
    -- the copy runs past the rows of the matrix
    nd.withOrd nd.ord.halt
  else
    let seq := mess.body.seqNum
    let slot := storePart slot mess ((mess.body.partNum - 1) * numAcksPerMessage c)
    let nd := floodPrePrepare (nd.putSlot seq slot) seq slot
    if slot.numPartsCollected < slot.totalParts then nd
    else reconFrom c nd.ord.ppAru (nd.withOrd (proposalComplete c digest me nd.ord seq slot).1)

/-- `ORDER_Process_Pre_Prepare`. -/
def processPrePrepare (me : Nat) (nd : Node D) (mess : Signed PrePrepare) : Node D :=
  let seq := mess.body.seqNum
  if mess.body.proposalDigest ≠ nd.ord.proposalDigest then nd
  else if seq ≤ nd.ord.forwardingWhiteLine ∧ seq + 1 ≤ nd.ord.reconWhiteLine ∧ seq + 1 ≤ nd.ord.aru then nd
  else
    match nd.ord.acceptsView mess.body.view with
    | none => nd.withOrd nd.ord.halt
    | some false => nd
    | some true =>
      if mess.machineId ≠ c.leaderOfView mess.body.view then nd
      else
        let own := nd.ord.getOrdSlot c seq
        let slot := slotFor own mess.body
        collectPart c digest me (nd.putSlot seq slot) (own.numPartsCollected == 0) slot mess

/-- `ORDER_Process_Commit`: the slot is executed when the Commit completes its certificate. -/
def processCommit (nd : Node D) (mess : Signed (Vouch D)) : Node D :=
  let seq := mess.body.seqNum
  let ordered := (nd.ord.getOrdSlot c seq).ordered
  let nd := nd.withOrd (Order.processCommit c digest nd.ord mess)
  if ordered = false ∧ (nd.slot? seq).any OrdSlot.ordered then { nd with call := some seq } else nd

/-- `PROCESS_Message`. -/
def processMessage (me : Nat) (nd : Node D) : Msg D → Node D
  | .prePrepare mess => processPrePrepare c digest me nd mess
  | .prepare mess => nd.withOrd (Order.processPrepare c digest me nd.ord mess).1
  | .commit mess => processCommit c digest nd mess

/-- The leader's next Pre-Prepare, `ORDER_Construct_Pre_Prepare`. -/
def constructPrePrepare (nd : Node D) (lastExecuted : List PoSeqPair) (rows : List PoAruSigned) : PrePrepare :=
  { seqNum := nd.seq, view := nd.ord.view, proposalDigest := nd.ord.proposalDigest, lastExecuted, partNum := 1,
    totalParts := 1, rows }

/-- `ORDER_Send_One_Pre_Prepare`. -/
def sendOnePrePrepare (me : Nat) (nd : Node D) (rows : List PoAruSigned) : Node D :=
  if me ≠ c.leaderOfView nd.ord.view then nd
  else
    let last :=
      if nd.seq = 1 then some (List.replicate c.numServers PoSeqPair.zero)
      else (nd.slot? (nd.seq - 1)).map OrdSlot.madeEligible
    match last with
    | none => nd.crash .previousMissing
    | some last =>
      let slot := openForProposal c (nd.ord.getOrdSlot c nd.seq) (constructPrePrepare nd last rows)
      { nd.putSlot nd.seq slot with seq := nd.seq + 1 }

/-! ## View changes and catchup -/

/-- `VIEW_Execute_Replay`, up to its loop. -/
def executeReplay (nd : Node D) (list : Bitmap) (pcSet : Nat → List (PcSet D)) (startSeq : Nat) : Node D :=
  let nd := nd.dropSlots fun seq => !survives nd.ord startSeq seq
  match previous c nd.ord with
  | none => nd.crash .lastMissing
  | some prev =>
    { nd.withOrd { nd.ord with ppAru := nd.ord.aru } with
      calls := (replaySlots c list pcSet nd.ord.aru startSeq prev).map .install ++ .replayed startSeq :: nd.calls }

/-- What a round of the replay writes into a slot. -/
def fillSlot (own slot : OrdSlot D) : OrdSlot D :=
  { own with
    type := slot.type
    view := if slot.type = .pcSet then slot.view else own.view
    totalParts := slot.totalParts
    completePrePrepare := slot.completePrePrepare
    prePrepareParts := Function.update own.prePrepareParts 1 (slot.prePrepareParts 1)
    collectedAllParts := true
    madeEligible := slot.madeEligible
    populatedEligible := true }

/-- One round of the loop of `VIEW_Execute_Replay`. -/
def installSlot (nd : Node D) (slot : OrdSlot D) : Node D :=
  if fits c slot = false then nd.withOrd nd.ord.halt
  else
    let nd := nd.putSlot slot.seqNum (fillSlot (nd.ord.getOrdSlot c slot.seqNum) slot)
    let nd := { nd with
      numForwarded := Function.update nd.numForwarded slot.seqNum slot.totalParts
      reconciled := Function.update nd.reconciled slot.seqNum true }
    { nd.updateForwardingWhiteLine.updateReconWhiteLine with call := some slot.seqNum }

/-- The end of `VIEW_Execute_Replay`, and of `VIEW_Try_Execute_Replay`. -/
def finishReplay (me : Nat) (nd : Node D) (startSeq : Nat) : Node D :=
  let nd := nd.withOrd (adjustPpAru (adjustHighPrepared nd.ord))
  if nd.ord.ppAru + 1 ≠ startSeq then nd.crash .replayUnfinished
  else
    { nd.withOrd { nd.ord with viewChangeDone := true } with
      seq := if me = c.leaderOfView nd.ord.view then startSeq else nd.seq }

/-- The proposal of a certificate, as a slot assembles it. -/
def OrdCert.proposal (cert : OrdCert D) : CompletePrePrepare :=
  let pp := cert.prePrepare.body
  { seqNum := pp.seqNum, view := pp.view, proposalDigest := pp.proposalDigest, lastExecuted := pp.lastExecuted,
    cumAcks := writeRows (CompletePrePrepare.null c).cumAcks 0 pp.rows }

/-- The vector of a certificate's first Commit. -/
def OrdCert.vector (cert : OrdCert D) : List Nat :=
  (cert.commits.head?.map fun commit => commit.body.preinstalledIncarnations).getD []

/-- The certificate is for the next ordinal and of a later view, or of the view that is being
entered. -/
def entersView (nd : Node D) (cert : OrdCert D) : Bool :=
  let entering := decide (nd.ord.view = cert.view) && !nd.ord.viewChangeDone
  decide (cert.seqNum = 1) && (decide (nd.ord.view < cert.view) || entering) ||
    match nd.slot? (cert.seqNum - 1) with
    | none => false
    | some slot =>
      decide (nd.ord.aru = slot.seqNum) && decide (slot.view < cert.view) &&
        (decide (nd.ord.view = slot.view) || entering)

/-- The slots of earlier views make room for those of the certificate's view. -/
def enterView (nd : Node D) (cert : OrdCert D) : Node D :=
  let nd := nd.dropSlots fun seq =>
    (nd.slot? seq).any fun slot => decide (cert.seqNum ≤ slot.seqNum) && decide (slot.view ≤ nd.ord.view)
  nd.withOrd { adjustPpAru (adjustHighPrepared { nd.ord with view := cert.view }) with viewChangeDone := true }

/-- The slot of a certificate drops another proposal, and takes the Commits of the certificate
only. -/
def adoptCertificate (nd : Node D) (cert : OrdCert D) : Node D :=
  let slot := nd.ord.getOrdSlot c cert.seqNum
  let nd := nd.putSlot cert.seqNum slot
  if slot.snapshot then nd
  else if c.numServers < cert.prePrepare.body.rows.length then nd.withOrd nd.ord.halt
  else
    let nd :=
      if slot.collectedAllParts = true ∧ digest slot.completePrePrepare ≠ digest (cert.proposal c) then
        nd.dropSlots (fun s => s = cert.seqNum)
      else nd
    let slot := { nd.ord.getOrdSlot c cert.seqNum with
      preinstalledSnapshot := cert.vector, snapshot := true, commit := fun _ => none }
    { nd.putSlot cert.seqNum slot with
      calls := .message (.prePrepare cert.prePrepare) ::
        (cert.commits.take c.quorum).map (fun commit => .message (.commit commit)) ++ nd.calls }

/-- `CATCH_Process_ORD_Certificate`. -/
def processOrdCertificate (me : Nat) (nd : Node D) (cert : OrdCert D) : Node D :=
  if cert.sender = me then nd
  else if cert.prePrepare.body.proposalDigest ≠ nd.ord.proposalDigest then nd
  else if cert.type ≠ .commit then nd
  else if cert.seqNum ≤ nd.ord.aru then nd
  else if (nd.slot? cert.seqNum).any OrdSlot.ordered then nd
  else adoptCertificate c digest (if entersView nd cert then enterView nd cert else nd) cert

/-! ## Jumps -/

/-- A slot `CATCH_Jump_Ahead` leaves in the history. -/
def Node.outlives (nd : Node D) (cert : OrdCert D) (seq : Nat) : Bool :=
  (nd.slot? seq).any fun slot => decide (cert.seqNum < slot.seqNum) && decide (cert.seqNum ≤ slot.view)

/-- The slot a jump lands on. -/
def landingSlot (cert : OrdCert D) : OrdSlot D :=
  let pp := { cert.proposal c with view := cert.view }
  { OrdSlot.new c cert.seqNum with
    view := cert.view, type := cert.type, totalParts := cert.prePrepare.body.totalParts
    prePrepareParts := Function.update (fun _ => none) 1 (some cert.prePrepare)
    numPartsCollected := cert.prePrepare.body.totalParts, collectedAllParts := true
    sentPrepare := true, sentCommit := true, ordered := true, executed := true
    completePrePrepare := pp
    preinstalledSnapshot := cert.vector, snapshot := true
    madeEligible := eligible c pp, populatedEligible := true }

/-- The ordinals of `CATCH_Jump_Ahead`. -/
def landOn (nd : Node D) (cert : OrdCert D) : Node D :=
  let seq := cert.seqNum
  let nd := nd.dropSlots fun s => !nd.outlives cert s
  let ord := { nd.ord with
    view := max nd.ord.view cert.view, aru := seq, highCommitted := max nd.ord.highCommitted seq }
  let nd := (nd.withOrd { adjustPpAru (adjustHighPrepared ord) with
    stableCatchup := max nd.ord.stableCatchup seq }).putSlot seq (landingSlot c cert)
  let nd := { nd with
    numForwarded := Function.update nd.numForwarded seq cert.prePrepare.body.totalParts
    reconciled := Function.update nd.reconciled seq true }
  let nd := nd.withOrd { nd.ord with
    forwardingWhiteLine := max nd.ord.forwardingWhiteLine seq
    reconWhiteLine := max nd.ord.reconWhiteLine seq }
  nd.updateForwardingWhiteLine.updateReconWhiteLine

/-- A jump leaves a view change behind, unless it is to a later view. -/
def leaveView (view : Nat) (nd : Node D) (cert : OrdCert D) : Node D :=
  nd.withOrd { nd.ord with
    viewChangeDone := nd.ord.viewChangeDone && decide (cert.view ≤ view) || decide (nd.ord.view ≤ cert.view) }

/-- `CATCH_Jump_Ahead`, up to where it looks for complete states. -/
def jumpAhead (me : Nat) (nd : Node D) (cert : OrdCert D) : Node D :=
  if c.numServers < cert.prePrepare.body.rows.length then nd.withOrd nd.ord.halt
  else
    (sendPrepares c digest me (landOn c nd cert)).andThen fun nd' =>
      { leaveView nd.ord.view nd' cert with calls := .jumped :: nd'.calls }

/-- The end of `CATCH_Jump_Ahead`. -/
def afterJump (me : Nat) (nd : Node D) : Node D :=
  { nd with
    seq := if me = c.leaderOfView nd.ord.view ∧ nd.ord.viewChangeDone = true then nd.ord.aru + 1 else nd.seq
    calls := .retry :: nd.calls }

/-- The tests of `CATCH_Process_Jump` that look at the ordinals. `seqNum` is that of the JUMP. -/
def Node.jumps (nd : Node D) (flag : CatchupFlag) (seqNum : Nat) (cert : OrdCert D) : Bool :=
  decide (flag ≠ .recovery) && decide (nd.ord.aru < seqNum) &&
    (decide (flag = .jump) || decide (catchupHistory < distance cert.seqNum nd.ord.aru))

/-- `CATCH_Process_Jump`, for a JUMP that answers the server's request. -/
def processJump (me : Nat) (nd : Node D) (flag : CatchupFlag) (seqNum : Nat) (cert : OrdCert D) : Node D :=
  if nd.jumps catchupHistory flag seqNum cert then jumpAhead c digest me nd cert else nd

/-! ## Incarnations -/

/-- What `PR_Accept_Incarnation` does to a slot that is not ordered: the votes of others go, and
the server's own are written over with the new vector. -/
def reviseVotes (me : Nat) (vector : List Nat) (slot : OrdSlot D) : OrdSlot D :=
  let revise (mess : Signed (Vouch D)) : Signed (Vouch D) :=
    { mess with body := { mess.body with preinstalledIncarnations := vector } }
  if slot.ordered then slot
  else
    { slot with
      prepare := fun i =>
        if i = me then if slot.sentPrepare then (slot.prepare i).map revise else slot.prepare i
        else if slot.prepareCertificateReady then slot.prepare i else none
      commit := fun i =>
        if i = me then if slot.sentCommit then (slot.commit i).map revise else slot.commit i
        else none }

/-- `PR_Accept_Incarnation`, for the slots: `vector` is what the server has preinstalled now. -/
def acceptIncarnation (me : Nat) (vector : List Nat) (nd : Node D) : Node D :=
  nd.withOrd { nd.ord with
    history :=
      { entries := nd.ord.history.entries.map (.map id fun _ slot => reviseVotes me vector slot)
        nodupKeys := nd.ord.history.nodupKeys.map₂ _ _ }
    preinstalledIncarnations := vector }

/-! ## The server -/

/-- What happens to a server. `proceed` is the next step of the handler that runs; `elsewhere`
is the rest of the program. -/
inductive Input (D : Type)
  | proceed (ready : Nat → Requests)
  | message (mess : Msg D)
  | retry
  | propose (rows : List PoAruSigned)
  | replay (list : Bitmap) (pcSet : Nat → List (PcSet D)) (startSeq : Nat)
  | ordCert (cert : OrdCert D)
  | jump (flag : CatchupFlag) (seqNum : Nat) (cert : OrdCert D)
  | recovered (cert : OrdCert D)
  | incarnation (vector : List Nat)
  | elsewhere (view : Nat) (viewChangeDone : Bool) (preinstalled installed : List Nat) (newIncarnationVal : Nat)
      (proposalDigest : Bytes)
  | restart (view : Nat) (incarnations : List Nat) (proposalDigest : Bytes)

/-- The next step of the functions that are running. -/
def proceed (me : Nat) (ready : Nat → Requests) (nd : Node D) : Node D :=
  match nd.call with
  | some seq => executeCommit c ready { nd with call := none } seq
  | none =>
    match nd.calls with
    | [] => nd
    | .executed :: l => afterExecution c digest me { nd with calls := l }
    | .retry :: l => attemptPending { nd with calls := l }
    | .message mess :: l => processMessage c digest me { nd with calls := l } mess
    | .install slot :: l => installSlot c { nd with calls := l } slot
    | .replayed startSeq :: l => finishReplay c me { nd with calls := l } startSeq
    | .jumped :: l => afterJump c me { nd with calls := l }

/-- The server looks for complete states, which can make it execute a replay. It does not while
it executes one. -/
def Node.mayReplay (nd : Node D) : Bool :=
  nd.call.isNone &&
    (match nd.calls with
    | [] => true
    | .executed :: _ | .jumped :: _ => !nd.ord.viewChangeDone
    | _ => false) &&
    nd.calls.all fun
      | .install _ | .replayed _ => false
      | _ => true

/-- What a server in its event loop does with an input. -/
def receive (me : Nat) (nd : Node D) : Input D → Node D
  | .message mess => if validated c mess then { nd with calls := [.message mess] } else nd
  | .retry => { nd with calls := [.retry] }
  | .ordCert cert => processOrdCertificate c digest me nd cert
  | .jump flag seqNum cert => processJump c catchupHistory digest me nd flag seqNum cert
  | .recovered cert => jumpAhead c digest me nd cert
  | .incarnation vector => acceptIncarnation me vector nd
  | .restart view incarnations proposalDigest => Node.start c catchupHistory view incarnations proposalDigest
  | _ => nd

/-- One step of a server. The leader also proposes while it resumes normal operation in the
middle of an execution, and the vectors change there too. -/
def step (me : Nat) (nd : Node D) (x : Input D) : Node D :=
  if nd.running = false then nd
  else
    match x with
    | .proceed ready => proceed c digest me ready nd
    | .propose rows => sendOnePrePrepare c me nd rows
    | .elsewhere view viewChangeDone preinstalled installed newIncarnationVal proposalDigest =>
      nd.withOrd { nd.ord with
        view, viewChangeDone, preinstalledIncarnations := preinstalled, installedIncarnations := installed,
        newIncarnationVal, proposalDigest }
    | .replay list pcSet startSeq => if nd.mayReplay then executeReplay c nd list pcSet startSeq else nd
    | x => if nd.idle then receive c catchupHistory digest me nd x else nd

end Code

end Spire.Ordinals
