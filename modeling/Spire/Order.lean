import Mathlib.Data.List.AList
import Spire.Lib.Network
import Spire.PreOrder

/-!
# Ordering

`order.c`: what a server does with Pre-Prepares, Prepares and Commits. A slot
collects, for one sequence number, the parts of a Pre-Prepare and one Prepare and
one Commit from each server, in any order; a prepare certificate makes the server
send its Commit and a commit certificate marks the slot ordered.

A handler takes the server's identifier and state and answers the next state and
the messages handed to `SIG_Add_To_Pending_Messages`. Three things happen in the
source at points of its own choosing and are actions here: executing the next
ordered slot (the source waits for the requests it made eligible), moving the
white lines of forwarding and reconciliation, and the leader's proposing.

`halted` stands for a process that has ended: an assertion failed, `Alarm(EXIT)`
was reached, or a copy ran past the end of its target, after which the source
has no defined behaviour. A halted server does nothing more.

Left out are the data the ordering decisions never read: turnaround-time
measurements, the pre-order state the rows of a matrix are merged into, and what
executing an update does.
-/

namespace Spire.Order

variable {D : Type}

/-! ## Slots -/

/-- Why a slot exists: a commit certificate in the normal case, or a replay at
the end of a view change. -/
inductive SlotType
  | commit | pcSet | noOp | noOpPlus
deriving DecidableEq, Repr

/-- `prepare_certificate_struct`. -/
structure PrepareCertificate (D : Type) where
  prePrepare : CompletePrePrepare
  prepare : Nat → Option (Signed (Vouch D))

/-- `ord_slot`. The arrays indexed by server or part are functions; the flag and
the message of a Pre-Prepare part are one option. -/
structure OrdSlot (D : Type) where
  seqNum : Nat
  view : Nat
  type : SlotType
  prePrepareParts : Nat → Option (Signed PrePrepare)
  totalParts : Nat
  numPartsCollected : Nat
  collectedAllParts : Bool
  completePrePrepare : CompletePrePrepare
  sentPrepare : Bool
  sentCommit : Bool
  prepare : Nat → Option (Signed (Vouch D))
  commit : Nat → Option (Signed (Vouch D))
  ordered : Bool
  executed : Bool
  prepareCertificateReady : Bool
  prepareCertificate : PrepareCertificate D
  commitCertificate : Nat → Option (Signed (Vouch D))
  snapshot : Bool
  preinstalledSnapshot : List Nat
  madeEligible : List PoSeqPair
  populatedEligible : Bool

/-- The slot `UTIL_Get_ORD_Slot` creates: all zeros, of the default type. -/
def OrdSlot.new (c : Config) (seqNum : Nat) : OrdSlot D :=
  { seqNum, view := 0, type := .commit, prePrepareParts := fun _ => none, totalParts := 0,
    numPartsCollected := 0, collectedAllParts := false,
    completePrePrepare := CompletePrePrepare.null c, sentPrepare := false, sentCommit := false,
    prepare := fun _ => none, commit := fun _ => none, ordered := false, executed := false,
    prepareCertificateReady := false,
    prepareCertificate := { prePrepare := CompletePrePrepare.null c, prepare := fun _ => none },
    commitCertificate := fun _ => none, snapshot := false,
    preinstalledSnapshot := List.replicate c.numServers 0,
    madeEligible := List.replicate c.numServers PoSeqPair.zero, populatedEligible := false }

/-- `slot->prepare[mess->machine_id] = mess`. -/
def OrdSlot.storePrepare (slot : OrdSlot D) (mess : Signed (Vouch D)) : OrdSlot D :=
  { slot with prepare := Function.update slot.prepare mess.machineId (some mess) }

/-- `slot->commit[mess->machine_id] = mess`. -/
def OrdSlot.storeCommit (slot : OrdSlot D) (mess : Signed (Vouch D)) : OrdSlot D :=
  { slot with commit := Function.update slot.commit mess.machineId (some mess) }

/-- `slot->collected_all_parts = 1`. -/
def OrdSlot.markCollected (slot : OrdSlot D) : OrdSlot D := { slot with collectedAllParts := true }

/-- `slot->executed = 1`. -/
def OrdSlot.markExecuted (slot : OrdSlot D) : OrdSlot D := { slot with executed := true }

/-- The ordering state of a server, with the fields of `DATA` its handlers read. -/
structure Node (D : Type) where
  view : Nat
  viewChangeDone : Bool
  aru : Nat
  ppAru : Nat
  forwardingWhiteLine : Nat
  reconWhiteLine : Nat
  stableCatchup : Nat
  gcWidth : Nat
  highPrepared : Nat
  highCommitted : Nat
  history : AList fun _ : Nat => OrdSlot D
  preinstalledIncarnations : List Nat
  installedIncarnations : List Nat
  newIncarnationVal : Nat
  proposalDigest : Bytes
  leaderSuspected : Bool
  halted : Bool

namespace Node

variable (st : Node D)

/-- `UTIL_Get_ORD_Slot_If_Exists`. -/
def slot? (seq : Nat) : Option (OrdSlot D) := st.history.lookup seq

/-- `UTIL_Get_ORD_Slot`. The caller stores the slot, which creates it. -/
def getOrdSlot (c : Config) (seq : Nat) : OrdSlot D := (st.slot? seq).getD (OrdSlot.new c seq)

/-- Store a slot under its sequence number. -/
def putOrdSlot (seq : Nat) (slot : OrdSlot D) : Node D :=
  { st with history := st.history.insert seq slot }

/-- The process ends. -/
def halt : Node D := { st with halted := true }

/-- `DATA.ORD.ARU++`; the first execution also starts the catchup history. -/
def advanceAru : Node D :=
  { st with aru := st.aru + 1, stableCatchup := if st.aru = 0 then 1 else st.stableCatchup }

/-- `DATA.ORD.ppARU++`. -/
def advancePpAru : Node D := { st with ppAru := st.ppAru + 1 }

@[simp] theorem slot?_putOrdSlot_self (seq : Nat) (slot : OrdSlot D) :
    (st.putOrdSlot seq slot).slot? seq = some slot := by
  simp [slot?, putOrdSlot]

theorem slot?_putOrdSlot_of_ne {seq s : Nat} (slot : OrdSlot D) (h : s ≠ seq) :
    (st.putOrdSlot seq slot).slot? s = st.slot? s := by
  simp [slot?, putOrdSlot, AList.lookup_insert_ne h]

@[simp] theorem slot?_halt (seq : Nat) : st.halt.slot? seq = st.slot? seq := rfl

end Node

/-! ## Messages -/

/-- The messages ordering exchanges. -/
inductive Msg (D : Type)
  | prePrepare (m : Signed PrePrepare)
  | prepare (m : Signed (Vouch D))
  | commit (m : Signed (Vouch D))
deriving DecidableEq

/-- Whose signature a message bears. -/
def Msg.signer : Msg D → Nat
  | .prePrepare m => m.machineId
  | .prepare m => m.machineId
  | .commit m => m.machineId

/-- The header of a message a server constructs, before it is signed. -/
def newHeader (st : Node D) (me : Nat) (type : PacketType) (len : Nat) : Header :=
  { sig := [], mtNum := 0, mtIndex := 0, siteId := 0, machineId := me, len, type := type.code,
    incarnation := st.newIncarnationVal, monotonicCounter := 0 }

/-- What a Prepare and a Commit say about a proposal. -/
def vouchFor (digest : CompletePrePrepare → D) (st : Node D) (pp : CompletePrePrepare) : Vouch D :=
  { seqNum := pp.seqNum, view := pp.view, digest := digest pp,
    preinstalledIncarnations := st.preinstalledIncarnations }

/-- `ORDER_Construct_Prepare`. -/
def constructPrepare (c : Config) (digest : CompletePrePrepare → D) (st : Node D) (me : Nat)
    (pp : CompletePrePrepare) : Signed (Vouch D) :=
  { header := newHeader st me .prepare (28 + 4 * c.numServers), body := vouchFor digest st pp }

/-- `ORDER_Construct_Commit`. -/
def constructCommit (c : Config) (digest : CompletePrePrepare → D) (st : Node D) (me : Nat)
    (pp : CompletePrePrepare) : Signed (Vouch D) :=
  { header := newHeader st me .commit (28 + 4 * c.numServers), body := vouchFor digest st pp }

/-! ## Certificates -/

section Certificates

variable [DecidableEq D] (c : Config) (digest : CompletePrePrepare → D)

/-- The body `ORDER_Prepare_Matches_Pre_Prepare` and
`ORDER_Commit_Matches_Pre_Prepare` share: same view, same sequence number, and
the digest of the whole proposal. -/
def matchesPrePrepare (m : Signed (Vouch D)) (pp : CompletePrePrepare) : Bool :=
  decide (pp.view = m.body.view) && decide (pp.seqNum = m.body.seqNum) &&
    decide (digest pp = m.body.digest)

/-- `ORDER_Prepare_Matches_Pre_Prepare`. -/
def prepareMatchesPrePrepare (m : Signed (Vouch D)) (pp : CompletePrePrepare) : Bool :=
  matchesPrePrepare digest m pp

/-- `ORDER_Commit_Matches_Pre_Prepare`. -/
def commitMatchesPrePrepare (m : Signed (Vouch D)) (pp : CompletePrePrepare) : Bool :=
  matchesPrePrepare digest m pp

/-- The counting loop of both certificates: stored messages that match. -/
def matching (stored : Nat → Option (Signed (Vouch D))) (pp : CompletePrePrepare) (sn : Nat) : Bool :=
  match stored sn with
  | some m => matchesPrePrepare digest m pp
  | none => false

/-- `ORDER_Prepare_Certificate_Ready`: with the Pre-Prepare, `2f + k` Prepares. -/
def prepareCertificateReady (slot : OrdSlot D) : Bool :=
  slot.collectedAllParts &&
    decide (2 * c.F + c.K ≤ Lib.tally c.numServers (matching digest slot.prepare slot.completePrePrepare))

/-- `ORDER_Commit_Certificate_Ready`: with the Pre-Prepare, `2f + k + 1` Commits. -/
def commitCertificateReady (slot : OrdSlot D) : Bool :=
  slot.collectedAllParts &&
    decide (2 * c.F + c.K + 1 ≤ Lib.tally c.numServers (matching digest slot.commit slot.completePrePrepare))

/-- The copying loop of both certificates: matching messages are moved, the other
entries stay as they were. -/
def moveMatching (src dst : Nat → Option (Signed (Vouch D))) (pp : CompletePrePrepare) (sn : Nat) :
    Option (Signed (Vouch D)) :=
  if 1 ≤ sn ∧ sn ≤ c.numServers ∧ matching digest src pp sn = true then src sn else dst sn

/-- `ORDER_Move_Prepare_Certificate`, on the slot. -/
def movePrepareCertificate (slot : OrdSlot D) : OrdSlot D :=
  { slot with
    prepareCertificate :=
      { prePrepare := slot.completePrePrepare
        prepare := moveMatching c digest slot.prepare slot.prepareCertificate.prepare slot.completePrePrepare }
    prepareCertificateReady := true }

/-- Which sequence numbers of a matrix each server's requests become eligible at:
the larger of `PRE_ORDER_Proof_ARU` and `last_executed`. -/
def eligible (pp : CompletePrePrepare) : List PoSeqPair :=
  (List.range c.numServers).map fun i =>
    let ps := PreOrder.proofAru c (i + 1) pp.cumAcks
    let last := pp.lastExecuted.getD i PoSeqPair.zero
    if 0 < PreOrder.seqCompare ps last then ps else last

/-- The guarded computation of `made_eligible`. -/
def populateEligible (slot : OrdSlot D) (pp : CompletePrePrepare) : OrdSlot D :=
  if slot.populatedEligible then slot
  else { slot with populatedEligible := true, madeEligible := eligible c pp }

/-- A slot whose proposal this server accepts and prepares. -/
def acceptProposal (slot : OrdSlot D) : OrdSlot D :=
  { populateEligible c slot slot.completePrePrepare with sentPrepare := true }

/-- The proposal a certificate speaks about. -/
def OrdSlot.proposal (slot : OrdSlot D) : CompletePrePrepare :=
  if slot.prepareCertificateReady then slot.prepareCertificate.prePrepare else slot.completePrePrepare

/-- `ORDER_Move_Commit_Certificate`, on the slot. -/
def moveCommitCertificate (st : Node D) (slot : OrdSlot D) : OrdSlot D :=
  let pp := slot.proposal
  let slot :=
    { slot with
      commitCertificate := moveMatching c digest slot.commit slot.commitCertificate pp
      preinstalledSnapshot :=
        if slot.snapshot then slot.preinstalledSnapshot else st.preinstalledIncarnations
      snapshot := true
      ordered := true }
  populateEligible c slot pp

/-- What the Pre-Prepare and Prepare handlers do with a complete prepare
certificate: move it, and commit to it unless a view change is under way. -/
def certifyPrepared (me : Nat) (st : Node D) (slot : OrdSlot D) : OrdSlot D × List (Msg D) :=
  let slot := movePrepareCertificate c digest slot
  if st.viewChangeDone then
    ({ slot with sentCommit := true },
      [.commit (constructCommit c digest st me slot.prepareCertificate.prePrepare)])
  else (slot, [])

end Certificates

/-! ## Guards the handlers share -/

/-- The view test of all three handlers. Messages of a later view are dropped;
those of an earlier one too, unless a view change is under way and the slot
executed last is from no later view. The answer is missing where the source
asserts that this slot exists and it does not. -/
def Node.acceptsView (st : Node D) (view : Nat) : Option Bool :=
  if st.view < view then some false
  else if view < st.view then
    if st.viewChangeDone then some false
    else if 0 < st.aru then
      match st.slot? st.aru with
      | none => none
      | some t => some (decide (t.view ≤ view))
    else some true
  else some true

/-- The incarnations a Prepare or Commit must list: the slot's snapshot once
there is one, and otherwise the server's own view of them. -/
def Node.expectedIncarnations (st : Node D) (slot : OrdSlot D) : List Nat :=
  if slot.snapshot then slot.preinstalledSnapshot else st.preinstalledIncarnations

/-! ## Sending Prepares -/

section Handlers

variable [DecidableEq D] (c : Config) (digest : CompletePrePrepare → D)

/-- Whether a slot's `last_executed` continues from the slot before it. Missing
where the source asserts that only the first slot has none before it. -/
def continues (st : Node D) (pp : CompletePrePrepare) : Option Bool :=
  match st.slot? st.ppAru with
  | none =>
    if st.ppAru = 0 then
      some ((List.range c.numServers).all fun i =>
        decide (PreOrder.seqCompare (pp.lastExecuted.getD i PoSeqPair.zero) PoSeqPair.zero = 0))
    else none
  | some prev => some (decide (prev.madeEligible = pp.lastExecuted))

/-- Every row of the matrix is from an incarnation this server has installed. -/
def rowsInstalled (st : Node D) (pp : CompletePrePrepare) : Bool :=
  (List.range c.numServers).all fun i =>
    decide ((pp.cumAcks.getD i (PoAruSigned.null c)).header.incarnation ≤ st.installedIncarnations.getD i 0)

/-- How the loop of `ORDER_Send_Prepares` ends: by returning out of the function,
or by running out of slots. -/
inductive LoopEnd
  | returned | exhausted
deriving DecidableEq

/-- The loop of `ORDER_Send_Prepares`. `fuel` bounds the slots it can visit. -/
def sendPreparesLoop (me : Nat) : Nat → Node D → List (Msg D) → Node D × List (Msg D) × LoopEnd
  | 0, st, out => (st, out, .returned)
  | fuel + 1, st, out =>
    match st.slot? (st.ppAru + 1) with
    | none => (st, out, .exhausted)
    | some slot =>
      if slot.collectedAllParts = false then (st, out, .exhausted)
      else if slot.type ≠ .commit ∨ st.viewChangeDone = false then
        sendPreparesLoop me fuel st.advancePpAru out
      else if rowsInstalled c st slot.completePrePrepare = false then (st, out, .returned)
      else
        match continues c st slot.completePrePrepare with
        | none => (st.halt, out, .returned)
        | some false => (st, out, .returned)
        | some true =>
          let out :=
            if me = c.leaderOfView st.view then out
            else out ++ [.prepare (constructPrepare c digest st me slot.completePrePrepare)]
          sendPreparesLoop me fuel (st.putOrdSlot (st.ppAru + 1) (acceptProposal c slot)).advancePpAru out

/-- `ORDER_Send_Prepares`, up to the turnaround-time measurement. -/
def sendPrepares (me : Nat) (st : Node D) : Node D × List (Msg D) :=
  match sendPreparesLoop c digest me (st.history.keys.length + 1) st [] with
  | (st, out, .returned) => (st, out)
  | (st, out, .exhausted) => if (st.slot? st.ppAru).isNone then (st.halt, out) else (st, out)

/-! ## Pre-Prepares -/

/-- `num_acks_per_message`: the rows that fit in one packet. -/
def numAcksPerMessage : Nat :=
  (32000 - 156 - (36 + 8 * c.numServers) - 6 * 20) / (160 + 8 * c.numServers)

/-- The first part of a Pre-Prepare sets up the proposal's header. -/
def setupProposal (slot : OrdSlot D) (pp : PrePrepare) : OrdSlot D :=
  { slot with
    view := pp.view
    totalParts := pp.totalParts
    completePrePrepare :=
      { slot.completePrePrepare with
        seqNum := slot.seqNum, view := pp.view, proposalDigest := pp.proposalDigest,
        lastExecuted := pp.lastExecuted } }

/-- `memcpy` of rows into the matrix, from row `index` on. -/
def writeRows (acks : List PoAruSigned) (index : Nat) (rows : List PoAruSigned) : List PoAruSigned :=
  acks.take index ++ rows ++ acks.drop (index + rows.length)

/-- Store a part and count it. -/
def storePart (slot : OrdSlot D) (mess : Signed PrePrepare) (index : Nat) : OrdSlot D :=
  { slot with
    prePrepareParts := Function.update slot.prePrepareParts mess.body.partNum (some mess)
    completePrePrepare :=
      { slot.completePrePrepare with
        cumAcks := writeRows slot.completePrePrepare.cumAcks index mess.body.rows }
    numPartsCollected := slot.numPartsCollected + 1 }

/-- A prepare certificate can be complete when the Pre-Prepare arrives last. -/
def certifyIfReady (me : Nat) (st : Node D) (slot : OrdSlot D) : OrdSlot D × List (Msg D) :=
  if slot.prepareCertificateReady = false ∧ slot.ordered = false ∧
      prepareCertificateReady c digest slot = true then
    certifyPrepared c digest me st slot
  else (slot, [])

/-- `DATA.ORD.high_prepared` after a slot's certificate may have been moved. -/
def Node.noteHighPrepared (st : Node D) (slot : OrdSlot D) : Node D :=
  if slot.prepareCertificateReady then { st with highPrepared := max st.highPrepared slot.seqNum } else st

/-- The end of `ORDER_Process_Pre_Prepare`, from the moment all parts are there. -/
def proposalComplete (me : Nat) (st : Node D) (seq : Nat) (slot : OrdSlot D) : Node D × List (Msg D) :=
  let r := certifyIfReady c digest me st slot.markCollected
  let st := (st.putOrdSlot seq r.1).noteHighPrepared r.1
  if r.1.completePrePrepare.seqNum ≠ st.ppAru + 1 then (st, r.2)
  else
    let p := sendPrepares c digest me st
    (p.1, r.2 ++ p.2)

/-- The middle of `ORDER_Process_Pre_Prepare`: a part that passed the guards meets
its slot, which `first` says had no part before. -/
def collectPart (me : Nat) (st : Node D) (first : Bool) (slot : OrdSlot D) (mess : Signed PrePrepare) :
    Node D × List (Msg D) :=
  if first = false ∧ slot.view ≠ mess.body.view then (st, [])
  else if first = false ∧ slot.view = st.view ∧ slot.prePrepareParts 1 ≠ some mess then
    -- two Pre-Prepares of one leader for one slot
    ({ st with leaderSuspected := true }, [])
  else if slot.collectedAllParts then (st, [])
  else if (slot.prePrepareParts mess.body.partNum).isSome then (st, [])
  else if c.numServers < (mess.body.partNum - 1) * numAcksPerMessage c + mess.body.rows.length then
    -- the copy runs past the rows of the matrix
    (st.halt, [])
  else if slot.numPartsCollected + 1 < slot.totalParts then
    (st.putOrdSlot mess.body.seqNum
      (storePart slot mess ((mess.body.partNum - 1) * numAcksPerMessage c)), [])
  else
    proposalComplete c digest me st mess.body.seqNum
      (storePart slot mess ((mess.body.partNum - 1) * numAcksPerMessage c))

/-- The slot a part meets: the first part sets up the proposal. -/
def slotFor (slot : OrdSlot D) (pp : PrePrepare) : OrdSlot D :=
  if slot.numPartsCollected = 0 then setupProposal slot pp else slot

/-- `ORDER_Process_Pre_Prepare`. -/
def processPrePrepare (me : Nat) (st : Node D) (mess : Signed PrePrepare) : Node D × List (Msg D) :=
  if mess.body.proposalDigest ≠ st.proposalDigest then (st, [])
  else if mess.body.seqNum ≤ st.forwardingWhiteLine ∧ mess.body.seqNum + 1 ≤ st.reconWhiteLine ∧
      mess.body.seqNum + 1 ≤ st.aru then (st, [])
  else
    match st.acceptsView mess.body.view with
    | none => (st.halt, [])
    | some false => (st, [])
    | some true =>
      if mess.machineId ≠ c.leaderOfView mess.body.view then (st, [])
      else
        let own := st.getOrdSlot c mess.body.seqNum
        let slot := slotFor own mess.body
        collectPart c digest me (st.putOrdSlot mess.body.seqNum slot) (own.numPartsCollected == 0) slot mess

/-! ## Prepares and Commits -/

/-- `ORDER_Process_Prepare`. -/
def processPrepare (me : Nat) (st : Node D) (mess : Signed (Vouch D)) : Node D × List (Msg D) :=
  let seq := mess.body.seqNum
  if seq ≤ st.aru then (st, [])
  else
    match st.acceptsView mess.body.view with
    | none => (st.halt, [])
    | some false => (st, [])
    | some true =>
      if mess.machineId = c.leaderOfView mess.body.view then (st, [])
      else
        let slot := st.getOrdSlot c seq
        if (slot.prepare mess.machineId).isSome then (st.putOrdSlot seq slot, [])
        else if mess.body.preinstalledIncarnations ≠ st.expectedIncarnations slot then
          (st.putOrdSlot seq slot, [])
        else
          let slot := slot.storePrepare mess
          if slot.ordered = true ∨ slot.prepareCertificateReady = true then (st.putOrdSlot seq slot, [])
          else if prepareCertificateReady c digest slot then
            let r := certifyPrepared c digest me st slot
            ({ st.putOrdSlot seq r.1 with highPrepared := max st.highPrepared slot.seqNum }, r.2)
          else (st.putOrdSlot seq slot, [])

/-- `ORDER_Process_Commit`, up to the attempt to execute the slot. -/
def processCommit (st : Node D) (mess : Signed (Vouch D)) : Node D :=
  let seq := mess.body.seqNum
  if seq ≤ st.aru then st
  else
    match st.acceptsView mess.body.view with
    | none => st.halt
    | some false => st
    | some true =>
      let slot := st.getOrdSlot c seq
      if (slot.commit mess.machineId).isSome then st.putOrdSlot seq slot
      else if mess.body.preinstalledIncarnations ≠ st.expectedIncarnations slot then
        st.putOrdSlot seq slot
      else
        let slot := slot.storeCommit mess
        if slot.ordered then st.putOrdSlot seq slot
        else if commitCertificateReady c digest slot then
          { st.putOrdSlot seq (moveCommitCertificate c digest st slot) with
            highCommitted := max st.highCommitted slot.seqNum }
        else st.putOrdSlot seq slot

/-! ## Execution and garbage collection -/

/-- A slot the collector may drop: complete, forwarded and reconciled. -/
def collectable (st : Node D) (seq : Nat) : Bool :=
  match st.slot? seq with
  | none => false
  | some slot => slot.collectedAllParts && decide (seq ≤ st.forwardingWhiteLine) &&
      decide (seq + 1 ≤ st.reconWhiteLine)

/-- `ORDER_Attempt_To_Garbage_Collect_ORD_Slots`. -/
def garbageCollect (st : Node D) : Node D :=
  if st.aru - st.stableCatchup < 2 * st.gcWidth then st
  else
    let chunk := List.range' st.stableCatchup (st.aru - st.gcWidth - st.stableCatchup)
    if chunk.all (collectable st) then
      { st with
        history := chunk.foldl (fun h seq => h.erase seq) st.history
        stableCatchup := st.aru - st.gcWidth }
    else st.halt

/-- The slot executed last is still there, or nothing was executed yet: the test
of `ORDER_Ready_To_Execute` that does not concern requests. -/
def previousExecuted (st : Node D) : Bool :=
  match st.slot? st.aru with
  | none => decide (st.aru = 0)
  | some prev => prev.executed

/-- `ORDER_Execute_Commit` on the slot after `ARU`, once the requests it makes
eligible are there, up to where `ARU` has moved. The flag says whether it has. -/
def executeSlot (st : Node D) : Node D × Bool :=
  match st.slot? (st.aru + 1) with
  | none => (st, false)
  | some slot =>
    if slot.ordered = false ∧ slot.type = .commit then (st, false)
    else if slot.proposal.seqNum ≠ st.aru + 1 then (st.halt, false)
    else if previousExecuted st = false then (st, false)
    else ((st.putOrdSlot (st.aru + 1) slot.markExecuted).advanceAru, true)

/-- The end of `ORDER_Execute_Commit`: Prepares that can be sent now, and garbage
collection. -/
def afterExecution (me : Nat) (st : Node D) : Node D × List (Msg D) :=
  let p := sendPrepares c digest me st
  (garbageCollect p.1, p.2)

/-- `ORDER_Execute_Commit`, when no view change is under way. -/
def executeCommit (me : Nat) (st : Node D) : Node D × List (Msg D) :=
  if (executeSlot st).2 then afterExecution c digest me (executeSlot st).1 else ((executeSlot st).1, [])

/-- The search of `ORDER_Adjust_ppARU` and `ORDER_Adjust_High_Prepared`: from
`high` down to `ARU`, the first ordinal whose slot passes the test. -/
def lastWith (st : Node D) (high : Nat) (test : OrdSlot D → Bool) : Nat :=
  ((List.range' (st.aru + 1) (high - st.aru)).reverse.find? fun seq => (st.slot? seq).any test).getD st.aru

/-- `ORDER_Adjust_ppARU`. -/
def adjustPpAru (st : Node D) : Node D :=
  { st with ppAru := lastWith st st.ppAru OrdSlot.sentPrepare }

/-- `ORDER_Adjust_High_Prepared`. -/
def adjustHighPrepared (st : Node D) : Node D :=
  { st with highPrepared := lastWith st st.highPrepared OrdSlot.prepareCertificateReady }

/-! ## The handler -/

/-- What a server does of its own accord. -/
inductive Action
  | propose (mess : Signed PrePrepare)
  | execute
  | whiteLines (forwarding recon : Nat)

/-- The checks of `validate.c` a message passes before its handler runs, that its
signature is its sender's apart: sender in range, non-zero sequence number, and a
Pre-Prepare in one part. -/
def validated : Msg D → Bool
  | .prePrepare m => decide (m.machineId ∈ c.servers) && decide (m.body.seqNum ≠ 0) &&
      decide (m.body.totalParts = 1) && decide (m.body.partNum = 1)
  | .prepare m => decide (m.machineId ∈ c.servers) && decide (m.body.seqNum ≠ 0)
  | .commit m => decide (m.machineId ∈ c.servers) && decide (m.body.seqNum ≠ 0)

/-- The slot of a proposal, with what the proposal makes eligible. -/
def openForProposal (slot : OrdSlot D) (pp : PrePrepare) : OrdSlot D :=
  if slot.populatedEligible then slot
  else
    { slot with
      populatedEligible := true
      view := pp.view
      madeEligible :=
        eligible c { CompletePrePrepare.null c with lastExecuted := pp.lastExecuted, cumAcks := pp.rows } }

/-- `ORDER_Send_One_Pre_Prepare`: the leader sends its proposal and sets up the
slot it belongs to. What it proposes is left open. -/
def sendOnePrePrepare (me : Nat) (st : Node D) (mess : Signed PrePrepare) : Node D × List (Msg D) :=
  if me = c.leaderOfView st.view ∧ mess.machineId = me ∧ mess.body.view = st.view then
    let slot := openForProposal c (st.getOrdSlot c mess.body.seqNum) mess.body
    (st.putOrdSlot mess.body.seqNum slot, [.prePrepare mess])
  else (st, [])

/-- One step of a server that is still running. -/
def react (me : Nat) (st : Node D) : Lib.Input (Msg D) Action → Node D × List (Msg D)
  | .msg m =>
    if validated c m then
      match m with
      | .prePrepare m => processPrePrepare c digest me st m
      | .prepare m => processPrepare c digest me st m
      | .commit m => (processCommit c digest st m, [])
    else (st, [])
  | .act (.propose m) => sendOnePrePrepare c me st m
  | .act .execute => executeCommit c digest me st
  | .act (.whiteLines f r) => ({ st with forwardingWhiteLine := f, reconWhiteLine := r }, [])

/-- The state of a server that starts in view `view`, once it has learnt which
incarnations are preinstalled and which proposal the system runs under. -/
def Node.boot (c : Config) (view gcWidth : Nat) (incarnations : List Nat) (proposalDigest : Bytes) :
    Node D :=
  { view, viewChangeDone := true, aru := 0, ppAru := 0, forwardingWhiteLine := 0, reconWhiteLine := 0,
    stableCatchup := 0, gcWidth, highPrepared := 0, highCommitted := 0, history := ∅,
    preinstalledIncarnations := incarnations.take c.numServers,
    installedIncarnations := incarnations.take c.numServers, newIncarnationVal := 0, proposalDigest,
    leaderSuspected := false, halted := false }

/-- One step of a server. -/
def handle : Lib.Handler (Node D) (Msg D) Action := fun me st x =>
  if st.halted then (st, []) else react c digest me st x

/-! ## What ordering leaves alone -/

/-- Two states in the same view, at the same side of its view change. -/
structure SameMode (st st' : Node D) : Prop where
  view : st'.view = st.view
  viewChangeDone : st'.viewChangeDone = st.viewChangeDone

omit [DecidableEq D] in
theorem SameMode.refl (st : Node D) : SameMode st st := ⟨rfl, rfl⟩

omit [DecidableEq D] in
theorem SameMode.trans {st st' st'' : Node D} (h : SameMode st st') (h' : SameMode st' st'') :
    SameMode st st'' :=
  ⟨h'.view.trans h.view, h'.viewChangeDone.trans h.viewChangeDone⟩

omit [DecidableEq D] in
/-- A part that follows an edit of other fields. -/
theorem SameMode.after {st st' st'' : Node D} (h : SameMode st' st'') (hview : st'.view = st.view)
    (hdone : st'.viewChangeDone = st.viewChangeDone) : SameMode st st'' :=
  SameMode.trans ⟨hview, hdone⟩ h

omit [DecidableEq D] in
theorem sendPreparesLoop_mode (me fuel : Nat) (st : Node D) (out : List (Msg D)) :
    SameMode st (sendPreparesLoop c digest me fuel st out).1 := by
  induction fuel generalizing st out with
  | zero => exact .refl st
  | succ fuel ih =>
    rw [sendPreparesLoop]
    split
    · exact .refl st
    split
    · exact .refl st
    split
    · exact (ih st.advancePpAru out).after rfl rfl
    split
    · exact .refl st
    split
    · exact ⟨rfl, rfl⟩
    · exact .refl st
    · exact (ih _ _).after rfl rfl

omit [DecidableEq D] in
theorem sendPrepares_mode (me : Nat) (st : Node D) : SameMode st (sendPrepares c digest me st).1 := by
  have hloop := sendPreparesLoop_mode c digest me (st.history.keys.length + 1) st []
  unfold sendPrepares
  split
  · rename_i hr
    rw [hr] at hloop
    exact hloop
  · rename_i hr
    rw [hr] at hloop
    split
    · exact hloop.trans ⟨rfl, rfl⟩
    · exact hloop

omit [DecidableEq D] in
theorem garbageCollect_mode (st : Node D) : SameMode st (garbageCollect st) := by
  unfold garbageCollect
  split
  · exact .refl st
  · dsimp only
    split <;> exact ⟨rfl, rfl⟩

omit [DecidableEq D] in
theorem executeSlot_mode (st : Node D) : SameMode st (executeSlot st).1 := by
  unfold executeSlot
  split
  · exact .refl st
  split
  · exact .refl st
  split
  · exact ⟨rfl, rfl⟩
  split
  · exact .refl st
  · exact ⟨rfl, rfl⟩

omit [DecidableEq D] in
theorem afterExecution_mode (me : Nat) (st : Node D) : SameMode st (afterExecution c digest me st).1 :=
  (sendPrepares_mode c digest me st).trans (garbageCollect_mode _)

omit [DecidableEq D] in
theorem executeCommit_mode (me : Nat) (st : Node D) : SameMode st (executeCommit c digest me st).1 := by
  unfold executeCommit
  split
  · exact (executeSlot_mode st).trans (afterExecution_mode c digest me _)
  · exact executeSlot_mode st

theorem proposalComplete_mode (me : Nat) (st : Node D) (seq : Nat) (slot : OrdSlot D) :
    SameMode st (proposalComplete c digest me st seq slot).1 := by
  have hnote : ∀ (st : Node D) (slot : OrdSlot D), SameMode st (st.noteHighPrepared slot) := by
    intro st slot
    unfold Node.noteHighPrepared
    split <;> exact ⟨rfl, rfl⟩
  have hput : SameMode st ((st.putOrdSlot seq (certifyIfReady c digest me st slot.markCollected).1).noteHighPrepared
      (certifyIfReady c digest me st slot.markCollected).1) := (hnote _ _).after rfl rfl
  unfold proposalComplete
  dsimp only
  split
  · exact hput
  · exact hput.trans (sendPrepares_mode c digest me _)

theorem processPrePrepare_mode (me : Nat) (st : Node D) (mess : Signed PrePrepare) :
    SameMode st (processPrePrepare c digest me st mess).1 := by
  have hcollect : ∀ (st : Node D) (first : Bool) (slot : OrdSlot D),
      SameMode st (collectPart c digest me st first slot mess).1 := by
    intro st first slot
    unfold collectPart
    split
    · exact .refl st
    split
    · exact ⟨rfl, rfl⟩
    split
    · exact .refl st
    split
    · exact .refl st
    split
    · exact ⟨rfl, rfl⟩
    split
    · exact ⟨rfl, rfl⟩
    · exact proposalComplete_mode c digest me st _ _
  unfold processPrePrepare
  split
  · exact .refl st
  split
  · exact .refl st
  split
  · exact ⟨rfl, rfl⟩
  · exact .refl st
  split
  · exact .refl st
  · exact (hcollect _ _ _).after rfl rfl

theorem processPrepare_mode (me : Nat) (st : Node D) (mess : Signed (Vouch D)) :
    SameMode st (processPrepare c digest me st mess).1 := by
  unfold processPrepare
  dsimp only
  repeat' split
  all_goals exact ⟨rfl, rfl⟩

theorem processCommit_mode (st : Node D) (mess : Signed (Vouch D)) :
    SameMode st (processCommit c digest st mess) := by
  unfold processCommit
  dsimp only
  repeat' split
  all_goals exact ⟨rfl, rfl⟩

omit [DecidableEq D] in
theorem sendOnePrePrepare_mode (me : Nat) (st : Node D) (mess : Signed PrePrepare) :
    SameMode st (sendOnePrePrepare c me st mess).1 := by
  unfold sendOnePrePrepare
  split
  · exact ⟨rfl, rfl⟩
  · exact .refl st

/-- **Ordering leaves the view alone.** No step of a server changes its view or
ends its view change. -/
theorem handle_mode (me : Nat) (st : Node D) (x : Lib.Input (Msg D) Action) :
    SameMode st (handle c digest me st x).1 := by
  unfold handle
  split
  · exact .refl st
  cases x with
  | msg m =>
    unfold react
    dsimp only
    split
    · cases m with
      | prePrepare m => exact processPrePrepare_mode c digest me st m
      | prepare m => exact processPrepare_mode c digest me st m
      | commit m => exact processCommit_mode c digest st m
    · exact .refl st
  | act a =>
    cases a with
    | propose m => exact sendOnePrePrepare_mode c me st m
    | execute => exact executeCommit_mode c digest me st
    | whiteLines f r => exact ⟨rfl, rfl⟩

end Handlers

end Spire.Order
