import Spire.Bitmap
import Spire.Validate

/-!
# Completing a recovery

`proactive_recovery.c`, `PR_Process_Jump` to `PR_Try_To_Complete_Recovery`: a server that
recovers asks all others where they are. Each answers with a JUMP and with its pending
state, a PENDING_STATE that says how many PENDING_SHAREs follow. Once enough answers are
complete the server adopts the most advanced jump and processes the shares.

The three handlers end in the same lines, and those count. `Sound` is what the counter,
the jump adopted and the loop over the shares should satisfy, `StepSafe` what has to hold
of a message when it arrives for them to stay so. What the rest of the program does to this state is one
input, `elsewhere`. What adopting a jump and processing a share do to the rest of the
program is left out.
-/

namespace Spire.Recovery

open Lib Validate

/-! ## Messages -/

/-- JUMP. `ordCert` is the `seq_num` of the ORD_CERT that follows when `seqNum` is not
zero. -/
structure Jump (D : Type) where
  seqNum : Nat
  ackedNonce : Nat
  proposalDigest : D
  installedIncarn : Nat → Nat
  ordCert : Nat

/-- PENDING_STATE. -/
structure PendingState where
  seqNum : Nat
  ackedNonce : Nat
  totalShares : Nat
deriving DecidableEq, Repr

/-- PENDING_SHARE and the incarnation in its header. -/
structure PendingShare where
  incarnation : Nat
  ackedNonce : Nat
  type : PacketType
  index : Nat
deriving DecidableEq, Repr

/-- The answers to a recovery request, as `VAL_Validate_Message` passes them. -/
inductive Msg (D : Type)
  | jump (jm : Jump D)
  | pendingState (psm : PendingState)
  | pendingShare (pss : PendingShare)

namespace Msg

variable {D : Type}

def type : Msg D → PacketType
  | .jump _ => .jump
  | .pendingState _ => .pendingState
  | .pendingShare _ => .pendingShare

def ackedNonce : Msg D → Nat
  | .jump jm => jm.ackedNonce
  | .pendingState psm => psm.ackedNonce
  | .pendingShare pss => pss.ackedNonce

end Msg

/-! ## State -/

/-- The assertions that can fail here, and the dereferences of a message that is missing. -/
inductive Fault
  | missingPendingState | missingJump | shareIndex | secondProposal | secondCertificate
deriving DecidableEq, Repr

/-- What the rest of the program sets: the server's own entry of `recovery_status`, the
nonce of `catchup_request`, and whether `reset_proposal` and `reset_certificate` are stored. -/
structure Around where
  status : RecoveryStatus
  catchupRequest : Option Nat
  hasProposal : Bool
  hasCertificate : Bool
deriving DecidableEq, Repr

/-- `DATA.PR`, as far as the recovery of the server itself goes. `installed` is the ordinal
and the jump adopted, `processed` the shares handed to `PROCESS_Message`. -/
structure Node (D : Type) extends Around where
  jumpMessage : Nat → Option (Jump D)
  jumpCount : Nat
  pendingState : Nat → Option PendingState
  /-- Each index once, as in the hash table it is the key of. -/
  pendingShares : Nat → List PendingShare
  completePendingState : Nat → Bool
  completeRecoveryStateCount : Nat
  completeRecoveryState : Bool
  installed : Option (Nat × Jump D)
  processed : List PendingShare
  fault : Option Fault

namespace Node

variable {D : Type} (st : Node D)

/-- `PR_Initialize_Data_Structure`. -/
def start (a : Around) : Node D where
  toAround := a
  jumpMessage := fun _ => none
  jumpCount := 0
  pendingState := fun _ => none
  pendingShares := fun _ => []
  completePendingState := fun _ => false
  completeRecoveryStateCount := 0
  completeRecoveryState := false
  installed := none
  processed := []
  fault := none

def crash (f : Fault) : Node D := { st with fault := some f }

def storeJump (sender : Nat) (jm : Jump D) : Node D :=
  { st with
    jumpCount := st.jumpCount + 1
    jumpMessage := Function.update st.jumpMessage sender (some jm) }

def storePendingState (sender : Nat) (psm : PendingState) : Node D :=
  { st with pendingState := Function.update st.pendingState sender (some psm) }

def storePendingShare (sender : Nat) (pss : PendingShare) : Node D :=
  { st with
    pendingShares := Function.update st.pendingShares sender (st.pendingShares sender ++ [pss]) }

/-- `stdhash_find` in the shares of a server. -/
def hasShare (sender index : Nat) : Bool := (st.pendingShares sender).any fun pss => pss.index == index

end Node

/-! ## The code -/

section Code

variable {D : Type} [DecidableEq D] (c : Config)

/-- `PR_Check_Complete_Pending_State`. -/
def checkCompletePendingState (st : Node D) (replica : Nat) : Node D :=
  match st.pendingState replica with
  | none => st
  | some psm =>
    if (st.pendingShares replica).length ≠ psm.totalShares then st
    else if (List.range' 1 psm.totalShares).all (st.hasShare replica) then
      { st with completePendingState := Function.update st.completePendingState replica true }
    else st

/-- A stored jump has this digest. -/
def Node.jumpsTo (st : Node D) (digest : D) (i : Nat) : Bool :=
  match st.jumpMessage i with
  | none => false
  | some jm => decide (digest = jm.proposalDigest)

/-- `recovery_set`: the servers whose jump has the digest. -/
def recoverySet (st : Node D) (digest : D) : Bitmap :=
  (List.range' 1 c.numServers).foldl (fun set i => if st.jumpsTo digest i then set.set i else set) 0#32

/-- One round of the search for the jump to make. -/
def compareJump (i : Nat) (jm : Jump D) (best : Nat × Nat) : Nat × Nat :=
  if jm.seqNum = 0 ∧ best.2 = 0 then (best.1, i)
  else if 0 < jm.seqNum ∧ best.1 < jm.ordCert then (jm.ordCert, i)
  else best

/-- The highest ordinal in the recovery set and who is there, or nothing where a jump the
set promises is missing. -/
def jumpTarget (st : Node D) (set : Bitmap) : Option (Nat × Nat) :=
  (List.range' 1 c.numServers).foldlM (fun best i =>
    if set.isSet i then (st.jumpMessage i).map fun jm => compareJump i jm best else some best) (0, 0)

/-- What `PR_Try_To_Complete_Recovery` decides before it changes anything. -/
inductive Selection (D : Type)
  | wait
  | missingJump
  | jump (set : Bitmap) (maxOrd : Nat) (target : Jump D)

/-- The first half of `PR_Try_To_Complete_Recovery`. -/
def selectJump (st : Node D) (recentReplica : Nat) : Selection D :=
  if st.completePendingState recentReplica = false then .wait
  else
    match st.jumpMessage recentReplica with
    | none => .wait
    | some jm =>
      if st.jumpCount < c.quorum then .wait
      else if st.completeRecoveryStateCount < c.quorum then .wait
      else if tally c.numServers (st.jumpsTo jm.proposalDigest) < c.quorum then .wait
      else
        let set := recoverySet c st jm.proposalDigest
        match jumpTarget c st set with
        | none => .missingJump
        | some (maxOrd, jumpTarg) =>
          if jumpTarg = 0 then .wait
          else
            match st.jumpMessage jumpTarg with
            | none => .missingJump
            | some target => .jump set maxOrd target

/-- The shares of the recovery set, each with the pending state it belongs to. -/
def pendingOf (st : Node D) (set : Bitmap) (i : Nat) : List (Option PendingState × PendingShare) :=
  if set.isSet i then (st.pendingShares i).map fun pss => (st.pendingState i, pss) else []

/-- The loop over the shares: what it processes, and the fault it ends in. -/
def applyShares : List (Option PendingState × PendingShare) → List PendingShare × Option Fault
  | [] => ([], none)
  | (none, _) :: _ => ([], some .missingPendingState)
  | (some psm, pss) :: rest =>
    if 0 < pss.index ∧ pss.index ≤ psm.totalShares then
      (pss :: (applyShares rest).1, (applyShares rest).2)
    else ([], some .shareIndex)

/-- The second half of `PR_Try_To_Complete_Recovery`. -/
def adoptJump (st : Node D) (set : Bitmap) (maxOrd : Nat) (target : Jump D) : Node D :=
  let st := { st with completeRecoveryState := true }
  if st.hasProposal then st.crash .secondProposal
  else if st.hasCertificate then st.crash .secondCertificate
  else
    let applied := applyShares ((List.range' 1 c.numServers).flatMap (pendingOf st set))
    { st with
      hasProposal := true
      hasCertificate := true
      installed := some (maxOrd, target)
      processed := applied.1
      fault := applied.2 }

/-- `PR_Try_To_Complete_Recovery`. -/
def tryToCompleteRecovery (st : Node D) (recentReplica : Nat) : Node D :=
  match selectJump c st recentReplica with
  | .wait => st
  | .missingJump => st.crash .missingJump
  | .jump set maxOrd target => adoptJump c st set maxOrd target

/-- The counter goes up. -/
def Node.count (st : Node D) : Node D :=
  { st with completeRecoveryStateCount := st.completeRecoveryStateCount + 1 }

/-- The lines the three handlers end in. -/
def countRecoveryState (st : Node D) (sender : Nat) : Node D :=
  if st.completePendingState sender then
    match st.jumpMessage sender with
    | none => st
    | some jm =>
      match st.pendingState sender with
      | none => st.crash .missingPendingState
      | some psm =>
        if psm.seqNum ≠ jm.seqNum then st
        else if c.quorum ≤ st.count.completeRecoveryStateCount then
          tryToCompleteRecovery c st.count sender
        else st.count
  else st

/-- `PR_Process_Jump`. -/
def processJump (st : Node D) (sender : Nat) (jm : Jump D) : Node D :=
  if st.completeRecoveryState then st
  else if st.status ≠ .recovery then st
  else
    match st.catchupRequest with
    | none => st
    | some nonce =>
      if jm.ackedNonce ≠ nonce then st
      else if (st.jumpMessage sender).isSome then st
      else countRecoveryState c (st.storeJump sender jm) sender

/-- `PR_Process_Pending_State`. -/
def processPendingState (st : Node D) (sender : Nat) (psm : PendingState) : Node D :=
  if st.completeRecoveryState then st
  else
    match st.catchupRequest with
    | none => st
    | some nonce =>
      if psm.ackedNonce ≠ nonce then st
      else if (st.pendingState sender).isSome then st
      else countRecoveryState c (checkCompletePendingState (st.storePendingState sender psm) sender) sender

/-- `PR_Process_Pending_Share`. -/
def processPendingShare (st : Node D) (sender : Nat) (pss : PendingShare) : Node D :=
  if st.completeRecoveryState then st
  else
    match st.catchupRequest with
    | none => st
    | some nonce =>
      if pss.ackedNonce ≠ nonce then st
      else if pss.type ≠ .poRequest ∧ pss.type ≠ .prePrepare then st
      else if st.hasShare sender pss.index then st
      else countRecoveryState c (checkCompletePendingState (st.storePendingShare sender pss) sender) sender

/-- `VAL_Validate_Incarnation` for these messages: a share has to be of the incarnation the
jump of its sender names. -/
def validateIncarnation (st : Node D) (sender : Nat) : Msg D → Bool
  | .pendingShare pss =>
    match st.jumpMessage sender with
    | none => false
    | some jm => decide (pss.incarnation = jm.installedIncarn (sender - 1))
  | _ => true

/-- `PROCESS_Message` for these messages. `CATCH_Process_Jump` passes a jump on while the
server recovers, and otherwise does nothing to this state. -/
def process (st : Node D) (sender : Nat) : Msg D → Node D
  | .jump jm =>
    if st.status = .recovery ∧ st.completeRecoveryState = false then processJump c st sender jm else st
  | .pendingState psm => processPendingState c st sender psm
  | .pendingShare pss => processPendingShare c st sender pss

/-- What can happen to a server: a message arrives, or the rest of the program runs. -/
inductive Input (D : Type)
  | msg (sender : Nat) (mess : Msg D)
  | elsewhere (a : Around)

/-- The validator lets a message through to its handler. -/
def admits (st : Node D) (sender : Nat) (mess : Msg D) : Bool :=
  decide (1 ≤ sender ∧ sender ≤ c.numServers) && statePermitsMessage st.status mess.type &&
    validateIncarnation st sender mess

/-- One step of a server that is still there. -/
def step (st : Node D) (x : Input D) : Node D :=
  if st.fault.isSome then st
  else
    match x with
    | .msg sender mess => if admits c st sender mess then process c st sender mess else st
    | .elsewhere a => { st with toAround := a }

/-- A server that handles one input after the other. -/
def run (st : Node D) (xs : List (Input D)) : Node D := xs.foldl (step c) st

end Code

/-! ## What should hold -/

section Soundness

variable {D : Type} [DecidableEq D] (c : Config)

/-- `2f + k + 1` servers sent a jump with the digest and a pending state that is complete. -/
def Backed (st : Node D) (digest : D) : Prop :=
  c.quorum ≤ tally c.numServers fun i => st.jumpsTo digest i && st.completePendingState i

/-- The counter counts the complete pending states, a jump adopted is backed, and the
pending state of a server that sent none is not looked into. -/
structure Sound (st : Node D) : Prop where
  count : st.completeRecoveryStateCount = tally c.numServers st.completePendingState
  backed : ∀ maxOrd jm, st.installed = some (maxOrd, jm) → Backed c st jm.proposalDigest
  present : st.fault ≠ some .missingPendingState

/-- The jump of a server and its pending state are for the same ordinal. -/
def Node.Matches (st : Node D) (i : Nat) : Prop :=
  ∃ psm jm, st.pendingState i = some psm ∧ st.jumpMessage i = some jm ∧ psm.seqNum = jm.seqNum

/-- Of every server up to `n` in the set that sent shares there is the pending state,
unless an assertion about the shares of an earlier one fails first. -/
def SharesPresent (st : Node D) (set : Bitmap) (n : Nat) : Prop :=
  ∀ i, 1 ≤ i → i ≤ n → set.isSet i = true → st.pendingState i = none → st.pendingShares i ≠ [] →
    ∃ j, 1 ≤ j ∧ j < i ∧ set.isSet j = true ∧
      ∃ psm, st.pendingState j = some psm ∧
        ∃ pss ∈ st.pendingShares j, ¬(0 < pss.index ∧ pss.index ≤ psm.totalShares)

/-- Nothing of this kind is stored yet. -/
def Node.isNew (st : Node D) (sender : Nat) : Msg D → Bool
  | .jump _ => (st.jumpMessage sender).isNone
  | .pendingState _ => (st.pendingState sender).isNone
  | .pendingShare pss =>
    decide (pss.type = .poRequest ∨ pss.type = .prePrepare) && !st.hasShare sender pss.index

/-- What the handlers store before they count. -/
def Node.store (st : Node D) (sender : Nat) : Msg D → Node D
  | .jump jm => st.storeJump sender jm
  | .pendingState psm => checkCompletePendingState (st.storePendingState sender psm) sender
  | .pendingShare pss => checkCompletePendingState (st.storePendingShare sender pss) sender

/-- The message is one a handler stores. -/
def Accepts (st : Node D) (sender : Nat) (mess : Msg D) : Prop :=
  st.fault = none ∧ admits c st sender mess = true ∧ st.status = .recovery ∧
    st.completeRecoveryState = false ∧ st.catchupRequest = some mess.ackedNonce ∧
    st.isNew sender mess = true

/-- A message that is stored comes from a server whose pending state was not complete. If
it completes the state, the jump is there and for the same ordinal; and if that is enough
to adopt a jump, the jump is backed and the pending states to be looked into are there. -/
structure Safe (st : Node D) (sender : Nat) (mess : Msg D) : Prop where
  once : st.completePendingState sender = false
  found : (st.store sender mess).completePendingState sender = true → (st.store sender mess).Matches sender
  enough : (st.store sender mess).completePendingState sender = true →
    ∀ set maxOrd target, selectJump c (st.store sender mess).count sender = .jump set maxOrd target →
      st.hasProposal = false → st.hasCertificate = false →
      Backed c (st.store sender mess) target.proposalDigest ∧ SharesPresent (st.store sender mess) set c.numServers

end Soundness

/-! ## The loop over the shares -/

section Shares

variable {D : Type} {c : Config} {st : Node D} {set : Bitmap}

theorem SharesPresent.mono {m n : Nat} (h : SharesPresent st set n) (hle : m ≤ n) : SharesPresent st set m :=
  fun i h1 hi => h i h1 (hi.trans hle)

end Shares

end Spire.Recovery
