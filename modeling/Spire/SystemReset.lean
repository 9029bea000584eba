import Spire.Replay
import Spire.Bitmap
import Spire.Lib.Network

/-!
# System reset

`proactive_recovery.c`: how servers that all start at once agree on who takes part. Each
server signs a share; the leader proposes the shares it has; proposals are prepared and
committed as in ordering, and the shares of a committed proposal become the membership.
A leader that is too slow is replaced by a view change of the protocol's own, in which
a server reports the prepare certificate of the view it leaves, and the new leader names
the reports that the new view starts from.

The state of a server is what these handlers read and write. The event queue is two
flags, one for each function that is put in it. Reset view-change messages travel by
reliable broadcast and are also taken from the network as they are, so they are handled
whenever they are in the network. Shares that are passed on to the leader are in the
network already.

History variables record what the server proposed, accepted, committed, reported and
executed, and what every completed view change carried over. `halted` says which assertion
has failed.
-/

namespace Spire.Reset

open Spire.Lib Spire.Replay

variable {D : Type}

/-! ## Messages -/

/-- `reset_share_message`. -/
structure ResetShare where
  view : Nat
  nonce : Nat
  key : Bytes
deriving DecidableEq, Repr

/-- `reset_proposal_message` with the shares that follow it. -/
structure ResetProposal where
  view : Nat
  numShares : Nat
  shares : List (Signed ResetShare)
deriving DecidableEq, Repr

/-- `reset_prepare_message` and `reset_commit_message`, which have the same fields. -/
structure ResetVouch (D : Type) where
  view : Nat
  digest : D
deriving DecidableEq, Repr

/-- `reset_newleader_message`. -/
structure NewLeader where
  newView : Nat
deriving DecidableEq, Repr

/-- `reset_newleaderproof_message` with the messages that follow it. -/
structure NewLeaderProof where
  newView : Nat
  newLeaders : List (Signed NewLeader)
deriving DecidableEq, Repr

/-- `reset_viewchange_message` with the certificate that follows it, if it contains a
proposal: the proposal and the Prepares for it. -/
structure ViewChange (D : Type) where
  tag : RbTag
  certificate : Option (Signed ResetProposal × List (Signed (ResetVouch D)))
deriving DecidableEq

/-- `reset_newview_message`. -/
structure NewView where
  tag : RbTag
  list : Bitmap
deriving DecidableEq

/-- `reset_certificate_message` with the proposal and the Commits that follow it. -/
structure ResetCertificate (D : Type) where
  view : Nat
  proposal : Signed ResetProposal
  commits : List (Signed (ResetVouch D))
deriving DecidableEq

/-- The messages of a reset. -/
inductive Msg (D : Type)
  | share (m : Signed ResetShare)
  | proposal (m : Signed ResetProposal)
  | prepare (m : Signed (ResetVouch D))
  | commit (m : Signed (ResetVouch D))
  | newLeader (m : Signed NewLeader)
  | newLeaderProof (m : Signed NewLeaderProof)
  | viewChange (m : Signed (ViewChange D))
  | newView (m : Signed NewView)
  | certificate (m : Signed (ResetCertificate D))
deriving DecidableEq

namespace Msg

/-- Whose signature a message bears. -/
def signer : Msg D → Nat
  | .share m => m.machineId
  | .proposal m => m.machineId
  | .prepare m => m.machineId
  | .commit m => m.machineId
  | .newLeader m => m.machineId
  | .newLeaderProof m => m.machineId
  | .viewChange m => m.machineId
  | .newView m => m.machineId
  | .certificate m => m.machineId

/-- The signed messages inside a proposal. -/
def ofProposal (m : Signed ResetProposal) : List (Msg D) := .proposal m :: m.body.shares.map .share

/-- The signed messages a message consists of, itself and those inside it. -/
def parts : Msg D → List (Msg D)
  | .proposal m => ofProposal m
  | .newLeaderProof m => .newLeaderProof m :: m.body.newLeaders.map .newLeader
  | .viewChange m => .viewChange m ::
      m.body.certificate.elim [] fun cert => ofProposal cert.1 ++ cert.2.map .prepare
  | .certificate m => .certificate m :: (ofProposal m.body.proposal ++ m.body.commits.map .commit)
  | m => [m]

end Msg

/-- `OPENSSL_RSA_Make_Digest` on the content of a proposal. -/
structure Params (D : Type) where
  config : Config
  digest : ResetProposal → D

/-! ## State -/

/-- `recovery_status` of the server itself. -/
inductive RecoveryStatus
  | startup | reset | recovery | normal
deriving DecidableEq, Repr

/-- The assertions of the reset protocol, and the dereference of a missing message. -/
inductive Abort
  | certificateMismatch | missingViewChange | leaderHasProposal
  | duplicateViewChange | secondCertificate | tooFewPrepares | tooFewCommits
deriving DecidableEq, Repr

/-- `DATA.PR` and `DATA.View`. `delayQueued` and `rotateQueued` say whether
`PR_Post_Shares_Delay` and `PR_Rotate_Reset_Leader` are in the event queue. -/
structure Node (D : Type) where
  view : Nat
  incarnation : Nat
  status : RecoveryStatus
  startupFinished : Bool
  share : Nat → Option (Signed ResetShare)
  shareCount : Nat
  proposal : Option (Signed ResetProposal)
  minWaitDone : Bool
  prepare : Nat → Option (Signed (ResetVouch D))
  prepareCount : Nat
  sentPrepare : Bool
  commit : Nat → Option (Signed (ResetVouch D))
  commitCount : Nat
  sentCommit : Bool
  newLeader : Nat → Option (Signed NewLeader)
  viewChange : Nat → Option (Signed (ViewChange D))
  viewChangeBitmap : Bitmap
  newView : Option (Signed NewView)
  carryOver : Option (Signed ResetProposal)
  collected : Bool
  certificate : Option (Signed (ResetCertificate D))
  proposalDigest : Option D
  rbSeq : Nat
  delayQueued : Bool
  rotateQueued : Bool
  halted : Option Abort
  proposed : List (Signed ResetProposal)
  accepted : List ResetProposal
  committed : List (ResetVouch D)
  reported : List (Signed (ViewChange D))
  executed : List ResetProposal
  completions : List (Nat × Option (Signed ResetProposal))

namespace Node

variable (st : Node D)

def halt (a : Abort) : Node D := { st with halted := some a }

/-- `PR_Clear_Reset_Data_Structures`. -/
def clearReset : Node D :=
  { st with
    prepare := fun _ => none, commit := fun _ => none, newLeader := fun _ => none
    viewChange := fun _ => none, proposal := none, newView := none, carryOver := none
    minWaitDone := false, prepareCount := 0, sentPrepare := false, commitCount := 0
    sentCommit := false, viewChangeBitmap := 0#32, collected := false }

/-- A share is stored, and counted when it is the first of its server. -/
def storeShare (mess : Signed ResetShare) : Node D :=
  { st with
    share := Function.update st.share mess.machineId (some mess)
    shareCount := if (st.share mess.machineId).isSome then st.shareCount else st.shareCount + 1 }

end Node

section Handlers

variable [DecidableEq D] (p : Params D)

/-! ## Constructing messages -/

/-- The header of a message a server constructs. -/
def newHeader (me : Nat) (st : Node D) (type : PacketType) (len counter : Nat) : Header :=
  { sig := [], mtNum := 0, mtIndex := 0, siteId := 0, machineId := me, len, type := type.code,
    incarnation := st.incarnation, monotonicCounter := counter }

/-- `PR_Construct_Reset_Share`, with the nonce and the key of the server's
`NEW_INCARNATION`. -/
def constructShare (me : Nat) (st : Node D) (nonce : Nat) (key : Bytes) : Signed ResetShare :=
  { header := newHeader me st .resetShare 28 1, body := { view := st.view, nonce, key } }

/-- `PR_Construct_Reset_Proposal`. -/
def constructProposal (me : Nat) (st : Node D) : Signed ResetProposal :=
  let shares := (List.range' 1 p.config.numServers).filterMap st.share
  { header := newHeader me st .resetProposal (8 + 188 * shares.length) 1
    body := { view := st.view, numShares := st.shareCount, shares } }

/-- `PR_Construct_Reset_Prepare` and `PR_Construct_Reset_Commit` but for the type. -/
def constructVouch (me : Nat) (st : Node D) (type : PacketType) (proposal : Signed ResetProposal) :
    Signed (ResetVouch D) :=
  { header := newHeader me st type 24 1, body := { view := st.view, digest := p.digest proposal.body } }

/-- `PR_Construct_Reset_Prepare`. -/
def constructPrepare (me : Nat) (st : Node D) (proposal : Signed ResetProposal) : Signed (ResetVouch D) :=
  constructVouch p me st .resetPrepare proposal

/-- `PR_Construct_Reset_Commit`. -/
def constructCommit (me : Nat) (st : Node D) (proposal : Signed ResetProposal) : Signed (ResetVouch D) :=
  constructVouch p me st .resetCommit proposal

/-- `PR_Construct_Reset_NewLeader`. -/
def constructNewLeader (me : Nat) (st : Node D) : Signed NewLeader :=
  { header := newHeader me st .resetNewLeader 4 1, body := { newView := st.view + 1 } }

/-- `PR_Construct_Reset_NewLeaderProof`, in a view just entered. -/
def constructNewLeaderProof (me : Nat) (st : Node D) : Signed NewLeaderProof :=
  let newLeaders := ((List.range' 1 p.config.numServers).filterMap st.newLeader).filter
    fun m => decide (m.body.newView = st.view)
  { header := newHeader me st .resetNewLeaderProof (4 + 164 * newLeaders.length) 1
    body := { newView := st.view, newLeaders } }

/-- Whether a stored Prepare or Commit is for the proposal. -/
def vouching (stored : Nat → Option (Signed (ResetVouch D))) (proposal : ResetProposal) (i : Nat) : Bool :=
  (stored i).any fun m => decide (m.body.view = proposal.view ∧ m.body.digest = p.digest proposal)

/-- `PR_Construct_Reset_ViewChange`, in a view just entered: the certificate of the view
the server leaves, if it sent a Commit in it. Missing where the source asserts that there
are enough Prepares. -/
def constructViewChange (me : Nat) (st : Node D) : Option (Signed (ViewChange D)) :=
  let tag := { machineId := me, view := st.view, seqNum := st.rbSeq }
  let header := newHeader me st .resetViewChange 16 1
  if st.sentCommit = false then some { header, body := { tag, certificate := none } }
  else
    st.proposal.bind fun proposal =>
      let prepares := (((List.range' 1 p.config.numServers).filterMap st.prepare).filter
        fun m => decide (m.body.digest = p.digest proposal.body)).take (2 * p.config.F + p.config.K)
      if prepares.length = 2 * p.config.F + p.config.K then
        some { header, body := { tag, certificate := some (proposal, prepares) } }
      else none

/-- `PR_Construct_Reset_NewView`. -/
def constructNewView (me : Nat) (st : Node D) : Signed NewView :=
  { header := newHeader me st .resetNewView 16 1
    body := { tag := { machineId := me, view := st.view, seqNum := st.rbSeq }, list := st.viewChangeBitmap } }

/-- `PR_Construct_Reset_Certificate`: the proposal and the first `2f + k + 1` Commits,
whatever they are for. Missing where the source asserts that there are as many. -/
def constructCertificate (me : Nat) (st : Node D) (proposal : Signed ResetProposal) :
    Option (Signed (ResetCertificate D)) :=
  let commits := ((List.range' 1 p.config.numServers).filterMap st.commit).take p.config.quorum
  if commits.length = p.config.quorum then
    some { header := newHeader me st .resetCert 4 1, body := { view := st.view, proposal, commits } }
  else none

/-! ## Shares -/

/-- `PR_Process_Reset_Share`. -/
def processShare (me : Nat) (st : Node D) (mess : Signed ResetShare) : Node D :=
  if 1 < st.view ∧ me ≠ p.config.leaderOfView st.view then st
  else if (st.share mess.machineId).any fun m => decide (mess.header.incarnation ≤ m.header.incarnation) then st
  else
    let st := st.storeShare mess
    if st.shareCount ≠ p.config.quorum ∨ st.delayQueued = true then st
    else { st with rotateQueued := true, delayQueued := true }

/-! ## Proposals -/

/-- The proposal contains the server's own share as it has it. -/
def validForMe (me : Nat) (st : Node D) (proposal : ResetProposal) : Bool :=
  (st.share me).any fun own => proposal.shares.any fun m =>
    decide (m.machineId = me ∧ m.header.incarnation = own.header.incarnation ∧ m.body.nonce = own.body.nonce ∧
      m.body.key = own.body.key)

/-- The servers whose stored share the first shares of a proposal cover, each marked
once. -/
def markShares (st : Node D) : List (Signed ResetShare) → List Nat → List Nat
  | [], marked => marked
  | m :: shares, marked =>
    if (st.share m.machineId).any (fun own => decide (own.header.incarnation ≤ m.header.incarnation)) ∧
        m.machineId ∉ marked then
      markShares st shares (m.machineId :: marked)
    else markShares st shares marked

/-- The proposal covers what the server knows, or is the one carried over. -/
def coversMe (st : Node D) (proposal : ResetProposal) : Bool :=
  match st.carryOver with
  | none => decide (st.shareCount ≤ proposal.numShares) &&
      decide ((markShares st proposal.shares []).length = st.shareCount)
  | some carried => decide (carried.body.shares = proposal.shares)

/-- The last loop of `PR_Process_Reset_Proposal`: shares that are no older than those
stored are taken over. -/
def adoptShares (me : Nat) (st : Node D) (shares : List (Signed ResetShare)) : Node D :=
  shares.foldl (fun st m =>
    let st := if (st.share m.machineId).any fun own => decide (m.header.incarnation < own.header.incarnation)
      then st else st.storeShare m
    if m.machineId = me then { st with status := .reset } else st) st

/-- `PR_Process_Reset_Proposal` on the stored proposal. -/
def processStored (me : Nat) (st : Node D) : Node D × List (Msg D) :=
  match st.proposal with
  | none => (st, [])
  | some proposal =>
    if st.share me = none then (st, [])
    else if st.delayQueued = true then (st, [])
    else if 1 < st.view ∧ st.collected = false then (st, [])
    else if coversMe st proposal.body = false then (st, [])
    else
      let st := adoptShares me st proposal.body.shares
      if me ≠ p.config.leaderOfView st.view ∧ st.sentPrepare = false then
        ({ st with sentPrepare := true, accepted := proposal.body :: st.accepted },
          [.prepare (constructPrepare p me st proposal)])
      else (st, [])

/-- `PR_Process_Reset_Proposal` on a message. -/
def processProposal (me : Nat) (st : Node D) (mess : Signed ResetProposal) : Node D × List (Msg D) :=
  if st.share me = none then (st, [])
  else if st.proposal.isSome then (st, [])
  else if mess.machineId ≠ p.config.leaderOfView st.view then (st, [])
  else if mess.body.view ≠ st.view then (st, [])
  else if validForMe me st mess.body = false then (st, [])
  else processStored p me { st with proposal := some mess }

/-- `PR_Post_Shares_Delay`, when it is taken from the event queue. -/
def postSharesDelay (me : Nat) (st : Node D) : Node D × List (Msg D) :=
  let st := { st with delayQueued := false }
  let st := if st.view = 1 ∧ (st.share me).isSome = true then { st with status := .reset } else st
  if me = p.config.leaderOfView st.view then
    let proposal := constructProposal p me st
    ({ st with proposal := some proposal, proposed := proposal :: st.proposed }, [.proposal proposal])
  else processStored p me { st with minWaitDone := true }

/-! ## Prepares and Commits -/

/-- `PR_Process_Reset_Prepare`. -/
def processPrepare (me : Nat) (st : Node D) (mess : Signed (ResetVouch D)) : Node D × List (Msg D) :=
  if mess.body.view ≠ st.view then (st, [])
  else if (st.prepare mess.machineId).isSome then (st, [])
  else
    let st :=
      { st with
        prepare := Function.update st.prepare mess.machineId (some mess)
        prepareCount := st.prepareCount + 1 }
    match st.proposal with
    | none => (st, [])
    | some proposal =>
      if st.prepareCount < 2 * p.config.F + p.config.K then (st, [])
      else if st.sentCommit then (st, [])
      else if 2 * p.config.F + p.config.K ≤ tally p.config.numServers (vouching p st.prepare proposal.body) then
        ({ st with sentCommit := true, committed := (constructCommit p me st proposal).body :: st.committed },
          [.commit (constructCommit p me st proposal)])
      else (st, [])

/-- `PR_Execute_Reset_Proposal`: of what it installs, the view and the status of the
server itself. -/
def executeProposal (me : Nat) (st : Node D) (proposal : ResetProposal) : Node D :=
  { st with
    startupFinished := true, rotateQueued := false, delayQueued := false
    view := max st.view proposal.view
    status := if proposal.shares.any fun m => decide (m.machineId = me) then .normal else st.status
    executed := proposal :: st.executed }

/-- `PR_Process_Reset_Commit`. -/
def processCommit (me : Nat) (st : Node D) (mess : Signed (ResetVouch D)) : Node D × List (Msg D) :=
  if mess.body.view ≠ st.view then (st, [])
  else if (st.commit mess.machineId).isSome then (st, [])
  else
    let st :=
      { st with
        commit := Function.update st.commit mess.machineId (some mess)
        commitCount := st.commitCount + 1 }
    match st.proposal with
    | none => (st, [])
    | some proposal =>
      if st.commitCount < p.config.quorum then (st, [])
      else if st.startupFinished then (st, [])
      else if tally p.config.numServers (vouching p st.commit proposal.body) < p.config.quorum then (st, [])
      else if st.certificate.isSome then (st.halt .secondCertificate, [])
      else
        let st := { st with proposalDigest := some (p.digest proposal.body) }
        match constructCertificate p me st proposal with
        | none => (st.halt .tooFewCommits, [])
        | some cert => (executeProposal me { st with certificate := some cert } proposal.body, [.certificate cert])

/-! ## View changes -/

/-- `PR_Start_View_Change`, in a view just entered. -/
def startViewChange (me : Nat) (st : Node D) : Node D × List (Msg D) :=
  let st := { st with rbSeq := 1 }
  match constructViewChange p me st with
  | none => (st.halt .tooFewPrepares, [])
  | some vc =>
    ({ st.clearReset with rbSeq := 2, rotateQueued := true, reported := vc :: st.reported }, [.viewChange vc])

/-- The stored new-leader messages for a view. -/
def supporters (st : Node D) (view : Nat) : Nat :=
  tally p.config.numServers fun i => (st.newLeader i).any fun m => decide (m.body.newView = view)

/-- `PR_Process_Reset_NewLeader`. -/
def processNewLeader (me : Nat) (st : Node D) (mess : Signed NewLeader) : Node D × List (Msg D) :=
  if mess.body.newView ≤ st.view then (st, [])
  else if (st.newLeader mess.machineId).any fun m => decide (mess.body.newView ≤ m.body.newView) then (st, [])
  else
    let st := { st with newLeader := Function.update st.newLeader mess.machineId (some mess) }
    if supporters p st mess.body.newView ≠ p.config.quorum then (st, [])
    else
      let st := { st with view := mess.body.newView }
      let r := startViewChange p me st
      (r.1, .newLeaderProof (constructNewLeaderProof p me st) :: r.2)

/-- `PR_Process_Reset_NewLeaderProof`. The proof goes on under the server's own name. -/
def processNewLeaderProof (me : Nat) (st : Node D) (mess : Signed NewLeaderProof) : Node D × List (Msg D) :=
  if mess.body.newView ≤ st.view then (st, [])
  else if mess.body.newLeaders.any fun m => decide (m.body.newView ≠ mess.body.newView) then (st, [])
  else
    let st := { st with view := mess.body.newView }
    let r := startViewChange p me st
    (r.1,
      .newLeaderProof { header := newHeader me st .resetNewLeaderProof mess.header.len 0, body := mess.body } :: r.2)

/-- `PR_Rotate_Reset_Leader`, when it is taken from the event queue. -/
def rotateLeader (me : Nat) (st : Node D) : Node D × List (Msg D) :=
  let r := processNewLeader p me { st with rotateQueued := false } (constructNewLeader me st)
  (r.1, r.2 ++ ((r.1.newLeader me).map Msg.newLeader).toList)

/-- One round of the loop of `PR_Check_Complete_VC_State`: the proposal of the highest
view so far. Of two for one view the source asserts that they are the same message. -/
def carryMore (carried : Option (Signed ResetProposal)) (vc : ViewChange D) :
    Option (Option (Signed ResetProposal)) :=
  match vc.certificate, carried with
  | none, _ => some carried
  | some (rp, _), none => some (some rp)
  | some (rp, _), some stored =>
    if rp.body.view < stored.body.view then some (some stored)
    else if rp.body.view = stored.body.view then if rp = stored then some (some stored) else none
    else some (some rp)

/-- The loop of `PR_Check_Complete_VC_State` over the servers of the list. -/
def carryOver (viewChange : Nat → Option (Signed (ViewChange D))) :
    List Nat → Option (Signed ResetProposal) → Except Abort (Option (Signed ResetProposal))
  | [], carried => .ok carried
  | i :: listed, carried =>
    match viewChange i with
    | none => .error .missingViewChange
    | some vc =>
      match carryMore carried vc.body with
      | none => .error .certificateMismatch
      | some carried => carryOver viewChange listed carried

/-- The servers on a list, in the order of the loop. -/
def listed (list : Bitmap) : List Nat := (List.range' 1 p.config.numServers).filter list.isSet

/-- The proposal that the leader of a view takes over from a certificate. -/
def takeOver (me : Nat) (st : Node D) (carried : Signed ResetProposal) : Signed ResetProposal :=
  { header :=
      { carried.header with machineId := me, incarnation := st.incarnation, monotonicCounter := 0 }
    body := { carried.body with view := st.view } }

/-- The completing branch of `PR_Check_Complete_VC_State`, with what is carried over. -/
def complete (me : Nat) (st : Node D) (carried : Option (Signed ResetProposal)) : Node D × List (Msg D) :=
  let st :=
    { st with
      carryOver := carried, collected := true, minWaitDone := true
      completions := (st.view, carried) :: st.completions }
  if me ≠ p.config.leaderOfView st.view then processStored p me st
  else
    match carried with
    | none => ({ st with delayQueued := true }, [])
    | some carried =>
      if st.proposal.isSome then (st.halt .leaderHasProposal, [])
      else
        let proposal := takeOver me st carried
        ({ st with proposal := some proposal, proposed := proposal :: st.proposed }, [.proposal proposal])

/-- `PR_Check_Complete_VC_State`. -/
def checkCompleteVcState (me : Nat) (st : Node D) : Node D × List (Msg D) :=
  match st.newView with
  | none => (st, [])
  | some newView =>
    if newView.body.list.isSuperset st.viewChangeBitmap = false then (st, [])
    else
      match carryOver st.viewChange (listed p newView.body.list) st.carryOver with
      | .error a => (st.halt a, [])
      | .ok carried => complete p me st carried

/-- `PR_Process_Reset_ViewChange`. -/
def processViewChange (me : Nat) (st : Node D) (mess : Signed (ViewChange D)) : Node D × List (Msg D) :=
  if mess.body.tag.view ≠ st.view then (st, [])
  else if mess.body.tag.seqNum ≠ 1 then (st, [])
  else if (st.viewChange mess.body.tag.machineId).isSome then (st.halt .duplicateViewChange, [])
  else
    let st :=
      { st with
        viewChange := Function.update st.viewChange mess.body.tag.machineId (some mess)
        viewChangeBitmap := st.viewChangeBitmap.set mess.body.tag.machineId }
    if me = p.config.leaderOfView st.view ∧ st.viewChangeBitmap.numBitsSet p.config = p.config.quorum then
      let r := checkCompleteVcState p me { st with rbSeq := st.rbSeq + 1 }
      (r.1, .newView (constructNewView me st) :: r.2)
    else checkCompleteVcState p me st

/-- `PR_Process_Reset_NewView`. -/
def processNewView (me : Nat) (st : Node D) (mess : Signed NewView) : Node D × List (Msg D) :=
  if mess.body.tag.view ≠ st.view then (st, [])
  else if mess.body.tag.machineId ≠ p.config.leaderOfView st.view then (st, [])
  else if st.newView.isSome then (st, [])
  else checkCompleteVcState p me { st with newView := some mess }

/-! ## The certificate of a reset -/

/-- `PR_Process_Reset_Certificate`. The certificate goes on under the server's own name. -/
def processCertificate (me : Nat) (st : Node D) (mess : Signed (ResetCertificate D)) : Node D × List (Msg D) :=
  if mess.machineId = me then (st, [])
  else if st.share me = none then (st, [])
  else if validForMe me st mess.body.proposal.body = false then (st, [])
  else
    let st :=
      { st with
        view := mess.body.view, proposal := some mess.body.proposal
        proposalDigest := some (p.digest mess.body.proposal.body) }
    if st.certificate.isSome then (st.halt .secondCertificate, [])
    else
      let cert : Signed (ResetCertificate D) :=
        { header := newHeader me st .resetCert mess.header.len 0, body := mess.body }
      (executeProposal me { st with certificate := some cert } mess.body.proposal.body, [.certificate cert])

/-! ## The handler -/

/-- What a server does without a message: it signs its share, or a function is taken from
the event queue. -/
inductive Action
  | share (nonce : Nat) (key : Bytes)
  | postSharesDelay
  | rotateLeader
deriving DecidableEq, Repr

/-- `VAL_State_Permits_Message`, for the messages of a reset. -/
def permits : RecoveryStatus → Msg D → Bool
  | .startup, .share _ | .startup, .proposal _ | .startup, .certificate _ => true
  | .reset, _ => true
  | _, _ => false

/-- `VAL_Validate_Reset_Proposal`, with the check on the sender. -/
def validProposal (m : Signed ResetProposal) : Bool :=
  decide (m.machineId ∈ p.config.servers) &&
  decide (p.config.quorum ≤ m.body.numShares ∧ m.body.numShares ≤ p.config.numServers) &&
  decide (m.body.shares.length = m.body.numShares) &&
  m.body.shares.all fun s => decide (s.machineId ∈ p.config.servers)

/-- The check on what vouches for a proposal in `VAL_Validate_Reset_ViewChange` and
`VAL_Validate_Reset_Certificate`. Nothing compares the senders. -/
def validVouches (count : Nat) (proposal : ResetProposal) (vouches : List (Signed (ResetVouch D))) : Bool :=
  decide (vouches.length = count) && vouches.all fun m => decide (m.machineId ∈ p.config.servers) &&
    decide (m.body.view = proposal.view ∧ m.body.digest = p.digest proposal)

/-- The checks of `validate.c` a message passes before its handler runs, signatures
apart. -/
def validated : Msg D → Bool
  | .share m => decide (m.machineId ∈ p.config.servers)
  | .proposal m => validProposal p m
  | .prepare m => decide (m.machineId ∈ p.config.servers)
  | .commit m => decide (m.machineId ∈ p.config.servers)
  | .newLeader m => decide (m.machineId ∈ p.config.servers)
  | .newLeaderProof m => decide (m.machineId ∈ p.config.servers) &&
      decide (m.body.newLeaders.length = p.config.quorum) &&
      m.body.newLeaders.all fun nl => decide (nl.machineId ∈ p.config.servers)
  | .viewChange m => decide (m.machineId ∈ p.config.servers) &&
      match m.body.certificate with
      | none => true
      | some (rp, prepares) => validProposal p rp &&
          validVouches p (2 * p.config.F + p.config.K) rp.body prepares
  | .newView m => decide (m.machineId ∈ p.config.servers)
  | .certificate m => decide (m.machineId ∈ p.config.servers) && validProposal p m.body.proposal &&
      validVouches p p.config.quorum m.body.proposal.body m.body.commits

/-- What a server does with a validated message. -/
def process (me : Nat) (st : Node D) : Msg D → Node D × List (Msg D)
  | .share m => (processShare p me st m, [])
  | .proposal m => processProposal p me st m
  | .prepare m => processPrepare p me st m
  | .commit m => processCommit p me st m
  | .newLeader m => processNewLeader p me st m
  | .newLeaderProof m => processNewLeaderProof p me st m
  | .viewChange m => processViewChange p me st m
  | .newView m => processNewView p me st m
  | .certificate m => processCertificate p me st m

def perform (me : Nat) (st : Node D) : Action → Node D × List (Msg D)
  | .share nonce key =>
    if st.status = .startup then (st, [.share (constructShare me st nonce key)]) else (st, [])
  | .postSharesDelay => if st.delayQueued then postSharesDelay p me st else (st, [])
  | .rotateLeader => if st.rotateQueued then rotateLeader p me st else (st, [])

/-- One step of a server. -/
def handle : Handler (Node D) (Msg D) Action := fun me st x =>
  if st.halted.isSome then (st, [])
  else
    match x with
    | .msg m => if permits st.status m && validated p m then process p me st m else (st, [])
    | .act a => perform p me st a

end Handlers

/-- `PR_Initialize_Data_Structure`. -/
def Node.boot (incarnation : Nat) : Node D :=
  { view := 1, incarnation, status := .startup, startupFinished := false, share := fun _ => none
    shareCount := 0, proposal := none, minWaitDone := false, prepare := fun _ => none, prepareCount := 0
    sentPrepare := false, commit := fun _ => none, commitCount := 0, sentCommit := false
    newLeader := fun _ => none, viewChange := fun _ => none, viewChangeBitmap := 0#32, newView := none
    carryOver := none, collected := false, certificate := none, proposalDigest := none, rbSeq := 1
    delayQueued := false, rotateQueued := false, halted := none, proposed := [], accepted := []
    committed := [], reported := [], executed := [], completions := [] }

/-- Nobody forges signatures: of what the adversary sends, the parts signed by correct
servers have been sent before. -/
def env [DecidableEq D] (d : Deployment) : Env (Msg D) where
  correct := d.correct
  forge sent m := !d.correct m.signer && m.parts.all fun part =>
    !d.correct part.signer || sent.any fun m' => decide (part ∈ m'.parts)

/-- Every server has just started. -/
def start (incarnations : Nat → Nat) : World (Node D) (Msg D) where
  node i := Node.boot (incarnations i)
  sent := []

end Spire.Reset
