import Spire.Merkle
import Spire.PreOrder

/-!
# Validation of messages

`validate.c`: what a server checks of the bytes of a message before it processes them.
`validateMessage` checks the header with `validateSignedMessage` and then the content
by its type; the validators of messages that carry others call it again. The recursion
is given a depth, so a message is accepted when it is at some depth.

Pointers are addresses. `DATA.PO.Nested_Ignore_Incarnation`, which validators set
around the messages they carry, is the argument `ignore`. Sums and differences of
sizes wrap where the source's types let them.
-/

namespace Spire

open Lib Lib.Reader Wire Merkle

/-- `VAL_SIG_TYPE_*`, as far as `VAL_Signature_Type` answers them. -/
inductive SigType
  | client | server | merkle | tpmServer | tpmMerkle | invalid
deriving DecidableEq, Repr

/-- `PR_STARTUP`, `PR_RESET`, `PR_RECOVERY` and `PR_NORMAL`. -/
inductive RecoveryStatus
  | startup | reset | recovery | normal
deriving DecidableEq, Repr

/-- What the validators read beside the message. -/
structure Receiver where
  config : Config
  /-- `VAR.My_Server_ID`. -/
  me : Nat
  /-- The server's own entry of `DATA.PR.recovery_status`. -/
  status : RecoveryStatus
  /-- `DATA.PR.installed_incarnations`. -/
  installedIncarnations : Nat → Nat
  /-- What the stored `DATA.PR.jump_message` of a server says of its own incarnation. -/
  jumpIncarnation : Nat → Option Nat
  crypto : Crypto
  /-- The bytes a local `complete_pre_prepare_message` happens to hold. -/
  stack : Memory

namespace Validate

/-- A difference of sizes, in 64 bits. -/
def sub64 (a b : Nat) : Nat := (a + 2 ^ 64 - b) % 2 ^ 64

/-- The values of an `int32u`. -/
def wrap32 (n : Nat) : Nat := n % 2 ^ 32

/-- `UTIL_Message_Size`. -/
def messageSize (mess : Nat) : Reader Nat := do
  let len ← SignedMessage.len.read mess
  let mtNum ← SignedMessage.mtNum.read mess
  let digests ← countDigests mtNum
  pure (wrap32 (SignedMessage.size + len + digests * digestSize))

/-- `VAL_State_Permits_Message`. -/
def statePermitsMessage : RecoveryStatus → PacketType → Bool
  | .startup, type =>
    match type with
    | .newIncarnation | .incarnationAck | .incarnationCert | .resetVote | .resetShare
    | .resetProposal | .resetCert => true
    | _ => false
  | .reset, type =>
    match type with
    | .rbInit | .rbEcho | .rbReady | .newIncarnation | .resetShare | .resetProposal
    | .resetPrepare | .resetCommit | .resetNewLeader | .resetNewLeaderProof | .resetViewChange
    | .resetNewView | .resetCert => true
    | _ => false
  | .recovery, type =>
    match type with
    | .poRequest | .poAck | .poAru | .prePrepare | .prepare | .commit | .ordCert | .poCert | .jump
    | .newIncarnation | .incarnationCert | .pendingState | .pendingShare | .update => true
    | _ => false
  | .normal, type =>
    match type with
    | .poRequest | .poAck | .poAru | .proofMatrix | .prePrepare | .prepare | .commit | .recon
    | .tatMeasure | .rttPing | .rttPong | .rttMeasure | .tatUb | .newLeader | .newLeaderProof
    | .rbInit | .rbEcho | .rbReady | .report | .pcSet | .vcList | .vcPartialSig | .vcProof | .replay
    | .replayPrepare | .replayCommit | .ordCert | .poCert | .catchupRequest | .jump
    | .newIncarnation | .incarnationCert | .update => true
    | _ => false

section Header

variable (R : Receiver)

/-- `VAL_Signature_Type`. -/
def signatureType (mess : Nat) : Reader SigType := do
  let senderId ← SignedMessage.machineId.read mess
  let type ← SignedMessage.type.read mess
  match PacketType.ofCode type with
  | some .update =>
    if 1 ≤ senderId ∧ senderId ≤ R.config.numServers then do
      let counter ← SignedMessage.monotonicCounter.read mess
      if 0 < counter then do
        let seqNum ← Update.seqNum.read (SignedMessage.content mess)
        pure (if seqNum = 1 then .tpmServer else .invalid)
      else pure .server
    else pure .client
  | some .poAru | some .newLeader | some .report | some .pcSet => pure .server
  | some .poRequest => do
    let counter ← SignedMessage.monotonicCounter.read mess
    if 0 < counter then do
      let seqNum ← PoRequest.seqNum.read (SignedMessage.content mess)
      pure (if seqNum = 1 then .tpmMerkle else .invalid)
    else pure .merkle
  | some .rbInit | some .rbEcho | some .rbReady => do
    let counter ← SignedMessage.monotonicCounter.read mess
    pure (if 0 < counter then .tpmMerkle else .merkle)
  | some .poAck | some .proofMatrix | some .recon | some .prePrepare | some .prepare | some .commit
  | some .rttPing | some .rttPong | some .rttMeasure | some .tatMeasure | some .tatUb
  | some .newLeaderProof | some .vcList | some .vcPartialSig | some .vcProof | some .replay
  | some .replayPrepare | some .replayCommit | some .poCert | some .ordCert
  | some .pendingShare => pure .merkle
  | some .resetNewLeader | some .resetViewChange | some .resetNewView => pure .tpmServer
  | some .catchupRequest | some .jump | some .newIncarnation | some .incarnationAck
  | some .incarnationCert | some .pendingState | some .resetVote | some .resetShare
  | some .resetProposal | some .resetPrepare | some .resetCommit | some .resetNewLeaderProof
  | some .resetCert => pure .tpmMerkle
  | _ => pure .invalid

/-- `VAL_Validate_Sender`. -/
def validateSender (sigType : SigType) (senderId : Nat) : Bool :=
  match sigType with
  | .server | .merkle | .tpmServer | .tpmMerkle =>
    decide (1 ≤ senderId ∧ senderId ≤ R.config.numServers)
  | .client => decide (1 ≤ senderId ∧ senderId ≤ numClients)
  | .invalid => false

/-- The type of update that carries a state transfer, `CLIENT_STATE_TRANSFER`. -/
def clientStateTransfer : Nat := 102

/-- `VAL_Validate_Incarnation`. -/
def validateIncarnation (sigType : SigType) (mess : Nat) : Reader Unit := do
  let type ← SignedMessage.type.read mess
  let machineId ← SignedMessage.machineId.read mess
  let incarnation ← SignedMessage.incarnation.read mess
  if type = PacketType.pendingShare.code then
    require (R.jumpIncarnation machineId = some incarnation)
  else do
    let transfer ← (if type = PacketType.update.code ∧ machineId = R.me then do
        let payload ← SignedMessage.type.read (SignedMessage.content mess + Update.size)
        pure (decide (payload = clientStateTransfer))
      else pure false)
    if transfer = true then pure ()
    else if sigType = .merkle ∨ sigType = .server then
      require (incarnation = R.installedIncarnations machineId)
    else pure ()

/-- `VAL_Is_Valid_Signature`. An update never has a Merkle signature, so `MT_Verify` is
not asked about one. -/
def isValidSignature (sigType : SigType) (senderId mess : Nat) : Reader Bool :=
  match sigType with
  | .merkle | .tpmMerkle => mtVerify R.crypto mess
  | .server | .tpmServer => do
    let digest ← messageDigest R.crypto mess
    let sig ← SignedMessage.sig.read mess
    pure (R.crypto.verifyServer senderId digest sig)
  | .client => do
    let digest ← messageDigest R.crypto mess
    let sig ← SignedMessage.sig.read mess
    pure (R.crypto.verifyClient senderId digest sig)
  | .invalid => pure false

/-- `VAL_Validate_Signed_Message`, which is always asked to verify the signature. -/
def validateSignedMessage (ignore : Bool) (mess numBytes : Nat) : Reader Unit := do
  require (SignedMessage.size ≤ numBytes)
  let type ← SignedMessage.type.read mess
  require (type ≠ PacketType.dummy.code ∧ type < PacketType.all.length)
  let mtNum ← SignedMessage.mtNum.read mess
  let mtIndex ← SignedMessage.mtIndex.read mess
  require (mtNum ≤ 256 ∧ mtIndex ≤ mtNum)
  let len ← SignedMessage.len.read mess
  let digests ← countDigests mtNum
  require (numBytes = len + SignedMessage.size + digests * digestSize)
  require (numBytes ≤ maxPacketSize)
  let sigType ← signatureType R mess
  require (sigType ≠ .invalid)
  let senderId ← SignedMessage.machineId.read mess
  require (validateSender R sigType senderId = true)
  (if ignore = true then pure () else validateIncarnation R sigType mess)
  let valid ← isValidSignature R sigType senderId mess
  require (valid = true)

end Header

/-! ## Contents without messages -/

section Contents

/-- The validators of contents of one size: `VAL_Validate_PO_ARU`, `VAL_Validate_New_Leader`
and those of the other fixed contents. -/
def exactSize (size numBytes : Nat) : Reader Unit := require (numBytes = size)

/-- `VAL_Validate_Update`. -/
def validateUpdate (numBytes : Nat) : Reader Unit :=
  require (Update.size ≤ numBytes ∧ numBytes ≤ Update.size + updateSize)

variable (R : Receiver)

/-- The parts of an aggregated acknowledgement. -/
def validateParts (c : Config) : Nat → Nat → Reader Unit
  | 0, _ => pure ()
  | k + 1, part => do
    let seqNum ← PoAckPart.seqNum.read part
    require (seqNum ≠ 0)
    let originator ← PoAckPart.originator.read part
    require (1 ≤ originator ∧ originator ≤ c.numServers)
    validateParts c k (part + PoAckPart.size)

/-- `VAL_Validate_PO_Ack`. -/
def validatePoAck (poAck numBytes : Nat) : Reader Unit := do
  require (PoAck.size R.config ≤ numBytes)
  let numParts ← PoAck.numAckParts.read poAck
  require (numBytes = wrap32 (PoAck.size R.config + numParts * PoAckPart.size))
  validateParts R.config numParts (poAck + PoAck.size R.config)

/-- `VAL_Validate_Prepare` and `VAL_Validate_Commit`. -/
def validateVouch (vouch numBytes : Nat) : Reader Unit := do
  require (numBytes = VouchMessage.size R.config)
  let seqNum ← VouchMessage.seqNum.read vouch
  require (seqNum ≠ 0)

/-- `VAL_Validate_Report`. -/
def validateReport (report numBytes : Nat) : Reader Unit := do
  require (numBytes = 20)
  let machineId ← RbTag.machineId.read report
  require (1 ≤ machineId ∧ machineId ≤ R.config.numServers)

/-- `VAL_Validate_VC_Proof` and `VAL_Validate_Replay`. -/
def validateThresholdSigned (proof numBytes : Nat) : Reader Unit := do
  require (numBytes = VcProofMessage.size)
  let covered ← VcProofMessage.signedPart.read proof
  let sig ← VcProofMessage.threshSig.read proof
  require (R.crypto.verifyThreshold sig (R.crypto.makeDigest covered) = true)

end Contents

/-! ## Contents with messages

`valid ignore mess n` is `VAL_Validate_Message` of the `n` bytes at `mess`. -/

section Carriers

variable (R : Receiver) (valid : Bool → Nat → Nat → Reader Unit) (ignore : Bool)

/-- What every carrier checks first of a message in it: its type, that it fits in the
`rest` of the carrier, and that it is valid. The answer is its size. -/
def embedded (type : PacketType) (mess rest : Nat) : Reader Nat := do
  let size ← messageSize mess
  let found ← SignedMessage.type.read mess
  require (found = type.code)
  require (size ≤ rest)
  valid ignore mess size
  pure size

/-- A walk over messages of one type, each of which also has to pass `check`. -/
def messages (type : PacketType) (limit least : Nat) (most : Option Nat)
    (check : Nat → Nat → Reader Unit) : Walk where
  limit := limit
  least := least
  most := most
  item i mess rest := do
    let size ← embedded valid ignore type mess rest
    check i mess
    pure size

/-- The loop over the updates in a PO-Request. It answers the offset it ends at. -/
def validateEvents (numBytes : Nat) : Nat → Nat → Nat → Reader Nat
  | 0, _, offset => pure offset
  | k + 1, mess, offset => do
    require (offset ≤ sub64 numBytes SignedMessage.size)
    let len ← SignedMessage.len.read mess
    require (offset ≤ sub64 (sub64 numBytes SignedMessage.size) len)
    let type ← SignedMessage.type.read mess
    require (type = PacketType.update.code)
    valid ignore mess (wrap32 (len + SignedMessage.size))
    validateEvents numBytes k (mess + (len + SignedMessage.size))
      (wrap32 (offset + (len + SignedMessage.size)))

/-- `VAL_Validate_PO_Request`. -/
def validatePoRequest (poRequest numBytes : Nat) : Reader Unit := do
  require (PoRequest.size ≤ numBytes)
  let numEvents ← PoRequest.numEvents.read poRequest
  let offset ← validateEvents valid ignore numBytes numEvents (poRequest + PoRequest.size) PoRequest.size
  require (offset = numBytes)

/-- The loop over the rows of a proof matrix. A row of type `DUMMY` is passed over with
`continue`, which leaves the pointer where it is. -/
def validateRows (c : Config) : Nat → Nat → Reader Unit
  | 0, _ => pure ()
  | k + 1, row => do
    let type ← SignedMessage.type.read row
    if type = PacketType.dummy.code then validateRows c k row
    else do
      require (type = PacketType.poAru.code)
      valid true row (poAruSignedSize c)
      validateRows c k (row + poAruSignedSize c)

/-- `VAL_Validate_Proof_Matrix`. -/
def validateProofMatrix (pm numBytes : Nat) : Reader Unit := do
  require (ProofMatrix.size ≤ numBytes)
  let numAcks ← ProofMatrix.numAcks.read pm
  require (numBytes = wrap32 (ProofMatrix.size + numAcks * poAruSignedSize R.config))
  validateRows valid R.config numAcks (pm + ProofMatrix.size)

/-- `VAL_Validate_Pre_Prepare`. -/
def validatePrePrepare (pp numBytes : Nat) : Reader Unit := do
  require (PrePrepareMessage.size R.config ≤ numBytes)
  let numAcks ← (PrePrepareMessage.numAcks R.config).read pp
  require (numBytes = wrap32 (PrePrepareMessage.size R.config + numAcks * poAruSignedSize R.config))
  let seqNum ← PrePrepareMessage.seqNum.read pp
  require (seqNum ≠ 0)
  let totalParts ← (PrePrepareMessage.totalParts R.config).read pp
  let partNum ← (PrePrepareMessage.partNum R.config).read pp
  require (totalParts = 1 ∧ partNum = 1)
  validateRows valid R.config numAcks (pp + PrePrepareMessage.size R.config)

/-- The NEW_LEADER messages of a proof, one behind the other at a fixed distance. -/
def validateNewLeaders (newView : Nat) : Nat → Nat → Reader Unit
  | 0, _ => pure ()
  | k + 1, nl => do
    let type ← SignedMessage.type.read nl
    require (type = PacketType.newLeader.code)
    valid ignore nl (SignedMessage.size + NewLeader.size)
    let view ← NewLeader.newView.read (SignedMessage.content nl)
    require (view = newView)
    validateNewLeaders newView k (nl + (SignedMessage.size + NewLeader.size))

/-- `VAL_Validate_New_Leader_Proof`. The size it expects is a constant of the deployment. -/
def validateNewLeaderProof (nlp numBytes : Nat) : Reader Unit := do
  require (NewLeader.size ≤ numBytes)
  require (numBytes = NewLeader.size + R.config.quorum * (SignedMessage.size + NewLeader.size))
  let newView ← NewLeader.newView.read nlp
  validateNewLeaders valid ignore newView R.config.quorum (nlp + NewLeader.size)

/-- `VAL_Validate_RB_Init`, `VAL_Validate_RB_Echo` and `VAL_Validate_RB_Ready`. -/
def validateRb (rb numBytes : Nat) : Reader Unit := do
  require (SignedMessage.size ≤ numBytes)
  let len ← SignedMessage.len.read rb
  require (numBytes = SignedMessage.size + len)
  let type ← SignedMessage.type.read rb
  require (type = PacketType.report.code ∨ type = PacketType.pcSet.code ∨
    type = PacketType.resetViewChange.code ∨ type = PacketType.resetNewView.code)
  require ((PacketType.ofCode type).any (statePermitsMessage R.status) = true)
  valid ignore rb numBytes

/-- The `complete_pre_prepare_message` put together from the Pre-Prepare at `pp` in a
structure that held `before`. Rows it has no room for are written behind it. -/
def completePrePrepare (c : Config) (before : Memory) (pp : Nat) : Reader Bytes := do
  let seqNum ← bytes pp 4
  let view ← bytes (pp + 4) 4
  let lastExecuted ← (PrePrepareMessage.lastExecuted c).read pp
  let proposalDigest ← PrePrepareMessage.proposalDigest.read pp
  let numAcks ← (PrePrepareMessage.numAcks c).read pp
  let rows ← bytes (pp + PrePrepareMessage.size c) (poAruSignedSize c * numAcks)
  if numAcks ≤ c.numServers then
    pure (seqNum ++ view ++ proposalDigest ++ lastExecuted ++ rows ++
      before.bytes (28 + 8 * c.numServers + poAruSignedSize c * numAcks)
        (poAruSignedSize c * (c.numServers - numAcks)))
  else stop .overran

/-- The digest certificates are compared with, over a structure on the stack. -/
def digestOfPrePrepare (pp : Nat) : Reader Bytes := do
  let complete ← completePrePrepare R.config R.stack pp
  pure (R.crypto.makeDigest complete)

/-- `VAL_Validate_PC_Set`. -/
def validatePcSet (pc numBytes : Nat) : Reader Unit := do
  require (12 ≤ numBytes)
  let machineId ← RbTag.machineId.read pc
  require (1 ≤ machineId ∧ machineId ≤ R.config.numServers)
  let mess := pc + 12
  let size ← embedded valid ignore .prePrepare mess (numBytes - 12)
  let pp := SignedMessage.content mess
  let ppDigest ← digestOfPrePrepare R pp
  let (last, count) ← (messages valid ignore .prepare (pc + numBytes) 0 none fun _ prepare => do
      let pm := SignedMessage.content prepare
      let seqNum ← VouchMessage.seqNum.read pm
      let ppSeqNum ← PrePrepareMessage.seqNum.read pp
      require (seqNum = ppSeqNum)
      let digest ← VouchMessage.digest.read pm
      require (digest = ppDigest)).run numBytes (mess + size) 0
  require (last = pc + numBytes)
  require (count = 2 * R.config.F + R.config.K)

/-- `SLOT_COMMIT`. -/
def slotCommit : Nat := 1

/-- `VAL_Validate_ORD_Certificate`. -/
def validateOrdCertificate (ordCert numBytes : Nat) : Reader Unit := do
  require (OrdCertificate.size ≤ numBytes)
  let type ← OrdCertificate.type.read ordCert
  require (type = slotCommit)
  let mess := ordCert + OrdCertificate.size
  let size ← embedded valid ignore .prePrepare mess (numBytes - OrdCertificate.size)
  let pp := SignedMessage.content mess
  let ppSeqNum ← PrePrepareMessage.seqNum.read pp
  let certSeqNum ← OrdCertificate.seqNum.read ordCert
  require (ppSeqNum = certSeqNum)
  let ppDigest ← digestOfPrePrepare R pp
  let (last, count) ← (messages valid ignore .commit (ordCert + numBytes) SignedMessage.size none
    fun _ commit => do
      let cm := SignedMessage.content commit
      let seqNum ← VouchMessage.seqNum.read cm
      require (seqNum = certSeqNum)
      let digest ← VouchMessage.digest.read cm
      require (digest = ppDigest)).run numBytes (mess + size) 0
  require (last = ordCert + numBytes)
  require (count = R.config.quorum)

/-- The search for the part of a PO-Ack that names a request. Its digest has to match,
and there has to be one. -/
def matchPart (originator : Nat) (seq : PoSeqPair) (digest : Bytes) : Nat → Nat → Reader Unit
  | 0, _ => stop .refused
  | k + 1, part => do
    let partOriginator ← PoAckPart.originator.read part
    let incarnation ← PoAckPart.incarnation.read part
    let seqNum ← PoAckPart.seqNum.read part
    if partOriginator = originator ∧ PreOrder.seqCompare ⟨incarnation, seqNum⟩ seq = 0 then do
      let partDigest ← PoAckPart.digest.read part
      require (partDigest = digest)
    else matchPart originator seq digest k (part + PoAckPart.size)

/-- `VAL_Validate_PO_Certificate`. -/
def validatePoCertificate (poCert numBytes : Nat) : Reader Unit := do
  require (PoCertificate.size ≤ numBytes)
  let pr := poCert + PoCertificate.size
  let size ← embedded valid true .poRequest pr (numBytes - PoCertificate.size)
  let incarnation ← PoRequest.incarnation.read (SignedMessage.content pr)
  let seqNum ← PoRequest.seqNum.read (SignedMessage.content pr)
  let certIncarnation ← PoCertificate.incarnation.read poCert
  let certSeqNum ← PoCertificate.seqNum.read poCert
  require (PreOrder.seqCompare ⟨incarnation, seqNum⟩ ⟨certIncarnation, certSeqNum⟩ = 0)
  let request ← bytes pr size
  let prDigest := R.crypto.makeDigest request
  let machineId ← SignedMessage.machineId.read pr
  let (last, count) ← (messages valid true .poAck (poCert + numBytes) SignedMessage.size none
    fun i ack => do
      let pa := SignedMessage.content ack
      let vector ← (PoAck.preinstalledIncarnations R.config).read pa
      -- all vectors are compared with that of the first acknowledgement
      let first ← (PoAck.preinstalledIncarnations R.config).read (SignedMessage.content (pr + size))
      require (i = 0 ∨ vector = first)
      let numParts ← PoAck.numAckParts.read pa
      matchPart machineId ⟨incarnation, seqNum⟩ prDigest numParts (pa + PoAck.size R.config)).run
        numBytes (pr + size) 0
  require (last = poCert + numBytes)
  require (count = R.config.quorum)

/-- `VAL_Validate_Jump`. -/
def validateJump (jump numBytes : Nat) : Reader Unit := do
  require (Jump.size R.config ≤ numBytes)
  let seqNum ← Jump.seqNum.read jump
  let sumLen ← (if 0 < seqNum then do
      let size ← embedded valid true .ordCert (jump + Jump.size R.config) (numBytes - Jump.size R.config)
      pure (Jump.size R.config + size)
    else pure (Jump.size R.config))
  let size ← embedded valid ignore .resetCert (jump + sumLen) (numBytes - sumLen)
  require (sumLen + size = numBytes)

/-- `VAL_Validate_Incarnation_Cert`, of the server and the incarnation in the header of
the certificate. Its own structure is empty. -/
def validateIncarnationCert (incCert numBytes machineId incarnation : Nat) : Reader Unit := do
  let size ← embedded valid true .newIncarnation incCert numBytes
  let niIncarnation ← SignedMessage.incarnation.read incCert
  require (niIncarnation = incarnation)
  let niMachineId ← SignedMessage.machineId.read incCert
  require (niMachineId = machineId)
  let announced ← bytes incCert size
  let niDigest := R.crypto.makeDigest announced
  let (last, count) ← (messages valid true .incarnationAck (incCert + numBytes) SignedMessage.size none
    fun _ ack => do
      let ia := SignedMessage.content ack
      let ackedIncarnation ← IncarnationAck.ackedIncarnation.read ia
      require (ackedIncarnation = incarnation)
      let ackedId ← IncarnationAck.ackedId.read ia
      require (ackedId = machineId)
      let digest ← IncarnationAck.digest.read ia
      require (digest = niDigest)).run numBytes (incCert + size) 0
  require (last = incCert + numBytes)
  require (count = R.config.quorum)

/-- `VAL_Validate_Pending_Share`. -/
def validatePendingShare (share numBytes : Nat) : Reader Unit := do
  require (PendingShare.size ≤ numBytes)
  let type ← PendingShare.type.read share
  require (type = PacketType.prePrepare.code ∨ type = PacketType.poRequest.code)
  let mess := share + PendingShare.size
  let size ← messageSize mess
  require (size ≤ numBytes - PendingShare.size)
  valid true mess size
  let found ← SignedMessage.type.read mess
  require (found = type)

/-- `VAL_Validate_Reset_Proposal`. -/
def validateResetProposal (proposal numBytes : Nat) : Reader Unit := do
  require (ResetProposal.size ≤ numBytes)
  let numShares ← ResetProposal.numShares.read proposal
  require (R.config.quorum ≤ numShares)
  require (numShares ≤ R.config.numServers)
  let (last, count) ← (messages valid ignore .resetShare (proposal + numBytes) SignedMessage.size
    (some numShares) fun _ _ => pure ()).run numBytes (proposal + ResetProposal.size) 0
  require (last = proposal + numBytes)
  require (count = numShares)

/-- `VAL_Validate_Reset_NewLeaderProof`. -/
def validateResetNewLeaderProof (proof numBytes : Nat) : Reader Unit := do
  require (NewLeader.size ≤ numBytes)
  let (last, count) ← (messages valid ignore .resetNewLeader (proof + numBytes) SignedMessage.size
    (some R.config.quorum) fun _ _ => pure ()).run numBytes (proof + NewLeader.size) 0
  require (last = proof + numBytes)
  require (count = R.config.quorum)

/-- The part that `VAL_Validate_Reset_ViewChange` and `VAL_Validate_Reset_Certificate`
have in common: a reset proposal and `most` messages that vouch for it, up to `limit`. -/
def validateResetVouchers (type : PacketType) (most limit proposal numBytes : Nat) : Reader Unit := do
  let size ← embedded valid ignore .resetProposal proposal (limit - proposal)
  let len ← SignedMessage.len.read proposal
  -- the digest is over the content of the proposal only
  let content ← bytes (SignedMessage.content proposal) len
  let rpropDigest := R.crypto.makeDigest content
  let (last, count) ← (messages valid ignore type limit SignedMessage.size (some most) fun _ mess => do
      let vouch := SignedMessage.content mess
      let view ← ResetVouch.view.read vouch
      let rpropView ← ResetProposal.view.read (SignedMessage.content proposal)
      require (view = rpropView)
      let digest ← ResetVouch.digest.read vouch
      require (digest = rpropDigest)).run numBytes (proposal + size) 0
  require (last = limit)
  require (count = most)

/-- `VAL_Validate_Reset_ViewChange`. -/
def validateResetViewChange (viewChange numBytes : Nat) : Reader Unit := do
  require (ResetViewChange.size ≤ numBytes)
  let containsProposal ← ResetViewChange.containsProposal.read viewChange
  if containsProposal = 0 then require (numBytes = ResetViewChange.size)
  else
    validateResetVouchers R valid ignore .resetPrepare (2 * R.config.F + R.config.K)
      (viewChange + numBytes) (viewChange + ResetViewChange.size) numBytes

/-- `VAL_Validate_Reset_Certificate`. -/
def validateResetCertificate (resetCert numBytes : Nat) : Reader Unit := do
  require (4 ≤ numBytes)
  validateResetVouchers R valid ignore .resetCommit R.config.quorum (resetCert + numBytes)
    (resetCert + 4) numBytes

end Carriers

/-! ## Messages -/

/-- The `switch` of `VAL_Validate_Message`: the content at `content` of a message of the
type, from the server and incarnation of its header. -/
def validateContent (R : Receiver) (valid : Bool → Nat → Nat → Reader Unit) (ignore : Bool)
    (type : Option PacketType) (machineId incarnation content numBytes : Nat) : Reader Unit :=
  let c := R.config
  match type with
  | some .update => validateUpdate numBytes
  | some .poRequest => validatePoRequest valid ignore content numBytes
  | some .poAck => validatePoAck R content numBytes
  | some .poAru => exactSize (PoAruMessage.size c) numBytes
  | some .proofMatrix => validateProofMatrix R valid content numBytes
  | some .prePrepare => validatePrePrepare R valid content numBytes
  | some .prepare | some .commit => validateVouch R content numBytes
  | some .tatMeasure | some .rttMeasure | some .tatUb => exactSize 16 numBytes
  | some .rttPing => exactSize 8 numBytes
  | some .rttPong => exactSize 12 numBytes
  | some .newLeader => exactSize NewLeader.size numBytes
  | some .newLeaderProof => validateNewLeaderProof R valid ignore content numBytes
  | some .rbInit | some .rbEcho | some .rbReady => validateRb R valid ignore content numBytes
  | some .report => validateReport R content numBytes
  | some .pcSet => validatePcSet R valid ignore content numBytes
  | some .vcList => exactSize 8 numBytes
  | some .vcPartialSig => exactSize 140 numBytes
  | some .vcProof | some .replay => validateThresholdSigned R content numBytes
  | some .replayPrepare | some .replayCommit => exactSize 24 numBytes
  | some .catchupRequest => exactSize (32 + 8 * c.numServers) numBytes
  | some .ordCert => validateOrdCertificate R valid ignore content numBytes
  | some .poCert => validatePoCertificate R valid content numBytes
  | some .jump => validateJump R valid ignore content numBytes
  | some .newIncarnation | some .resetShare => exactSize 28 numBytes
  | some .incarnationAck => exactSize IncarnationAck.size numBytes
  | some .incarnationCert => validateIncarnationCert R valid content numBytes machineId incarnation
  | some .pendingState => exactSize 12 numBytes
  | some .pendingShare => validatePendingShare valid content numBytes
  | some .resetVote => exactSize 8 numBytes
  | some .resetProposal => validateResetProposal R valid ignore content numBytes
  | some .resetPrepare | some .resetCommit => exactSize ResetVouch.size numBytes
  | some .resetNewLeader => exactSize NewLeader.size numBytes
  | some .resetNewLeaderProof => validateResetNewLeaderProof R valid ignore content numBytes
  | some .resetViewChange => validateResetViewChange R valid ignore content numBytes
  | some .resetNewView => exactSize 16 numBytes
  | some .resetCert => validateResetCertificate R valid ignore content numBytes
  -- types that are not checked yet
  | _ => pure ()

/-- `VAL_Validate_Message`, for messages that carry others up to a depth. -/
def validateMessage (R : Receiver) : Nat → Bool → Nat → Nat → Reader Unit
  | 0, _, _, _ => stop .unfinished
  | depth + 1, ignore, mess, numBytes => do
    validateSignedMessage R ignore mess numBytes
    let mtNum ← SignedMessage.mtNum.read mess
    let digests ← countDigests mtNum
    let type ← SignedMessage.type.read mess
    let machineId ← SignedMessage.machineId.read mess
    let incarnation ← SignedMessage.incarnation.read mess
    validateContent R (validateMessage R depth) ignore (PacketType.ofCode type) machineId incarnation
      (SignedMessage.content mess) (numBytes - SignedMessage.size - digests * digestSize)

end Validate

end Spire
