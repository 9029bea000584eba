import Spire.Lib.Runs
import Spire.PoSlots
import Spire.Validate

/-!
# Incarnations of the servers

`DATA.PR` of one server: which incarnation of each server it has preinstalled and installed,
and which servers it takes to be starting, resetting or recovering. A server that restarts
comes back with a new incarnation, and what was pre-ordered before it starts from zero.

The functions that change these vectors are in five files: acceptance of an incarnation and
the reset in `proactive_recovery.c`, certificates and jumps in `catchup.c`, and execution in
`order.c`. They are followed with all they do to `Spire.Incarnations.Po`. Of what they read
elsewhere, the ordinal that is executed or jumped to and the shares of a proposal come with
the input. A hash table is walked in any order, which comes with the input too.
-/

namespace Spire.Incarnations

open Spire.PreOrder

/-! ## State -/

/-- `RECOVERY_PERIOD_SEC`. -/
def recoveryPeriodSec : Nat := 10

/-- `RECOVERY_UPDATE_TIMESTAMP_SEC`. -/
def recoveryUpdateTimestampSec : Nat := 4

/-- A NEW_INCARNATION, with the incarnation in its header. -/
structure NewIncarnation where
  incarnation : Nat
  nonce : Nat
  timestamp : Nat
  key : Nat
deriving DecidableEq, Repr

/-- The message is older than the one that is stored, or adds nothing to it. -/
def NewIncarnation.old (ni : NewIncarnation) : Option NewIncarnation → Bool
  | none => false
  | some stored =>
    decide (ni.incarnation < stored.incarnation) ||
      decide (ni.incarnation = stored.incarnation ∧
        (ni.key ≠ stored.key ∨ ni.timestamp ≤ stored.timestamp ∨
          ni.timestamp - stored.timestamp < recoveryUpdateTimestampSec))

/-- `DATA.PR`. -/
structure Pr where
  preinstalledIncarnations : Nat → Nat
  installedIncarnations : Nat → Nat
  recoveryStatus : Nat → RecoveryStatus
  numStartup : UInt32
  newIncarnation : Nat → Option NewIncarnation
  newIncarnationVal : Nat → Nat
  lastRecoveryTime : Nat → Nat

/-- `PR_Initialize_Data_Structure`, and the message `PR_Start_Recovery` constructs. -/
def Pr.start (me : Nat) (ni : NewIncarnation) : Pr :=
  { preinstalledIncarnations := fun _ => 0
    installedIncarnations := fun _ => 0
    recoveryStatus := Function.update (fun _ => .normal) me .startup
    numStartup := 1
    newIncarnation := Function.update (fun _ => none) me (some ni)
    newIncarnationVal := Function.update (fun _ => 0) me ni.incarnation
    lastRecoveryTime := fun _ => 0 }

/-- The number of servers that are starting. -/
def Pr.startups (c : Site) (pr : Pr) : Nat := c.all.countP fun i => pr.recoveryStatus i = .startup

/-- One server. -/
structure Node (E D : Type) where
  pr : Pr
  po : Po E D
  fault : Option Fault

/-- A PO_CERT. -/
structure PoCert (E D : Type) where
  sender : Nat
  server : Nat
  seq : PoSeqPair
  request : PoRequest E
  acks : List (PoAck D)

/-- The order in which a hash table is walked. -/
structure Walk where
  order : List PoSeqPair → List PoSeqPair
  perm : ∀ l, (order l).Perm l

/-- An ordinal that is executed, or to which the server jumps: `prev_pop` and `cur_pop`, and the
orders in which the histories are walked. -/
structure Slot where
  seqNum : Nat
  prev : Nat → PoSeqPair
  cur : Nat → PoSeqPair
  walk : Nat → Walk

variable {E D : Type} [DecidableEq D] (c : Site) (makeDigest : PoRequest E → D)

/-- `DAT_Initialize` and `PR_Start_Recovery`, at the start and after `PR_Reset_Prime`. -/
def Node.start (ni : NewIncarnation) : Node E D := { pr := Pr.start c.me ni, po := Po.start, fault := none }

/-! ## The status of a server -/

/-- A server is no longer starting, as most of the code has it. -/
def Pr.leaveStartup (pr : Pr) (i : Nat) (status : RecoveryStatus) : Pr :=
  { pr with
    numStartup := if pr.recoveryStatus i = .startup then pr.numStartup - 1 else pr.numStartup
    recoveryStatus := Function.update pr.recoveryStatus i status }

/-- A server is found to be starting. -/
def Pr.enterStartup (pr : Pr) (i : Nat) : Pr :=
  { pr with numStartup := pr.numStartup + 1, recoveryStatus := Function.update pr.recoveryStatus i .startup }

/-- The first request of an incarnation, in `ORDER_Execute_Commit` and `CATCH_Jump_Ahead`: here
the counter is not tied to the status. -/
def Pr.noteStartup (pr : Pr) (i : Nat) (ps : PoSeqPair) : Pr :=
  { pr with
    numStartup := if pr.recoveryStatus i = .startup then pr.numStartup - 1 else pr.numStartup
    recoveryStatus :=
      if pr.preinstalledIncarnations i ≤ ps.incarnation then Function.update pr.recoveryStatus i .normal
      else pr.recoveryStatus
    preinstalledIncarnations :=
      if pr.preinstalledIncarnations i ≤ ps.incarnation then
        Function.update pr.preinstalledIncarnations i ps.incarnation
      else pr.preinstalledIncarnations
    installedIncarnations := Function.update pr.installedIncarnations i ps.incarnation }

namespace Node

variable (nd : Node E D)

def normal : Bool := nd.pr.recoveryStatus c.me = .normal

/-- An operation on `DATA.PO`. -/
def withPo (nd : Node E D) (x : Except Fault (Po E D)) : Except Fault (Node E D) :=
  x.map fun po => { nd with po := po }

/-- The part of `PR_Resume_Normal_Operation` that acks requests: `PRE_ORDER_Periodic_Retrans`. -/
def resume : Except Fault (Node E D) :=
  nd.withPo (sendPoAck c makeDigest nd.pr.preinstalledIncarnations true (updateAru nd.po c))

/-! ## New incarnations -/

/-- `PR_Process_New_Incarnation`; `fresh` is the server's own message if it starts again. -/
def newIncarnation (sender : Nat) (ni : NewIncarnation) (now : Nat) (fresh : NewIncarnation) : Node E D :=
  let pr := nd.pr
  if sender = c.me then nd
  else if ni.incarnation ≤ pr.preinstalledIncarnations sender then nd
  else if ni.old (pr.newIncarnation sender) then nd
  else if recoveryUpdateTimestampSec < (now - ni.timestamp) + (ni.timestamp - now) then nd
  else if pr.newIncarnationVal sender < ni.incarnation ∧
      Validate.wrap32 (ni.timestamp + (2 ^ 32 - pr.lastRecoveryTime sender)) < recoveryPeriodSec then nd
  else
    let starts := decide (pr.newIncarnationVal sender < ni.incarnation ∧
      pr.recoveryStatus sender ≠ .startup ∧ pr.recoveryStatus c.me ≠ .startup)
    let pr := if starts then pr.enterStartup sender else pr
    if starts ∧ c.F + c.K + 1 ≤ pr.numStartup.toNat then Node.start c fresh
    else
      { nd with pr := { pr with
        newIncarnation := Function.update pr.newIncarnation sender (some ni)
        lastRecoveryTime :=
          if pr.newIncarnationVal sender < ni.incarnation then
            Function.update pr.lastRecoveryTime sender ni.timestamp
          else pr.lastRecoveryTime
        newIncarnationVal :=
          if pr.newIncarnationVal sender < ni.incarnation then
            Function.update pr.newIncarnationVal sender ni.incarnation
          else pr.newIncarnationVal } }

/-- What acceptance does to the acks of a request that is not preordered. -/
def clearAcks (po : Po E D) (s : Nat) (ps : PoSeqPair) (slot : PoSlot E D) : PoSlot E D :=
  if 0 < seqCompare ps (po.cumAru s) then { slot with ack := fun _ => none } else slot

/-- The same for all slots of a history. -/
def mapHistory (h : AList fun _ : PoSeqPair => PoSlot E D) (f : PoSeqPair → PoSlot E D → PoSlot E D) :
    AList fun _ : PoSeqPair => PoSlot E D :=
  { entries := h.entries.map (.map id f), nodupKeys := h.nodupKeys.map₂ f _ }

omit [DecidableEq D] in
theorem lookup_mapHistory (h : AList fun _ : PoSeqPair => PoSlot E D) (f : PoSeqPair → PoSlot E D → PoSlot E D)
    (ps : PoSeqPair) : (mapHistory h f).lookup ps = (h.lookup ps).map (f ps) :=
  List.dlookup_map₂ ps

/-- `PR_Accept_Incarnation`, up to the Prepares and Commits. -/
def acceptIncarnation (replica : Nat) (inc ts : Nat) : Except Fault (Node E D) :=
  let pr := nd.pr
  let po := nd.po
  let pr := { pr with
    preinstalledIncarnations := Function.update pr.preinstalledIncarnations replica inc
    newIncarnationVal := Function.update pr.newIncarnationVal replica inc
    lastRecoveryTime := Function.update pr.lastRecoveryTime replica ts }
  let po := { po with
    maxAcked := Function.update po.maxAcked replica ⟨inc, 0⟩
    aru := Function.update po.aru replica ⟨inc, 0⟩ }
  let nd := { nd with pr := pr.leaveStartup replica .recovery, po := po }
  if replica = c.me then .ok nd
  else if nd.pr.recoveryStatus c.me ≠ .normal then .ok nd
  else
    let po := { po with
      history := fun s => if s ∈ c.all then mapHistory (po.history s) (clearAcks po s) else po.history s }
    nd.withPo (sendPoAck c makeDigest nd.pr.preinstalledIncarnations true po)

/-- `PR_Process_Incarnation_Cert`: a certificate of another server that passed validation. -/
def incarnationCert (sender : Nat) (ni : NewIncarnation) : Except Fault (Node E D) :=
  if sender = c.me then .ok nd
  else if ni.incarnation ≤ nd.pr.preinstalledIncarnations sender then .ok nd
  else
    acceptIncarnation c makeDigest
      { nd with pr := { nd.pr with newIncarnation := Function.update nd.pr.newIncarnation sender (some ni) } }
      sender ni.incarnation ni.timestamp

/-- The end of `PR_Process_Incarnation_Ack`, where the acks of the server's own incarnation make
a certificate. -/
def incarnationAcked : Except Fault (Node E D) :=
  match nd.pr.newIncarnation c.me with
  | none => .ok nd
  | some ni => nd.acceptIncarnation c makeDigest c.me (nd.pr.newIncarnationVal c.me) ni.timestamp

/-! ## Resets -/

/-- `PR_Process_Reset_Vote`. -/
def resetVote (sender ackedIncarnation ackedNonce : Nat) : Node E D :=
  if ackedIncarnation ≠ nd.pr.newIncarnationVal c.me then nd
  else if (nd.pr.newIncarnation c.me).map NewIncarnation.nonce ≠ some ackedNonce then nd
  else if nd.pr.recoveryStatus c.me = .startup ∧ nd.pr.recoveryStatus sender ≠ .startup then
    { nd with pr := nd.pr.enterStartup sender }
  else nd

/-- The loop over the shares in `PR_Post_Shares_Delay` and in `PR_Process_Reset_Proposal`: their
servers are in the reset. -/
def lockMembers (members : List Nat) : Node E D :=
  { nd with pr := members.foldl (fun pr i => pr.leaveStartup i .reset) nd.pr }

/-- One share in `PR_Execute_Reset_Proposal`. -/
def installShare (pr : Pr) (share : Nat × Nat) : Pr :=
  let i := share.1
  let pr := if i = c.me ∧ pr.recoveryStatus c.me = .recovery then pr else pr.leaveStartup i .normal
  { pr with
    preinstalledIncarnations :=
      Function.update pr.preinstalledIncarnations i (max share.2 (pr.preinstalledIncarnations i))
    installedIncarnations := Function.update pr.installedIncarnations i (max share.2 (pr.installedIncarnations i)) }

/-- The greater of two sequence numbers, the second where they are the same. -/
def raise (ps old : PoSeqPair) : PoSeqPair := if 0 < seqCompare ps old then ps else old

/-- The loop over the servers in `PR_Execute_Reset_Proposal`. -/
def installAru (pr : Pr) (po : Po E D) (i : Nat) : Po E D :=
  if pr.installedIncarnations i = 0 then po
  else
    let ps : PoSeqPair := ⟨pr.installedIncarnations i, 0⟩
    { po with
      maxAcked := Function.update po.maxAcked i (raise ps (po.maxAcked i))
      aru := Function.update po.aru i (raise ps (po.aru i))
      lastExecutedPoReqs := Function.update po.lastExecutedPoReqs i (raise ps (po.lastExecutedPoReqs i))
      whiteLine := Function.update po.whiteLine i (raise ps (po.whiteLine i)) }

/-- `PR_Execute_Reset_Proposal`. -/
def executeResetProposal (shares : List (Nat × Nat)) : Node E D :=
  let pr := shares.foldl (installShare c) nd.pr
  { nd with pr := pr, po := c.all.foldl (installAru pr) nd.po }

/-! ## Certificates of requests -/

/-- The request and the acks of a PO_CERT are processed. -/
def processCertified (cert : PoCert E D) : Except Fault (Node E D) := do
  let preinstalled := nd.pr.preinstalledIncarnations
  let po ← processPoRequest c makeDigest preinstalled (nd.normal c) nd.po cert.request
  let po ← (cert.acks.take c.quorum).foldlM (fun po ack =>
    match ack.parts.find? fun part => part.originator = cert.request.machineId ∧ part.seq = cert.request.seq with
    | none => .ok po
    | some part =>
      processPoAckPart c makeDigest preinstalled ack.machineId ack.preinstalledIncarnations po part) po
  pure { nd with po := po }

/-- The slot of a certificate: its vector becomes the snapshot, and acks and another request
are dropped. -/
def certifiedSlot (cert : PoCert E D) (slot : PoSlot E D) : PoSlot E D :=
  { poRequest := slot.poRequest.filter fun r => makeDigest r = makeDigest cert.request
    ack := fun _ => none
    snapshot := some ((cert.acks.head?.map PoAck.preinstalledIncarnations).getD []) }

/-- `CATCH_Process_PO_Certificate`, without the timer and the server's own certificates. -/
def processPoCertificate (cert : PoCert E D) : Except Fault (Node E D) :=
  if cert.sender = c.me then .ok nd
  else if seqCompare cert.seq (nd.po.cumAru cert.server) ≤ 0 then .ok nd
  else
    let slot := nd.po.getSlot cert.server cert.seq
    let nd := { nd with po := nd.po.putSlot cert.server cert.seq slot }
    if slot.snapshot.isSome then .ok nd
    else
      let starts := decide (nd.pr.preinstalledIncarnations cert.server < cert.seq.incarnation ∧ cert.seq.seqNum = 1)
      let ps : PoSeqPair := ⟨cert.seq.incarnation, 0⟩
      let nd := if starts then
        { nd with
          pr := { nd.pr with
            preinstalledIncarnations :=
              Function.update nd.pr.preinstalledIncarnations cert.server cert.seq.incarnation }
          po := { nd.po with
            maxAcked := Function.update nd.po.maxAcked cert.server ps
            aru := Function.update nd.po.aru cert.server ps } }
      else nd
      processCertified c makeDigest
        { nd with po := nd.po.putSlot cert.server cert.seq (certifiedSlot makeDigest cert slot) } cert

/-! ## Execution -/

/-- The requests of one server that an ordinal executes. -/
def requestsOf (prev cur : PoSeqPair) : List PoSeqPair :=
  let first := if prev.incarnation < cur.incarnation then 0 else prev.seqNum
  (List.range' (first + 1) (cur.seqNum - first)).map (PoSeqPair.mk cur.incarnation)

/-- A request for which `ORDER_Ready_To_Execute` waits. -/
def isMissing (po : Po E D) (i : Nat) (ps : PoSeqPair) : Bool :=
  match po.slot? i ps with
  | none => true
  | some slot => slot.poRequest.isNone || decide (seqCompare (po.cumAru i) ps < 0)

/-- `ORDER_Ready_To_Execute`, as far as it looks at requests. -/
def readyToExecute (slot : Slot) : Bool :=
  c.all.all fun i => (requestsOf (slot.prev i) (slot.cur i)).all fun ps => !isMissing nd.po i ps

/-- The requests of old incarnations that are dropped. -/
def dropped (po : Po E D) (slot : Slot) (i : Nat) : List PoSeqPair :=
  ((slot.walk i).order (po.history i).keys).filter fun ps =>
    decide (ps.incarnation < (slot.cur i).incarnation ∧ 0 < seqCompare ps (slot.prev i))

/-- The start of an incarnation, at a request or a jump. -/
def noteStartup (i : Nat) (ps : PoSeqPair) : Except Fault (Node E D) :=
  let nd := { nd with pr := nd.pr.noteStartup i ps }
  if i = c.me ∧ nd.pr.preinstalledIncarnations i = nd.pr.installedIncarnations i then nd.resume c makeDigest
  else .ok nd

/-- One request of `ORDER_Execute_Commit`. -/
def executeRequest (seqNum i : Nat) (nd : Node E D) (ps : PoSeqPair) : Except Fault (Node E D) :=
  match (nd.po.slot? i ps).bind PoSlot.poRequest with
  | none => .error .executeMissing
  | some _ => do
    let nd ← (
      if (nd.po.lastExecutedPoReqs i).incarnation < ps.incarnation ∧ ps.seqNum = 1 then
        nd.noteStartup c makeDigest i ps
      else .ok nd)
    pure { nd with po := { nd.po with
      lastExecutedPoReqs := Function.update nd.po.lastExecutedPoReqs i ps
      slotLists := Function.update nd.po.slotLists seqNum (nd.po.slotLists seqNum ++ [⟨i, ps⟩]) } }

/-- One server of `ORDER_Execute_Commit`. -/
def executeServer (slot : Slot) (nd : Node E D) (i : Nat) : Except Fault (Node E D) :=
  if (slot.cur i).incarnation < (slot.prev i).incarnation then .error .backwards
  else do
    let po ← (
      if (slot.prev i).incarnation < (slot.cur i).incarnation then
        ((dropped nd.po slot i).map (PoId.mk i)).foldlM garbageCollectPoSlot nd.po
      else .ok nd.po)
    (requestsOf (slot.prev i) (slot.cur i)).foldlM (executeRequest c makeDigest slot.seqNum i) { nd with po := po }

/-- `ORDER_Execute_Commit`, up to the delivery of the events. -/
def executeCommit (slot : Slot) : Except Fault (Node E D) :=
  if nd.readyToExecute c slot then c.all.foldlM (executeServer c makeDigest slot) nd else .ok nd

/-! ## Jumps -/

/-- One server of `CATCH_Jump_Ahead`: what is made eligible counts as acked and executed. -/
def jumpServer (slot : Slot) (nd : Node E D) (i : Nat) : Except Fault (Node E D) := do
  let ps := slot.cur i
  let last := nd.po.lastExecutedPoReqs i
  let nd := { nd with po := { nd.po with
    maxAcked := Function.update nd.po.maxAcked i (raise ps (nd.po.maxAcked i))
    aru := Function.update nd.po.aru i (raise ps (nd.po.aru i))
    cumAru := Function.update nd.po.cumAru i (raise ps (nd.po.cumAru i)) } }
  let nd ← (
    if 0 < seqCompare ps last ∧ last.incarnation < ps.incarnation ∧ 0 < ps.seqNum then
      nd.noteStartup c makeDigest i ps
    else .ok nd)
  let old := ((slot.walk i).order (nd.po.history i).keys).filter fun ps' => decide (seqCompare ps' ps ≤ 0)
  let po ← (old.map (PoId.mk i)).foldlM garbageCollectPoSlot
    { nd.po with lastExecutedPoReqs := Function.update nd.po.lastExecutedPoReqs i (raise ps last) }
  pure { nd with po := { po with whiteLine := Function.update po.whiteLine i (raise ps (po.whiteLine i)) } }

/-- `CATCH_Jump_Ahead`: the ordinals before the one it lands on are collected first. -/
def jumpAhead (slot : Slot) (collected : List Nat) : Except Fault (Node E D) := do
  let po ← collected.foldlM garbageCollectRequests nd.po
  c.all.foldlM (jumpServer c makeDigest slot) { nd with po := po }

/-! ## What an operation changes -/

section Changes

omit [DecidableEq D]

variable {c : Site} {makeDigest : PoRequest E → D} {nd nd' : Node E D}

theorem withPo_ok {x : Except Fault (Po E D)} (h : nd.withPo x = .ok nd') :
    ∃ po, x = .ok po ∧ nd' = { nd with po := po } := by
  cases x with
  | error f => cases h
  | ok po =>
    cases h
    exact ⟨po, rfl, rfl⟩

theorem resume_ok (h : nd.resume c makeDigest = .ok nd') :
    ∃ po, Acked (updateAru nd.po c) po ∧ nd' = { nd with po := po } := by
  obtain ⟨po, hpo, rfl⟩ := withPo_ok h
  exact ⟨po, sendPoAck_acked hpo, rfl⟩

theorem noteStartup_ok {i : Nat} {ps : PoSeqPair} (h : nd.noteStartup c makeDigest i ps = .ok nd') :
    ∃ po, (po = nd.po ∨ Acked (updateAru nd.po c) po) ∧ nd' = { nd with pr := nd.pr.noteStartup i ps, po := po } := by
  unfold noteStartup at h
  dsimp only at h
  split_ifs at h
  · obtain ⟨po, hpo, rfl⟩ := resume_ok h
    exact ⟨po, .inr hpo, rfl⟩
  · cases h
    exact ⟨nd.po, .inl rfl, rfl⟩

theorem executeRequest_ok {seqNum i : Nat} {ps : PoSeqPair}
    (h : executeRequest c makeDigest seqNum i nd ps = .ok nd') :
    (∃ slot, nd.po.slot? i ps = some slot ∧ slot.poRequest.isSome) ∧
      ∃ nd₁, ((nd.po.lastExecutedPoReqs i).incarnation < ps.incarnation ∧ ps.seqNum = 1 ∧
          nd.noteStartup c makeDigest i ps = .ok nd₁ ∨
        ¬((nd.po.lastExecutedPoReqs i).incarnation < ps.incarnation ∧ ps.seqNum = 1) ∧ nd₁ = nd) ∧
        nd' = { nd₁ with po := { nd₁.po with
          lastExecutedPoReqs := Function.update nd₁.po.lastExecutedPoReqs i ps
          slotLists := Function.update nd₁.po.slotLists seqNum (nd₁.po.slotLists seqNum ++ [⟨i, ps⟩]) } } := by
  unfold executeRequest at h
  split at h
  · cases h
  · rename_i r hr
    obtain ⟨slot, hslot, hrequest⟩ := Option.bind_eq_some_iff.mp hr
    obtain ⟨nd₁, hnd₁, h⟩ := Lib.bind_eq_ok.mp h
    cases h
    refine ⟨⟨slot, hslot, hrequest ▸ rfl⟩, nd₁, ?_, rfl⟩
    split_ifs at hnd₁ with hstart
    · exact .inl ⟨hstart.1, hstart.2, hnd₁⟩
    · cases hnd₁
      exact .inr ⟨hstart, rfl⟩

/-- A server is executed: what is dropped first, and then its requests. -/
theorem executeServer_ok {slot : Slot} {i : Nat} (h : executeServer c makeDigest slot nd i = .ok nd') :
    ∃ po, ((slot.prev i).incarnation < (slot.cur i).incarnation ∧
          ((dropped nd.po slot i).map (PoId.mk i)).foldlM garbageCollectPoSlot nd.po = .ok po ∨
        (slot.prev i).incarnation = (slot.cur i).incarnation ∧ po = nd.po) ∧
      (requestsOf (slot.prev i) (slot.cur i)).foldlM (executeRequest c makeDigest slot.seqNum i)
        { nd with po := po } = .ok nd' := by
  unfold executeServer at h
  rw [ite_eq_iff] at h
  obtain ⟨-, h⟩ | ⟨hback, h⟩ := h
  · cases h
  obtain ⟨po, hpo, h⟩ := Lib.bind_eq_ok.mp h
  refine ⟨po, ?_, h⟩
  split_ifs at hpo with hnew
  · exact .inl ⟨hnew, hpo⟩
  · cases hpo
    exact .inr ⟨by omega, rfl⟩

/-- What a jump does before it notes a new incarnation. -/
def jumpAru (slot : Slot) (i : Nat) (po : Po E D) : Po E D :=
  { po with
    maxAcked := Function.update po.maxAcked i (raise (slot.cur i) (po.maxAcked i))
    aru := Function.update po.aru i (raise (slot.cur i) (po.aru i))
    cumAru := Function.update po.cumAru i (raise (slot.cur i) (po.cumAru i)) }

/-- A jump starts an incarnation. -/
def jumpStarts (nd : Node E D) (slot : Slot) (i : Nat) : Prop :=
  0 < seqCompare (slot.cur i) (nd.po.lastExecutedPoReqs i) ∧
    (nd.po.lastExecutedPoReqs i).incarnation < (slot.cur i).incarnation ∧ 0 < (slot.cur i).seqNum

theorem jumpServer_ok {slot : Slot} {i : Nat} (h : jumpServer c makeDigest slot nd i = .ok nd') :
    ∃ nd₁ po, (nd.jumpStarts slot i ∧ noteStartup c makeDigest { nd with po := jumpAru slot i nd.po } i (slot.cur i) = .ok nd₁ ∨
        ¬nd.jumpStarts slot i ∧ nd₁ = { nd with po := jumpAru slot i nd.po }) ∧
      (((((slot.walk i).order (nd₁.po.history i).keys).filter fun ps' =>
          decide (seqCompare ps' (slot.cur i) ≤ 0)).map (PoId.mk i)).foldlM garbageCollectPoSlot
        { nd₁.po with lastExecutedPoReqs :=
            Function.update nd₁.po.lastExecutedPoReqs i (raise (slot.cur i) (nd.po.lastExecutedPoReqs i)) } = .ok po) ∧
      nd' = { nd₁ with po :=
        { po with whiteLine := Function.update po.whiteLine i (raise (slot.cur i) (po.whiteLine i)) } } := by
  unfold jumpServer at h
  obtain ⟨nd₁, hnd₁, h⟩ := Lib.bind_eq_ok.mp h
  obtain ⟨po, hpo, h⟩ := Lib.bind_eq_ok.mp h
  cases h
  refine ⟨nd₁, po, ?_, hpo, rfl⟩
  split_ifs at hnd₁ with hstart
  · exact .inl ⟨hstart, hnd₁⟩
  · cases hnd₁
    exact .inr ⟨hstart, rfl⟩

/-- The incarnations, the pre-ordering history and the fault are the same. -/
structure SameHistory (nd nd' : Node E D) : Prop where
  preinstalled : nd'.pr.preinstalledIncarnations = nd.pr.preinstalledIncarnations
  installed : nd'.pr.installedIncarnations = nd.pr.installedIncarnations
  po : nd'.po = nd.po
  fault : nd'.fault = nd.fault

theorem newIncarnation_same (nd : Node E D) (sender : Nat) (ni : NewIncarnation) (now : Nat) (fresh : NewIncarnation) :
    nd.newIncarnation c sender ni now fresh = start c fresh ∨
      nd.SameHistory (nd.newIncarnation c sender ni now fresh) := by
  unfold newIncarnation
  dsimp only
  iterate 5
    split
    · exact .inr ⟨rfl, rfl, rfl, rfl⟩
  -- Whether the sender starts decides what the counter is compared with.
  split
  all_goals
    split
    · exact .inl rfl
    · exact .inr ⟨rfl, rfl, rfl, rfl⟩

theorem resetVote_same (nd : Node E D) (sender ackedIncarnation ackedNonce : Nat) :
    nd.SameHistory (nd.resetVote c sender ackedIncarnation ackedNonce) := by
  unfold resetVote
  split_ifs
  all_goals exact ⟨rfl, rfl, rfl, rfl⟩

theorem lockMembers_same (nd : Node E D) (members : List Nat) : nd.SameHistory (nd.lockMembers members) := by
  have hfold : (nd.lockMembers members).pr.preinstalledIncarnations = nd.pr.preinstalledIncarnations ∧
      (nd.lockMembers members).pr.installedIncarnations = nd.pr.installedIncarnations :=
    Lib.foldl_inv (I := fun pr : Pr => pr.preinstalledIncarnations = nd.pr.preinstalledIncarnations ∧
      pr.installedIncarnations = nd.pr.installedIncarnations) (fun _ _ h => h) ⟨rfl, rfl⟩
  exact ⟨hfold.1, hfold.2, rfl, rfl⟩

/-- What a reset installs for a server is at most what it has preinstalled, or both are the same. -/
theorem installShares_incarnations (pr : Pr) (shares : List (Nat × Nat)) (s : Nat) :
    ∃ m, (shares.foldl (installShare c) pr).preinstalledIncarnations s = max m (pr.preinstalledIncarnations s) ∧
      (shares.foldl (installShare c) pr).installedIncarnations s = max m (pr.installedIncarnations s) := by
  refine Lib.foldl_inv (I := fun pr' : Pr => ∃ m, pr'.preinstalledIncarnations s = max m (pr.preinstalledIncarnations s) ∧
    pr'.installedIncarnations s = max m (pr.installedIncarnations s)) ?_ ⟨0, (Nat.zero_max _).symm, (Nat.zero_max _).symm⟩
  rintro pr' share ⟨m, hpre, hinst⟩
  have hleave : ∀ pr'' : Pr, pr''.preinstalledIncarnations = pr'.preinstalledIncarnations →
      pr''.installedIncarnations = pr'.installedIncarnations →
      ∃ m, Function.update pr''.preinstalledIncarnations share.1
          (max share.2 (pr''.preinstalledIncarnations share.1)) s = max m (pr.preinstalledIncarnations s) ∧
        Function.update pr''.installedIncarnations share.1
          (max share.2 (pr''.installedIncarnations share.1)) s = max m (pr.installedIncarnations s) := by
    intro pr'' h h'
    rw [h, h']
    by_cases hs : s = share.1
    · subst hs
      rw [Function.update_self, Function.update_self, hpre, hinst]
      exact ⟨max share.2 m, (Nat.max_assoc _ _ _).symm, (Nat.max_assoc _ _ _).symm⟩
    · rw [Function.update_of_ne hs, Function.update_of_ne hs]
      exact ⟨m, hpre, hinst⟩
  unfold installShare
  dsimp only
  split_ifs
  · exact hleave pr' rfl rfl
  · exact hleave (pr'.leaveStartup share.1 .normal) rfl rfl

/-- What a reset does to the sequence numbers of the servers in a list. -/
structure Installed (pr : Pr) (l : List Nat) (po po' : Po E D) : Prop where
  history : po'.history = po.history
  cumAru : po'.cumAru = po.cumAru
  poAckStartServer : po'.poAckStartServer = po.poAckStartServer
  poAckStartSeq : po'.poAckStartSeq = po.poAckStartSeq
  slotLists : po'.slotLists = po.slotLists
  aru : ∀ s, po'.aru s = if s ∈ l then raise ⟨pr.installedIncarnations s, 0⟩ (po.aru s) else po.aru s
  maxAcked : ∀ s, po'.maxAcked s = if s ∈ l then raise ⟨pr.installedIncarnations s, 0⟩ (po.maxAcked s) else po.maxAcked s
  whiteLine : ∀ s, po'.whiteLine s =
    if s ∈ l then raise ⟨pr.installedIncarnations s, 0⟩ (po.whiteLine s) else po.whiteLine s

theorem raise_zero (old : PoSeqPair) : raise ⟨0, 0⟩ old = old := by
  have hle : SeqLe ⟨0, 0⟩ old := by
    rw [seqLe_iff]
    dsimp only
    omega
  exact if_neg (not_lt.mpr hle)

/-- One server whose number is raised, and then those of the list. -/
theorem raise_cons {f f' : Nat → PoSeqPair} {g : Nat → PoSeqPair → PoSeqPair} {i s : Nat} {l : List Nat} (hi : i ∉ l)
    (h : f' s = if s ∈ l then g s (Function.update f i (g i (f i)) s) else Function.update f i (g i (f i)) s) :
    f' s = if s ∈ i :: l then g s (f s) else f s := by
  by_cases hs : s = i
  · subst hs
    rw [h, if_neg hi, Function.update_self, if_pos List.mem_cons_self]
  · rw [h, Function.update_of_ne hs]
    simp [hs]

theorem foldl_installAru {l : List Nat} (hl : l.Nodup) (pr : Pr) (po : Po E D) :
    Installed pr l po (l.foldl (installAru pr) po) := by
  induction l generalizing po with
  | nil => exact ⟨rfl, rfl, rfl, rfl, rfl, fun _ => rfl, fun _ => rfl, fun _ => rfl⟩
  | cons i l ih =>
    obtain ⟨hi, hl⟩ := List.nodup_cons.mp hl
    have hrest := ih hl (installAru pr po i)
    -- A server that is not installed has nothing raised, as if its number were raised to zero.
    have hraised : ∀ f : Nat → PoSeqPair, pr.installedIncarnations i = 0 →
        Function.update f i (raise ⟨pr.installedIncarnations i, 0⟩ (f i)) = f := by
      intro f hzero
      rw [hzero, raise_zero, Function.update_eq_self]
    rw [List.foldl_cons]
    by_cases hzero : pr.installedIncarnations i = 0
    · have hsame : installAru pr po i = po := if_pos hzero
      rw [hsame] at hrest ⊢
      exact
        { hrest with
          aru := fun s => raise_cons (g := fun s => raise ⟨pr.installedIncarnations s, 0⟩) hi
            (by rw [hraised _ hzero]; exact hrest.aru s)
          maxAcked := fun s => raise_cons (g := fun s => raise ⟨pr.installedIncarnations s, 0⟩) hi
            (by rw [hraised _ hzero]; exact hrest.maxAcked s)
          whiteLine := fun s => raise_cons (g := fun s => raise ⟨pr.installedIncarnations s, 0⟩) hi
            (by rw [hraised _ hzero]; exact hrest.whiteLine s) }
    · have hsame : installAru pr po i = _ := if_neg hzero
      rw [hsame] at hrest ⊢
      exact
        { history := hrest.history
          cumAru := hrest.cumAru
          poAckStartServer := hrest.poAckStartServer
          poAckStartSeq := hrest.poAckStartSeq
          slotLists := hrest.slotLists
          aru := fun s => raise_cons (g := fun s => raise ⟨pr.installedIncarnations s, 0⟩) hi (hrest.aru s)
          maxAcked := fun s => raise_cons (g := fun s => raise ⟨pr.installedIncarnations s, 0⟩) hi (hrest.maxAcked s)
          whiteLine := fun s => raise_cons (g := fun s => raise ⟨pr.installedIncarnations s, 0⟩) hi (hrest.whiteLine s) }

end Changes

end Node

/-! ## Runs -/

/-- What can happen to a server. -/
inductive Input (E D : Type)
  | newIncarnation (sender : Nat) (ni : NewIncarnation) (now : Nat) (fresh : NewIncarnation)
  | incarnationCert (sender : Nat) (ni : NewIncarnation)
  | incarnationAcked
  | resetVote (sender ackedIncarnation ackedNonce : Nat)
  | lockMembers (members : List Nat)
  | executeResetProposal (shares : List (Nat × Nat)) (resumes : Bool)
  | resetPrime (fresh : NewIncarnation)
  | poRequest (r : PoRequest E)
  | poAck (ack : PoAck D)
  | poCertificate (cert : PoCert E D)
  | periodicRetrans
  | execute (slot : Slot)
  | collect (seq : Nat)
  | jump (slot : Slot) (collected : List Nat)

/-- One input at a server that is still there. -/
def Node.handle (nd : Node E D) : Input E D → Except Fault (Node E D)
  | .newIncarnation sender ni now fresh => .ok (nd.newIncarnation c sender ni now fresh)
  | .incarnationCert sender ni => nd.incarnationCert c makeDigest sender ni
  | .incarnationAcked => nd.incarnationAcked c makeDigest
  | .resetVote sender ackedIncarnation ackedNonce => .ok (nd.resetVote c sender ackedIncarnation ackedNonce)
  | .lockMembers members => .ok (nd.lockMembers members)
  | .executeResetProposal shares resumes =>
    let nd := nd.executeResetProposal c shares
    if resumes then nd.resume c makeDigest else .ok nd
  | .resetPrime fresh => .ok (Node.start c fresh)
  | .poRequest r => nd.withPo (processPoRequest c makeDigest nd.pr.preinstalledIncarnations (nd.normal c) nd.po r)
  | .poAck ack => nd.withPo (processPoAck c makeDigest nd.pr.preinstalledIncarnations nd.po ack)
  | .poCertificate cert => nd.processPoCertificate c makeDigest cert
  | .periodicRetrans => nd.resume c makeDigest
  | .execute slot => nd.executeCommit c makeDigest slot
  | .collect seq => nd.withPo (garbageCollectRequests nd.po seq)
  | .jump slot collected => nd.jumpAhead c makeDigest slot collected

def Node.step (nd : Node E D) (x : Input E D) : Node E D :=
  if nd.fault.isSome then nd
  else
    match nd.handle c makeDigest x with
    | .ok nd => nd
    | .error f => { nd with fault := some f }

end Spire.Incarnations
