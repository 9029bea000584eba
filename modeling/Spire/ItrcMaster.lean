import Spire.OrdQueue

/-!
# The reliable channel of a SCADA master

`ITRC_Master` of `itrc.c`: the messages that Prime has ordered, the shares and states that other
replicas send, and the replies of the SCADA master. A replica that Prime has left behind
collects the state of the others: until then it keeps what Prime delivers, and replays it
afterwards.

The queues are lists in the order of their ordinals, as `Spire.TcList` has them from memory.
What the code decides by the contents of an update is that of `PrimeMsg`. The lists at the end
of the state, from the messages to the master on, are what has happened; no step reads them.
-/

namespace Spire.Itrc

open Lib
open Spire.Scada (PrimeMsg SeqPair numProgress)

deriving instance DecidableEq for Scada.StateXfer

/-! ## States of other replicas -/

/-- `state_xfer_msg`, of which `body` has all but the ordinal. -/
structure StXfer where
  ord : Ordinal
  body : Scada.StateXfer
deriving DecidableEq

/-- `st_node`. -/
structure StNode where
  ord : Ordinal
  signaled : Bool
  collected : Bool
  count : Nat
  recvd : Nat → Bool
  state : Nat → Option StXfer
  result : Option StXfer

def StNode.key (n : StNode) : Nat ×ₗ Nat := n.ord.key

/-- A node as it is allocated. -/
def StNode.new (o : Ordinal) : StNode :=
  { ord := o, signaled := false, collected := false, count := 0, recvd := fun _ => false, state := fun _ => none
    result := none }

/-- The message that stands for a signal of Prime: of all its fields only the ordinal is set. -/
def StXfer.dummy (o : Ordinal) : StXfer :=
  { ord := o, body := { target := 0, latestUpdate := [], numClients := 0, state := [] } }

/-! ## The state of a replica -/

/-- Failing assertions of `ITRC_Master`, and a state that is not there. -/
inductive MasterFault
  | emptyQueue | stillCollecting | resetOrdinal | noResult
deriving DecidableEq, Repr

/-- A replica, `P` and `S` being the payloads and the signatures of its shares. -/
structure Master (P S : Type) where
  recvdFirstOrdinal : Bool
  recvdOrd : Ordinal
  progress : Nat → SeqPair
  collectingSignal : Bool
  completedTransfer : Bool
  pendingUpdates : List (Ordinal × PrimeMsg)
  ordQueue : List Ordinal
  /-- `tcq_pending`, and `applied_ord`. -/
  tcq : Tcq P S
  stq : List StNode
  fault : Option MasterFault
  /-- The requests of a state transfer to the injector. -/
  injected : Nat
  handed : List (TcFinal P S)
  toSm : List Scada.Msg
  /-- Since the last reset: what Prime delivered, what was not held back or thrown away, the
  transfers that Prime signaled, those that were applied, and the ordinals that were reported as
  old and as a gap. -/
  arrived : List (Ordinal × PrimeMsg)
  processed : List (Ordinal × PrimeMsg)
  signals : List Ordinal
  transfers : List (Ordinal × StXfer)
  olds : List Ordinal
  gaps : List Ordinal

/-- What a replica is given: whether it is in a control center, which messages to the external
network go through, the library for signatures, and what a reply is packed into. -/
structure Setting (P S G : Type) where
  crypto : Crypto P S G
  site : Site
  controlCenter : Bool
  sendOk : Nat → Bool
  stateDigest : StXfer → G
  tcShare : Ordinal → Scada.Reply → TcShare P S

/-- What `ITRC_Master` waits for. -/
inductive MasterInput (P S : Type)
  | prime (o : Ordinal) (m : PrimeMsg)
  | primeReset (o : Ordinal)
  | reply (r : Scada.Reply)
  | share (sender : Nat) (tcm : TcShare P S)
  | stateXfer (sender : Nat) (st : StXfer)

variable {P S G : Type}

/-! ## The code -/

section Code

variable [DecidableEq G] (v : Setting P S G)

/-- `match_count` in `ITRC_Insert_ST_ID`. -/
def StNode.matchCount (n : StNode) (st : StXfer) : Nat :=
  ((List.range' 1 v.site.numSm).filter fun i =>
    n.recvd i && (n.state i).any fun stored => v.stateDigest stored = v.stateDigest st).length

/-- The state of another replica is in its node. -/
def StNode.store (n : StNode) (sender : Nat) (st : StXfer) : StNode :=
  { n with
    recvd := Function.update n.recvd sender true
    count := n.count + 1
    state := Function.update n.state sender (some st) }

/-- With a state that enough others match, the node is collected. -/
def StNode.collect (n : StNode) (st : StXfer) : StNode :=
  if n.collected = false ∧ v.site.reqShares ≤ n.count ∧ v.site.reqShares ≤ n.matchCount v st then
    { n with result := some st, collected := true }
  else n

/-- What `ITRC_Insert_ST_ID` does to the node of a message. -/
def StNode.receive (sender : Nat) (st : StXfer) (n : StNode) : StNode :=
  if sender = v.site.myId then { n with signaled := true }
  else if n.recvd sender then n
  else (n.store sender st).collect v st

/-- The node of an ordinal in the queue. -/
def Master.stNode (s : Master P S) (o : Ordinal) : StNode := entry StNode.key o.key (StNode.new o) s.stq

/-- `Old ST ID`. -/
def Master.OldSt (s : Master P S) (o : Ordinal) : Prop := ordCompare o s.recvdOrd < 0 ∨ ordCompare o s.tcq.appliedOrd ≤ 0

instance (s : Master P S) (o : Ordinal) : Decidable (s.OldSt o) := by
  unfold Master.OldSt
  infer_instance

/-- What `ITRC_Insert_ST_ID` returns: the message is new, and with it the state is there and
signaled. -/
def Master.Completes (s : Master P S) (sender : Nat) (st : StXfer) : Prop :=
  ¬s.OldSt st.ord ∧ ¬(sender ≠ v.site.myId ∧ (s.stNode st.ord).recvd sender = true) ∧
    ((s.stNode st.ord).receive v sender st).collected = true ∧ ((s.stNode st.ord).receive v sender st).signaled = true

instance (s : Master P S) (sender : Nat) (st : StXfer) : Decidable (s.Completes v sender st) := by
  unfold Master.Completes
  infer_instance

/-- `ITRC_Insert_ST_ID`, but for what it returns. -/
def Master.insertStId (s : Master P S) (sender : Nat) (st : StXfer) : Master P S :=
  if s.OldSt st.ord then s
  else { s with stq := upsert StNode.key st.ord.key (StNode.new st.ord) (StNode.receive v sender st) s.stq }

/-- `ITRC_Apply_State_Transfer`. -/
def Master.applyStateTransfer (s : Master P S) (o : Ordinal) : Master P S :=
  match (s.stq.find? fun n => ordCompare n.ord o = 0).bind StNode.result with
  | none => { s with fault := some .noResult }
  | some st =>
    { s with
      stq := s.stq.dropWhile fun n => ordCompare n.ord o ≤ 0
      tcq := { s.tcq with appliedOrd := o, queue := s.tcq.queue.dropWhile fun n => ordCompare n.ord o ≤ 0 }
      progress := fun idx => st.body.latestUpdate.getD idx ⟨0, 0⟩
      toSm := s.toSm ++ [.stateXfer st.body]
      collectingSignal := false
      completedTransfer := true
      transfers := s.transfers ++ [(o, st)] }

/-- A message for the SCADA side that comes from another replica or from Prime is inserted, and
its state applied where that is complete. -/
def Master.offerState (s : Master P S) (sender : Nat) (st : StXfer) : Master P S :=
  if s.Completes v sender st then (s.insertStId v sender st).applyStateTransfer st.ord else s.insertStId v sender st

/-- The calls of `ITRC_TC_Ready_Deliver`, up to the first message that cannot be sent. -/
def drain : Nat → Tcq P S → List (TcFinal P S) → Tcq P S × List (TcFinal P S)
  | 0, q, handed => (q, handed)
  | fuel + 1, q, handed =>
    match readyDeliver v.site q.appliedOrd q.removed q.queue with
    | (none, q) => (q, handed)
    | (some t, q) => if v.sendOk handed.length then drain fuel q (handed ++ [t]) else (q, handed ++ [t])

/-- `ITRC_Insert_TC_ID` and the calls of `ITRC_TC_Ready_Deliver` after it, which a control center
has. Each of them that returns a message takes a node out of the queue. -/
def Master.insertTc (s : Master P S) (o : Ordinal) (f : TcNode P S → TcNode P S) : Master P S :=
  if v.controlCenter then
    let q := insertTcId s.tcq o f
    let (q, handed) := drain v (q.queue.length + 1) q s.handed
    { s with tcq := q, handed := handed }
  else s

/-- The part of `ITRC_Process_Prime_Ordinal` for a transfer to the replica itself. -/
def Master.ownTransfer (s : Master P S) (o : Ordinal) : Master P S :=
  if OrdConsec s.recvdOrd o then
    { s with
      stq := s.stq.dropWhile fun n => ordCompare n.ord o ≤ 0
      tcq := if v.controlCenter then s.tcq else { s.tcq with appliedOrd := o } }
  else
    let s := { s with collectingSignal := true, signals := s.signals ++ [o] }
    s.offerState v v.site.myId (StXfer.dummy o)

def isNoOp : PrimeMsg → Bool
  | .noOp _ => true
  | _ => false

def isTransfer : PrimeMsg → Bool
  | .stateTransfer _ => true
  | _ => false

/-- The messages that nobody is given: contents that are not valid, no-ops and duplicates. -/
def quiet (me : Nat) (progress : Nat → SeqPair) (m : PrimeMsg) : Bool :=
  !m.valid me || isNoOp m || m.duplicate progress

/-- The end of `ITRC_Process_Prime_Ordinal`: what goes to the master. -/
def Master.forward (s : Master P S) (o : Ordinal) (m : PrimeMsg) : Master P S :=
  match m.toMaster numProgress s.progress with
  | none => s
  | some z => { s with ordQueue := s.ordQueue ++ [o], progress := m.advance s.progress, toSm := s.toSm ++ [z] }

/-- `recvd_ord = o`. -/
def Master.record (s : Master P S) (o : Ordinal) (m : PrimeMsg) : Master P S :=
  { s with recvdOrd := o, processed := s.processed ++ [(o, m)] }

/-- The empty slot in the queue of shares for an ordinal without a share. -/
def Master.skipOrdinal (s : Master P S) (o : Ordinal) (m : PrimeMsg) : Master P S :=
  if quiet v.site.myId s.progress m || isTransfer m then s.insertTc v o (TcNode.pass v.site) else s

/-- `ITRC_Process_Prime_Ordinal` once the ordinal is taken. -/
def Master.takeOrdinal (s : Master P S) (o : Ordinal) (m : PrimeMsg) : Master P S :=
  let skipped := s.skipOrdinal v o m
  let taken := (if m.transfersTo v.site.myId then skipped.ownTransfer v o else skipped).record o m
  if quiet v.site.myId s.progress m || m.transfersTo v.site.myId then taken else taken.forward o m

/-- `ITRC_Process_Prime_Ordinal`. -/
def Master.processPrimeOrdinal (s : Master P S) (o : Ordinal) (m : PrimeMsg) : Master P S :=
  if s.collectingSignal then { s with pendingUpdates := s.pendingUpdates ++ [(o, m)] }
  else if ¬OrdConsec s.recvdOrd o ∧ m.transfersTo v.site.myId = false then { s with gaps := s.gaps ++ [o] }
  else s.takeOrdinal v o m

/-- The updates that waited for a transfer, until one of them starts another collection. -/
def Master.replay (s : Master P S) : List (Ordinal × PrimeMsg) → Master P S
  | [] => s
  | (o, m) :: rest =>
    if s.collectingSignal then { s with pendingUpdates := (o, m) :: rest }
    else Master.replay (if 0 < ordCompare o s.recvdOrd then s.processPrimeOrdinal v o m else s) rest

/-- What follows a message that may have completed a transfer. The flag is cleared before the
updates are replayed. -/
def Master.afterTransfer (s : Master P S) : Master P S :=
  if s.completedTransfer then
    if s.collectingSignal then { s with fault := some .stillCollecting }
    else Master.replay v { s with completedTransfer := false, pendingUpdates := [] } s.pendingUpdates
  else s

/-- A message from Prime. -/
def Master.onPrime (s : Master P S) (o : Ordinal) (m : PrimeMsg) : Master P S :=
  let first := s.recvdFirstOrdinal = false ∧ ¬OrdConsec s.recvdOrd o
  let s :=
    { s with
      injected := if first then s.injected + 1 else s.injected
      recvdFirstOrdinal := true
      arrived := s.arrived ++ [(o, m)] }
  if ordCompare o s.recvdOrd ≤ 0 then { s with olds := s.olds ++ [o] }
  else (s.processPrimeOrdinal v o m).afterTransfer v

/-- A reset that Prime has executed, with `ITRC_Reset_Master_Data_Structures`. -/
def Master.onPrimeReset (s : Master P S) (o : Ordinal) : Master P S :=
  if o.ordNum ≠ 0 then { s with fault := some .resetOrdinal }
  else
    { s with
      recvdOrd := zeroOrd
      collectingSignal := false
      completedTransfer := false
      pendingUpdates := []
      ordQueue := []
      tcq := Tcq.start zeroOrd
      stq := []
      toSm := s.toSm ++ [.systemReset]
      arrived := []
      processed := []
      signals := []
      transfers := []
      olds := []
      gaps := [] }

/-- A reply of the master: a state goes to the replica it is for, and of everything else a share
is made. -/
def Master.onReply (s : Master P S) (r : Scada.Reply) : Master P S :=
  match s.ordQueue with
  | [] => { s with fault := some .emptyQueue }
  | o :: rest =>
    let s := { s with ordQueue := rest }
    match r with
    | .stateXfer _ => s
    | r =>
      let tcm := v.tcShare o r
      s.insertTc v tcm.ord (TcNode.receive v.crypto v.site v.site.myId tcm)

/-- A share from another replica. -/
def Master.onShare (s : Master P S) (sender : Nat) (tcm : TcShare P S) : Master P S :=
  s.insertTc v tcm.ord (TcNode.receive v.crypto v.site sender tcm)

/-- A state from another replica. -/
def Master.onStateXfer (s : Master P S) (sender : Nat) (st : StXfer) : Master P S :=
  (s.offerState v sender st).afterTransfer v

/-- One round of `ITRC_Master`, unless an assertion has failed. -/
def Master.step (s : Master P S) (x : MasterInput P S) : Master P S :=
  if s.fault ≠ none then s
  else
    match x with
    | .prime o m => s.onPrime v o m
    | .primeReset o => s.onPrimeReset o
    | .reply r => s.onReply v r
    | .share sender tcm => s.onShare v sender tcm
    | .stateXfer sender st => s.onStateXfer v sender st

/-- `ITRC_Master` up to its loop. -/
def Master.init : Master P S :=
  { recvdFirstOrdinal := false, recvdOrd := zeroOrd, progress := fun _ => ⟨0, 0⟩, collectingSignal := false
    completedTransfer := false, pendingUpdates := [], ordQueue := [], tcq := Tcq.start zeroOrd, stq := []
    fault := none, injected := 0, toSm := [], handed := [], arrived := [], processed := [], signals := []
    transfers := [], olds := [], gaps := [] }

def Master.run (s : Master P S) (xs : List (MasterInput P S)) : Master P S := xs.foldl (Master.step v) s

end Code

/-! ## What each part does -/

section Shares

variable {v : Setting P S G}

/-- Shares and the messages made of them are all that changes. -/
theorem insertTc_frame (s : Master P S) (o : Ordinal) (f : TcNode P S → TcNode P S) :
    ∃ q handed, s.insertTc v o f = { s with tcq := q, handed := handed } := by
  unfold Master.insertTc
  split_ifs
  · exact ⟨_, _, rfl⟩
  · exact ⟨s.tcq, s.handed, rfl⟩

end Shares

section Parts

variable [DecidableEq G] {v : Setting P S G} {s : Master P S} {o : Ordinal} {m : PrimeMsg} {sender : Nat} {st : StXfer}
  {n : StNode}

@[simp] theorem StNode.collect_ord : (n.collect v st).ord = n.ord := by
  unfold StNode.collect
  split_ifs <;> rfl

theorem StNode.receive_ord (n : StNode) : (n.receive v sender st).ord = n.ord := by
  unfold StNode.receive
  split_ifs
  · rfl
  · rfl
  · exact StNode.collect_ord

/-- The queue of states is in order, and a node is collected with its state. -/
structure Master.Queued (s : Master P S) : Prop where
  keyed : Keyed StNode.key s.stq
  result : ∀ n ∈ s.stq, n.collected = true → n.result.isSome

theorem StNode.collect_result (h : n.collected = true → n.result.isSome) :
    (n.collect v st).collected = true → (n.collect v st).result.isSome := by
  unfold StNode.collect
  split_ifs
  · exact fun _ => rfl
  · exact h

theorem StNode.receive_result (h : n.collected = true → n.result.isSome) :
    (n.receive v sender st).collected = true → (n.receive v sender st).result.isSome := by
  unfold StNode.receive
  split_ifs
  · exact h
  · exact h
  · exact StNode.collect_result h

theorem Master.Queued.stNode (h : s.Queued) : (s.stNode o).collected = true → (s.stNode o).result.isSome := by
  rcases entry_mem_or StNode.key o.key (StNode.new o) s.stq with hmem | ⟨-, hfresh⟩
  · exact h.result _ hmem
  · rw [Master.stNode, hfresh]
    exact fun hc => by cases hc

theorem insertStId_frame (s : Master P S) (sender : Nat) (st : StXfer) :
    ∃ q, s.insertStId v sender st = { s with stq := q } := by
  unfold Master.insertStId
  split_ifs
  · exact ⟨s.stq, rfl⟩
  · exact ⟨_, rfl⟩

theorem Master.Queued.insertStId (h : s.Queued) : (s.insertStId v sender st).Queued := by
  unfold Master.insertStId
  split_ifs
  · exact h
  · refine ⟨h.keyed.upsert (fun n => congrArg Ordinal.key n.receive_ord) rfl, fun n hn => ?_⟩
    rcases (mem_upsert h.keyed).mp hn with rfl | ⟨hn, -⟩
    · exact StNode.receive_result h.stNode
    · exact h.result n hn

/-- The state that completes a transfer, if there is one. -/
def Master.completed (v : Setting P S G) (s : Master P S) (sender : Nat) (st : StXfer) : Option StXfer :=
  ((s.stNode st.ord).receive v sender st).result

/-- A state that completes a transfer is applied; any other is only stored. -/
theorem offerState_cases (h : s.Queued) (sender : Nat) (st : StXfer) :
    (s.Completes v sender st ∧ ∃ x tcq stq, s.completed v sender st = some x ∧ tcq.appliedOrd = st.ord ∧
      stq.Sublist (s.insertStId v sender st).stq ∧ s.offerState v sender st =
        { s with
          stq := stq, tcq := tcq, progress := fun idx => x.body.latestUpdate.getD idx ⟨0, 0⟩
          toSm := s.toSm ++ [.stateXfer x.body], collectingSignal := false, completedTransfer := true
          transfers := s.transfers ++ [(st.ord, x)] }) ∨
      ¬s.Completes v sender st ∧ s.offerState v sender st = s.insertStId v sender st := by
  by_cases hc : s.Completes v sender st
  · obtain ⟨hnew, -, hcollected, -⟩ := id hc
    have hsome := StNode.receive_result h.stNode hcollected
    obtain ⟨x, hx⟩ := Option.isSome_iff_exists.mp hsome
    have hfind : ((s.insertStId v sender st).stq.find? fun n => ordCompare n.ord st.ord = 0).bind StNode.result = some x := by
      have hkey : ∀ n : StNode, (StNode.receive v sender st n).key = n.key := fun n => congrArg Ordinal.key n.receive_ord
      have hnew' : (StNode.new st.ord).key = st.ord.key := rfl
      have hfound := find?_upsert (k := st.ord.key) h.keyed hkey hnew'
      have hsame : (fun n : StNode => decide (ordCompare n.ord st.ord = 0)) = fun n => decide (n.key = st.ord.key) := by
        funext n
        exact decide_eq_decide.mpr (ordCompare_eq_zero.trans eq_comm)
      rw [Master.insertStId, if_neg hnew, hsame, hfound]
      exact hx
    obtain ⟨q, hq⟩ := insertStId_frame (v := v) s sender st
    let tcq : Tcq P S :=
      { s.tcq with appliedOrd := st.ord, queue := s.tcq.queue.dropWhile fun n => ordCompare n.ord st.ord ≤ 0 }
    refine .inl ⟨hc, x, tcq, q.dropWhile fun n => ordCompare n.ord st.ord ≤ 0, hx, rfl, ?_, ?_⟩
    · rw [hq]
      exact List.dropWhile_sublist _
    · rw [Master.offerState, if_pos hc, Master.applyStateTransfer, hfind, hq]
  · exact .inr ⟨hc, if_neg hc⟩

theorem Master.Queued.sublist {q : List StNode} (h : s.Queued) (hq : q.Sublist s.stq) :
    Keyed StNode.key q ∧ ∀ n ∈ q, n.collected = true → n.result.isSome :=
  ⟨h.keyed.sublist hq, fun n hn => h.result n (hq.subset hn)⟩

theorem Master.Queued.offerState (h : s.Queued) (sender : Nat) (st : StXfer) : (s.offerState v sender st).Queued := by
  obtain ⟨-, x, tcq, stq, -, -, hstq, heq⟩ | ⟨-, heq⟩ := offerState_cases (v := v) h sender st
  · obtain ⟨hkeyed, hresult⟩ := h.insertStId.sublist hstq
    rw [heq]
    exact ⟨hkeyed, hresult⟩
  · rw [heq]
    exact h.insertStId

/-- Prime signals a transfer to the replica that it needs. -/
def Master.Needs (v : Setting P S G) (s : Master P S) (o : Ordinal) (m : PrimeMsg) : Prop :=
  m.transfersTo v.site.myId = true ∧ ¬OrdConsec s.recvdOrd o

instance : Decidable (s.Needs v o m) := by
  unfold Master.Needs
  infer_instance

/-- The states for a signal of Prime are there already when it comes. -/
def Master.Collected (v : Setting P S G) (s : Master P S) (o : Ordinal) : Prop :=
  (s.insertTc v o (TcNode.pass v.site)).Completes v v.site.myId (StXfer.dummy o)

instance : Decidable (s.Collected v o) := by
  unfold Master.Collected
  infer_instance

/-- What a replica has once it has taken an ordinal. -/
structure Master.Taken (v : Setting P S G) (s : Master P S) (o : Ordinal) (m : PrimeMsg) (s' : Master P S) : Prop where
  recvdOrd : s'.recvdOrd = o
  processed : s'.processed = s.processed ++ [(o, m)]
  pending : s'.pendingUpdates = s.pendingUpdates
  arrived : s'.arrived = s.arrived
  reports : s'.olds = s.olds ∧ s'.gaps = s.gaps
  fault : s'.fault = s.fault
  queued : s'.Queued
  goesOn : ¬s.Needs v o m → s'.collectingSignal = s.collectingSignal ∧ s'.completedTransfer = s.completedTransfer ∧
    s'.transfers = s.transfers ∧ s'.signals = s.signals
  waits : s.Needs v o m → ¬s.Collected v o → s'.collectingSignal = true ∧
    s'.completedTransfer = s.completedTransfer ∧ s'.transfers = s.transfers ∧ s'.signals = s.signals ++ [o]
  applies : s.Needs v o m → s.Collected v o → s'.collectingSignal = false ∧ s'.completedTransfer = true ∧
    (∃ st, s'.transfers = s.transfers ++ [(o, st)]) ∧ s'.signals = s.signals ++ [o]

theorem transfersTo_isTransfer {me : Nat} (h : m.transfersTo me = true) : isTransfer m = true := by
  cases m <;> first | rfl | cases h

theorem forward_frame (s : Master P S) (o : Ordinal) (m : PrimeMsg) :
    ∃ ordQueue progress toSm, s.forward o m = { s with ordQueue := ordQueue, progress := progress, toSm := toSm } := by
  unfold Master.forward
  split
  · exact ⟨_, _, _, rfl⟩
  · exact ⟨_, _, _, rfl⟩

/-- What goes to the master changes nothing else. -/
theorem Master.Taken.forward {s' : Master P S} (h : s.Taken v o m s') : s.Taken v o m (s'.forward o m) := by
  obtain ⟨ordQueue, progress, toSm, heq⟩ := forward_frame s' o m
  rw [heq]
  exact ⟨h.recvdOrd, h.processed, h.pending, h.arrived, h.reports, h.fault, ⟨h.queued.keyed, h.queued.result⟩, h.goesOn,
    h.waits, h.applies⟩

/-- A transfer to the replica itself, where it is needed: the signal is recorded, and the state
applied if it is there. -/
theorem ownTransfer_needed (h : s.Queued) (hgap : ¬OrdConsec s.recvdOrd o) :
    (s.Completes v v.site.myId (StXfer.dummy o) ∧ ∃ x tcq stq, Keyed StNode.key stq ∧
      (∀ n ∈ stq, n.collected = true → n.result.isSome) ∧ s.ownTransfer v o =
        { s with
          stq := stq, tcq := tcq, progress := fun idx => x.body.latestUpdate.getD idx ⟨0, 0⟩
          toSm := s.toSm ++ [.stateXfer x.body], collectingSignal := false, completedTransfer := true
          transfers := s.transfers ++ [(o, x)], signals := s.signals ++ [o] }) ∨
      ¬s.Completes v v.site.myId (StXfer.dummy o) ∧ ∃ stq, Keyed StNode.key stq ∧
        (∀ n ∈ stq, n.collected = true → n.result.isSome) ∧
        s.ownTransfer v o = { s with stq := stq, collectingSignal := true, signals := s.signals ++ [o] } := by
  have hq : ({ s with collectingSignal := true, signals := s.signals ++ [o] } : Master P S).Queued :=
    ⟨h.keyed, h.result⟩
  have hown : s.ownTransfer v o =
      ({ s with collectingSignal := true, signals := s.signals ++ [o] } : Master P S).offerState v v.site.myId
        (StXfer.dummy o) := if_neg hgap
  rw [hown]
  have hkept := hq.offerState (v := v) v.site.myId (StXfer.dummy o)
  obtain ⟨hc, x, tcq, stq, -, -, -, heq⟩ | ⟨hc, heq⟩ :=
    offerState_cases (v := v) hq v.site.myId (StXfer.dummy o)
  · rw [heq] at hkept
    exact .inl ⟨hc, x, tcq, stq, hkept.keyed, hkept.result, heq⟩
  · obtain ⟨stq, hstq⟩ := insertStId_frame (v := v)
      ({ s with collectingSignal := true, signals := s.signals ++ [o] } : Master P S) v.site.myId (StXfer.dummy o)
    rw [heq, hstq] at hkept
    exact .inr ⟨hc, stq, hkept.keyed, hkept.result, heq.trans hstq⟩

theorem record_taken (h : s.Queued) (o : Ordinal) (m : PrimeMsg) {s₁ : Master P S}
    (hs₁ : s₁ = s ∧ isTransfer m = false ∨ s₁ = s.insertTc v o (TcNode.pass v.site)) :
    s.Taken v o m ((if m.transfersTo v.site.myId then s₁.ownTransfer v o else s₁).record o m) := by
  obtain ⟨q, handed, hframe⟩ : ∃ q handed, s₁ = { s with tcq := q, handed := handed } := by
    rcases hs₁ with ⟨rfl, -⟩ | rfl
    · exact ⟨_, _, rfl⟩
    · exact insertTc_frame s o _
  have hq : s₁.Queued := by
    rw [hframe]
    exact ⟨h.keyed, h.result⟩
  have hrecvd : s₁.recvdOrd = s.recvdOrd := by rw [hframe]
  by_cases hto : m.transfersTo v.site.myId = true
  · rw [if_pos hto]
    have hinsert : s₁ = s.insertTc v o (TcNode.pass v.site) := by
      rcases hs₁ with ⟨-, hno⟩ | hs₁
      · rw [transfersTo_isTransfer hto] at hno
        cases hno
      · exact hs₁
    by_cases hgap : OrdConsec s.recvdOrd o
    · have hneeds : ¬s.Needs v o m := fun hn => hn.2 hgap
      rw [Master.ownTransfer, if_pos (hrecvd ▸ hgap)]
      obtain ⟨hkeyed, hresult⟩ := hq.sublist (List.dropWhile_sublist fun n => ordCompare n.ord o ≤ 0)
      rw [hframe] at hkeyed hresult ⊢
      exact ⟨rfl, rfl, rfl, rfl, ⟨rfl, rfl⟩, rfl, ⟨hkeyed, hresult⟩, fun _ => ⟨rfl, rfl, rfl, rfl⟩,
        fun hn => absurd hn hneeds, fun hn => absurd hn hneeds⟩
    · have hneeds : s.Needs v o m := ⟨hto, hgap⟩
      obtain ⟨hc, x, tcq, stq, hkeyed, hresult, heq⟩ | ⟨hc, stq, hkeyed, hresult, heq⟩ :=
        ownTransfer_needed (v := v) hq (hrecvd.symm ▸ hgap)
      · rw [heq]
        have hcollected : s.Collected v o := by
          rw [Master.Collected, ← hinsert]
          exact hc
        subst hframe
        exact ⟨rfl, rfl, rfl, rfl, ⟨rfl, rfl⟩, rfl, ⟨hkeyed, hresult⟩, fun hn => absurd hneeds hn,
          fun _ hn => absurd hcollected hn, fun _ _ => ⟨rfl, rfl, ⟨x, rfl⟩, rfl⟩⟩
      · rw [heq]
        have hcollected : ¬s.Collected v o := by
          rw [Master.Collected, ← hinsert]
          exact hc
        subst hframe
        exact ⟨rfl, rfl, rfl, rfl, ⟨rfl, rfl⟩, rfl, ⟨hkeyed, hresult⟩, fun hn => absurd hneeds hn,
          fun _ _ => ⟨rfl, rfl, rfl, rfl⟩, fun _ hn => absurd hn hcollected⟩
  · have hneeds : ¬s.Needs v o m := fun hn => hto hn.1
    rw [if_neg hto]
    subst hframe
    exact ⟨rfl, rfl, rfl, rfl, ⟨rfl, rfl⟩, rfl, ⟨h.keyed, h.result⟩, fun _ => ⟨rfl, rfl, rfl, rfl⟩,
      fun hn => absurd hn hneeds, fun hn => absurd hn hneeds⟩

/-- **Taking an ordinal.** -/
theorem takeOrdinal_taken (h : s.Queued) (o : Ordinal) (m : PrimeMsg) : s.Taken v o m (s.takeOrdinal v o m) := by
  have hskipped : s.skipOrdinal v o m = s ∧ isTransfer m = false ∨
      s.skipOrdinal v o m = s.insertTc v o (TcNode.pass v.site) := by
    by_cases hskip : (quiet v.site.myId s.progress m || isTransfer m) = true
    · exact .inr (if_pos hskip)
    · exact .inl ⟨if_neg hskip, (Bool.or_eq_false_iff.mp (Bool.eq_false_iff.mpr hskip)).2⟩
  have htaken := record_taken (v := v) h o m hskipped
  by_cases hsilent : (quiet v.site.myId s.progress m || m.transfersTo v.site.myId) = true
  · rw [Master.takeOrdinal, if_pos hsilent]
    exact htaken
  · rw [Master.takeOrdinal, if_neg hsilent]
    exact htaken.forward

end Parts

end Spire.Itrc
