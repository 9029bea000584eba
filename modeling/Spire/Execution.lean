import Spire.Lib.Runs
import Spire.Order
import Spire.Validate

/-!
# Executing an ordinal

`ORDER_Ready_To_Execute` and `ORDER_Execute_Commit` of `order.c`. The requests an ordinal
executes are, for each server, those between the slot's `last_executed` and its
`made_eligible`; a new incarnation starts at one again. The slot waits until all of them are
there, and then their events go to the client in this order.

`Spire.Order` has the ordering side of the same functions and leaves the requests to the
action that executes. Here they are followed, and the rest of the program is one input,
`elsewhere`, which may change whatever these functions read. The end of
`ORDER_Execute_Commit` (reconciliation, the certificate, Prepares, garbage collection and
the next pending slot) is part of it.

Sequence numbers are 32-bit words: the loops start at the successor modulo `2 ^ 32`, and a
loop up to the largest word never ends.
-/

namespace Spire.Execution

open Spire.Order Spire.PreOrder

variable {D E : Type}

/-! ## State -/

/-- `po_id`: a request. -/
structure PoId where
  serverId : Nat
  seq : PoSeqPair
deriving DecidableEq, Repr

/-- `po_slot`, with the events of its `po_request`. -/
structure PoSlot (E : Type) where
  poRequest : Option (List E)
deriving DecidableEq, Repr

/-- The assertions of the two functions, and the loop that does not end. -/
inductive Fault
  | backwards | endless | notFirst | wrongOrdinal | missingSlot | missingRequest
deriving DecidableEq, Repr

/-- `DATA`, as far as the two functions read and write it. -/
structure Around (D E : Type) where
  aru : Nat
  stableCatchup : Nat
  /-- `DATA.ORD.History`. -/
  history : Nat → Option (OrdSlot D)
  /-- `num_remaining_for_execution` of the slots. -/
  numRemaining : Nat → Nat
  /-- `DATA.ORD.Pending_Execution`. -/
  pendingSlots : List Nat
  /-- `DATA.PO.History` of each server. -/
  poHistory : Nat → PoSeqPair → Option (PoSlot E)
  cumAru : Nat → PoSeqPair
  /-- `DATA.PO.Pending_Execution`: a request and the slot that waits for it. -/
  pendingRequests : List (PoId × Nat)
  lastExecutedPoReqs : Nat → PoSeqPair
  poSeqExecuted : PoSeqPair
  recoveryStatus : Nat → RecoveryStatus
  numStartup : Nat
  preinstalledIncarnations : Nat → Nat
  installedIncarnations : Nat → Nat

/-- A slot that was executed: whether there was no slot before it, and the requests it
handed to event processing. -/
structure Executed (D : Type) where
  slot : OrdSlot D
  isFirst : Bool
  requests : List PoId

/-- `ORDER_Execute_Event`. The event is missing in the no-op of a slot without events. -/
structure Delivery (E : Type) where
  event : Option E
  seqNum : Nat
  index : Nat
  total : Nat

/-- The state of a server. -/
structure Node (D E : Type) extends Around D E where
  executed : List (Executed D)
  delivered : List (Delivery E)
  fault : Option Fault

def Node.start (a : Around D E) : Node D E := { toAround := a, executed := [], delivered := [], fault := none }

namespace Around

variable (a : Around D E)

/-- The slot before an ordinal. -/
def previousSlot (gseq : Nat) : Option (OrdSlot D) := a.history (Validate.wrap32 (gseq + (2 ^ 32 - 1)))

/-- `UTIL_Mark_ORD_Slot_As_Pending`. -/
def markPending (gseq : Nat) : Around D E :=
  { a with pendingSlots := if gseq ∈ a.pendingSlots then a.pendingSlots else a.pendingSlots ++ [gseq] }

end Around

/-! ## Ranges of requests -/

/-- Where the loop over the requests of a server starts. -/
def firstSeq (prev cur : PoSeqPair) : Nat :=
  Validate.wrap32 ((if prev.incarnation < cur.incarnation then 0 else prev.seqNum) + 1)

/-- The requests the loop visits. -/
def requestRange (prev cur : PoSeqPair) : List PoSeqPair :=
  (List.range' (firstSeq prev cur) (cur.seqNum + 1 - firstSeq prev cur)).map (PoSeqPair.mk cur.incarnation)

/-- The loop over the requests of one server, as both functions have it. -/
def requestsBetween (prev cur : PoSeqPair) : Except Fault (List PoSeqPair) :=
  if cur.incarnation < prev.incarnation then .error .backwards
  else if 2 ^ 32 ≤ cur.seqNum + 1 then .error .endless
  else .ok (requestRange prev cur)

/-- `prev_pop`: nothing before the first ordinal. -/
def prevPop (isFirst : Bool) (slot : OrdSlot D) (i : Nat) : PoSeqPair :=
  if isFirst then PoSeqPair.zero else slot.proposal.lastExecuted.getD (i - 1) PoSeqPair.zero

/-- `cur_pop`. -/
def curPop (slot : OrdSlot D) (i : Nat) : PoSeqPair := slot.madeEligible.getD (i - 1) PoSeqPair.zero

/-! ## The code -/

section Code

variable (c : Config)

/-- A request the slot has to wait for. -/
def isMissing (a : Around D E) (i : Nat) (ps : PoSeqPair) : Bool :=
  match a.poHistory i ps with
  | none => true
  | some p => p.poRequest.isNone || decide (seqCompare (a.cumAru i) ps < 0)

/-- The requests of one server the slot has to wait for. -/
def missingOf (a : Around D E) (isFirst : Bool) (slot : OrdSlot D) (i : Nat) : Except Fault (List PoId) := do
  let requests ← requestsBetween (prevPop isFirst slot i) (curPop slot i)
  pure ((requests.filter (isMissing a i)).map (PoId.mk i))

/-- The loop over the servers in `ORDER_Ready_To_Execute`. -/
def missingRequests (a : Around D E) (isFirst : Bool) (slot : OrdSlot D) : Except Fault (List PoId) :=
  (List.range' 1 c.numServers).foldlM (fun found i => do
    let more ← missingOf a isFirst slot i
    pure (found ++ more)) []

/-- `ORDER_Ready_To_Execute`. -/
def readyToExecute (a : Around D E) (slot : OrdSlot D) : Except Fault (Bool × Around D E) :=
  let gseq := slot.proposal.seqNum
  let prev := a.previousSlot gseq
  if (prev.isNone ∧ gseq ≠ 1) ∨ prev.any (fun p => !p.executed) then .ok (false, a.markPending gseq)
  else if 0 < a.numRemaining slot.seqNum then .ok (false, a.markPending gseq)
  else do
    let missing ← missingRequests c a prev.isNone slot
    let a :=
      { a with
        numRemaining := Function.update a.numRemaining slot.seqNum (a.numRemaining slot.seqNum + missing.length)
        pendingRequests := a.pendingRequests ++ missing.map fun pid => (pid, slot.seqNum) }
    pure (if 0 < a.numRemaining slot.seqNum then (false, a.markPending gseq) else (true, a))

/-- What the loop over the requests works on. -/
structure Pass (D E : Type) where
  around : Around D E
  eventq : List E
  requests : List PoId

/-- What the first request of a new incarnation changes. -/
def Around.noteIncarnation (a : Around D E) (i : Nat) (ps : PoSeqPair) : Around D E :=
  if (a.lastExecutedPoReqs i).incarnation < ps.incarnation ∧ ps.seqNum = 1 then
    { a with
      numStartup := if a.recoveryStatus i = .startup then a.numStartup - 1 else a.numStartup
      recoveryStatus :=
        if a.preinstalledIncarnations i ≤ ps.incarnation then
          Function.update a.recoveryStatus i .normal
        else a.recoveryStatus
      preinstalledIncarnations :=
        if a.preinstalledIncarnations i ≤ ps.incarnation then
          Function.update a.preinstalledIncarnations i ps.incarnation
        else a.preinstalledIncarnations
      installedIncarnations := Function.update a.installedIncarnations i ps.incarnation }
  else a

/-- The body of the loop over the requests of server `i`. -/
def executeRequest (me i : Nat) (pass : Pass D E) (ps : PoSeqPair) : Except Fault (Pass D E) :=
  match pass.around.poHistory i ps with
  | none => .error .missingSlot
  | some p =>
    match p.poRequest with
    | none => .error .missingRequest
    | some events =>
      let a := pass.around.noteIncarnation i ps
      .ok
        { around :=
            { a with
              poSeqExecuted := if i = me then ps else a.poSeqExecuted
              lastExecutedPoReqs := Function.update a.lastExecutedPoReqs i ps }
          eventq := pass.eventq ++ events
          requests := pass.requests ++ [⟨i, ps⟩] }

/-- The slots of an earlier incarnation of a server that will never be ordered are dropped. -/
def Around.cleanup (a : Around D E) (i : Nat) (prev cur : PoSeqPair) : Around D E :=
  { a with
    poHistory := Function.update a.poHistory i fun ps =>
      if ps.incarnation < cur.incarnation ∧ 0 < seqCompare ps prev then none else a.poHistory i ps }

/-- The body of the loop over the servers. -/
def executeServer (me : Nat) (isFirst : Bool) (slot : OrdSlot D) (pass : Pass D E) (i : Nat) :
    Except Fault (Pass D E) := do
  let prev := prevPop isFirst slot i
  let cur := curPop slot i
  let requests ← requestsBetween prev cur
  let pass :=
    if prev.incarnation < cur.incarnation then { pass with around := pass.around.cleanup i prev cur } else pass
  requests.foldlM (executeRequest me i) pass

/-- What `ORDER_Execute_Commit` hands to the client. -/
def deliveries (gseq : Nat) (eventq : List E) : List (Delivery E) :=
  if eventq = [] then [{ event := none, seqNum := gseq, index := 1, total := 1 }]
  else eventq.mapIdx fun k e => { event := some e, seqNum := gseq, index := k + 1, total := eventq.length }

/-- `slot->executed = 1` and `DATA.ORD.ARU++`; the first execution also starts the catchup
history. -/
def Around.advanceAru (a : Around D E) (slot : OrdSlot D) : Around D E :=
  { a with
    history := Function.update a.history slot.seqNum (some slot.markExecuted)
    aru := a.aru + 1
    stableCatchup := if a.aru = 0 then 1 else a.stableCatchup }

/-- The rest of `ORDER_Execute_Commit`, when the slot is ready. -/
def executeReady (me : Nat) (a : Around D E) (slot : OrdSlot D) : Except Fault (Pass D E) :=
  let gseq := slot.proposal.seqNum
  let isFirst := (a.previousSlot gseq).isNone
  if isFirst = true ∧ gseq ≠ 1 then .error .notFirst
  else if gseq ≠ a.aru + 1 then .error .wrongOrdinal
  else
    (List.range' 1 c.numServers).foldlM (executeServer me isFirst slot)
      { around := a.advanceAru slot, eventq := [], requests := [] }

/-- `ORDER_Execute_Commit`. -/
def executeCommit (me : Nat) (st : Node D E) (slot : OrdSlot D) : Node D E :=
  match readyToExecute c st.toAround slot with
  | .error f => { st with fault := some f }
  | .ok (false, a) => { st with toAround := a }
  | .ok (true, a) =>
    match executeReady c me a slot with
    | .error f => { st with fault := some f }
    | .ok pass =>
      let gseq := slot.proposal.seqNum
      { st with
        toAround := pass.around
        executed := st.executed ++ [⟨slot, (a.previousSlot gseq).isNone, pass.requests⟩]
        delivered := st.delivered ++ deliveries gseq pass.eventq }

/-- What can happen to a server: a slot is tried, or the rest of the program runs. -/
inductive Input (D E : Type)
  | execute (slot : OrdSlot D)
  | elsewhere (a : Around D E)

/-- One step of a server that is still there. -/
def step (me : Nat) (st : Node D E) (x : Input D E) : Node D E :=
  if st.fault.isSome then st
  else
    match x with
    | .execute slot => executeCommit c me st slot
    | .elsewhere a => { st with toAround := a }

/-- A server that handles one input after the other. -/
def run (me : Nat) (st : Node D E) (xs : List (Input D E)) : Node D E := xs.foldl (step c me) st

end Code

/-! ## What a slot executes -/

section Requests

variable {c : Config} {me : Nat}

/-- The two vectors of an executed slot. -/
def Executed.prev (e : Executed D) (i : Nat) : PoSeqPair := prevPop e.isFirst e.slot i

def Executed.cur (e : Executed D) (i : Nat) : PoSeqPair := curPop e.slot i

/-- A range whose loop ends: it does not go back to an earlier incarnation, and the counter
does not wrap. -/
structure Ends (prev cur : PoSeqPair) : Prop where
  incarnation : prev.incarnation ≤ cur.incarnation
  seqNum : cur.seqNum + 1 < 2 ^ 32

theorem requestsBetween_eq_ok {prev cur : PoSeqPair} {l : List PoSeqPair}
    (h : requestsBetween prev cur = .ok l) : l = requestRange prev cur ∧ Ends prev cur := by
  unfold requestsBetween at h
  split_ifs at h with hback hend
  cases h
  exact ⟨rfl, by omega, by omega⟩

/-- The requests an executed slot handed on are those of its ranges, server by server. -/
structure Executed.Faithful (c : Config) (e : Executed D) : Prop where
  requests : e.requests = (List.range' 1 c.numServers).flatMap fun i =>
    (requestRange (e.prev i) (e.cur i)).map (PoId.mk i)
  ends : ∀ i, 1 ≤ i → i ≤ c.numServers → Ends (e.prev i) (e.cur i)
  first : e.isFirst = true → e.slot.proposal.seqNum = 1
  positive : 0 < e.slot.proposal.seqNum

theorem executeRequest_requests {i : Nat} {pass pass' : Pass D E} {ps : PoSeqPair}
    (h : executeRequest me i pass ps = .ok pass') : pass'.requests = pass.requests ++ [⟨i, ps⟩] := by
  unfold executeRequest at h
  split at h
  · cases h
  · split at h
    · cases h
    · cases h
      rfl

theorem executeServer_requests {isFirst : Bool} {slot : OrdSlot D} {pass pass' : Pass D E} {i : Nat}
    (h : executeServer me isFirst slot pass i = .ok pass') :
    pass'.requests = pass.requests ++ (requestRange (prevPop isFirst slot i) (curPop slot i)).map (PoId.mk i) ∧
      Ends (prevPop isFirst slot i) (curPop slot i) := by
  obtain ⟨l, hl, h⟩ := Lib.bind_eq_ok.mp h
  obtain ⟨rfl, hends⟩ := requestsBetween_eq_ok hl
  refine ⟨?_, hends⟩
  have hloop := (Lib.foldlM_appends _ (K := fun _ => True)
    (fun s x t hx => ⟨executeRequest_requests hx, trivial⟩) h).1
  rw [hloop, ← List.map_eq_flatMap]
  split_ifs <;> rfl

theorem executeReady_faithful {a : Around D E} {slot : OrdSlot D} {pass : Pass D E}
    (h : executeReady c me a slot = .ok pass) :
    Executed.Faithful c ⟨slot, (a.previousSlot slot.proposal.seqNum).isNone, pass.requests⟩ := by
  unfold executeReady at h
  dsimp only at h
  split_ifs at h with hfirst hord
  obtain ⟨hrequests, hends⟩ := Lib.foldlM_appends _ (fun s i t hi => executeServer_requests hi) h
  refine ⟨hrequests, fun i h1 hi => hends i (List.mem_range'_1.mpr ⟨h1, by omega⟩), fun hnone => ?_, ?_⟩
  · exact not_not.mp fun hne => hfirst ⟨hnone, hne⟩
  · show 0 < slot.proposal.seqNum
    omega

/-- In every run, what an executed slot handed on is what its ranges say. -/
theorem run_faithful (c : Config) (me : Nat) (a : Around D E) (xs : List (Input D E)) :
    ∀ e ∈ (run c me (Node.start a) xs).executed, e.Faithful c := by
  refine Lib.foldl_inv (I := fun st : Node D E => ∀ e ∈ st.executed, e.Faithful c) (fun st x h => ?_)
    fun e he => by cases he
  unfold step
  split_ifs
  · exact h
  · cases x with
    | elsewhere a => exact h
    | execute slot =>
      simp only [executeCommit]
      split
      · exact h
      · exact h
      · split
        · exact h
        · rename_i pass hpass
          intro e he
          rcases List.mem_append.mp he with he | he
          · exact h e he
          · rw [List.mem_singleton.mp he]
            exact executeReady_faithful hpass

end Requests

end Spire.Execution
