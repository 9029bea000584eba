import Mathlib.Algebra.GroupWithZero.Nat
import Mathlib.Data.List.AList
import Spire.Lib.Ends
import Spire.PreOrder

/-!
# The pre-ordering history of a server

`DATA.PO` of one server: for each server the requests it has sent, with the acks for them, and
the sequence numbers that say how far it got with them. `aru` is the last request that is there
without a gap, `max_acked` the last one acked, `cum_aru` the last one a quorum has acked, and
`white_line` the last one that has been collected.

The functions of `pre_order.c` and `packets.c` on these, and `CATCH_Construct_PO_Certificate`
with its count. Sequence numbers are not bounded. Digests are a function of the request; what
is only sent, and `cum_max_acked`, is left out.
-/

namespace Spire.Incarnations

open Spire.PreOrder

/-! ## Messages and slots -/

/-- `NUM_F` and `NUM_K`, `My_Server_ID` and `MAX_ACK_PARTS`. -/
structure Site extends Config where
  me : Nat
  me_mem : 1 ≤ me ∧ me ≤ toConfig.numServers
  maxAckParts : Nat

/-- The loop `i = 1; i <= NUM_SERVERS; i++`. -/
def Site.all (c : Site) : List Nat := List.range' 1 c.numServers

/-- A PO_REQUEST, with the incarnation in its header. -/
structure PoRequest (E : Type) where
  machineId : Nat
  incarnation : Nat
  seq : PoSeqPair
  events : List E

/-- `po_ack_part`. -/
structure AckPart (D : Type) where
  originator : Nat
  seq : PoSeqPair
  digest : D

/-- A PO_ACK. -/
structure PoAck (D : Type) where
  machineId : Nat
  incarnation : Nat
  preinstalledIncarnations : List Nat
  parts : List (AckPart D)

/-- `ack[i]` with `ack_part[i]`. -/
structure StoredAck (D : Type) where
  preinstalledIncarnations : List Nat
  digest : D

/-- `po_slot`, with `preinstalled_snapshot` where there is one. -/
structure PoSlot (E D : Type) where
  poRequest : Option (PoRequest E)
  ack : Nat → Option (StoredAck D)
  snapshot : Option (List Nat)

/-- A slot as `UTIL_Get_PO_Slot` allocates it. -/
def PoSlot.new {E D : Type} : PoSlot E D := { poRequest := none, ack := fun _ => none, snapshot := none }

/-- A request that was executed. -/
structure PoId where
  serverId : Nat
  seq : PoSeqPair
deriving DecidableEq, Repr

/-- Failing assertions, and a request that is dereferenced and not there. -/
inductive Fault
  | ackIncarnation | ackNotCollected | ackNullRequest | certificateCount | collectMissingSlot
  | backwards | executeMissing
deriving DecidableEq, Repr

/-- `DATA.PO`. `slotLists` are the lists `po_slot_list` of the ordinals that were executed and
not yet collected. -/
structure Po (E D : Type) where
  history : Nat → AList fun _ : PoSeqPair => PoSlot E D
  aru : Nat → PoSeqPair
  maxAcked : Nat → PoSeqPair
  cumAru : Nat → PoSeqPair
  whiteLine : Nat → PoSeqPair
  lastExecutedPoReqs : Nat → PoSeqPair
  poAckStartServer : Nat
  poAckStartSeq : PoSeqPair
  slotLists : Nat → List PoId

variable {E D : Type}

namespace Po

/-- `PRE_ORDER_Initialize_Data_Structure`. -/
def start : Po E D :=
  { history := fun _ => ∅, aru := fun _ => .zero, maxAcked := fun _ => .zero, cumAru := fun _ => .zero
    whiteLine := fun _ => .zero, lastExecutedPoReqs := fun _ => .zero, poAckStartServer := 0
    poAckStartSeq := .zero, slotLists := fun _ => [] }

variable (po : Po E D)

/-- `UTIL_Get_PO_Slot_If_Exists`. -/
def slot? (s : Nat) (ps : PoSeqPair) : Option (PoSlot E D) := (po.history s).lookup ps

/-- The slot that `UTIL_Get_PO_Slot` returns. -/
def getSlot (s : Nat) (ps : PoSeqPair) : PoSlot E D := (po.slot? s ps).getD .new

/-- The request in a slot, if both are there. -/
def request? (s : Nat) (ps : PoSeqPair) : Option (PoRequest E) := (po.slot? s ps).bind PoSlot.poRequest

def putSlot (s : Nat) (ps : PoSeqPair) (slot : PoSlot E D) : Po E D :=
  { po with history := Function.update po.history s ((po.history s).insert ps slot) }

def eraseSlot (s : Nat) (ps : PoSeqPair) : Po E D :=
  { po with history := Function.update po.history s ((po.history s).erase ps) }

theorem slot?_putSlot (s s' : Nat) (ps ps' : PoSeqPair) (slot : PoSlot E D) :
    (po.putSlot s ps slot).slot? s' ps' = if s' = s ∧ ps' = ps then some slot else po.slot? s' ps' := by
  unfold slot? putSlot
  by_cases hs : s' = s
  · subst hs
    by_cases hps : ps' = ps
    · subst hps
      simp
    · simp [hps]
  · simp [hs]

theorem slot?_eraseSlot (s s' : Nat) (ps ps' : PoSeqPair) :
    (po.eraseSlot s ps).slot? s' ps' = if s' = s ∧ ps' = ps then none else po.slot? s' ps' := by
  unfold slot? eraseSlot
  by_cases hs : s' = s
  · subst hs
    by_cases hps : ps' = ps
    · subst hps
      simp
    · simp [hps]
  · simp [hs]

theorem getSlot_poRequest (s : Nat) (ps : PoSeqPair) : (po.getSlot s ps).poRequest = po.request? s ps := by
  unfold getSlot request?
  cases po.slot? s ps with
  | none => rfl
  | some slot => rfl

theorem request?_putSlot (s s' : Nat) (ps ps' : PoSeqPair) (slot : PoSlot E D) :
    (po.putSlot s ps slot).request? s' ps' =
      if s' = s ∧ ps' = ps then slot.poRequest else po.request? s' ps' := by
  unfold request?
  rw [slot?_putSlot]
  split_ifs
  · rfl
  · rfl

/-- A slot that holds the request there was. -/
theorem request?_putSlot_same {s : Nat} {ps : PoSeqPair} {slot : PoSlot E D}
    (h : slot.poRequest = po.request? s ps) (s' : Nat) (ps' : PoSeqPair) :
    (po.putSlot s ps slot).request? s' ps' = po.request? s' ps' := by
  rw [request?_putSlot]
  split_ifs with heq
  · rw [heq.1, heq.2, h]
  · rfl

theorem request?_eraseSlot (s s' : Nat) (ps ps' : PoSeqPair) :
    (po.eraseSlot s ps).request? s' ps' = if s' = s ∧ ps' = ps then none else po.request? s' ps' := by
  unfold request?
  rw [slot?_eraseSlot]
  split_ifs
  · rfl
  · rfl

end Po

/-! ## How far the requests of a server go -/

section Aru

variable (po : Po E D)

/-- The loop of `PRE_ORDER_Update_ARU` for one server: a round for each slot is enough. -/
def raiseAru (s : Nat) : Nat → PoSeqPair → PoSeqPair
  | 0, aru => aru
  | n + 1, aru =>
    let ps := ⟨aru.incarnation, aru.seqNum + 1⟩
    match po.slot? s ps with
    | none => aru
    | some slot => if slot.poRequest.isNone then aru else raiseAru s n ps

/-- `PRE_ORDER_Update_ARU`. -/
def updateAru (c : Site) : Po E D :=
  { po with aru := fun s => if s ∈ c.all then raiseAru po s (po.history s).keys.length (po.aru s) else po.aru s }

end Aru

section Code

variable [DecidableEq D] (c : Site) (makeDigest : PoRequest E → D) (preinstalled : Nat → Nat)

/-- The vector of preinstalled incarnations, as a message or a snapshot has it. -/
def vectorOf : List Nat := c.all.map preinstalled

/-- The acks that `PRE_ORDER_Update_Cum_ARU` counts. -/
def ackCount (slot : PoSlot E D) (r : PoRequest E) : Nat :=
  c.all.countP fun i => (slot.ack i).any fun a => a.digest = makeDigest r

/-- The acks that `CATCH_Construct_PO_Certificate` finds. -/
def certificateCount (slot : PoSlot E D) (snapshot : List Nat) : Nat :=
  c.all.countP fun i => (slot.ack i).any fun a => a.preinstalledIncarnations = snapshot

/-- The loop of `PRE_ORDER_Update_Cum_ARU`: a round for each slot is enough. -/
def raiseCumAru (s : Nat) : Nat → PoSeqPair → Po E D → Except Fault (Po E D)
  | 0, _, po => .ok po
  | n + 1, ps, po =>
    match po.slot? s ps with
    | none => .ok po
    | some slot =>
      match slot.poRequest with
      | none => .ok po
      | some r =>
        if ackCount c makeDigest slot r < c.quorum then .ok po
        else
          let snapshot := slot.snapshot.getD (vectorOf c preinstalled)
          if certificateCount c slot snapshot < c.quorum then .error .certificateCount
          else
            let po := po.putSlot s ps { slot with snapshot := some snapshot }
            raiseCumAru s n ⟨ps.incarnation, ps.seqNum + 1⟩ { po with cumAru := Function.update po.cumAru s ps }

/-- `PRE_ORDER_Update_Cum_ARU`. -/
def updateCumAru (po : Po E D) (s : Nat) : Except Fault (Po E D) :=
  let ps := if (po.cumAru s).incarnation < preinstalled s then ⟨preinstalled s, 0⟩ else po.cumAru s
  raiseCumAru c makeDigest preinstalled s (po.history s).keys.length ⟨ps.incarnation, ps.seqNum + 1⟩ po

/-! ## Acks -/

/-- What `PRE_ORDER_Construct_PO_Ack` works on. -/
structure Acking (E D : Type) where
  po : Po E D
  parts : List (AckPart D)

/-- The request from which a server is acked: after the last one acked or, with
`send_all_non_preordered`, after the last one that is preordered. -/
def ackStart (sendAll : Bool) (po : Po E D) (sm : Nat) : PoSeqPair :=
  if sendAll then
    let ps := if 0 ≤ seqCompare po.poAckStartSeq (po.cumAru sm) then po.poAckStartSeq else po.cumAru sm
    if ps.incarnation < preinstalled sm then ⟨preinstalled sm, 0⟩ else ps
  else po.maxAcked sm

/-- `po_ack_start_seq` and `max_acked` at a request. -/
def noteAcked (po : Po E D) (sm : Nat) (ps : PoSeqPair) : Po E D :=
  { po with
    poAckStartSeq := ps
    maxAcked :=
      if (po.maxAcked sm).seqNum < ps.seqNum then
        Function.update po.maxAcked sm { po.maxAcked sm with seqNum := ps.seqNum }
      else po.maxAcked }

/-- One request. A slot that was collected is passed over. -/
def ackRequest (sm : Nat) (ps : PoSeqPair) (a : Acking E D) : Except Fault (Acking E D) :=
  let po := noteAcked a.po sm ps
  match po.slot? sm ps with
  | none => if seqCompare (po.whiteLine sm) ps < 0 then .error .ackNotCollected else .ok { a with po := po }
  | some slot =>
    match slot.poRequest with
    | none => .error .ackNullRequest
    | some r => .ok { po := po, parts := a.parts ++ [⟨sm, ps, makeDigest r⟩] }

/-- The requests of one server, up to a full message. -/
def ackRequests (sm inc : Nat) : List Nat → Acking E D → Except Fault (Bool × Acking E D)
  | [], a => .ok (false, a)
  | seq :: seqs, a =>
    match ackRequest makeDigest sm ⟨inc, seq⟩ a with
    | .error f => .error f
    | .ok a => if a.parts.length = c.maxAckParts then .ok (true, a) else ackRequests sm inc seqs a

/-- The servers, up to a full message. -/
def ackServers (sendAll : Bool) : List Nat → Acking E D → Except Fault (Acking E D)
  | [], a => .ok { a with po := { a.po with poAckStartServer := 0 } }
  | sm :: sms, a =>
    let po := { a.po with poAckStartServer := sm }
    let ps := ackStart preinstalled sendAll po sm
    if ps.incarnation ≠ (po.aru sm).incarnation then .error .ackIncarnation
    else
      match ackRequests c makeDigest sm ps.incarnation
          (List.range' (ps.seqNum + 1) ((po.aru sm).seqNum - ps.seqNum)) { a with po := po } with
      | .error f => .error f
      | .ok (true, a) => .ok a
      | .ok (false, a) => ackServers sendAll sms { a with po := { a.po with poAckStartSeq := .zero } }

/-- `PRE_ORDER_Construct_PO_Ack`. -/
def constructPoAck (sendAll : Bool) (po : Po E D) : Except Fault (Acking E D) :=
  let sm := if po.poAckStartServer = 0 then 1 else po.poAckStartServer
  ackServers c makeDigest preinstalled sendAll (List.range' sm (c.numServers + 1 - sm)) { po := po, parts := [] }

/-- The loop around it, as long as there may be more to ack. -/
def sendAcks (sendAll : Bool) : Nat → Po E D → Except Fault (Po E D)
  | 0, po => .ok po
  | n + 1, po =>
    match constructPoAck c makeDigest preinstalled sendAll po with
    | .error f => .error f
    | .ok a => if a.parts ≠ [] ∧ a.parts.length = c.maxAckParts then sendAcks sendAll n a.po else .ok a.po

/-- Each message that is full acks a request that the ones before did not. -/
def ackRounds (po : Po E D) : Nat := (c.all.map fun s => (po.aru s).seqNum).sum + 1

/-- `PRE_ORDER_Send_PO_Ack` of a server that is `PR_NORMAL`, the loop in
`PRE_ORDER_Periodic_Retrans`, and the one in `PR_Accept_Incarnation`. -/
def sendPoAck (sendAll : Bool) (po : Po E D) : Except Fault (Po E D) :=
  sendAcks c makeDigest preinstalled sendAll (ackRounds c po) po

/-- `PRE_ORDER_Process_PO_Ack_Part`. -/
def processPoAckPart (sender : Nat) (vector : List Nat) (po : Po E D) (part : AckPart D) : Except Fault (Po E D) :=
  let expected := ((po.slot? part.originator part.seq).bind PoSlot.snapshot).getD (vectorOf c preinstalled)
  if vector ≠ expected then .ok po
  else if seqCompare part.seq (po.whiteLine part.originator) ≤ 0 then .ok po
  else
    let slot := po.getSlot part.originator part.seq
    if (slot.ack sender).isSome then .ok (po.putSlot part.originator part.seq slot)
    else
      let slot := { slot with ack := Function.update slot.ack sender (some ⟨vector, part.digest⟩) }
      updateCumAru c makeDigest preinstalled (po.putSlot part.originator part.seq slot) part.originator

/-- `PRE_ORDER_Process_PO_Ack`. -/
def processPoAck (po : Po E D) (ack : PoAck D) : Except Fault (Po E D) :=
  if preinstalled ack.machineId < ack.incarnation then .ok po
  else ack.parts.foldlM (processPoAckPart c makeDigest preinstalled ack.machineId ack.preinstalledIncarnations) po

/-! ## Requests -/

/-- `PRE_ORDER_Process_PO_Request`; `normal` says whether this server acks now. -/
def processPoRequest (normal : Bool) (po : Po E D) (r : PoRequest E) : Except Fault (Po E D) :=
  if seqCompare r.seq (po.whiteLine r.machineId) ≤ 0 then .ok po
  else if preinstalled r.machineId < r.incarnation then .ok po
  else
    let slot := po.getSlot r.machineId r.seq
    if slot.poRequest.isSome then .ok (po.putSlot r.machineId r.seq slot)
    else
      let po := updateAru (po.putSlot r.machineId r.seq { slot with poRequest := some r }) c
      match updateCumAru c makeDigest preinstalled po r.machineId with
      | .error f => .error f
      | .ok po => if normal then sendPoAck c makeDigest preinstalled false (updateAru po c) else .ok po

/-- `PRE_ORDER_Garbage_Collect_PO_Slot`, with the erasure where the caller makes it. -/
def garbageCollectPoSlot (po : Po E D) (pid : PoId) : Except Fault (Po E D) :=
  if (po.slot? pid.serverId pid.seq).isNone then .error .collectMissingSlot
  else
    let po := po.eraseSlot pid.serverId pid.seq
    .ok { po with
      whiteLine := Function.update po.whiteLine pid.serverId pid.seq
      cumAru :=
        if 0 < seqCompare pid.seq (po.cumAru pid.serverId) then Function.update po.cumAru pid.serverId pid.seq
        else po.cumAru }

/-- The part of `ORDER_Garbage_Collect_ORD_Slot` that collects the requests of an ordinal. -/
def garbageCollectRequests (po : Po E D) (seq : Nat) : Except Fault (Po E D) := do
  let po ← (po.slotLists seq).foldlM garbageCollectPoSlot po
  pure { po with slotLists := Function.update po.slotLists seq [] }

end Code

/-! ## What certification changes -/

section Certified

variable [DecidableEq D] {c : Site} {makeDigest : PoRequest E → D} {preinstalled : Nat → Nat}

/-- Acks and certificates move `cum_aru` up, to no incarnation that was not there before, and
no request goes. -/
structure Preordered (preinstalled : Nat → Nat) (po po' : Po E D) : Prop where
  aru : po'.aru = po.aru
  maxAcked : po'.maxAcked = po.maxAcked
  whiteLine : po'.whiteLine = po.whiteLine
  lastExecutedPoReqs : po'.lastExecutedPoReqs = po.lastExecutedPoReqs
  poAckStartServer : po'.poAckStartServer = po.poAckStartServer
  poAckStartSeq : po'.poAckStartSeq = po.poAckStartSeq
  slotLists : po'.slotLists = po.slotLists
  cumAru : ∀ s, SeqLe (po.cumAru s) (po'.cumAru s)
  incarnation : ∀ s, (po'.cumAru s).incarnation ≤ max (preinstalled s) (po.cumAru s).incarnation
  request : ∀ s ps, po'.request? s ps = po.request? s ps

omit [DecidableEq D] in
theorem Preordered.refl (po : Po E D) : Preordered preinstalled po po :=
  { aru := rfl, maxAcked := rfl, whiteLine := rfl, lastExecutedPoReqs := rfl, poAckStartServer := rfl
    poAckStartSeq := rfl, slotLists := rfl
    cumAru := fun _ => seqLe_refl _
    incarnation := fun _ => le_max_right _ _
    request := fun _ _ => rfl }

omit [DecidableEq D] in
theorem Preordered.trans {po po' po'' : Po E D} (h : Preordered preinstalled po po')
    (h' : Preordered preinstalled po' po'') : Preordered preinstalled po po'' :=
  { aru := h'.aru.trans h.aru
    maxAcked := h'.maxAcked.trans h.maxAcked
    whiteLine := h'.whiteLine.trans h.whiteLine
    lastExecutedPoReqs := h'.lastExecutedPoReqs.trans h.lastExecutedPoReqs
    poAckStartServer := h'.poAckStartServer.trans h.poAckStartServer
    poAckStartSeq := h'.poAckStartSeq.trans h.poAckStartSeq
    slotLists := h'.slotLists.trans h.slotLists
    cumAru := fun s => IsTrans.trans _ _ _ (h.cumAru s) (h'.cumAru s)
    incarnation := by
      intro s
      have := h.incarnation s
      have := h'.incarnation s
      omega
    request := fun s ps => (h'.request s ps).trans (h.request s ps) }

omit [DecidableEq D] in
/-- A slot whose request stays. -/
theorem Preordered.putSlot {po : Po E D} {s : Nat} {ps : PoSeqPair} {slot : PoSlot E D}
    (h : slot.poRequest = po.request? s ps) : Preordered preinstalled po (po.putSlot s ps slot) :=
  { Preordered.refl po with request := po.request?_putSlot_same h }

omit [DecidableEq D] in
theorem Preordered.raise {po : Po E D} {s : Nat} {ps : PoSeqPair} (hle : SeqLe (po.cumAru s) ps)
    (hinc : ps.incarnation ≤ max (preinstalled s) (po.cumAru s).incarnation) :
    Preordered preinstalled po { po with cumAru := Function.update po.cumAru s ps } := by
  refine { (Preordered.refl po : Preordered preinstalled po po) with cumAru := ?_, incarnation := ?_ }
  · intro s'
    show SeqLe (po.cumAru s') (Function.update po.cumAru s ps s')
    by_cases hs : s' = s
    · rw [hs, Function.update_self]
      exact hle
    · rw [Function.update_of_ne hs]
      exact seqLe_refl _
  · intro s'
    show (Function.update po.cumAru s ps s').incarnation ≤ _
    by_cases hs : s' = s
    · rw [hs, Function.update_self]
      exact hinc
    · rw [Function.update_of_ne hs]
      exact le_max_right _ _

theorem raiseCumAru_preordered {s n : Nat} {ps : PoSeqPair} {po po' : Po E D}
    (hle : SeqLe (po.cumAru s) ps) (hinc : ps.incarnation ≤ max (preinstalled s) (po.cumAru s).incarnation)
    (h : raiseCumAru c makeDigest preinstalled s n ps po = .ok po') : Preordered preinstalled po po' := by
  induction n generalizing ps po with
  | zero =>
    cases h
    exact Preordered.refl _
  | succ n ih =>
    unfold raiseCumAru at h
    split at h
    · cases h
      exact Preordered.refl _
    · rename_i slot hslot
      split at h
      · cases h
        exact Preordered.refl _
      · rename_i r hr
        dsimp only at h
        split_ifs at h
        · cases h
          exact Preordered.refl _
        · have hput : Preordered preinstalled po
              (po.putSlot s ps { slot with snapshot := some (slot.snapshot.getD (vectorOf c preinstalled)) }) :=
            Preordered.putSlot (by rw [Po.request?, hslot]; rfl)
          have hraised := hput.trans (Preordered.raise hle hinc)
          have hself : Function.update po.cumAru s ps s = ps := Function.update_self s ps po.cumAru
          refine hraised.trans (ih ?_ ?_ h)
          · show SeqLe (Function.update po.cumAru s ps s) _
            rw [hself]
            exact seqLe_iff.mpr (.inr ⟨rfl, Nat.le_succ _⟩)
          · show ps.incarnation ≤ max _ (Function.update po.cumAru s ps s).incarnation
            rw [hself]
            exact le_max_right _ _

theorem updateCumAru_preordered {s : Nat} {po po' : Po E D}
    (h : updateCumAru c makeDigest preinstalled po s = .ok po') : Preordered preinstalled po po' := by
  unfold updateCumAru at h
  dsimp only at h
  refine raiseCumAru_preordered ?_ ?_ h
  · split_ifs with hlt
    · exact seqLe_iff.mpr (.inl hlt)
    · exact seqLe_iff.mpr (.inr ⟨rfl, Nat.le_succ _⟩)
  · split_ifs
    · exact le_max_left _ _
    · exact le_max_right _ _

theorem processPoAckPart_preordered {sender : Nat} {vector : List Nat} {part : AckPart D} {po po' : Po E D}
    (h : processPoAckPart c makeDigest preinstalled sender vector po part = .ok po') :
    Preordered preinstalled po po' := by
  unfold processPoAckPart at h
  dsimp only at h
  have hput : ∀ ack, Preordered preinstalled po (po.putSlot part.originator part.seq
      { po.getSlot part.originator part.seq with ack := ack }) :=
    fun ack => Preordered.putSlot (po.getSlot_poRequest part.originator part.seq)
  split_ifs at h
  · cases h
    exact Preordered.refl _
  · cases h
    exact Preordered.refl _
  · cases h
    exact hput _
  · exact (hput _).trans (updateCumAru_preordered h)

theorem raiseCumAru_error {s n : Nat} {ps : PoSeqPair} {po : Po E D} {f : Fault}
    (h : raiseCumAru c makeDigest preinstalled s n ps po = .error f) : f = .certificateCount := by
  induction n generalizing ps po with
  | zero => cases h
  | succ n ih =>
    unfold raiseCumAru at h
    split at h
    · cases h
    · split at h
      · cases h
      · dsimp only at h
        split_ifs at h
        · cases h
          rfl
        · exact ih h

theorem updateCumAru_ends (c : Site) (makeDigest : PoRequest E → D) (preinstalled : Nat → Nat) (s : Nat) (po : Po E D) :
    Lib.Ends (· = .certificateCount) (Preordered preinstalled po) (updateCumAru c makeDigest preinstalled po s) :=
  .of (fun _ h => updateCumAru_preordered h) fun _ h => raiseCumAru_error h

theorem processPoAckPart_ends (sender : Nat) (vector : List Nat) (po : Po E D) (part : AckPart D) :
    Lib.Ends (· = .certificateCount) (Preordered preinstalled po)
      (processPoAckPart c makeDigest preinstalled sender vector po part) := by
  refine .of (fun _ h => processPoAckPart_preordered h) fun f h => ?_
  unfold processPoAckPart at h
  dsimp only at h
  split_ifs at h
  exact raiseCumAru_error h

theorem processPoAck_ends (po : Po E D) (ack : PoAck D) :
    Lib.Ends (· = .certificateCount) (Preordered preinstalled po) (processPoAck c makeDigest preinstalled po ack) := by
  unfold processPoAck
  split_ifs
  · exact Preordered.refl po
  · exact .foldlM (fun part _ po' hpo => (processPoAckPart_ends _ _ po' part).imp
      (fun _ h => hpo.trans h) fun _ h => h) (Preordered.refl po)

end Certified

/-! ## What collecting changes -/

theorem garbageCollectPoSlot_ok {po po' : Po E D} {pid : PoId} (h : garbageCollectPoSlot po pid = .ok po') :
    (po.slot? pid.serverId pid.seq).isSome ∧
      po' = { po.eraseSlot pid.serverId pid.seq with
        whiteLine := Function.update po.whiteLine pid.serverId pid.seq
        cumAru :=
          if 0 < seqCompare pid.seq (po.cumAru pid.serverId) then Function.update po.cumAru pid.serverId pid.seq
          else po.cumAru } := by
  unfold garbageCollectPoSlot at h
  split_ifs at h with hnone
  cases h
  exact ⟨Option.isSome_iff_ne_none.mpr fun hslot => hnone (by rw [hslot]; rfl), rfl⟩

theorem garbageCollectPoSlot_cumAru {po po' : Po E D} {pid : PoId} (h : garbageCollectPoSlot po pid = .ok po')
    (s : Nat) :
    po'.cumAru s =
      if s = pid.serverId ∧ 0 < seqCompare pid.seq (po.cumAru pid.serverId) then pid.seq else po.cumAru s := by
  obtain ⟨-, rfl⟩ := garbageCollectPoSlot_ok h
  show (if _ then Function.update po.cumAru pid.serverId pid.seq else po.cumAru) s = _
  by_cases hlt : 0 < seqCompare pid.seq (po.cumAru pid.serverId)
  · by_cases hs : s = pid.serverId
    · simp [hlt, hs]
    · simp [hlt, hs]
  · simp [hlt]

theorem garbageCollectPoSlot_history {po po' : Po E D} {pid : PoId} (h : garbageCollectPoSlot po pid = .ok po')
    {s : Nat} (hs : s ≠ pid.serverId) : po'.history s = po.history s := by
  obtain ⟨-, rfl⟩ := garbageCollectPoSlot_ok h
  exact Function.update_of_ne hs _ _

theorem garbageCollectPoSlot_error {po : Po E D} {pid : PoId} {f : Fault}
    (h : garbageCollectPoSlot po pid = .error f) : f = .collectMissingSlot := by
  unfold garbageCollectPoSlot at h
  split_ifs at h
  cases h
  rfl

/-- What is collected has been acked and executed, and where acking goes on stays. -/
structure Collected (po po' : Po E D) : Prop where
  aru : po'.aru = po.aru
  maxAcked : po'.maxAcked = po.maxAcked
  lastExecutedPoReqs : po'.lastExecutedPoReqs = po.lastExecutedPoReqs
  poAckStartServer : po'.poAckStartServer = po.poAckStartServer
  poAckStartSeq : po'.poAckStartSeq = po.poAckStartSeq
  slotLists : po'.slotLists = po.slotLists

theorem garbageCollectPoSlot_collected {po po' : Po E D} {pid : PoId}
    (h : garbageCollectPoSlot po pid = .ok po') : Collected po po' := by
  obtain ⟨-, rfl⟩ := garbageCollectPoSlot_ok h
  exact ⟨rfl, rfl, rfl, rfl, rfl, rfl⟩

theorem foldlM_collected {po po' : Po E D} {pids : List PoId}
    (h : pids.foldlM garbageCollectPoSlot po = .ok po') : Collected po po' := by
  refine Lib.foldlM_inv (I := Collected po) (fun pid _ q q' hround hq => ?_) h ⟨rfl, rfl, rfl, rfl, rfl, rfl⟩
  have hround := garbageCollectPoSlot_collected hround
  exact
    { aru := hround.aru.trans hq.aru
      maxAcked := hround.maxAcked.trans hq.maxAcked
      lastExecutedPoReqs := hround.lastExecutedPoReqs.trans hq.lastExecutedPoReqs
      poAckStartServer := hround.poAckStartServer.trans hq.poAckStartServer
      poAckStartSeq := hround.poAckStartSeq.trans hq.poAckStartSeq
      slotLists := hround.slotLists.trans hq.slotLists }

/-! ## What acking changes -/

/-- Acking moves `max_acked` and the place where to go on, and nothing else. -/
structure Acked (po po' : Po E D) : Prop where
  history : po'.history = po.history
  aru : po'.aru = po.aru
  cumAru : po'.cumAru = po.cumAru
  whiteLine : po'.whiteLine = po.whiteLine
  lastExecutedPoReqs : po'.lastExecutedPoReqs = po.lastExecutedPoReqs
  slotLists : po'.slotLists = po.slotLists
  incarnation : ∀ s, (po'.maxAcked s).incarnation = (po.maxAcked s).incarnation
  seqNum : ∀ s, (po'.maxAcked s).seqNum ≤ max (po.maxAcked s).seqNum (po.aru s).seqNum

theorem Acked.refl (po : Po E D) : Acked po po :=
  { history := rfl, aru := rfl, cumAru := rfl, whiteLine := rfl, lastExecutedPoReqs := rfl, slotLists := rfl
    incarnation := fun _ => rfl
    seqNum := fun _ => le_max_left _ _ }

theorem Acked.trans {po po' po'' : Po E D} (h : Acked po po') (h' : Acked po' po'') : Acked po po'' :=
  { history := h'.history.trans h.history
    aru := h'.aru.trans h.aru
    cumAru := h'.cumAru.trans h.cumAru
    whiteLine := h'.whiteLine.trans h.whiteLine
    lastExecutedPoReqs := h'.lastExecutedPoReqs.trans h.lastExecutedPoReqs
    slotLists := h'.slotLists.trans h.slotLists
    incarnation := fun s => (h'.incarnation s).trans (h.incarnation s)
    seqNum := by
      intro s
      have hlast := h'.seqNum s
      rw [h.aru] at hlast
      exact hlast.trans (max_le (h.seqNum s) (le_max_right _ _)) }

/-- Where to go on is not part of it. -/
theorem Acked.withStart (po : Po E D) (server : Nat) (seq : PoSeqPair) :
    Acked po { po with poAckStartServer := server, poAckStartSeq := seq } :=
  { Acked.refl po with }

section Acks

variable {c : Site} {makeDigest : PoRequest E → D} {preinstalled : Nat → Nat} {sendAll : Bool}

theorem noteAcked_maxAcked (po : Po E D) (sm s : Nat) (ps : PoSeqPair) :
    (noteAcked po sm ps).maxAcked s =
      if s = sm ∧ (po.maxAcked sm).seqNum < ps.seqNum then { po.maxAcked sm with seqNum := ps.seqNum }
      else po.maxAcked s := by
  by_cases hlt : (po.maxAcked sm).seqNum < ps.seqNum
  · by_cases hs : s = sm
    · simp [noteAcked, hlt, hs]
    · simp [noteAcked, hlt, hs]
  · simp [noteAcked, hlt]

theorem noteAcked_acked {po : Po E D} {sm : Nat} {ps : PoSeqPair} (h : ps.seqNum ≤ (po.aru sm).seqNum) :
    Acked po (noteAcked po sm ps) := by
  refine { Acked.refl po with incarnation := ?_, seqNum := ?_ }
  · intro s
    rw [noteAcked_maxAcked]
    split_ifs with hs
    · rw [hs.1]
    · rfl
  · intro s
    rw [noteAcked_maxAcked]
    split_ifs with hs
    · rw [hs.1]
      exact le_max_of_le_right h
    · exact le_max_left _ _

theorem ackRequest_po {sm : Nat} {ps : PoSeqPair} {a a' : Acking E D}
    (h : ackRequest makeDigest sm ps a = .ok a') : a'.po = noteAcked a.po sm ps := by
  unfold ackRequest at h
  dsimp only at h
  split at h
  · split_ifs at h
    cases h
    rfl
  · split at h
    · cases h
    · cases h
      rfl

theorem ackRequests_acked {sm inc : Nat} {seqs : List Nat} {a : Acking E D} {r : Bool × Acking E D}
    (hseqs : ∀ seq ∈ seqs, seq ≤ (a.po.aru sm).seqNum) (h : ackRequests c makeDigest sm inc seqs a = .ok r) :
    Acked a.po r.2.po := by
  induction seqs generalizing a with
  | nil =>
    cases h
    exact Acked.refl a.po
  | cons seq seqs ih =>
    unfold ackRequests at h
    split at h
    · cases h
    · rename_i a' ha
      have hpo := ackRequest_po ha
      have hacked : Acked a.po a'.po := by
        rw [hpo]
        exact noteAcked_acked (hseqs seq List.mem_cons_self)
      split_ifs at h
      · cases h
        exact hacked
      · refine hacked.trans (ih ?_ h)
        intro seq' hseq'
        rw [hacked.aru]
        exact hseqs seq' (List.mem_cons_of_mem seq hseq')

theorem ackServers_acked {sms : List Nat} {a a' : Acking E D}
    (h : ackServers c makeDigest preinstalled sendAll sms a = .ok a') : Acked a.po a'.po := by
  induction sms generalizing a with
  | nil =>
    cases h
    exact Acked.withStart a.po 0 a.po.poAckStartSeq
  | cons sm sms ih =>
    unfold ackServers at h
    dsimp only at h
    split_ifs at h
    have hstart : Acked a.po { a.po with poAckStartServer := sm } := Acked.withStart a.po sm a.po.poAckStartSeq
    have hseqs : ∀ seq ∈ List.range' ((ackStart preinstalled sendAll { a.po with poAckStartServer := sm } sm).seqNum + 1)
        ((a.po.aru sm).seqNum - (ackStart preinstalled sendAll { a.po with poAckStartServer := sm } sm).seqNum),
        seq ≤ (a.po.aru sm).seqNum := by
      intro seq hseq
      have := List.mem_range'_1.mp hseq
      omega
    split at h
    · cases h
    · rename_i a'' ha
      cases h
      exact hstart.trans (ackRequests_acked (a := { a with po := { a.po with poAckStartServer := sm } }) hseqs ha)
    · rename_i a'' ha
      have hrequests := ackRequests_acked (a := { a with po := { a.po with poAckStartServer := sm } }) hseqs ha
      exact (hstart.trans hrequests).trans
        ((Acked.withStart a''.po a''.po.poAckStartServer .zero).trans (ih h))

theorem constructPoAck_acked {po : Po E D} {a : Acking E D}
    (h : constructPoAck c makeDigest preinstalled sendAll po = .ok a) : Acked po a.po :=
  ackServers_acked (a := { po := po, parts := [] }) h

theorem sendAcks_acked {n : Nat} {po po' : Po E D}
    (h : sendAcks c makeDigest preinstalled sendAll n po = .ok po') : Acked po po' := by
  induction n generalizing po with
  | zero =>
    cases h
    exact Acked.refl _
  | succ n ih =>
    unfold sendAcks at h
    split at h
    · cases h
    · rename_i a ha
      split_ifs at h
      · exact (constructPoAck_acked ha).trans (ih h)
      · cases h
        exact constructPoAck_acked ha

theorem sendPoAck_acked {po po' : Po E D} (h : sendPoAck c makeDigest preinstalled sendAll po = .ok po') :
    Acked po po' :=
  sendAcks_acked h

end Acks

end Spire.Incarnations
