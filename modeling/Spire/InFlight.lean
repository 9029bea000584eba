import Spire.ClientUpdates
import Spire.Incarnations
import Spire.PoBatching

/-!
# PO-Requests in flight

A server has at most `MAX_PO_IN_FLIGHT` requests of its own that are sent and not executed. When it has
that many, `PRE_ORDER_Send_PO_Request` stops and detaches the descriptor from which clients are read, and
what is in `po_request_dll` stays there. `ORDER_Execute_Commit` and `CATCH_Jump_Ahead` attach the
descriptor again. Neither goes on with the queue: that is done where an update comes in, and by
`PR_Resume_Normal_Operation`.

The server is followed with all that touches the queue, the two numbers, and the descriptor. What
execution and jumps do to it is up to its own entry of `prev_pop`, `cur_pop` and `made_eligible`, which
comes with the input, as the slots of its own history do. The message itself is that of `PoBatching`.
-/

namespace Spire.InFlight

open Lib Wire Merkle PreOrder Validate ClientUpdates
open Incarnations.Node (requestsOf)

/-- `MAX_PO_IN_FLIGHT`. -/
def maxPoInFlight : Nat := 20

/-! ## The code -/

/-- One server, with what is its own in `DATA.PO` and `DATA.PR`; `queue` is `po_request_dll`. -/
structure Node extends Sender where
  /-- `preinstalled_incarnations[My_Server_ID]`. -/
  preinstalled : Nat
  /-- `installed_incarnations[My_Server_ID]`. -/
  installed : Nat
  introClientSeq : Nat → PoSeqPair
  poSeqExecuted : PoSeqPair
  /-- `last_executed_po_reqs[My_Server_ID]`. -/
  lastExecuted : PoSeqPair
  /-- `NET.from_client_sd` is attached. -/
  attached : Bool

namespace Node

/-- `DAT_Initialize` and `PR_Start_Recovery`, which leave the descriptor as it is. -/
def start (me newIncarnation : Nat) (attached : Bool) : Node :=
  { me := me, status := .startup, newIncarnation := newIncarnation, poSeq := ⟨newIncarnation, 0⟩, queue := []
    preinstalled := 0, installed := 0, introClientSeq := initialSeq me newIncarnation
    poSeqExecuted := ⟨newIncarnation, 0⟩, lastExecuted := PoSeqPair.zero, attached := attached }

variable (nd : Node)

/-- The difference of the two numbers, as the code has it: unsigned. -/
def unexecuted : Nat := wrap32 (nd.poSeq.seqNum + (2 ^ 32 - wrap32 nd.poSeqExecuted.seqNum))

/-- The loop of `PRE_ORDER_Send_PO_Request`. -/
def sendLoop : Nat → Node → Node
  | 0, nd => nd
  | fuel + 1, nd =>
    if nd.queue.isEmpty = true then nd
    else if maxPoInFlight ≤ nd.unexecuted then { nd with attached := false }
    else
      match construct nd.toSender with
      | none => nd
      | some (_, s) => sendLoop fuel { nd with toSender := s }

/-- `PRE_ORDER_Send_PO_Request`. There is an end to the loop, as a round that goes on sends a request. -/
def sendPoRequest : Node := sendLoop (maxPoInFlight + 1) nd

/-- `PRE_ORDER_Process_Update`; `sign` is `UTIL_RSA_Sign_Message`. -/
def processUpdate (sign : Memory → Memory) (update : Memory) : Node :=
  let u := ClientUpdate.read update 0
  let ps := u.pair nd.me (nd.introClientSeq nd.me)
  if numClients < u.serverId then nd
  else if SeqLe ps (nd.introClientSeq u.serverId) then nd
  else
    let update :=
      if u.Unstamped nd.me then
        sign (setField Update.seqNum (SignedMessage.content 0) ps.seqNum
          (setField SignedMessage.incarnation 0 ps.incarnation update))
      else update
    let special := u.machineId = nd.me ∧ 0 < u.monotonicCounter ∧ ps.seqNum = 1 ∧ nd.status = .recovery
    sendPoRequest { nd with
      introClientSeq := Function.update nd.introClientSeq u.serverId ps
      queue := if special then update :: nd.queue else nd.queue ++ [update] }

/-- `PR_Resume_Normal_Operation`, as far as it sends PO-Requests. -/
def resume : Node := if nd.queue.isEmpty = true then nd else nd.sendPoRequest

/-- The start of the server's own incarnation, in `ORDER_Execute_Commit` and `CATCH_Jump_Ahead`. -/
def noteStartup (incarnation : Nat) : Node :=
  let nd :=
    if nd.preinstalled ≤ incarnation then { nd with status := .normal, preinstalled := incarnation } else nd
  let nd := { nd with installed := incarnation }
  if nd.preinstalled = nd.installed then nd.resume else nd

/-- One request of the server itself in `ORDER_Execute_Commit`. -/
def executeRequest (ps : PoSeqPair) : Node :=
  let nd := { nd with
    attached := nd.attached || decide (nd.unexecuted = maxPoInFlight)
    poSeqExecuted := ps }
  let nd :=
    if nd.lastExecuted.incarnation < ps.incarnation ∧ ps.seqNum = 1 then nd.noteStartup ps.incarnation else nd
  { nd with lastExecuted := ps }

/-- `ORDER_Execute_Commit`, where the ordinal executes the server's own requests from `prev` to `cur`. -/
def executeCommit (prev cur : PoSeqPair) : Node := (requestsOf prev cur).foldl executeRequest nd

/-- The walk of `CATCH_Jump_Ahead` over the slots of the server's own history, which erases what is up to
`ps`. -/
def skipSlots (ps : PoSeqPair) : List PoSeqPair → PoSeqPair → PoSeqPair
  | [], executed => executed
  | slot :: slots, executed =>
    skipSlots ps slots (if SeqLe slot ps ∧ seqCompare executed slot < 0 then slot else executed)

/-- What `CATCH_Jump_Ahead` does for the server itself, of which it makes `ps` eligible. -/
def makeEligible (ps : PoSeqPair) : Node :=
  if 0 < seqCompare ps nd.lastExecuted then
    let nd :=
      if nd.lastExecuted.incarnation < ps.incarnation ∧ 0 < ps.seqNum then nd.noteStartup ps.incarnation else nd
    { nd with lastExecuted := ps }
  else nd

/-- `CATCH_Jump_Ahead`. -/
def jumpAhead (ps : PoSeqPair) (slots : List PoSeqPair) : Node :=
  let nd := nd.makeEligible ps
  let nd := { nd with poSeqExecuted := skipSlots ps slots nd.poSeqExecuted }
  if nd.unexecuted < maxPoInFlight then { nd with attached := true } else nd

end Node

/-- What can happen to the server. In `elsewhere` its status and its incarnations change for another
reason, and `reset` is `PR_Reset_Prime`. -/
inductive Input
  | update (update : Memory)
  | commit (prev cur : PoSeqPair)
  | jump (ps : PoSeqPair) (slots : List PoSeqPair)
  | resume
  | elsewhere (status : RecoveryStatus) (preinstalled installed : Nat)
  | reset (newIncarnation : Nat)

/-- One step. -/
def Node.step (sign : Memory → Memory) (nd : Node) : Input → Node
  | .update update => nd.processUpdate sign update
  | .commit prev cur => nd.executeCommit prev cur
  | .jump ps slots => nd.jumpAhead ps slots
  | .resume => nd.resume
  | .elsewhere status preinstalled installed =>
    { nd with status := status, preinstalled := preinstalled, installed := installed }
  | .reset newIncarnation => Node.start nd.me newIncarnation nd.attached

/-! ## What is promised -/

namespace Node

/-- The requests of the current incarnation that are sent and not executed. -/
def inFlight (nd : Node) : Nat :=
  (List.range' 1 nd.poSeq.seqNum).countP fun s => ¬SeqLe ⟨nd.poSeq.incarnation, s⟩ nd.lastExecuted

/-- No update is to be sent. A server that is recovering waits for its own first update. -/
def Idle (nd : Node) : Prop := nd.queue = [] ∨ nd.Waits

/-- Where more may be sent, clients are read and nothing is left in the queue. -/
def Flows (nd : Node) : Prop := nd.inFlight < maxPoInFlight → nd.attached = true ∧ nd.Idle

/-- `Flows` after `ORDER_Execute_Commit` and `CATCH_Jump_Ahead`. -/
def FlowsAfter (sign : Memory → Memory) (nd : Node) : Input → Prop
  | .commit prev cur => (nd.step sign (.commit prev cur)).Flows
  | .jump ps slots => (nd.step sign (.jump ps slots)).Flows
  | _ => True

/-- What is executed of the server's own requests are those of its incarnation that it has sent and not
executed, and a jump is over such that are in its history. -/
def Own (nd : Node) : Input → Prop
  | .commit prev cur => requestsOf prev cur ≠ [] → cur.incarnation = nd.poSeq.incarnation ∧
      cur.seqNum ≤ nd.poSeq.seqNum ∧ ∀ ps ∈ requestsOf prev cur, nd.poSeqExecuted.seqNum < ps.seqNum
  | .jump ps slots => ps.incarnation < nd.poSeq.incarnation ∨ ps.incarnation = nd.poSeq.incarnation ∧
      ps.seqNum ≤ nd.poSeq.seqNum ∧ (ps ∈ slots ∨ SeqLe ps nd.poSeqExecuted)
  | _ => True

/-- No more may be sent. -/
def Full (nd : Node) : Prop := nd.unexecuted = maxPoInFlight

/-- With the request or the jump the server resumes normal operation. -/
def Resumes (nd : Node) (ps : PoSeqPair) : Prop :=
  nd.lastExecuted.incarnation < ps.incarnation ∧ 0 < ps.seqNum ∧ nd.preinstalled ≤ ps.incarnation

/-- The whole queue goes into the next PO-Request. -/
def OneRequest (nd : Node) : Prop :=
  (packLoop false nd.queue (emptyRequest nd.toSender { nd.poSeq with seqNum := nd.poSeq.seqNum + 1 })).2 = []

/-- The condition on the requests that an ordinal executes. -/
def DrainsAt (nd : Node) : List PoSeqPair → Prop
  | [] => nd.Full ∨ nd.attached = true ∧ nd.Idle
  | ps :: rest => (nd.Full ∨ nd.attached = true) ∧
      (nd.queue = [] ∨ (ps.seqNum = 1 ∧ nd.Resumes ps) ∧ (rest = [] ∨ nd.OneRequest))

/-- The condition on a step. -/
def Drains (nd : Node) : Input → Prop
  | .commit prev cur => nd.DrainsAt (requestsOf prev cur)
  | .jump ps _ => nd.Idle ∨
      nd.Full ∧ ¬(ps.incarnation = nd.poSeq.incarnation ∧ nd.poSeqExecuted.seqNum < ps.seqNum) ∨
        nd.poSeq.seqNum = 0 ∧ nd.Resumes ps
  | _ => True

/-! ## Sending -/

/-- The two numbers are as close as they may be. -/
def Within (nd : Node) : Prop :=
  nd.poSeqExecuted.seqNum ≤ nd.poSeq.seqNum ∧ nd.poSeq.seqNum ≤ nd.poSeqExecuted.seqNum + maxPoInFlight

variable {nd : Node} {ps : PoSeqPair}

theorem Within.unexecuted (h : nd.Within) : nd.poSeq.seqNum = nd.poSeqExecuted.seqNum + nd.unexecuted := by
  obtain ⟨hle, hmost⟩ := h
  unfold Node.unexecuted wrap32
  simp only [maxPoInFlight] at hmost
  omega

theorem Within.full_iff (h : nd.Within) : nd.Full ↔ nd.poSeq.seqNum = nd.poSeqExecuted.seqNum + maxPoInFlight := by
  have heq := h.unexecuted
  unfold Full
  omega

theorem construct_of_not_waits {s : Sender} (h : ¬s.Waits) :
    ∃ request, construct s = some (request, { s with
      poSeq := { s.poSeq with seqNum := s.poSeq.seqNum + 1 }
      queue := (packLoop s.specialFirst s.queue
        (emptyRequest s { s.poSeq with seqNum := s.poSeq.seqNum + 1 })).2 }) :=
  ⟨_, if_neg h⟩

/-- How `PRE_ORDER_Send_PO_Request` ends. -/
inductive SendEnds (nd nd' : Node) : Prop
  | emptied (queue : nd'.queue = []) (attached : nd'.attached = nd.attached)
  | full (queue : nd'.queue ≠ []) (full : nd'.Full) (attached : nd'.attached = false)
  | waits (waits : nd.Waits) (same : nd' = nd)

/-- What it does. -/
structure Sent (nd nd' : Node) : Prop where
  same : nd' = { nd with
    poSeq := { nd.poSeq with seqNum := nd'.poSeq.seqNum }, queue := nd'.queue, attached := nd'.attached }
  more : nd.poSeq.seqNum ≤ nd'.poSeq.seqNum
  within : nd'.Within
  ends : SendEnds nd nd'

theorem sendLoop_sent {fuel : Nat} (h : nd.Within) (hfuel : maxPoInFlight < nd.unexecuted + fuel) :
    Sent nd (sendLoop fuel nd) := by
  induction fuel generalizing nd with
  | zero =>
    have heq := h.unexecuted
    have := h.2
    omega
  | succ fuel ih =>
    have heq := h.unexecuted
    unfold sendLoop
    split_ifs with hempty hfull
    · exact ⟨rfl, le_refl _, h, .emptied (List.isEmpty_iff.mp hempty) rfl⟩
    · refine ⟨rfl, le_refl _, h, .full (fun hq => hempty (List.isEmpty_iff.mpr hq)) ?_ rfl⟩
      have hmost := h.2
      show nd.unexecuted = maxPoInFlight
      omega
    by_cases hwaits : nd.Waits
    · have hnone : construct nd.toSender = none := if_pos hwaits
      rw [hnone]
      exact ⟨rfl, le_refl _, h, .waits hwaits rfl⟩
    · obtain ⟨request, hrequest⟩ := construct_of_not_waits hwaits
      rw [hrequest]
      dsimp only
      set q := (packLoop nd.specialFirst nd.queue
        (emptyRequest nd.toSender { nd.poSeq with seqNum := nd.poSeq.seqNum + 1 })).2
      have hnext : Within { nd with poSeq := { nd.poSeq with seqNum := nd.poSeq.seqNum + 1 }, queue := q } := by
        have hle := h.1
        refine ⟨?_, ?_⟩
        · show nd.poSeqExecuted.seqNum ≤ nd.poSeq.seqNum + 1
          omega
        · show nd.poSeq.seqNum + 1 ≤ nd.poSeqExecuted.seqNum + maxPoInFlight
          omega
      have hcount : nd.poSeq.seqNum + 1 = nd.poSeqExecuted.seqNum + unexecuted
          { nd with poSeq := { nd.poSeq with seqNum := nd.poSeq.seqNum + 1 }, queue := q } := hnext.unexecuted
      obtain ⟨hsame, hmore, hwithin, hends⟩ := ih hnext (by omega)
      refine ⟨hsame, ?_, hwithin, ?_⟩
      · exact (Nat.le_succ _).trans hmore
      · cases hends with
        | emptied hq ha => exact .emptied hq ha
        | full hq hf ha => exact .full hq hf ha
        | waits hw _ => exact absurd (of_decide_eq_true hw.1).2 (Nat.succ_ne_zero _)

theorem sendPoRequest_sent (h : nd.Within) : Sent nd nd.sendPoRequest := sendLoop_sent h (by omega)

theorem resume_sent (h : nd.Within) : Sent nd nd.resume := by
  unfold resume
  split_ifs with hempty
  · exact ⟨rfl, le_refl _, h, .emptied (List.isEmpty_iff.mp hempty) rfl⟩
  · exact sendPoRequest_sent h

theorem sendLoop_of_empty (fuel : Nat) (h : nd.queue = []) : sendLoop (fuel + 1) nd = nd :=
  if_pos (List.isEmpty_iff.mpr h)

theorem sendLoop_of_full (fuel : Nat) (hqueue : nd.queue ≠ []) (h : maxPoInFlight ≤ nd.unexecuted) :
    sendLoop (fuel + 1) nd = { nd with attached := false } := by
  unfold sendLoop
  rw [if_neg (by rwa [List.isEmpty_iff]), if_pos h]

/-- Where one more may be sent, one is. -/
theorem sendPoRequest_one (h : nd.Within) (hone : nd.poSeq.seqNum + 1 = nd.poSeqExecuted.seqNum + maxPoInFlight)
    (hqueue : nd.queue ≠ []) (hsent : nd.poSeq.seqNum ≠ 0) :
    ∃ q, (q = [] ↔ nd.OneRequest) ∧ nd.sendPoRequest = { nd with
      poSeq := { nd.poSeq with seqNum := nd.poSeq.seqNum + 1 }
      queue := q, attached := nd.attached && q.isEmpty } := by
  have hspecial : nd.specialFirst = false := decide_eq_false fun hs => hsent hs.2
  have hwaits : ¬nd.Waits := fun hw => Bool.false_ne_true (hspecial.symm.trans hw.1)
  have heq := h.unexecuted
  obtain ⟨request, hrequest⟩ := construct_of_not_waits hwaits
  rw [hspecial] at hrequest
  refine ⟨_, Iff.rfl, ?_⟩
  set q := (packLoop false nd.queue
    (emptyRequest nd.toSender { nd.poSeq with seqNum := nd.poSeq.seqNum + 1 })).2
  have hround : nd.sendPoRequest = sendLoop maxPoInFlight
      { nd with poSeq := { nd.poSeq with seqNum := nd.poSeq.seqNum + 1 }, queue := q } := by
    unfold sendPoRequest
    rw [sendLoop, if_neg (by rwa [List.isEmpty_iff]), if_neg (by omega), hrequest]
  have hnext : Within { nd with poSeq := { nd.poSeq with seqNum := nd.poSeq.seqNum + 1 }, queue := q } :=
    ⟨h.1.trans (Nat.le_succ _), le_of_eq hone⟩
  rw [hround]
  by_cases hq : q = []
  · refine (sendLoop_of_empty 19 hq).trans ?_
    simp [hq]
  · refine (sendLoop_of_full 19 hq (le_of_eq (hnext.full_iff.mpr hone).symm)).trans ?_
    simp [hq]

/-! ## What is kept -/

/-- What was executed last of the server's own requests is what `po_seq_executed` says, or nothing of
the current incarnation was. -/
structure Kept (nd : Node) : Prop where
  incarnation : nd.poSeqExecuted.incarnation = nd.poSeq.incarnation
  last : nd.lastExecuted = nd.poSeqExecuted ∨
    nd.lastExecuted.incarnation < nd.poSeq.incarnation ∧ nd.poSeqExecuted.seqNum = 0
  within : nd.Within

/-- What is in the queue waits for a request to be executed, or for the first of all. -/
def Held (nd : Node) : Prop := nd.queue ≠ [] → nd.Full ∨ nd.poSeq.seqNum = 0

theorem countP_lt_range' (a p : Nat) : ((List.range' 1 p).countP fun s => decide (a < s)) = p - a := by
  induction p with
  | zero => exact (Nat.zero_sub a).symm
  | succ p ih =>
    rw [List.range'_1_concat, List.countP_append, ih, List.countP_singleton]
    split_ifs with h
    · have := of_decide_eq_true h
      omega
    · have := of_decide_eq_false (Bool.not_eq_true _ ▸ h)
      omega

theorem Kept.inFlight_eq (h : nd.Kept) : nd.inFlight = nd.unexecuted := by
  have heq := h.within.unexecuted
  have hcount := countP_lt_range' nd.poSeqExecuted.seqNum nd.poSeq.seqNum
  rw [show nd.unexecuted = nd.poSeq.seqNum - nd.poSeqExecuted.seqNum by omega, ← hcount]
  refine List.countP_congr fun s hs => ?_
  have hpos := (List.mem_range'_1.mp hs).1
  rw [decide_eq_true_iff, decide_eq_true_iff, seqLe_iff]
  dsimp only
  rcases h.last with hlast | ⟨hlast, hzero⟩
  · rw [hlast, h.incarnation]
    omega
  · omega

theorem Kept.flows_iff (h : nd.Kept) : nd.Flows ↔ nd.Full ∨ nd.attached = true ∧ nd.Idle := by
  have heq := h.within.unexecuted
  have hmost := h.within.2
  have hfull : nd.Full ↔ ¬nd.inFlight < maxPoInFlight := by
    rw [h.inFlight_eq]
    unfold Full
    omega
  rw [hfull, ← imp_iff_not_or]
  rfl

theorem Sent.kept {nd' : Node} (h : nd.Kept) (hsent : Sent nd nd') : nd'.Kept := by
  rw [hsent.same]
  exact ⟨h.incarnation, h.last, hsent.same ▸ hsent.within⟩

theorem Sent.held {nd' : Node} (hsent : Sent nd nd') : nd'.Held := by
  intro hqueue
  cases hsent.ends with
  | emptied hempty => exact absurd hempty hqueue
  | full _ hfull => exact .inl hfull
  | waits hwaits hsame =>
    rw [hsame]
    exact .inr (of_decide_eq_true hwaits.1).2

theorem idle_iff (h : nd.poSeq.seqNum ≠ 0) : nd.Idle ↔ nd.queue = [] := by
  refine or_iff_left fun hwaits => h ?_
  exact (of_decide_eq_true hwaits.1).2

theorem noteStartup_eq (nd : Node) (incarnation : Nat) : nd.noteStartup incarnation =
    if nd.preinstalled ≤ incarnation then
      resume { nd with status := .normal, preinstalled := incarnation, installed := incarnation }
    else { nd with installed := incarnation } := by
  unfold noteStartup
  by_cases hle : nd.preinstalled ≤ incarnation
  · rw [if_pos hle, if_pos hle]
    exact if_pos rfl
  · rw [if_neg hle, if_neg hle]
    exact if_neg fun heq => hle (le_of_eq heq)

/-! ## Execution -/

/-- What an executed request changes of the two numbers and the descriptor. -/
def counted (nd : Node) (ps : PoSeqPair) : Node :=
  { nd with
    attached := nd.attached || decide (nd.unexecuted = maxPoInFlight)
    poSeqExecuted := ps
    lastExecuted := ps }

theorem executeRequest_of_not (h : ¬(ps.seqNum = 1 ∧ nd.Resumes ps)) :
    ∃ i, nd.executeRequest ps = { nd with installed := i }.counted ps := by
  unfold executeRequest
  dsimp only
  split_ifs with hfirst
  · obtain ⟨hinc, hone⟩ := hfirst
    have hlt : ps.incarnation < nd.preinstalled := not_le.mp fun hle => h ⟨hone, hinc, by omega, hle⟩
    rw [noteStartup_eq]
    dsimp only
    rw [if_neg (not_le.mpr hlt)]
    exact ⟨_, rfl⟩
  · exact ⟨_, rfl⟩

theorem executeRequest_resumes (hone : ps.seqNum = 1) (h : nd.Resumes ps) : nd.executeRequest ps =
    { resume { nd with
        attached := nd.attached || decide (nd.unexecuted = maxPoInFlight), poSeqExecuted := ps
        status := .normal, preinstalled := ps.incarnation, installed := ps.incarnation } with
      lastExecuted := ps } := by
  unfold executeRequest
  dsimp only
  rw [if_pos ⟨h.1, hone⟩, noteStartup_eq]
  dsimp only
  rw [if_pos h.2.2]

theorem counted_within (hwithin : nd.Within) (hlt : nd.poSeqExecuted.seqNum < ps.seqNum)
    (hle : ps.seqNum ≤ nd.poSeq.seqNum) : (nd.counted ps).Within ∧ ¬(nd.counted ps).Full := by
  have hmost := hwithin.2
  have hnext : (nd.counted ps).Within := by
    refine ⟨hle, ?_⟩
    show nd.poSeq.seqNum ≤ ps.seqNum + maxPoInFlight
    omega
  refine ⟨hnext, fun hfull => ?_⟩
  have heq : nd.poSeq.seqNum = ps.seqNum + maxPoInFlight := hnext.full_iff.mp hfull
  omega

/-- Of several requests, the first may attach the descriptor. -/
theorem counted_counted {qs : PoSeqPair} (h : ¬(nd.counted ps).Full) : (nd.counted ps).counted qs = nd.counted qs := by
  have hfull : decide ((nd.counted ps).unexecuted = maxPoInFlight) = false := decide_eq_false h
  rw [counted, hfull, Bool.or_false]
  rfl

theorem executeRequest_of_last (h : nd.lastExecuted.incarnation = ps.incarnation) :
    nd.executeRequest ps = nd.counted ps := by
  unfold executeRequest
  dsimp only
  rw [if_neg fun hs => absurd hs.1 (by omega)]
  rfl

/-- The requests after the first of the incarnation. -/
theorem foldl_executeRequest {inc a k : Nat} (hlast : nd.lastExecuted.incarnation = inc) (hwithin : nd.Within)
    (ha : nd.poSeqExecuted.seqNum ≤ a) (hle : a + (k + 1) ≤ nd.poSeq.seqNum) :
    ((List.range' (a + 1) (k + 1)).map (PoSeqPair.mk inc)).foldl executeRequest nd = nd.counted ⟨inc, a + (k + 1)⟩ := by
  induction k generalizing nd a with
  | zero => exact executeRequest_of_last hlast
  | succ k ih =>
    obtain ⟨hnext, hfull⟩ := @counted_within nd ⟨inc, a + 1⟩ hwithin (by show _ < a + 1; omega)
      (by show a + 1 ≤ _; omega)
    have hrest := @ih (nd.counted ⟨inc, a + 1⟩) (a + 1) rfl hnext (le_refl _)
      (by show a + 1 + (k + 1) ≤ nd.poSeq.seqNum; omega)
    rw [List.range'_succ, List.map_cons, List.foldl_cons, executeRequest_of_last hlast, hrest, counted_counted hfull,
      Nat.add_right_comm a 1 (k + 1), Nat.add_assoc a]

theorem counted_flows (hwithin : nd.Within) (hinc : ps.incarnation = nd.poSeq.incarnation)
    (hlt : nd.poSeqExecuted.seqNum < ps.seqNum) (hle : ps.seqNum ≤ nd.poSeq.seqNum) :
    (nd.counted ps).Kept ∧ ((nd.counted ps).Flows ↔ (nd.Full ∨ nd.attached = true) ∧ nd.queue = []) := by
  obtain ⟨hnext, hfull⟩ := counted_within hwithin hlt hle
  have hkept : (nd.counted ps).Kept := ⟨hinc, .inl rfl, hnext⟩
  have hsent : (nd.counted ps).poSeq.seqNum ≠ 0 := by
    show nd.poSeq.seqNum ≠ 0
    omega
  have hattached : (nd.counted ps).attached = true ↔ nd.Full ∨ nd.attached = true := by
    show (nd.attached || decide (nd.unexecuted = maxPoInFlight)) = true ↔ _
    rw [Bool.or_eq_true, decide_eq_true_iff, or_comm]
    rfl
  refine ⟨hkept, ?_⟩
  rw [hkept.flows_iff, or_iff_right hfull, hattached, idle_iff hsent]
  rfl

/-- What an ordinal executes of the server itself. -/
theorem requestsOf_cases (prev cur : PoSeqPair) : requestsOf prev cur = [] ∨
    ∃ a k, cur.seqNum = a + (k + 1) ∧
      requestsOf prev cur = (List.range' (a + 1) (k + 1)).map (PoSeqPair.mk cur.incarnation) := by
  unfold requestsOf
  dsimp only
  generalize (if prev.incarnation < cur.incarnation then 0 else prev.seqNum) = a
  cases hk : cur.seqNum - a with
  | zero => exact .inl rfl
  | succ k => exact .inr ⟨a, k, by omega, rfl⟩

/-- The requests from `a` on, where the first is none that the server resumes with, or nothing is left in
the queue. -/
theorem foldl_counted {a k inc : Nat} (h : nd.Kept) (ha : nd.poSeqExecuted.seqNum ≤ a)
    (hle : a + (k + 1) ≤ nd.poSeq.seqNum)
    (hcalm : ¬(a = 0 ∧ nd.Resumes ⟨inc, 1⟩) ∨ nd.queue = []) :
    ∃ status preinstalled installed,
      ((List.range' (a + 1) (k + 1)).map (PoSeqPair.mk inc)).foldl executeRequest nd =
        { nd with status := status, preinstalled := preinstalled, installed := installed }.counted ⟨inc, a + (k + 1)⟩ := by
  have hfirst : ∃ status preinstalled installed, nd.executeRequest ⟨inc, a + 1⟩ =
      { nd with status := status, preinstalled := preinstalled, installed := installed }.counted ⟨inc, a + 1⟩ := by
    by_cases hresumes : a + 1 = 1 ∧ nd.Resumes ⟨inc, a + 1⟩
    · obtain ⟨hone, hresumes⟩ := hresumes
      obtain rfl : a = 0 := by omega
      have hqueue : nd.queue = [] := hcalm.resolve_left fun hnot => hnot ⟨rfl, hresumes⟩
      rw [executeRequest_resumes rfl hresumes, resume, if_pos (by rw [hqueue]; rfl)]
      exact ⟨_, _, _, rfl⟩
    · obtain ⟨i, hi⟩ := @executeRequest_of_not nd ⟨inc, a + 1⟩ hresumes
      exact ⟨_, _, i, hi⟩
  obtain ⟨status, preinstalled, installed, hfirst⟩ := hfirst
  refine ⟨status, preinstalled, installed, ?_⟩
  cases k with
  | zero => exact hfirst
  | succ k =>
    set nd' : Node := { nd with status := status, preinstalled := preinstalled, installed := installed }
    obtain ⟨hnext, hfull⟩ := @counted_within nd' ⟨inc, a + 1⟩ h.within (by show nd.poSeqExecuted.seqNum < a + 1; omega)
      (by show a + 1 ≤ nd.poSeq.seqNum; omega)
    have hrest := @foldl_executeRequest (nd'.counted ⟨inc, a + 1⟩) inc (a + 1) k rfl hnext (le_refl _)
      (by show a + 1 + (k + 1) ≤ nd.poSeq.seqNum; omega)
    rw [List.range'_succ, List.map_cons, List.foldl_cons, hfirst, hrest, counted_counted hfull,
      Nat.add_right_comm a 1 (k + 1), Nat.add_assoc a]

/-- The first request, where the server resumes with updates in the queue: one more request is sent. -/
theorem executeRequest_sends {inc : Nat} (h : nd.Kept) (hfull : nd.Full) (hinc : inc = nd.poSeq.incarnation)
    (hqueue : nd.queue ≠ []) (hresumes : nd.Resumes ⟨inc, 1⟩) :
    ∃ nd', nd.executeRequest ⟨inc, 1⟩ = nd' ∧ nd'.Kept ∧ nd'.Full ∧
      nd'.poSeq = { nd.poSeq with seqNum := nd.poSeq.seqNum + 1 } ∧ nd'.poSeqExecuted = ⟨inc, 1⟩ ∧
        nd'.lastExecuted.incarnation = inc ∧ (nd'.queue = [] ↔ nd.OneRequest) := by
  have hzero : nd.poSeqExecuted.seqNum = 0 := by
    rcases h.last with hlast | ⟨-, hzero⟩
    · have hlt : nd.lastExecuted.incarnation < inc := hresumes.1
      rw [hlast, h.incarnation] at hlt
      omega
    · exact hzero
  have hmax := h.within.full_iff.mp hfull
  rw [hzero] at hmax
  set start : Node := { nd with
    attached := nd.attached || decide (nd.unexecuted = maxPoInFlight), poSeqExecuted := ⟨inc, 1⟩
    status := .normal, preinstalled := inc, installed := inc } with hstart
  have hone : start.poSeq.seqNum + 1 = start.poSeqExecuted.seqNum + maxPoInFlight := by
    show nd.poSeq.seqNum + 1 = 1 + maxPoInFlight
    omega
  have hwithin : start.Within := by
    refine ⟨?_, by omega⟩
    show 1 ≤ nd.poSeq.seqNum
    unfold maxPoInFlight at hmax
    omega
  have hsent : start.poSeq.seqNum ≠ 0 := by
    show nd.poSeq.seqNum ≠ 0
    unfold maxPoInFlight at hmax
    omega
  obtain ⟨q, hq, hsend⟩ := sendPoRequest_one hwithin hone hqueue hsent
  rw [executeRequest_resumes rfl hresumes]
  refine ⟨_, rfl, ?_⟩
  have hresume : start.resume = start.sendPoRequest := if_neg (by rwa [List.isEmpty_iff])
  rw [← hstart, hresume, hsend]
  have hnext : Within { start with
      poSeq := { start.poSeq with seqNum := start.poSeq.seqNum + 1 }, queue := q
      attached := start.attached && q.isEmpty, lastExecuted := ⟨inc, 1⟩ } :=
    ⟨hwithin.1.trans (Nat.le_succ _), le_of_eq hone⟩
  exact ⟨⟨hinc, .inl rfl, hnext⟩, hnext.full_iff.mpr hone, rfl, rfl, rfl, hq⟩

/-- **A commit** that executes requests of the server. -/
theorem executeCommit_flows {prev cur : PoSeqPair} (h : nd.Kept) (hheld : nd.Held) (hown : nd.Own (.commit prev cur)) :
    (nd.executeCommit prev cur).Kept ∧ ((nd.executeCommit prev cur).Flows ↔ nd.Drains (.commit prev cur)) ∧
      (nd.Drains (.commit prev cur) → (nd.executeCommit prev cur).Held) := by
  show ((requestsOf prev cur).foldl executeRequest nd).Kept ∧
    (((requestsOf prev cur).foldl executeRequest nd).Flows ↔ nd.DrainsAt (requestsOf prev cur)) ∧
      (nd.DrainsAt (requestsOf prev cur) → ((requestsOf prev cur).foldl executeRequest nd).Held)
  have hown : requestsOf prev cur ≠ [] → cur.incarnation = nd.poSeq.incarnation ∧
      cur.seqNum ≤ nd.poSeq.seqNum ∧ ∀ ps ∈ requestsOf prev cur, nd.poSeqExecuted.seqNum < ps.seqNum := hown
  rcases requestsOf_cases prev cur with hnone | ⟨a, k, hcur, hrequests⟩
  · rw [hnone]
    exact ⟨h, h.flows_iff, fun _ => hheld⟩
  rw [hrequests] at hown ⊢
  obtain ⟨hinc, hle, hnew⟩ := hown (by simp [List.range'_succ])
  have hnew : nd.poSeqExecuted.seqNum < a + 1 :=
    hnew ⟨cur.incarnation, a + 1⟩ (List.mem_map.mpr ⟨a + 1, by simp [List.range'_succ], rfl⟩)
  have hdrains : nd.DrainsAt ((List.range' (a + 1) (k + 1)).map (PoSeqPair.mk cur.incarnation)) ↔
      (nd.Full ∨ nd.attached = true) ∧
        (nd.queue = [] ∨ (a = 0 ∧ nd.Resumes ⟨cur.incarnation, 1⟩) ∧ (k = 0 ∨ nd.OneRequest)) := by
    rw [List.range'_succ, List.map_cons, DrainsAt, List.map_eq_nil_iff, List.range'_eq_nil_iff]
    refine and_congr_right fun _ => or_congr_right (and_congr_left fun _ => ?_)
    constructor
    · rintro ⟨hone, hresumes⟩
      obtain rfl : a = 0 := by simpa using hone
      exact ⟨rfl, hresumes⟩
    · rintro ⟨rfl, hresumes⟩
      exact ⟨rfl, hresumes⟩
  rw [hdrains]
  by_cases hcalm : ¬(a = 0 ∧ nd.Resumes ⟨cur.incarnation, 1⟩) ∨ nd.queue = []
  · obtain ⟨status, preinstalled, installed, hall⟩ := @foldl_counted nd a k cur.incarnation h (by omega) (by omega) hcalm
    obtain ⟨hkept, hflows⟩ := @counted_flows
      { nd with status := status, preinstalled := preinstalled, installed := installed } ⟨cur.incarnation, a + (k + 1)⟩
      h.within hinc (by show nd.poSeqExecuted.seqNum < a + (k + 1); omega) (by show a + (k + 1) ≤ nd.poSeq.seqNum; omega)
    rw [hall]
    have hempty : (nd.queue = [] ∨ (a = 0 ∧ nd.Resumes ⟨cur.incarnation, 1⟩) ∧ (k = 0 ∨ nd.OneRequest)) ↔
        nd.queue = [] :=
      or_iff_left_of_imp fun hr => hcalm.resolve_left fun hnot => hnot hr.1
    rw [hempty]
    exact ⟨hkept, hflows, fun hd hqueue => absurd hd.2 hqueue⟩
  · rw [not_or, not_not] at hcalm
    obtain ⟨⟨rfl, hresumes⟩, hqueue⟩ := hcalm
    have hfull : nd.Full := (hheld hqueue).resolve_right (by omega)
    obtain ⟨nd', hfirst, hkept, hfull', hposeq, hexecuted, hlast, hone⟩ :=
      executeRequest_sends h hfull hinc hqueue hresumes
    have hdrains' : ((nd.Full ∨ nd.attached = true) ∧
        (nd.queue = [] ∨ (0 = 0 ∧ nd.Resumes ⟨cur.incarnation, 1⟩) ∧ (k = 0 ∨ nd.OneRequest))) ↔
          k = 0 ∨ nd'.queue = [] := by
      rw [and_iff_right (.inl hfull), or_iff_right hqueue, and_iff_right ⟨rfl, hresumes⟩, hone]
    rw [hdrains', List.range'_succ, List.map_cons, List.foldl_cons, hfirst]
    cases k with
    | zero => exact ⟨hkept, hkept.flows_iff.trans (iff_of_true (.inl hfull') (.inl rfl)), fun _ _ => .inl hfull'⟩
    | succ k =>
      have hrest := @foldl_executeRequest nd' cur.incarnation 1 k hlast hkept.within (by rw [hexecuted])
        (by rw [hposeq]; show 1 + (k + 1) ≤ nd.poSeq.seqNum + 1; omega)
      obtain ⟨hkept', hflows⟩ := @counted_flows nd' ⟨cur.incarnation, 1 + (k + 1)⟩ hkept.within
        (by rw [hposeq]; exact hinc) (by rw [hexecuted]; show 1 < 1 + (k + 1); omega)
        (by rw [hposeq]; show 1 + (k + 1) ≤ nd.poSeq.seqNum + 1; omega)
      rw [hrest, or_iff_right (Nat.succ_ne_zero k)]
      exact ⟨hkept', hflows.trans (and_iff_right (.inl hfull')), fun hq hne => absurd hq hne⟩

/-! ## Jumps -/

theorem seqCompare_neg_iff {p q : PoSeqPair} : seqCompare p q < 0 ↔ ¬SeqLe q p := by
  rw [seqLe_iff]
  unfold seqCompare
  split_ifs <;> omega

theorem skipSlots_of_le {slots : List PoSeqPair} {executed : PoSeqPair} (h : SeqLe ps executed) :
    skipSlots ps slots executed = executed := by
  induction slots with
  | nil => rfl
  | cons slot slots ih =>
    rw [skipSlots, if_neg, ih]
    rintro ⟨hslot, hlt⟩
    exact seqCompare_neg_iff.mp hlt (IsTrans.trans _ _ _ hslot h)

theorem skipSlots_of_mem {slots : List PoSeqPair} {executed : PoSeqPair} (hmem : ps ∈ slots) (h : SeqLe executed ps) :
    skipSlots ps slots executed = ps := by
  induction slots generalizing executed with
  | nil => cases hmem
  | cons slot slots ih =>
    rw [skipSlots]
    rcases List.mem_cons.mp hmem with rfl | hmem
    · by_cases hle : SeqLe ps executed
      · rw [if_neg fun hlt => seqCompare_neg_iff.mp hlt.2 hle, skipSlots_of_le hle]
        obtain ⟨inc, seq⟩ := ps
        obtain ⟨inc', seq'⟩ := executed
        simp only [seqLe_iff] at h hle
        rw [PoSeqPair.mk.injEq]
        omega
      · rw [if_pos ⟨seqLe_refl ps, seqCompare_neg_iff.mpr hle⟩, skipSlots_of_le (seqLe_refl ps)]
    · refine ih hmem ?_
      split_ifs with hslot
      · exact hslot.1
      · exact h

theorem makeEligible_of_le (h : SeqLe ps nd.lastExecuted) : nd.makeEligible ps = nd := if_neg (not_lt.mpr h)

theorem makeEligible_of_not (hlt : ¬SeqLe ps nd.lastExecuted) (h : ¬nd.Resumes ps) :
    ∃ i, nd.makeEligible ps = { nd with installed := i, lastExecuted := ps } := by
  unfold makeEligible
  rw [if_pos (not_le.mp hlt)]
  dsimp only
  split_ifs with hnew
  · rw [noteStartup_eq, if_neg fun hle => h ⟨hnew.1, hnew.2, hle⟩]
    exact ⟨_, rfl⟩
  · exact ⟨_, rfl⟩

theorem makeEligible_resumes (h : nd.Resumes ps) : nd.makeEligible ps =
    { resume { nd with status := .normal, preinstalled := ps.incarnation, installed := ps.incarnation } with
      lastExecuted := ps } := by
  have hlt : ¬SeqLe ps nd.lastExecuted := by
    have := h.1
    rw [seqLe_iff]
    omega
  unfold makeEligible
  rw [if_pos (not_le.mp hlt)]
  dsimp only
  rw [if_pos ⟨h.1, h.2.1⟩, noteStartup_eq, if_pos h.2.2]

/-- The end of a jump. -/
theorem attach_flows {nd' : Node} (h : nd.Kept)
    (hnd : nd' = if nd.unexecuted < maxPoInFlight then { nd with attached := true } else nd) :
    nd'.Kept ∧ (nd'.Flows ↔ nd.Full ∨ nd.Idle) ∧ (nd.Held → nd'.Held) := by
  have heq := h.within.unexecuted
  have hmost := h.within.2
  split_ifs at hnd with hmore
  · obtain rfl := hnd
    have hkept : Kept { nd with attached := true } := ⟨h.incarnation, h.last, h.within⟩
    refine ⟨hkept, hkept.flows_iff.trans (or_congr_right ?_), id⟩
    exact and_iff_right rfl
  · obtain rfl := hnd
    have hfull : nd'.Full := by
      unfold Full
      omega
    exact ⟨h, h.flows_iff.trans (iff_of_true (.inl hfull) (.inl hfull)), id⟩

/-- A server that has sent a request, or that has nothing to send, sends none when it resumes. -/
theorem resume_of_held (hheld : nd.queue ≠ [] → nd.Full) :
    ∃ attached, nd.resume = { nd with attached := attached } := by
  unfold resume
  by_cases hqueue : nd.queue = []
  · rw [if_pos (List.isEmpty_iff.mpr hqueue)]
    exact ⟨_, rfl⟩
  · rw [if_neg (by rwa [List.isEmpty_iff])]
    exact ⟨false, sendLoop_of_full maxPoInFlight hqueue (le_of_eq (hheld hqueue).symm)⟩

/-- A jump over requests that are in flight. -/
theorem makeEligible_over (hheld : nd.Held) (hlt : ¬SeqLe ps nd.lastExecuted) (hsent : nd.poSeq.seqNum ≠ 0) :
    ∃ status preinstalled installed attached, nd.makeEligible ps = { nd with
      status := status, preinstalled := preinstalled, installed := installed, attached := attached
      lastExecuted := ps } := by
  by_cases hresumes : nd.Resumes ps
  · obtain ⟨attached, hresume⟩ := @resume_of_held
      { nd with status := .normal, preinstalled := ps.incarnation, installed := ps.incarnation }
      fun hqueue => (hheld hqueue).resolve_right hsent
    rw [makeEligible_resumes hresumes, hresume]
    exact ⟨_, _, _, _, rfl⟩
  · obtain ⟨i, hi⟩ := makeEligible_of_not hlt hresumes
    exact ⟨_, _, i, _, hi⟩

/-- The jump is over requests that are in flight: then more may be sent, and nothing is. -/
theorem jumpAhead_over {slots : List PoSeqPair} (h : nd.Kept) (hheld : nd.Held) (hinc : ps.incarnation = nd.poSeq.incarnation)
    (hlt : nd.poSeqExecuted.seqNum < ps.seqNum) (hle : ps.seqNum ≤ nd.poSeq.seqNum) (hmem : ps ∈ slots) :
    (nd.jumpAhead ps slots).Kept ∧ ((nd.jumpAhead ps slots).Flows ↔ nd.queue = []) ∧
      (nd.queue = [] → (nd.jumpAhead ps slots).Held) := by
  have hincarnation := h.incarnation
  have hsent : nd.poSeq.seqNum ≠ 0 := by omega
  have hlast : ¬SeqLe ps nd.lastExecuted := by
    rcases h.last with hlast | ⟨hlast, -⟩
    · rw [hlast, seqLe_iff]
      omega
    · rw [seqLe_iff]
      omega
  obtain ⟨status, preinstalled, installed, attached, heligible⟩ := makeEligible_over hheld hlast hsent
  have hskip : skipSlots ps slots nd.poSeqExecuted = ps := by
    refine skipSlots_of_mem hmem ?_
    rw [seqLe_iff]
    omega
  obtain ⟨hwithin, hmore⟩ := counted_within h.within hlt hle
  obtain ⟨hkept, hflows, hheld'⟩ := @attach_flows { nd with
      status := status, preinstalled := preinstalled, installed := installed, attached := attached
      poSeqExecuted := ps, lastExecuted := ps } (nd.jumpAhead ps slots) ⟨hinc, .inl rfl, hwithin⟩ (by
    unfold jumpAhead
    rw [heligible]
    dsimp only
    rw [hskip])
  refine ⟨hkept, hflows.trans ?_, fun hq => hheld' fun hne => absurd hq hne⟩
  exact (or_iff_right hmore).trans (idle_iff hsent)

/-- The jump is not over such requests, and the server resumes: it sends what it may. -/
theorem jumpAhead_resumes {slots : List PoSeqPair} (h : nd.Kept) (hle : SeqLe ps nd.poSeqExecuted)
    (hresumes : nd.Resumes ps) :
    (nd.jumpAhead ps slots).Kept ∧ (nd.jumpAhead ps slots).Flows ∧ (nd.jumpAhead ps slots).Held := by
  have hincarnation := h.incarnation
  have hold : ps.incarnation < nd.poSeq.incarnation ∧ nd.poSeqExecuted.seqNum = 0 := by
    obtain ⟨hnew, hpos, -⟩ := hresumes
    rw [seqLe_iff] at hle
    rcases h.last with hlast | ⟨-, hzero⟩
    · rw [hlast] at hnew
      omega
    · omega
  have hsent := @resume_sent
    { nd with status := .normal, preinstalled := ps.incarnation, installed := ps.incarnation } h.within
  set nd' := resume { nd with status := .normal, preinstalled := ps.incarnation, installed := ps.incarnation } with hnd'
  have hsame := hsent.same
  have hkept : Kept { nd' with lastExecuted := ps } := by
    refine ⟨?_, .inr ?_, hsent.within⟩
    · rw [hsame]
      exact hincarnation
    · rw [hsame]
      exact hold
  obtain ⟨hkept, hflows, hheld⟩ := @attach_flows { nd' with lastExecuted := ps } (nd.jumpAhead ps slots) hkept (by
    unfold jumpAhead
    rw [makeEligible_resumes hresumes, ← hnd']
    dsimp only
    rw [skipSlots_of_le (by rw [hsame]; exact hle)])
  refine ⟨hkept, hflows.mpr ?_, hheld hsent.held⟩
  cases hsent.ends with
  | emptied hempty => exact .inr (.inl hempty)
  | full _ hfull => exact .inl hfull
  | waits hwaits => cases (of_decide_eq_true hwaits.1).1

/-- Nothing is jumped over and the server does not resume. -/
theorem jumpAhead_of_not {slots : List PoSeqPair} (h : nd.Kept) (hheld : nd.Held) (hle : SeqLe ps nd.poSeqExecuted)
    (hresumes : ¬nd.Resumes ps) :
    (nd.jumpAhead ps slots).Kept ∧ ((nd.jumpAhead ps slots).Flows ↔ nd.Full ∨ nd.Idle) ∧
      (nd.jumpAhead ps slots).Held := by
  have hincarnation := h.incarnation
  have heligible : ∃ i l, nd.makeEligible ps = { nd with installed := i, lastExecuted := l } ∧
      Kept { nd with installed := i, lastExecuted := l } := by
    by_cases hlast : SeqLe ps nd.lastExecuted
    · exact ⟨nd.installed, nd.lastExecuted, makeEligible_of_le hlast, h⟩
    · obtain ⟨i, hi⟩ := makeEligible_of_not hlast hresumes
      refine ⟨i, ps, hi, hincarnation, ?_, h.within⟩
      show ps = nd.poSeqExecuted ∨ ps.incarnation < nd.poSeq.incarnation ∧ nd.poSeqExecuted.seqNum = 0
      rcases h.last with hsame | ⟨hold, hzero⟩
      · rw [hsame] at hlast
        exact absurd hle hlast
      · obtain ⟨inc, seq⟩ := ps
        rw [seqLe_iff] at hle
        rcases hle with hlt | ⟨heq, hseq⟩
        · exact .inr ⟨hincarnation ▸ hlt, hzero⟩
        · left
          dsimp only at heq hseq
          obtain rfl : seq = nd.poSeqExecuted.seqNum := by omega
          rw [heq]
  obtain ⟨i, l, heligible, hkept⟩ := heligible
  obtain ⟨hkept, hflows, hheld'⟩ := @attach_flows { nd with installed := i, lastExecuted := l } (nd.jumpAhead ps slots)
    hkept (by
    unfold jumpAhead
    rw [heligible]
    dsimp only
    rw [skipSlots_of_le hle])
  exact ⟨hkept, hflows, hheld' hheld⟩

/-- **A jump.** -/
theorem jumpAhead_flows {slots : List PoSeqPair} (h : nd.Kept) (hheld : nd.Held) (hown : nd.Own (.jump ps slots)) :
    (nd.jumpAhead ps slots).Kept ∧ ((nd.jumpAhead ps slots).Flows ↔ nd.Drains (.jump ps slots)) ∧
      (nd.Drains (.jump ps slots) → (nd.jumpAhead ps slots).Held) := by
  have hown : ps.incarnation < nd.poSeq.incarnation ∨ ps.incarnation = nd.poSeq.incarnation ∧
      ps.seqNum ≤ nd.poSeq.seqNum ∧ (ps ∈ slots ∨ SeqLe ps nd.poSeqExecuted) := hown
  have hincarnation := h.incarnation
  by_cases hexecuted : SeqLe ps nd.poSeqExecuted
  · have hbelow : ¬(ps.incarnation = nd.poSeq.incarnation ∧ nd.poSeqExecuted.seqNum < ps.seqNum) := by
      rw [seqLe_iff] at hexecuted
      omega
    have hdrains : nd.Drains (.jump ps slots) ↔ nd.Idle ∨ nd.Full ∨ nd.poSeq.seqNum = 0 ∧ nd.Resumes ps := by
      show _ ∨ _ ∧ _ ∨ _ ↔ _
      rw [and_iff_left hbelow]
    rw [hdrains]
    by_cases hresumes : nd.Resumes ps
    · obtain ⟨hkept, hflows, hheld'⟩ := @jumpAhead_resumes nd ps slots h hexecuted hresumes
      refine ⟨hkept, iff_of_true hflows ?_, fun _ => hheld'⟩
      by_cases hqueue : nd.queue = []
      · exact .inl (.inl hqueue)
      · exact .inr ((hheld hqueue).imp_right fun hzero => ⟨hzero, hresumes⟩)
    · obtain ⟨hkept, hflows, hheld'⟩ := @jumpAhead_of_not nd ps slots h hheld hexecuted hresumes
      refine ⟨hkept, hflows.trans ?_, fun _ => hheld'⟩
      rw [or_comm, or_iff_left fun hr : nd.poSeq.seqNum = 0 ∧ nd.Resumes ps => hresumes hr.2]
  · obtain ⟨hinc, hle, hmem⟩ := hown.resolve_left fun hlt => hexecuted (by rw [seqLe_iff]; omega)
    have hlt : nd.poSeqExecuted.seqNum < ps.seqNum := by
      rw [seqLe_iff] at hexecuted
      omega
    have hdrains : nd.Drains (.jump ps slots) ↔ nd.queue = [] := by
      show _ ∨ _ ∧ _ ∨ _ ↔ _
      rw [idle_iff (by omega), or_iff_left]
      rintro (⟨-, hnot⟩ | ⟨hzero, -⟩)
      · exact hnot ⟨hinc, hlt⟩
      · omega
    rw [hdrains]
    exact jumpAhead_over h hheld hinc hlt hle (hmem.resolve_right hexecuted)

/-! ## Steps -/

theorem processUpdate_cases (nd : Node) (sign : Memory → Memory) (update : Memory) :
    nd.processUpdate sign update = nd ∨ ∃ introClientSeq queue, nd.processUpdate sign update =
      sendPoRequest { nd with introClientSeq := introClientSeq, queue := queue } := by
  unfold processUpdate
  dsimp only
  by_cases hin : numClients < (ClientUpdate.read update 0).serverId
  · exact .inl (if_pos hin)
  rw [if_neg hin]
  by_cases hold : SeqLe ((ClientUpdate.read update 0).pair nd.me (nd.introClientSeq nd.me))
      (nd.introClientSeq (ClientUpdate.read update 0).serverId)
  · exact .inl (if_pos hold)
  · rw [if_neg hold]
    exact .inr ⟨_, _, rfl⟩

theorem processUpdate_kept (sign : Memory → Memory) (update : Memory) (h : nd.Kept) (hheld : nd.Held) :
    (nd.processUpdate sign update).Kept ∧ (nd.processUpdate sign update).Held := by
  rcases processUpdate_cases nd sign update with hsame | ⟨introClientSeq, queue, hnew⟩
  · rw [hsame]
    exact ⟨h, hheld⟩
  · rw [hnew]
    have hsent := @sendPoRequest_sent { nd with introClientSeq := introClientSeq, queue := queue } h.within
    exact ⟨@Sent.kept { nd with introClientSeq := introClientSeq, queue := queue } _
      ⟨h.incarnation, h.last, h.within⟩ hsent, hsent.held⟩

theorem start_kept (me newIncarnation : Nat) (attached : Bool) :
    (start me newIncarnation attached).Kept ∧ (start me newIncarnation attached).Held := by
  refine ⟨⟨rfl, ?_, le_refl _, Nat.zero_le _⟩, fun hqueue => absurd rfl hqueue⟩
  rcases Nat.eq_zero_or_pos newIncarnation with rfl | hpos
  · exact .inl rfl
  · exact .inr ⟨hpos, rfl⟩

/-- What is kept along a run. -/
def Flowing (nd : Node) : Prop := nd.Kept ∧ nd.Held

theorem step_flows (sign : Memory → Memory) (nd : Node) (x : Input) (h : nd.Flowing) (hown : nd.Own x) :
    (nd.FlowsAfter sign x ↔ nd.Drains x) ∧ (nd.Drains x → (nd.step sign x).Flowing) := by
  obtain ⟨hkept, hheld⟩ := h
  cases x with
  | update update => exact ⟨Iff.rfl, fun _ => processUpdate_kept sign update hkept hheld⟩
  | commit prev cur =>
    obtain ⟨hkept', hflows, hheld'⟩ := executeCommit_flows hkept hheld hown
    exact ⟨hflows, fun hd => ⟨hkept', hheld' hd⟩⟩
  | jump ps slots =>
    obtain ⟨hkept', hflows, hheld'⟩ := jumpAhead_flows hkept hheld hown
    exact ⟨hflows, fun hd => ⟨hkept', hheld' hd⟩⟩
  | resume =>
    have hsent := resume_sent hkept.within
    exact ⟨Iff.rfl, fun _ => ⟨hsent.kept hkept, hsent.held⟩⟩
  | elsewhere status preinstalled installed =>
    exact ⟨Iff.rfl, fun _ => ⟨⟨hkept.incarnation, hkept.last, hkept.within⟩, hheld⟩⟩
  | reset newIncarnation => exact ⟨Iff.rfl, fun _ => start_kept nd.me newIncarnation nd.attached⟩

end Node

/-! ## Runs -/

/-- **Flow control.** In a run in which what is executed and jumped over of the server itself are requests
that it has sent, more is sent and read after every commit and every jump exactly when each meets the
condition. -/
theorem flow_control_iff (sign : Memory → Memory) (me newIncarnation : Nat) (xs : List Input)
    (hown : Steps (Node.step sign) Node.Own (Node.start me newIncarnation true) xs) :
    Steps (Node.step sign) (Node.FlowsAfter sign) (Node.start me newIncarnation true) xs ↔
      Steps (Node.step sign) Node.Drains (Node.start me newIncarnation true) xs :=
  steps_iff_of (fun nd x h hx => (Node.step_flows sign nd x h hx).1) (fun nd x h hx => (Node.step_flows sign nd x h hx).2)
    hown (Node.start_kept me newIncarnation true)

/-! ### A queue that stays -/

/-- The update with number `i` of client 7. -/
def clientUpdate (i : Nat) : Memory :=
  withMessage (fun _ => 0) 0 7 .update (leBytes 4 7 ++ leBytes 8 0 ++ leBytes 4 i ++ List.replicate updateSize 0)

/-- The server sends its first request, which is executed. -/
def firstRun : List Input := [.elsewhere .normal 1 1, .update (clientUpdate 1), .commit ⟨0, 0⟩ ⟨1, 1⟩]

/-- Then more updates come in, and the second request is executed. -/
def clientRun : List Input :=
  firstRun ++ ((List.range' 2 21).map fun i => .update (clientUpdate i)) ++ [.commit ⟨1, 1⟩ ⟨1, 2⟩]

namespace Node

theorem clientUpdate_fields : ∀ i ∈ List.range' 1 22, ClientUpdate.read (clientUpdate i) 0 = ⟨7, 1, 0, 7, i, 0⟩ ∧
    SignedMessage.len.get (clientUpdate i) 0 = 316 := by decide +kernel

/-- All updates before are sent, one in each request, and the first request is executed. -/
structure SentSoFar (nd : Node) (n : Nat) : Prop where
  me : nd.me = 1
  status : nd.status = .normal
  introduced : nd.introClientSeq 7 = ⟨1, n⟩
  poSeq : nd.poSeq = ⟨1, n⟩
  executed : nd.poSeqExecuted = ⟨1, 1⟩
  last : nd.lastExecuted = ⟨1, 1⟩
  queue : nd.queue = []

/-- The next update is put into the queue. -/
theorem processUpdate_client {nd : Node} {i : Nat} (hi : i ∈ List.range' 1 22) (hme : nd.me = 1) (hqueue : nd.queue = [])
    (hnew : ¬SeqLe ⟨1, i⟩ (nd.introClientSeq 7)) : nd.processUpdate id (clientUpdate i) =
      sendPoRequest { nd with introClientSeq := Function.update nd.introClientSeq 7 ⟨1, i⟩, queue := [clientUpdate i] } := by
  have hread := (clientUpdate_fields i hi).1
  have hstamp : ¬(ClientUpdate.read (clientUpdate i) 0).Unstamped nd.me := fun hs => by
    have := hs.1
    rw [hread, hme] at this
    cases this
  unfold processUpdate ClientUpdate.pair
  dsimp only
  rw [if_neg hstamp, if_neg hstamp, hread]
  dsimp only
  rw [if_neg (by decide), if_neg hnew, if_neg (fun hs => absurd (hs.1.trans hme) (by decide)), hqueue]
  rfl

theorem clientUpdate_sent {nd : Node} {i : Nat} (hi : i ∈ List.range' 1 22) (hqueue : nd.queue = [clientUpdate i])
    (hstatus : nd.status = .normal) (hmore : nd.unexecuted < maxPoInFlight) :
    nd.sendPoRequest = { nd with poSeq := { nd.poSeq with seqNum := nd.poSeq.seqNum + 1 }, queue := [] } := by
  have hspecial : nd.specialFirst = false := decide_eq_false fun hs => by
    rw [hstatus] at hs
    cases hs.1
  have hwaits : ¬nd.Waits := fun hw => Bool.false_ne_true (hspecial.symm.trans hw.1)
  obtain ⟨request, hrequest⟩ := construct_of_not_waits hwaits
  have hall : ∀ s, (packLoop false [clientUpdate i] (emptyRequest nd.toSender s)).2 = [] := by
    intro s
    have hlen := (clientUpdate_fields i hi).2
    simp only [packLoop, hlen]
    have hroom : (emptyRequest nd.toSender s).bytes < cutoff := (by decide : 168 < cutoff)
    have hfits : wrap32 ((emptyRequest nd.toSender s).bytes + wrap32 (316 + SignedMessage.size)) < cutoff :=
      (by decide : wrap32 (168 + wrap32 (316 + SignedMessage.size)) < cutoff)
    rw [if_pos hroom, if_pos hfits]
    rfl
  rw [hspecial, hqueue, hall] at hrequest
  unfold sendPoRequest
  rw [sendLoop, if_neg (by rw [hqueue]; exact Bool.false_ne_true), if_neg (not_le.mpr hmore), hrequest]
  exact sendLoop_of_empty 19 rfl

theorem SentSoFar.unexecuted {nd : Node} {n : Nat} (h : nd.SentSoFar n) (hn : 1 ≤ n) (hmost : n ≤ 21) :
    nd.unexecuted = n - 1 := by
  have hwithin : nd.Within := by
    unfold Within maxPoInFlight
    rw [h.poSeq, h.executed]
    exact ⟨hn, by omega⟩
  have heq := hwithin.unexecuted
  rw [h.poSeq, h.executed] at heq
  dsimp only at heq
  omega

theorem SentSoFar.introduces {nd : Node} {n : Nat} (h : nd.SentSoFar n) (hn : n < 22) :
    nd.processUpdate id (clientUpdate (n + 1)) = sendPoRequest { nd with
      introClientSeq := Function.update nd.introClientSeq 7 ⟨1, n + 1⟩, queue := [clientUpdate (n + 1)] } := by
  refine processUpdate_client (List.mem_range'_1.mpr ⟨by omega, by omega⟩) h.me h.queue ?_
  rw [h.introduced, seqLe_iff]
  dsimp only
  omega

theorem SentSoFar.next {nd : Node} {n : Nat} (h : nd.SentSoFar n) (hn : 1 ≤ n) (hmost : n < 21) :
    (nd.processUpdate id (clientUpdate (n + 1))).SentSoFar (n + 1) := by
  have hsent := @clientUpdate_sent { nd with
    introClientSeq := Function.update nd.introClientSeq 7 ⟨1, n + 1⟩, queue := [clientUpdate (n + 1)] } (n + 1)
    (List.mem_range'_1.mpr ⟨by omega, by omega⟩) rfl h.status
    (by
      show nd.unexecuted < 20
      rw [h.unexecuted hn (by omega)]
      omega)
  rw [h.introduces (by omega), hsent]
  exact ⟨h.me, h.status, Function.update_self 7 _ nd.introClientSeq, by rw [h.poSeq], h.executed, h.last, rfl⟩

theorem SentSoFar.all {nd : Node} {k : Nat} (h : nd.SentSoFar 1) (hk : k ≤ 20) :
    (((List.range' 2 k).map fun i => Input.update (clientUpdate i)).foldl (Node.step id) nd).SentSoFar (k + 1) := by
  induction k with
  | zero => exact h
  | succ k ih =>
    rw [List.range'_1_concat, List.map_append, List.foldl_append, Nat.add_comm 2 k]
    exact (ih (by omega)).next (by omega) (by omega)

/-- The server after its first update. -/
theorem firstUpdate_sent : ∃ introClientSeq, introClientSeq 7 = ⟨1, 1⟩ ∧
    (({ start 1 1 true with status := .normal, preinstalled := 1, installed := 1 } : Node).processUpdate id (clientUpdate 1)) =
      { start 1 1 true with
        status := .normal, preinstalled := 1, installed := 1, introClientSeq := introClientSeq, poSeq := ⟨1, 1⟩ } := by
  have hmem : 1 ∈ List.range' 1 22 := by decide
  refine ⟨_, ?_, (processUpdate_client hmem rfl rfl (by decide)).trans (clientUpdate_sent hmem rfl rfl (by decide))⟩
  rfl

theorem firstRun_sent : (firstRun.foldl (Node.step id) (start 1 1 true)).SentSoFar 1 ∧
    Steps (Node.step id) Own (start 1 1 true) firstRun := by
  obtain ⟨introClientSeq, hseven, hupdate⟩ := firstUpdate_sent
  constructor
  · simp only [firstRun, List.foldl_cons, List.foldl_nil, Node.step]
    rw [hupdate]
    exact ⟨rfl, rfl, hseven, rfl, rfl, rfl, rfl⟩
  · simp only [firstRun, Steps, Node.step, Own]
    rw [hupdate]
    refine ⟨trivial, trivial, fun _ => ⟨rfl, le_refl _, fun ps hps => ?_⟩, trivial⟩
    obtain rfl : ps = ⟨1, 1⟩ := List.mem_singleton.mp hps
    exact Nat.zero_lt_one

theorem own_updates {nd : Node} {us : List Memory} : Steps (Node.step id) Own nd (us.map Input.update) := by
  induction us generalizing nd with
  | nil => trivial
  | cons u us ih => exact ⟨trivial, ih⟩

/-- The last update comes in when twenty requests are in flight. -/
theorem SentSoFar.stuck {nd : Node} (h : nd.SentSoFar 21) :
    (nd.processUpdate id (clientUpdate 22)).poSeq = ⟨1, 21⟩ ∧
      (nd.processUpdate id (clientUpdate 22)).poSeqExecuted = ⟨1, 1⟩ ∧
        (nd.processUpdate id (clientUpdate 22)).lastExecuted = ⟨1, 1⟩ ∧
          (nd.processUpdate id (clientUpdate 22)).queue ≠ [] := by
  have hfull : maxPoInFlight ≤ nd.unexecuted := by
    rw [h.unexecuted (by omega) (le_refl _)]
    exact le_refl _
  have hlast := h.introduces (by omega)
  rw [sendPoRequest, sendLoop_of_full maxPoInFlight (List.cons_ne_nil _ _) (by exact hfull)] at hlast
  rw [hlast]
  exact ⟨h.poSeq, h.executed, h.last, List.cons_ne_nil _ _⟩

/-- Where an update is in the queue, it stays there when the second request is executed. -/
theorem commit_stuck {nd : Node} (hposeq : nd.poSeq = ⟨1, 21⟩) (hexecuted : nd.poSeqExecuted = ⟨1, 1⟩)
    (hlast : nd.lastExecuted = ⟨1, 1⟩) (hqueue : nd.queue ≠ []) :
    nd.Own (.commit ⟨1, 1⟩ ⟨1, 2⟩) ∧ ¬nd.FlowsAfter id (.commit ⟨1, 1⟩ ⟨1, 2⟩) := by
  have hwithin : nd.Within := by
    unfold Within
    rw [hposeq, hexecuted]
    decide
  have hkept : nd.Kept := ⟨by rw [hposeq, hexecuted], .inl (hlast.trans hexecuted.symm), hwithin⟩
  have hfull : nd.Full := hwithin.full_iff.mpr (by rw [hposeq, hexecuted]; rfl)
  have hrequests : requestsOf ⟨1, 1⟩ ⟨1, 2⟩ = [⟨1, 2⟩] := rfl
  have hown : nd.Own (.commit ⟨1, 1⟩ ⟨1, 2⟩) := by
    intro _
    rw [hrequests, hposeq, hexecuted]
    refine ⟨rfl, by decide, fun ps hps => ?_⟩
    obtain rfl := List.mem_singleton.mp hps
    decide
  refine ⟨hown, fun hflows => ?_⟩
  have hdrains : nd.DrainsAt (requestsOf ⟨1, 1⟩ ⟨1, 2⟩) :=
    (step_flows id nd _ ⟨hkept, fun _ => .inl hfull⟩ hown).1.mp hflows
  rw [hrequests] at hdrains
  rcases hdrains.2 with hempty | ⟨⟨hone, -⟩, -⟩
  · exact hqueue hempty
  · cases hone

end Node

/-- The start of such a run. -/
theorem flow_control_iff_firstRun : Steps (Node.step id) Node.Own (Node.start 1 1 true) firstRun ∧
    (Steps (Node.step id) (Node.FlowsAfter id) (Node.start 1 1 true) firstRun ↔
      Steps (Node.step id) Node.Drains (Node.start 1 1 true) firstRun) :=
  ⟨Node.firstRun_sent.2, flow_control_iff id 1 1 firstRun Node.firstRun_sent.2⟩

/-- Twenty requests are in flight when the last update comes in. One of them is executed, and the update
stays. -/
theorem queuedUpdate_stays : Steps (Node.step id) Node.Own (Node.start 1 1 true) clientRun ∧
    ¬Steps (Node.step id) (Node.FlowsAfter id) (Node.start 1 1 true) clientRun := by
  obtain ⟨hfirst, hown⟩ := Node.firstRun_sent
  obtain ⟨hposeq, hexecuted, hlast, hqueue⟩ := (hfirst.all (le_refl 20)).stuck
  obtain ⟨hcommit, hnot⟩ := Node.commit_stuck hposeq hexecuted hlast hqueue
  have hrun : clientRun = firstRun ++ (((List.range' 2 20).map clientUpdate).map Input.update ++
      [.update (clientUpdate 22), .commit ⟨1, 1⟩ ⟨1, 2⟩]) := rfl
  have hmap : ((List.range' 2 20).map clientUpdate).map Input.update =
      (List.range' 2 20).map fun i => Input.update (clientUpdate i) := List.map_map
  rw [hrun, steps_append, steps_append, steps_append, steps_append]
  refine ⟨⟨hown, Node.own_updates, ?_⟩, fun h => ?_⟩
  · rw [hmap]
    exact ⟨trivial, hcommit, trivial⟩
  · obtain ⟨-, -, -, hflows, -⟩ := h
    rw [hmap] at hflows
    exact hnot hflows

end Spire.InFlight
