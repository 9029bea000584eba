import Spire.Lib.Runs
import Spire.StateTransfer
import Spire.TcQueue

/-!
# The queue of ordinals

`ITRC_Master` passes messages that Prime has ordered to the SCADA master and keeps their
ordinals in `ord_queue`. A reply comes back without an ordinal: it gets the one at the front.
Messages and replies travel in order, and each carries here the ordinal it belongs to, which
the code does not have.

The pairing is right as long as the queue holds the ordinals of the replies that are due. A
message that the master does not answer leaves its ordinal in the queue, and a reset takes out
ordinals whose replies are still on their way.
-/

namespace Spire.Scada

open Spire.Itrc (OrdConsec ordCompare)
open Spire.Lib (Always Steps)

/-! ## The code -/

/-- The updates and the messages of Prime itself that it orders. -/
inductive PrimeMsg
  | noOp (machineId : Nat)
  | stateTransfer (machineId : Nat)
  | rtuData (payload : RtuData)
  | hmiCommand (payload : HmiCommand)
  | benchmark (ben : Benchmark)
  | other

/-- `Seq_Pair_Compare`. -/
def seqPairCompare (p1 p2 : SeqPair) : Int :=
  if p1.incarnation < p2.incarnation then -1
  else if p2.incarnation < p1.incarnation then 1
  else if p1.seqNum < p2.seqNum then -1
  else if p2.seqNum < p1.seqNum then 1
  else 0

instance : DecidablePred Msg.Admitted := fun z =>
  match z with
  | .rtuData payload =>
    have : Decidable (∀ f, payload.data = .ems f → f.id < emsNumGenerators) :=
      match payload.data with
      | .ems f => decidable_of_iff (f.id < emsNumGenerators) ⟨fun h _ he => RtuFields.ems.inj he ▸ h, fun h => h f rfl⟩
      | .jhu _ _ => .isTrue fun _ he => by cases he
      | .pnnl _ => .isTrue fun _ he => by cases he
    inferInstanceAs (Decidable (_ ∧ _ ∧ _))
  | .hmiCommand _ | .benchmark _ | .stateRequest _ | .stateXfer _ | .systemReset => .isTrue trivial

namespace PrimeMsg

/-- `ITRC_Valid_Type` for messages from Prime. -/
def valid (me : Nat) : PrimeMsg → Bool
  | .noOp machineId => machineId = me
  | .stateTransfer machineId => machineId ≤ numSm
  | .rtuData payload => decide (Msg.rtuData payload).Admitted
  | .hmiCommand _ => true
  | .benchmark _ => true
  | .other => false

/-- A state transfer for this replica. -/
def transfersTo (me : Nat) : PrimeMsg → Bool
  | .stateTransfer machineId => machineId = me
  | _ => false

/-- The client of an update, and the number of the update. -/
def client : PrimeMsg → Option (Nat × SeqPair)
  | .rtuData payload => some (payload.rtuId, payload.seq)
  | .hmiCommand payload => some (payload.hmiId, payload.seq)
  | .benchmark ben => some ((ben.sender % 2 ^ 32).toNat, ben.seq)
  | _ => none

def duplicate (progress : Nat → SeqPair) (m : PrimeMsg) : Bool :=
  match m.client with
  | some (idx, ps) => seqPairCompare ps (progress idx) ≤ 0
  | none => false

/-- What the master is sent, with `progress` in the request for a state. -/
def toMaster (numClients : Nat) (progress : Nat → SeqPair) : PrimeMsg → Option Msg
  | .rtuData payload => some (.rtuData payload)
  | .hmiCommand payload => some (.hmiCommand payload)
  | .benchmark ben => some (.benchmark ben)
  | .stateTransfer machineId =>
    some (.stateRequest { target := machineId, latestUpdate := (List.range numClients).map progress })
  | _ => none

def advance (progress : Nat → SeqPair) (m : PrimeMsg) : Nat → SeqPair :=
  match m.client with
  | some (idx, ps) => Function.update progress idx ps
  | none => progress

end PrimeMsg

/-- A failed assertion of `ITRC_Master`, or one of the master, which is the same process. -/
inductive Crash
  | emptyQueue
  | master (e : Fault)
deriving DecidableEq, Repr

/-- A replica: the variables of `ITRC_Master`, the master, and the messages between them. -/
structure Replica where
  recvdOrd : Itrc.Ordinal
  progress : Nat → SeqPair
  collecting : Bool
  pending : List (Itrc.Ordinal × PrimeMsg)
  ordQueue : List Itrc.Ordinal
  toSm : List (Option Itrc.Ordinal × Msg)
  sm : State
  toItrc : List (Option Itrc.Ordinal × Reply)
  /-- The ordinals that replies were given, with the ordinals of their messages. -/
  paired : List (Itrc.Ordinal × Option Itrc.Ordinal)
  crash : Option Crash

def Replica.init : Replica :=
  { recvdOrd := ⟨0, 0, 0⟩, progress := fun _ => ⟨0, 0⟩, collecting := false, pending := [], ordQueue := []
    toSm := [], sm := State.init, toItrc := [], paired := [], crash := none }

/-- `MAX_EMU_RTU + NUM_HMI + 1`. -/
def numProgress : Nat := 104

section Code

variable (t : Topology) (me : Nat)

/-- `ITRC_Process_Prime_Ordinal`, without the queue of threshold shares. -/
def processPrimeOrdinal (r : Replica) (o : Itrc.Ordinal) (m : PrimeMsg) : Replica :=
  if r.collecting then { r with pending := r.pending ++ [(o, m)] }
  else if ¬OrdConsec r.recvdOrd o ∧ m.transfersTo me = false then r
  else
    let collecting := m.transfersTo me && !decide (OrdConsec r.recvdOrd o)
    let r := { r with recvdOrd := o, collecting := collecting }
    if m.valid me = false ∨ m.transfersTo me = true ∨ m.duplicate r.progress = true then r
    else
      match m.toMaster numProgress r.progress with
      | none => r
      | some z =>
        { r with ordQueue := r.ordQueue ++ [o], progress := m.advance r.progress, toSm := r.toSm ++ [(some o, z)] }

/-- The updates that waited for a state transfer, until one of them starts another. -/
def replayPending (r : Replica) : List (Itrc.Ordinal × PrimeMsg) → Replica
  | [] => { r with pending := [] }
  | (o, m) :: rest =>
    if r.collecting then { r with pending := (o, m) :: rest }
    else
      replayPending (if 0 < ordCompare o r.recvdOrd then processPrimeOrdinal me r o m else r) rest

/-- What happens at a replica. In `transfer` the states of other replicas match, of which one
is `s`. -/
inductive Input
  | prime (o : Itrc.Ordinal) (m : PrimeMsg)
  | systemReset
  | transfer (s : State) (latestUpdate : List SeqPair)
  | serve
  | reply

/-- `ITRC_Master` on a message from Prime. -/
def onPrime (r : Replica) (o : Itrc.Ordinal) (m : PrimeMsg) : Replica :=
  if ordCompare o r.recvdOrd ≤ 0 then r else processPrimeOrdinal me r o m

/-- `ITRC_Master` on a system reset, with `ITRC_Reset_Master_Data_Structures`. -/
def onSystemReset (r : Replica) : Replica :=
  { r with
    recvdOrd := ⟨0, 0, 0⟩, collecting := false, pending := [], ordQueue := []
    toSm := r.toSm ++ [(none, .systemReset)] }

/-- `ITRC_Apply_State_Transfer`, and the updates that waited for it. -/
def applyStateTransfer (r : Replica) (s : State) (latestUpdate : List SeqPair) : Replica :=
  match packageState t s { target := me, latestUpdate := latestUpdate } with
  | .error _ => r
  | .ok st =>
    if r.collecting then
      replayPending me
        { r with
          progress := fun idx => latestUpdate.getD idx ⟨0, 0⟩, collecting := false, pending := []
          toSm := r.toSm ++ [(none, .stateXfer st)] }
        r.pending
    else r

/-- The main loop of the master takes a message. -/
def serve (r : Replica) : Replica :=
  match r.toSm with
  | [] => r
  | (o, z) :: rest =>
    match handle t me r.sm z with
    | .error e => { r with toSm := rest, crash := some (.master e) }
    | .ok (s, reply) => { r with toSm := rest, sm := s, toItrc := r.toItrc ++ (reply.map fun x => (o, x)).toList }

/-- `ITRC_Master` on a reply: `ITRC_Valid_Type` lets all the replies of a master pass. -/
def onReply (r : Replica) : Replica :=
  match r.toItrc with
  | [] => r
  | (cause, _) :: rest =>
    match r.ordQueue with
    | [] => { r with toItrc := rest, crash := some .emptyQueue }
    | o :: queue => { r with toItrc := rest, ordQueue := queue, paired := r.paired ++ [(o, cause)] }

def Replica.step (r : Replica) (x : Input) : Replica :=
  if r.crash ≠ none then r
  else
    match x with
    | .prime o m => onPrime me r o m
    | .systemReset => onSystemReset r
    | .transfer s latestUpdate => applyStateTransfer t me r s latestUpdate
    | .serve => serve t me r
    | .reply => onReply r

end Code

/-! ## Replies that are due -/

/-- The ordinals of the replies and of the messages on their way, in the order in which the
replies will come if each message gets one. -/
def Replica.due (r : Replica) : List (Option Itrc.Ordinal) :=
  r.toItrc.map Prod.fst ++ (r.toSm.map Prod.fst).filter Option.isSome

/-- What is expected of a replica: nothing has failed, the queue not being empty at a reply
included, each reply was given the ordinal of its message, and exactly one reply is due for
each ordinal in the queue. -/
structure Replica.Right (r : Replica) : Prop where
  running : r.crash = none
  paired : ∀ p ∈ r.paired, p.2 = some p.1
  due : r.ordQueue.map some = r.due

variable {t : Topology} {me : Nat}

/-- The messages with an ordinal are admitted updates and requests; the others are resets and
states for this replica. -/
def Replica.Sent (t : Topology) (me : Nat) (r : Replica) : Prop :=
  ∀ p ∈ r.toSm,
    (∃ o, p.1 = some o ∧ p.2.Admitted ∧ p.2 ≠ .systemReset ∧ p.2.isUpdate = true) ∨
      p.1 = none ∧ (p.2 = .systemReset ∨
        ∃ s sr st, packageState t s sr = .ok st ∧ st.target = me ∧ p.2 = .stateXfer st)

/-- The length of a state. -/
def stateLen (t : Topology) : Nat :=
  ((List.range t.numSubs).map fun i => 9 + (t.sub i).swList.length).sum + 8 + pnnlLen

/-- The messages that a master answers: a command has to be for a known scenario and for a
transformer, for a switch that has not tripped, or for a breaker or a generator that there is;
a request has to name a replica, and the state has to fit a message. -/
def Answered (t : Topology) (s : State) : Msg → Prop
  | .hmiCommand payload =>
    match payload.scenType with
    | .jhu =>
      (payload.type = SubstationType.transformer ∧ ∃ i < t.numSubs, payload.ttipPos = (t.sub i).txId) ∨
        payload.type = SubstationType.switch ∧
          ∃ w, ((switches t).find? fun w => payload.ttipPos = t.swId w.2.2) = some w ∧ s.grid.sw w.2.2 ≠ 2
    | .pnnl => 0 ≤ payload.ttipPos ∧ payload.ttipPos < numBreaker
    | .ems => 0 ≤ payload.ttipPos ∧ payload.ttipPos < emsNumGenerators
    | .unknown _ => False
  | .stateRequest sr => sr.target ≠ 0 ∧ sr.target ≤ numSm ∧ stateXferSize + stateLen t ≤ maxLen
  | _ => True

theorem length_state (g : Grid) (p : Pnnl) :
    ((List.range t.numSubs).flatMap (subSlot t g) ++ pnnlSlot p).length = stateLen t := by
  rw [List.length_append, List.length_flatMap, length_pnnlSlot]
  simp only [length_subSlot, stateLen]
  omega

theorem readFromHmi_answers (s : State) (payload : HmiCommand) :
    (∃ s' reply, readFromHmi t s payload = .ok (s', some reply)) ↔ Answered t s (.hmiCommand payload) := by
  cases hscen : payload.scenType with
  | jhu =>
    simp only [readFromHmi, Answered, hscen]
    by_cases htx : payload.type = SubstationType.transformer
    · have hsw : payload.type ≠ SubstationType.switch := by
        rw [htx]
        decide
      simp only [htx, if_true, true_and]
      constructor
      · rintro ⟨s', reply, h⟩
        have hsome := (Prod.mk.inj (Except.ok.inj h)).2
        obtain ⟨i, hfind, -⟩ := Option.map_eq_some_iff.mp hsome
        exact .inl ⟨i, List.mem_range.mp (List.mem_of_find?_eq_some hfind), by simpa using List.find?_some hfind⟩
      · rintro (⟨i, hi, htip⟩ | ⟨hsw', -⟩)
        · have hfound : ((List.range t.numSubs).find? fun i => payload.ttipPos = (t.sub i).txId).isSome := by
            rw [List.find?_isSome]
            exact ⟨i, List.mem_range.mpr hi, by simpa using htip⟩
          obtain ⟨j, hj⟩ := Option.isSome_iff_exists.mp hfound
          exact ⟨s, _, by rw [hmiTransformer, hj]; rfl⟩
        · rw [htx] at hsw
          exact absurd hsw' hsw
    · simp only [htx, if_false, false_and, false_or]
      by_cases hsw : payload.type = SubstationType.switch
      · simp only [hsw, if_true, true_and]
        unfold hmiSwitch
        split
        · rename_i hnone
          refine iff_of_false ?_ ?_
          · rintro ⟨s', reply, h⟩
            cases h
          · rintro ⟨w, hw, -⟩
            rw [hnone] at hw
            cases hw
        · rename_i i z j hfind
          split_ifs with htripped
          · refine iff_of_false ?_ ?_
            · rintro ⟨s', reply, h⟩
              cases h
            · rintro ⟨w, hw, hne⟩
              rw [hfind] at hw
              cases hw
              exact hne htripped
          · exact iff_of_true ⟨s, _, rfl⟩ ⟨_, hfind, htripped⟩
      · simp only [hsw, if_false, false_and, iff_false]
        rintro ⟨s', reply, h⟩
        cases h
  | pnnl =>
    simp only [readFromHmi, Answered, hscen]
    split_ifs with hpos
    · exact iff_of_true ⟨s, _, rfl⟩ hpos
    · refine iff_of_false ?_ hpos
      rintro ⟨s', reply, h⟩
      cases h
  | ems =>
    simp only [readFromHmi, Answered, hscen]
    split_ifs with hpos
    · exact iff_of_true ⟨_, _, rfl⟩ hpos
    · refine iff_of_false ?_ hpos
      rintro ⟨s', reply, h⟩
      cases h
  | unknown code =>
    simp only [readFromHmi, Answered, hscen, iff_false]
    rintro ⟨s', reply, h⟩
    cases h

/-- A master has one reply to a message with an ordinal, or none. -/
theorem handle_answers (me : Nat) {s : State} {z : Msg} (hz : z.Admitted) (hreset : z ≠ .systemReset)
    (hup : z.isUpdate = true) :
    (∃ s' reply, handle t me s z = .ok (s', some reply)) ↔ Answered t s z := by
  cases z with
  | rtuData payload =>
    obtain ⟨hid, hseq, hems⟩ := hz
    have hguard : ¬(numRtu ≤ payload.rtuId ∨ payload.seq.seqNum = 0) := by
      rintro (hle | hzero)
      · omega
      · exact hseq hzero
    refine iff_of_true ?_ trivial
    cases hd : payload.data with
    | jhu txStatus swStatus =>
      simp only [handle, onRtuData, readFromRtu, if_neg hguard, hd]
      exact ⟨_, _, rfl⟩
    | pnnl pf =>
      simp only [handle, onRtuData, readFromRtu, if_neg hguard, hd]
      exact ⟨_, _, rfl⟩
    | ems f =>
      simp only [handle, onRtuData, readFromRtu, if_neg hguard, hd, if_pos (hems f hd)]
      exact ⟨_, _, rfl⟩
  | hmiCommand payload => exact readFromHmi_answers s payload
  | benchmark ben => exact iff_of_true ⟨_, _, rfl⟩ trivial
  | stateRequest sr =>
    simp only [handle, packageState, Answered, length_state]
    split_ifs with htarget hsize
    · refine iff_of_false ?_ (by omega)
      rintro ⟨s', reply, h⟩
      cases h
    · refine iff_of_false ?_ (by omega)
      rintro ⟨s', reply, h⟩
      cases h
    · exact iff_of_true ⟨_, _, rfl⟩ (by omega)
  | stateXfer st => cases hup
  | systemReset => exact absurd rfl hreset

/-- A reset and a state for this replica are not answered, and do not fail. -/
theorem handle_silent {s : State} {z : Msg}
    (hz : z = .systemReset ∨ ∃ S sr st, packageState t S sr = .ok st ∧ st.target = me ∧ z = .stateXfer st) :
    ∃ s', handle t me s z = .ok (s', none) := by
  rcases hz with rfl | ⟨S, sr, st, hst, htarget, rfl⟩
  · exact ⟨_, rfl⟩
  · have happly := applyState_packageState (R := s) hst
    rw [htarget] at happly
    exact ⟨_, congrArg (Except.map fun s => (s, none)) happly⟩

/-! ## Messages that Prime has ordered -/

/-- From `r` to `r'` messages are queued, each with its ordinal, and nothing else happens
between `ITRC_Master` and the master. -/
structure Queues (r r' : Replica) (l : List (Itrc.Ordinal × Msg)) : Prop where
  ordQueue : r'.ordQueue = r.ordQueue ++ l.map Prod.fst
  toSm : r'.toSm = r.toSm ++ l.map fun p => (some p.1, p.2)
  toItrc : r'.toItrc = r.toItrc
  paired : r'.paired = r.paired
  crash : r'.crash = r.crash
  admitted : ∀ p ∈ l, p.2.Admitted ∧ p.2 ≠ .systemReset ∧ p.2.isUpdate = true

theorem Queues.none {r r' : Replica} (hq : r'.ordQueue = r.ordQueue) (hsm : r'.toSm = r.toSm)
    (hitrc : r'.toItrc = r.toItrc) (hp : r'.paired = r.paired) (hc : r'.crash = r.crash) : Queues r r' [] :=
  { ordQueue := by rw [hq, List.map_nil, List.append_nil]
    toSm := by rw [hsm, List.map_nil, List.append_nil]
    toItrc := hitrc
    paired := hp
    crash := hc
    admitted := fun _ hp => by cases hp }

theorem Queues.trans {r r' r'' : Replica} {l l' : List (Itrc.Ordinal × Msg)} (h : Queues r r' l) (h' : Queues r' r'' l') :
    Queues r r'' (l ++ l') :=
  { ordQueue := by rw [h'.ordQueue, h.ordQueue, List.map_append, List.append_assoc]
    toSm := by rw [h'.toSm, h.toSm, List.map_append, List.append_assoc]
    toItrc := h'.toItrc.trans h.toItrc
    paired := h'.paired.trans h.paired
    crash := h'.crash.trans h.crash
    admitted := by
      intro p hp
      rcases List.mem_append.mp hp with hp | hp
      · exact h.admitted p hp
      · exact h'.admitted p hp }

/-- What is valid and has a message for the master has an admitted one. -/
theorem PrimeMsg.toMaster_admitted {m : PrimeMsg} {n : Nat} {progress : Nat → SeqPair} {z : Msg}
    (hvalid : m.valid me ≠ false) (hz : m.toMaster n progress = some z) :
    z.Admitted ∧ z ≠ .systemReset ∧ z.isUpdate = true := by
  cases m with
  | rtuData payload =>
    cases hz
    simp only [valid, ne_eq, decide_eq_false_iff_not, not_not] at hvalid
    exact ⟨hvalid, (fun h => by cases h), rfl⟩
  | hmiCommand payload =>
    cases hz
    exact ⟨trivial, (fun h => by cases h), rfl⟩
  | benchmark ben =>
    cases hz
    exact ⟨trivial, (fun h => by cases h), rfl⟩
  | stateTransfer machineId =>
    cases hz
    exact ⟨trivial, (fun h => by cases h), rfl⟩
  | noOp machineId => cases hz
  | other => cases hz

theorem processPrimeOrdinal_queues (me : Nat) (r : Replica) (o : Itrc.Ordinal) (m : PrimeMsg) :
    ∃ l, Queues r (processPrimeOrdinal me r o m) l := by
  unfold processPrimeOrdinal
  dsimp only
  split_ifs with hcollect hgap hskip
  · exact ⟨[], .none rfl rfl rfl rfl rfl⟩
  · exact ⟨[], .none rfl rfl rfl rfl rfl⟩
  · exact ⟨[], .none rfl rfl rfl rfl rfl⟩
  · split
    · exact ⟨[], .none rfl rfl rfl rfl rfl⟩
    · rename_i z hz
      refine ⟨[(o, z)], { ordQueue := rfl, toSm := rfl, toItrc := rfl, paired := rfl, crash := rfl, admitted := ?_ }⟩
      intro p hp
      rw [List.mem_singleton.mp hp]
      exact PrimeMsg.toMaster_admitted (fun h => hskip (.inl h)) hz

theorem replayPending_queues (me : Nat) (l : List (Itrc.Ordinal × PrimeMsg)) (r : Replica) :
    ∃ l', Queues r (replayPending me r l) l' := by
  induction l generalizing r with
  | nil => exact ⟨[], .none rfl rfl rfl rfl rfl⟩
  | cons p rest ih =>
    rw [replayPending]
    split_ifs
    · exact ⟨[], .none rfl rfl rfl rfl rfl⟩
    · obtain ⟨l, hl⟩ := processPrimeOrdinal_queues me r p.1 p.2
      obtain ⟨l', hl'⟩ := ih (processPrimeOrdinal me r p.1 p.2)
      exact ⟨l ++ l', hl.trans hl'⟩
    · exact ih r

theorem onPrime_queues (me : Nat) (r : Replica) (o : Itrc.Ordinal) (m : PrimeMsg) : ∃ l, Queues r (onPrime me r o m) l := by
  unfold onPrime
  split_ifs
  · exact ⟨[], .none rfl rfl rfl rfl rfl⟩
  · exact processPrimeOrdinal_queues me r o m

/-- Replies become due in the order of the queue. -/
theorem Queues.due {r r' : Replica} {l : List (Itrc.Ordinal × Msg)} (h : Queues r r' l) :
    r'.due = r.due ++ l.map fun p => some p.1 := by
  have htags : ((l.map fun p => ((some p.1 : Option Itrc.Ordinal), p.2)).map Prod.fst).filter Option.isSome =
      l.map fun p => some p.1 := by
    rw [List.map_map, List.filter_eq_self.mpr]
    · rfl
    · intro o ho
      obtain ⟨p, -, rfl⟩ := List.mem_map.mp ho
      rfl
  rw [Replica.due, h.toItrc, h.toSm, List.map_append, List.filter_append, htags, ← List.append_assoc]
  rfl

theorem Queues.right {r r' : Replica} {l : List (Itrc.Ordinal × Msg)} (h : Queues r r' l) (hr : r.Right) : r'.Right :=
  { running := by rw [h.crash, hr.running]
    paired := by rw [h.paired]; exact hr.paired
    due := by rw [h.due, h.ordQueue, List.map_append, hr.due, List.map_map]; rfl }

theorem Queues.sent {r r' : Replica} {l : List (Itrc.Ordinal × Msg)} (h : Queues r r' l) (hr : r.Sent t me) :
    r'.Sent t me := by
  intro p hp
  rw [h.toSm] at hp
  rcases List.mem_append.mp hp with hp | hp
  · exact hr p hp
  · obtain ⟨q, hq, rfl⟩ := List.mem_map.mp hp
    exact .inl ⟨q.1, rfl, h.admitted q hq⟩

/-! ## The steps -/

/-- A message without an ordinal does not change what is due. -/
theorem due_toSm_append (r : Replica) (z : Msg) :
    (r.toItrc.map Prod.fst ++ ((r.toSm ++ [(none, z)]).map Prod.fst).filter Option.isSome) = r.due := by
  simp [Replica.due]

/-- The condition of a step. A message is answered when the master takes it, and no reply is due
at a reset. -/
def Awaited (t : Topology) (r : Replica) : Input → Prop
  | .serve =>
    match r.toSm with
    | (some _, z) :: _ => Answered t r.sm z
    | _ => True
  | .systemReset => r.due = []
  | _ => True

section Serve

variable {r : Replica} {o : Option Itrc.Ordinal} {z : Msg} {rest : List (Option Itrc.Ordinal × Msg)}

theorem serve_error {e : Fault} (hsm : r.toSm = (o, z) :: rest) (h : handle t me r.sm z = .error e) :
    serve t me r = { r with toSm := rest, crash := some (.master e) } := by
  simp only [serve, hsm, h]

theorem serve_ok {s : State} {reply : Option Reply} (hsm : r.toSm = (o, z) :: rest)
    (h : handle t me r.sm z = .ok (s, reply)) :
    serve t me r =
      { r with toSm := rest, sm := s, toItrc := r.toItrc ++ (reply.map fun x => (o, x)).toList } := by
  simp only [serve, hsm, h]

end Serve

theorem serve_right {r : Replica} (hs : r.Sent t me) (hr : r.Right) :
    (serve t me r).Right ↔ Awaited t r .serve := by
  cases hsm : r.toSm with
  | nil =>
    have hserve : serve t me r = r := by simp only [serve, hsm]
    rw [hserve]
    refine iff_of_true hr ?_
    simp only [Awaited, hsm]
  | cons p rest =>
    obtain ⟨o, z⟩ := p
    have hdue : r.ordQueue.map some =
        r.toItrc.map Prod.fst ++ ((o :: rest.map Prod.fst).filter Option.isSome) := by
      rw [hr.due, Replica.due, hsm]
      rfl
    rcases hs (o, z) (by rw [hsm]; exact List.mem_cons_self) with ⟨o, rfl, hz, hreset, hup⟩ | ⟨rfl, hz⟩
    · -- A message with an ordinal: right only if there is a reply.
      rw [List.filter_cons_of_pos (by rfl)] at hdue
      have hcond : Awaited t r .serve ↔ Answered t r.sm z := by simp only [Awaited, hsm]
      rw [hcond, ← handle_answers me hz hreset hup]
      cases hh : handle t me r.sm z with
      | error e =>
        rw [serve_error hsm hh]
        refine iff_of_false ?_ ?_
        · intro h
          have hrun := h.running
          cases hrun
        · rintro ⟨s', reply, h⟩
          cases h
      | ok p =>
        obtain ⟨s', reply⟩ := p
        rw [serve_ok hsm hh]
        cases reply with
        | none =>
          refine iff_of_false ?_ ?_
          · intro h
            have hdue' := h.due
            simp only [Replica.due, Option.map_none, Option.toList_none, List.append_nil] at hdue'
            have hlen := congrArg List.length (hdue.symm.trans hdue')
            simp only [List.length_append, List.length_cons] at hlen
            omega
          · rintro ⟨s', reply, h⟩
            cases h
        | some reply =>
          refine iff_of_true ?_ ⟨s', reply, rfl⟩
          refine { running := hr.running, paired := hr.paired, due := ?_ }
          simp only [Replica.due, Option.map_some, Option.toList_some, List.map_append, List.map_cons, List.map_nil,
            List.append_assoc, List.singleton_append]
          exact hdue
    · -- A message without one: there is none.
      obtain ⟨s', hh⟩ := handle_silent (s := r.sm) hz
      rw [serve_ok hsm hh]
      refine iff_of_true ?_ (by simp only [Awaited, hsm])
      rw [List.filter_cons_of_neg (by simp)] at hdue
      refine { running := hr.running, paired := hr.paired, due := ?_ }
      simp only [Replica.due, Option.map_none, Option.toList_none, List.append_nil]
      exact hdue

theorem onReply_right {r : Replica} (hr : r.Right) : (onReply r).Right := by
  cases hitrc : r.toItrc with
  | nil =>
    have hreply : onReply r = r := by simp only [onReply, hitrc]
    rw [hreply]
    exact hr
  | cons p rest =>
    obtain ⟨cause, reply⟩ := p
    have hdue : r.ordQueue.map some = cause :: (rest.map Prod.fst ++ (r.toSm.map Prod.fst).filter Option.isSome) := by
      rw [hr.due, Replica.due, hitrc]
      rfl
    cases hqueue : r.ordQueue with
    | nil =>
      rw [hqueue] at hdue
      cases hdue
    | cons o queue =>
      rw [hqueue, List.map_cons] at hdue
      obtain ⟨hcause, hrest⟩ := List.cons.inj hdue
      have hreply : onReply r = { r with toItrc := rest, ordQueue := queue, paired := r.paired ++ [(o, cause)] } := by
        simp only [onReply, hitrc, hqueue]
      rw [hreply]
      refine { running := hr.running, paired := ?_, due := hrest }
      intro p hp
      rcases List.mem_append.mp hp with hp | hp
      · exact hr.paired p hp
      · rw [List.mem_singleton.mp hp]
        exact hcause.symm

theorem onSystemReset_right {r : Replica} (hr : r.Right) : (onSystemReset r).Right ↔ Awaited t r .systemReset := by
  constructor
  · intro h
    have hdue := h.due
    rw [Replica.due] at hdue
    exact ((due_toSm_append r .systemReset).symm.trans hdue.symm)
  · intro h
    refine { running := hr.running, paired := hr.paired, due := ?_ }
    exact (((due_toSm_append r .systemReset).trans h).symm)

theorem applyStateTransfer_right {r : Replica} (hr : r.Right) (s : State) (latestUpdate : List SeqPair) :
    (applyStateTransfer t me r s latestUpdate).Right := by
  unfold applyStateTransfer
  cases packageState t s { target := me, latestUpdate := latestUpdate } with
  | error e => exact hr
  | ok st =>
    dsimp only
    split_ifs
    · obtain ⟨l, hl⟩ := replayPending_queues me r.pending
        { r with
          progress := fun idx => latestUpdate.getD idx ⟨0, 0⟩, collecting := false, pending := []
          toSm := r.toSm ++ [(none, .stateXfer st)] }
      refine hl.right { running := hr.running, paired := hr.paired, due := ?_ }
      exact hr.due.trans (due_toSm_append r _).symm
    · exact hr

/-- One step keeps the pairing right exactly if it meets the condition. -/
theorem step_right {r : Replica} (hs : r.Sent t me) (hr : r.Right) (x : Input) :
    (r.step t me x).Right ↔ Awaited t r x := by
  unfold Replica.step
  rw [if_neg (by rw [hr.running]; exact fun h => h rfl)]
  cases x with
  | prime o m =>
    obtain ⟨l, hl⟩ := onPrime_queues me r o m
    exact iff_of_true (hl.right hr) trivial
  | systemReset => exact onSystemReset_right hr
  | transfer s latestUpdate => exact iff_of_true (applyStateTransfer_right hr s latestUpdate) trivial
  | serve => exact serve_right hs hr
  | reply => exact iff_of_true (onReply_right hr) trivial

/-- Whatever happens, the messages for the master are of the two kinds. -/
theorem step_sent {r : Replica} (hs : r.Sent t me) (x : Input) : (r.step t me x).Sent t me := by
  unfold Replica.step
  split_ifs
  · exact hs
  · have htail : ∀ p rest, r.toSm = p :: rest → ∀ q ∈ rest, q ∈ r.toSm := by
      intro p rest hp q hq
      rw [hp]
      exact List.mem_cons_of_mem p hq
    have hsnoc : ∀ z, (z = .systemReset ∨
        ∃ s sr st, packageState t s sr = .ok st ∧ st.target = me ∧ z = .stateXfer st) →
        Replica.Sent t me { r with toSm := r.toSm ++ [(none, z)] } := by
      intro z hz p hp
      rcases List.mem_append.mp hp with hp | hp
      · exact hs p hp
      · rw [List.mem_singleton.mp hp]
        exact .inr ⟨rfl, hz⟩
    cases x with
    | prime o m =>
      obtain ⟨l, hl⟩ := onPrime_queues me r o m
      exact hl.sent hs
    | systemReset => exact hsnoc _ (.inl rfl)
    | transfer s latestUpdate =>
      show (applyStateTransfer t me r s latestUpdate).Sent t me
      unfold applyStateTransfer
      cases hp : packageState t s { target := me, latestUpdate := latestUpdate } with
      | error e => exact hs
      | ok st =>
        dsimp only
        split_ifs
        · obtain ⟨l, hl⟩ := replayPending_queues me r.pending
            { r with
              progress := fun idx => latestUpdate.getD idx ⟨0, 0⟩, collecting := false, pending := []
              toSm := r.toSm ++ [(none, .stateXfer st)] }
          exact hl.sent (hsnoc _ (.inr ⟨s, _, st, hp, target_packageState hp, rfl⟩))
        · exact hs
    | serve =>
      show (serve t me r).Sent t me
      cases hsm : r.toSm with
      | nil =>
        have hserve : serve t me r = r := by simp only [serve, hsm]
        rw [hserve]
        exact hs
      | cons p rest =>
        cases hh : handle t me r.sm p.2 with
        | error e =>
          rw [serve_error hsm hh]
          exact fun q hq => hs q (htail p rest hsm q hq)
        | ok q =>
          rw [serve_ok hsm hh]
          exact fun q hq => hs q (htail p rest hsm q hq)
    | reply =>
      show (onReply r).Sent t me
      unfold onReply
      split
      · exact hs
      · split
        · exact hs
        · exact hs

/-! ## The pairing of replies -/

/-- In every run the replies are paired with the ordinals of their messages, and exactly those
ordinals are queued for which one reply is due, if and only if the master answers each message
that has an ordinal and a reset comes only when no reply is due. -/
theorem replies_paired_iff (t : Topology) (me : Nat) (xs : List Input) :
    Always (Replica.step t me) Replica.Right Replica.init xs ↔
      Steps (Replica.step t me) (Awaited t) Replica.init xs :=
  Lib.always_iff_steps (I := Replica.Sent t me) (fun _ x hs hr => step_right hs hr x)
    (fun _ x hs _ _ => step_sent hs x) (fun _ hp => by cases hp)
    { running := rfl, paired := fun _ hp => (by cases hp), due := rfl }

/-- A command for a device that there is not, and a measurement. -/
def unanswered : List Input :=
  [.prime ⟨1, 1, 1⟩ (.hmiCommand { seq := ⟨1, 1⟩, hmiId := 101, scenType := .jhu, type := 1, ttipPos := 9 }),
    .prime ⟨2, 1, 1⟩ (.benchmark { seq := ⟨1, 1⟩, sender := 1, pingSec := 0, pingUsec := 0, pongSec := 0, pongUsec := 0 }),
    .serve, .serve, .reply]

/-- Both are admitted, only the measurement is answered, and its reply gets the ordinal of the
command. -/
theorem reply_mispaired :
    (unanswered.foldl (Replica.step (feeder [0]) 1) Replica.init).paired = [(⟨1, 1, 1⟩, some ⟨2, 1, 1⟩)] ∧
      ¬Always (Replica.step (feeder [0]) 1) Replica.Right Replica.init unanswered := by
  have hpaired :
      (unanswered.foldl (Replica.step (feeder [0]) 1) Replica.init).paired = [(⟨1, 1, 1⟩, some ⟨2, 1, 1⟩)] := by
    rfl
  refine ⟨hpaired, ?_⟩
  intro h
  have hright := (h.of_prefix (List.prefix_refl _)).paired
  rw [hpaired] at hright
  have hcause := hright _ List.mem_cons_self
  cases hcause

end Spire.Scada
