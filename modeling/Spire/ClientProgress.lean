import Spire.Numbering
import Spire.TransferSoundness

/-!
# Duplicates of client messages

The vector `progress` of `ITRC_Master` has, for each client, the number of the last message of it
that went to the master; what is not later is a duplicate. Messages change it, a state transfer
replaces it by that of another replica, a process that starts has it all zero, and a system reset
leaves it as it is.

A `Fleet` is all correct replicas, each of which may be started anew at any time. `Replicated` is
that the vectors are a function of what was ordered since the last reset; a run keeps it exactly
if each reset finds a vector that is all zero.
-/

namespace Spire.ClientProgress

open Lib Spire.Itrc
open Spire.Numbering (Succeeds)
open Spire.Scada (Msg PrimeMsg SeqPair seqPairCompare numProgress)

variable {P S G : Type}

/-! ## What is ordered between two resets -/

/-- The messages that Prime delivers after a reset, with their ordinals. -/
structure Log where
  entries : List (Itrc.Ordinal × PrimeMsg)
  chain : (zeroOrd :: entries.map Prod.fst).IsChain Succeeds

/-- A message as one of the replicas gets it: where an ordinal has no event, each makes a no-op of
its own. -/
def localTo (me : Nat) : PrimeMsg → PrimeMsg
  | .noOp _ => .noOp me
  | m => m

namespace Log

/-- The message is delivered to this replica at this ordinal. -/
def Has (L : Log) (me : Nat) (o : Itrc.Ordinal) (m : PrimeMsg) : Prop := ∃ m', (o, m') ∈ L.entries ∧ m = localTo me m'

/-- Where a replica can be. -/
def places (L : Log) : List Itrc.Ordinal := zeroOrd :: L.entries.map Prod.fst

/-- The messages up to an ordinal. -/
def upTo (L : Log) (o : Itrc.Ordinal) : List PrimeMsg :=
  (L.entries.filter fun x => ordCompare x.1 o ≤ 0).map Prod.snd

end Log

theorem ordCompare_nonpos {o p : Itrc.Ordinal} : ordCompare o p ≤ 0 ↔ o.key ≤ p.key := by
  rw [← not_lt, ordCompare_pos, not_lt]

/-- In a chain nothing comes between an ordinal and the next one. -/
theorem least_after {l : List Itrc.Ordinal} {p o : Itrc.Ordinal} (h : l.IsChain Succeeds) (hkeyed : Keyed Itrc.Ordinal.key l)
    (hp : p ∈ l) (ho : OrdConsec p o) : ∀ y ∈ l, p.key < y.key → o.key ≤ y.key := by
  obtain ⟨l₁, l₂, rfl⟩ := List.append_of_mem hp
  obtain ⟨-, htail, hbefore⟩ := List.pairwise_append.mp hkeyed
  intro y hy hlt
  have hlater : y ∈ l₂ := by
    rcases List.mem_append.mp hy with hy | hy
    · exact absurd ((hbefore y hy p List.mem_cons_self).trans hlt) (lt_irrefl _)
    · rcases List.mem_cons.mp hy with rfl | hy
      · exact absurd hlt (lt_irrefl _)
      · exact hy
  have hchain := (List.isChain_append.mp h).2.1
  cases l₂ with
  | nil => cases hlater
  | cons z l₂ =>
    have hz : Succeeds p z := (List.isChain_cons_cons.mp hchain).1
    have hle : z.key ≤ y.key := by
      rcases List.mem_cons.mp hlater with rfl | hy
      · exact le_refl _
      · exact ((List.pairwise_cons.mp (List.pairwise_cons.mp htail).2).1 y hy).le
    refine le_trans ?_ hle
    rw [← not_lt, Itrc.Ordinal.key_lt_key]
    unfold Succeeds at hz
    split_ifs at hz with hlast <;> rcases ho with ⟨hnum, hidx⟩ | ⟨hnum, hend, hidx⟩ <;> omega

namespace Log

variable {L : Log} {p o : Itrc.Ordinal} {m : PrimeMsg}

theorem keyed_places (L : Log) : Keyed Itrc.Ordinal.key L.places := keyed_of_next (L.chain.imp fun _ _ => Succeeds.consec)

theorem keyed (L : Log) : Keyed (fun x : Itrc.Ordinal × PrimeMsg => x.1.key) L.entries := by
  have hordinals : (L.entries.map Prod.fst).Pairwise fun o p => o.key < p.key := L.keyed_places.tail
  rw [List.pairwise_map] at hordinals
  exact hordinals

theorem upTo_eq {pre post : List (Itrc.Ordinal × PrimeMsg)} (h : L.entries = pre ++ post) (hpre : ∀ x ∈ pre, x.1.key ≤ o.key)
    (hpost : ∀ x ∈ post, o.key < x.1.key) : L.upTo o = pre.map Prod.snd := by
  rw [upTo, h]
  refine congrArg (List.map Prod.snd) (filter_of_split (fun x hx => ?_) fun x hx => ?_)
  · exact ordCompare_nonpos.mpr (hpre x hx)
  · rw [ordCompare_nonpos, not_le]
    exact hpost x hx

theorem upTo_congr (h : p.key = o.key) : L.upTo p = L.upTo o := by
  obtain ⟨pre, post, hsplit, hpre, hpost⟩ := L.keyed.split (p := (· ≤ o.key)) fun _ _ hlt hle => hlt.le.trans hle
  rw [upTo_eq hsplit hpre fun x hx => not_le.mp (hpost x hx), upTo_eq hsplit (h ▸ hpre) fun x hx => h ▸ not_le.mp (hpost x hx)]

theorem upTo_zero : L.upTo zeroOrd = [] :=
  upTo_eq (List.nil_append _).symm (List.forall_mem_nil _) fun _ hx => L.keyed_places.head_lt (List.mem_map_of_mem hx)

/-- What is later is at the end. -/
theorem upTo_prefix (h : p.key ≤ o.key) : L.upTo p <+: L.upTo o := by
  obtain ⟨pre, post, hsplit, hpre, hpost⟩ := L.keyed.split (p := (· ≤ p.key)) fun _ _ hlt hle => hlt.le.trans hle
  have hkeep : pre.filter (fun x => ordCompare x.1 o ≤ 0) = pre :=
    List.filter_eq_self.mpr fun x hx => decide_eq_true (ordCompare_nonpos.mpr ((hpre x hx).trans h))
  rw [upTo_eq hsplit hpre fun x hx => not_le.mp (hpost x hx), upTo, hsplit, List.filter_append, hkeep, List.map_append]
  exact List.prefix_append _ _

/-- With the next ordinal there is one message more. -/
theorem upTo_next (hp : p ∈ L.places) (ho : (o, m) ∈ L.entries) (h : OrdConsec p o) : L.upTo o = L.upTo p ++ [m] := by
  have hleast : ∀ y ∈ L.entries, p.key < y.1.key → o.key ≤ y.1.key := fun y hy =>
    least_after L.chain L.keyed_places hp h y.1 (List.mem_cons_of_mem _ (List.mem_map_of_mem hy))
  have hkeyed := L.keyed
  obtain ⟨l₁, l₂, hsplit⟩ := List.append_of_mem ho
  rw [hsplit] at hkeyed hleast
  obtain ⟨-, htail, hbefore⟩ := List.pairwise_append.mp hkeyed
  have hearlier : ∀ y ∈ l₁, y.1.key < o.key := fun y hy => hbefore y hy _ List.mem_cons_self
  have hlater : ∀ y ∈ l₂, o.key < y.1.key := (List.pairwise_cons.mp htail).1
  have hpast : ∀ y ∈ l₁, y.1.key ≤ p.key := by
    intro y hy
    by_contra hnot
    exact absurd (hearlier y hy) (not_lt.mpr (hleast y (List.mem_append_left _ hy) (not_le.mp hnot)))
  have hrest : ∀ y ∈ (o, m) :: l₂, p.key < y.1.key :=
    List.forall_mem_cons.mpr ⟨h.key_lt, fun y hy => h.key_lt.trans (hlater y hy)⟩
  have hupTo : ∀ y ∈ l₁ ++ [(o, m)], y.1.key ≤ o.key := by
    intro y hy
    rcases List.mem_append.mp hy with hy | hy
    · exact (hearlier y hy).le
    · rw [List.mem_singleton.mp hy]
  rw [upTo_eq hsplit hpast hrest, upTo_eq (hsplit.trans (List.append_cons _ _ _)) hupTo hlater, List.map_append]
  rfl

/-- What a run of `ORDER_Execute_Commit` delivers, with the messages that its events stand for. -/
def ofRun {D E : Type} (c : Config) (me : Nat) (a : Execution.Around D E) (xs : List (Execution.Input D E))
    (h : Numbering.Consecutive (Execution.run c me (Execution.Node.start a) xs).executed)
    (content : Execution.Delivery E → PrimeMsg) : Log where
  entries := (Execution.run c me (Execution.Node.start a) xs).delivered.map fun d => (Numbering.ordinal d, content d)
  chain := by
    rw [List.map_map]
    exact (Numbering.delivered_succeeds c me a xs h).1

end Log

/-! ## The vector of what was ordered -/

/-- The client of a message with valid contents, and the number of the message. -/
def clientOf (m : PrimeMsg) : Option (Nat × SeqPair) := if m.valid 0 then m.client else none

/-- The vector with the number of a client's message, if that is later. -/
def note (progress : Nat → SeqPair) : Option (Nat × SeqPair) → Nat → SeqPair
  | some (idx, ps) => if seqPairCompare ps (progress idx) ≤ 0 then progress else Function.update progress idx ps
  | none => progress

/-- What a message does to the vector of a replica that takes it. -/
def take (progress : Nat → SeqPair) (m : PrimeMsg) : Nat → SeqPair := note progress (clientOf m)

/-- The vector of a replica that has taken these messages since it was started. -/
def vectorOf (l : List PrimeMsg) : Nat → SeqPair := l.foldl take fun _ => ⟨0, 0⟩

/-- The order of `Seq_Pair_Compare`. -/
def rank (ps : SeqPair) : Nat ×ₗ Nat := toLex (ps.incarnation, ps.seqNum)

section Vectors

variable {me : Nat} {progress progress' : Nat → SeqPair} {m : PrimeMsg} {l l' : List PrimeMsg} {z : Msg} {idx : Nat}

theorem seqPairCompare_nonpos {ps qs : SeqPair} : seqPairCompare ps qs ≤ 0 ↔ rank ps ≤ rank qs := by
  rw [rank, rank, Prod.Lex.toLex_le_toLex]
  unfold seqPairCompare
  split_ifs <;> simp <;> omega

theorem vectorOf_concat : vectorOf (l ++ [m]) = take (vectorOf l) m := List.foldl_concat ..

/-- What a message does to one entry depends on that entry alone. -/
theorem take_congr (h : progress idx = progress' idx) : take progress m idx = take progress' m idx := by
  unfold take
  cases clientOf m with
  | none => exact h
  | some c =>
    simp only [note]
    by_cases hc : idx = c.1
    · subst hc
      simp only [h]
      split_ifs
      · exact h
      · rw [Function.update_self, Function.update_self]
    · split_ifs <;> simp only [Function.update_of_ne hc, h]

theorem rank_le_take : rank (progress idx) ≤ rank (take progress m idx) := by
  unfold take
  cases clientOf m with
  | none => exact le_refl _
  | some c =>
    simp only [note]
    split_ifs with hle
    · exact le_refl _
    · by_cases hc : idx = c.1
      · subst hc
        rw [Function.update_self]
        exact (not_le.mp (mt seqPairCompare_nonpos.mpr hle)).le
      · rw [Function.update_of_ne hc]

theorem rank_mono (h : l <+: l') : rank (vectorOf l idx) ≤ rank (vectorOf l' idx) := by
  obtain ⟨r, rfl⟩ := h
  induction r using List.reverseRecOn with
  | nil => rw [List.append_nil]
  | append_singleton r m ih =>
    rw [← List.append_assoc, vectorOf_concat]
    exact ih.trans rank_le_take

theorem clientOf_isNone (h : m.client = none) : clientOf m = none := by
  unfold clientOf
  split_ifs
  · exact h
  · rfl

theorem take_of_none (h : m.client = none) : take progress m = progress := by rw [take, clientOf_isNone h, note]

theorem take_localTo : take progress (localTo me m) = take progress m := by
  cases m with
  | noOp i => rw [take_of_none rfl, take_of_none rfl]
  | _ => rfl

/-- The messages that nobody is given do not change the vector, and the others change it so. -/
theorem take_eq_quiet (me : Nat) : take progress m = if quiet me progress m then progress else m.advance progress := by
  cases hc : m.client with
  | none =>
    have hsame : m.advance progress = progress := by rw [PrimeMsg.advance, hc]
    rw [take_of_none hc, hsame, ite_self]
  | some c =>
    have hvalid : m.valid me = m.valid 0 := by
      cases m <;> first | rfl | cases hc
    have hno : isNoOp m = false := by
      cases m <;> first | rfl | cases hc
    unfold take clientOf quiet PrimeMsg.duplicate PrimeMsg.advance
    rw [hvalid, hno, hc]
    cases m.valid 0 with
    | false => rfl
    | true => by_cases hle : seqPairCompare c.2 (progress c.1) ≤ 0 <;> simp [note, hle]

theorem take_transfer (h : m.transfersTo me = true) : take progress m = progress := by
  refine take_of_none ?_
  cases m <;> first | rfl | exact absurd h Bool.false_ne_true

/-! ## What the master was given -/

/-- The client of an update. -/
def msgClient : Msg → Option (Nat × SeqPair)
  | .rtuData payload => some (payload.rtuId, payload.seq)
  | .hmiCommand payload => some (payload.hmiId, payload.seq)
  | .benchmark ben => some ((ben.sender % 2 ^ 32).toNat, ben.seq)
  | _ => none

/-- The clients whose messages the master was given since the last reset, with the numbers of the
messages. -/
def handed (l : List Msg) : List (Nat × SeqPair) :=
  l.foldl (fun l z =>
    match z with
    | .systemReset => []
    | z => l ++ ((msgClient z).filter fun c => c.1 < numProgress).toList) []

theorem handed_stateXfer (l : List Msg) (x : Scada.StateXfer) : handed (l ++ [.stateXfer x]) = handed l := by
  rw [handed, List.foldl_concat]
  exact List.append_nil _

theorem handed_systemReset (l : List Msg) : handed (l ++ [.systemReset]) = [] := by rw [handed, List.foldl_concat]

theorem handed_toMaster (h : m.toMaster numProgress progress = some z) (l : List Msg) :
    handed (l ++ [z]) = handed l ++ (m.client.filter fun c => c.1 < numProgress).toList := by
  rw [handed, List.foldl_concat]
  cases m <;> first | cases h; rfl | cases h

end Vectors

/-! ## The course of a round -/

section Course

variable [DecidableEq G] (v : Setting P S G)

/-- The states in the course of a replay, after each of the messages. -/
def replayed (s : Master P S) : List (Itrc.Ordinal × PrimeMsg) → List (Master P S)
  | [] => []
  | (o, m) :: rest =>
    if s.collectingSignal then []
    else
      let s := if 0 < ordCompare o s.recvdOrd then s.processPrimeOrdinal v o m else s
      s :: replayed s rest

/-- Those in what follows a message that may have completed a transfer. -/
def settled (s : Master P S) : List (Master P S) :=
  if s.completedTransfer && !s.collectingSignal then
    replayed v { s with completedTransfer := false, pendingUpdates := [] } s.pendingUpdates
  else []

/-- What is recorded of a message from Prime before it is processed. -/
def arrive (s : Master P S) (o : Itrc.Ordinal) (m : PrimeMsg) : Master P S :=
  { s with
    injected := if s.recvdFirstOrdinal = false ∧ ¬OrdConsec s.recvdOrd o then s.injected + 1 else s.injected
    recvdFirstOrdinal := true
    arrived := s.arrived ++ [(o, m)] }

/-- The states in the course of a round. -/
def course (s : Master P S) (x : MasterInput P S) : List (Master P S) :=
  if s.fault ≠ none then []
  else
    match x with
    | .prime o m =>
      if ordCompare o s.recvdOrd ≤ 0 then []
      else
        let s := (arrive s o m).processPrimeOrdinal v o m
        s :: settled v s
    | .stateXfer sender st =>
      let s := s.offerState v sender st
      s :: settled v s
    | _ => []

end Course

/-! ## The replicas -/

/-- A replica at some time: how many resets its Prime had executed, and its state. -/
structure Stage (P S : Type) where
  epoch : Nat
  state : Master P S

/-- The correct replicas, and all the stages that any of them has been in. -/
structure Fleet (P S : Type) where
  node : Nat → Stage P S
  past : List (Stage P S)

/-- A replica is started anew, its Prime having executed so many resets, or has a round. -/
inductive Happening (P S : Type)
  | restart (i epoch : Nat)
  | round (i : Nat) (x : MasterInput P S)

/-- The round is a reset. -/
def resets (s : Master P S) : MasterInput P S → Bool
  | .primeReset o => s.fault = none ∧ o.ordNum = 0
  | _ => false

def Fleet.boot : Fleet P S := { node := fun _ => ⟨0, Master.init⟩, past := [⟨0, Master.init⟩] }

/-- What happens at a replica makes new stages. -/
def Fleet.enter (w : Fleet P S) (i epoch : Nat) (states : List (Master P S)) (s : Master P S) : Fleet P S :=
  { node := Function.update w.node i ⟨epoch, s⟩, past := w.past ++ (states ++ [s]).map (Stage.mk epoch) }

section Fleets

variable [DecidableEq G] (v : Setting P S G)

def Fleet.step (w : Fleet P S) : Happening P S → Fleet P S
  | .restart i epoch => w.enter i epoch [] Master.init
  | .round i x =>
    let p := w.node i
    w.enter i (if resets p.state x then p.epoch + 1 else p.epoch) (course (v.at i) p.state x) (p.state.step (v.at i) x)

/-- The vector in a state that is transferred. -/
def vector (x : StXfer) (idx : Nat) : SeqPair := x.body.latestUpdate.getD idx ⟨0, 0⟩

/-- A transfer to what some replica had in the same epoch, once it had taken the ordinal. -/
def Vouched (past : List (Stage P S)) (epoch : Nat) (t : Itrc.Ordinal × StXfer) : Prop :=
  ∃ p ∈ past, p.epoch = epoch ∧ p.state.recvdOrd.key = t.1.key ∧ p.state.collectingSignal = false ∧
    ∀ idx < numProgress, vector t.2 idx = p.state.progress idx

/-- A round of a replica to which its Prime delivers what is ordered, and which transfers, at the
ordinal it has come to, the state of another. -/
structure Genuine (logs : Nat → Log) (w : Fleet P S) (i : Nat) (x : MasterInput P S) : Prop where
  ordered : ∀ o m, x = .prime o m → (logs (w.node i).epoch).Has i o m
  transferred : ∀ s ∈ course (v.at i) (w.node i).state x, ∀ t ∈ s.transfers,
    t.1.key ≤ s.recvdOrd.key ∧ Vouched w.past (w.node i).epoch t

def Happening.Genuine (logs : Nat → Log) (w : Fleet P S) : Happening P S → Prop
  | .restart _ _ => True
  | .round i x => ClientProgress.Genuine v logs w i x

end Fleets

/-- What is expected of a stage. The vector is that of what was ordered since the reset, unless the
replica waits for a state, and since the reset no message of a client went to the master twice. -/
structure Stage.Replicated (logs : Nat → Log) (p : Stage P S) : Prop where
  vector : p.state.collectingSignal = false → ∀ idx < numProgress,
    p.state.progress idx = vectorOf ((logs p.epoch).upTo p.state.recvdOrd) idx
  once : (handed p.state.toSm).Nodup

/-- What is expected of all stages: any two replicas that have come to the same ordinal take the
same messages of clients for duplicates. -/
structure Fleet.Replicated (logs : Nat → Log) (w : Fleet P S) : Prop where
  stages : ∀ p ∈ w.past, p.Replicated logs
  classified : ∀ p ∈ w.past, ∀ q ∈ w.past, p.epoch = q.epoch → p.state.recvdOrd.key = q.state.recvdOrd.key →
    p.state.collectingSignal = false → q.state.collectingSignal = false →
    ∀ m : PrimeMsg, (∀ c ∈ m.client, c.1 < numProgress) → m.duplicate p.state.progress = m.duplicate q.state.progress

/-- A reset finds no message of any client in the vector. -/
def ResetsZero (w : Fleet P S) : Happening P S → Prop
  | .restart _ _ => True
  | .round i x => resets (w.node i).state x = true → ∀ idx < numProgress, (w.node i).state.progress idx = ⟨0, 0⟩

/-! ## Rounds of a replica -/

/-- The transfers are not ahead of the replica, and have the vectors of what was ordered. -/
def Fits (L : Log) (s : Master P S) : Prop :=
  ∀ t ∈ s.transfers, t.1.key ≤ s.recvdOrd.key ∧ ∀ idx < numProgress, vector t.2 idx = vectorOf (L.upTo t.1) idx

/-- What a replica keeps between two resets. -/
structure Keeps (L : Log) (me : Nat) (s : Master P S) : Prop where
  queued : s.Queued
  place : s.recvdOrd ∈ L.places
  parked : ∀ x ∈ s.pendingUpdates, L.Has me x.1 x.2
  vector : s.collectingSignal = false → ∀ idx < numProgress, s.progress idx = vectorOf (L.upTo s.recvdOrd) idx
  handed : ∀ c ∈ handed s.toSm, rank c.2 ≤ rank (vectorOf (L.upTo s.recvdOrd) c.1)
  once : (ClientProgress.handed s.toSm).Nodup

section Frames

variable {L : Log} {me : Nat} {s s' : Master P S} {o : Itrc.Ordinal} {m : PrimeMsg} {v : Setting P S G}

/-- Nothing else matters. -/
theorem Keeps.frame (h : Keeps L me s) (hstq : s'.stq = s.stq) (hrecvd : s'.recvdOrd = s.recvdOrd)
    (hpending : ∀ x ∈ s'.pendingUpdates, L.Has me x.1 x.2) (hcollecting : s'.collectingSignal = s.collectingSignal)
    (hprogress : s'.progress = s.progress) (htoSm : s'.toSm = s.toSm) : Keeps L me s' where
  queued := ⟨hstq ▸ h.queued.keyed, hstq ▸ h.queued.result⟩
  place := hrecvd ▸ h.place
  parked := hpending
  vector := hcollecting ▸ hprogress ▸ hrecvd ▸ h.vector
  handed := htoSm ▸ hrecvd ▸ h.handed
  once := htoSm ▸ h.once

theorem Keeps.insertTc (h : Keeps L me s) (f : TcNode P S → TcNode P S) : Keeps L me (s.insertTc v o f) := by
  obtain ⟨q, handed, heq⟩ := insertTc_frame (v := v) s o f
  rw [heq]
  exact h.frame rfl rfl h.parked rfl rfl rfl

theorem skipOrdinal_frame (s : Master P S) (o : Itrc.Ordinal) (m : PrimeMsg) :
    ∃ q handed, s.skipOrdinal v o m = { s with tcq := q, handed := handed } := by
  unfold Master.skipOrdinal
  split_ifs
  · exact insertTc_frame s o _
  · exact ⟨s.tcq, s.handed, rfl⟩

/-- At a place to which the replica has come, and with what it was given, the vector is later. -/
theorem Keeps.later (h : Keeps L me s) (hle : s.recvdOrd.key ≤ o.key) :
    ∀ c ∈ ClientProgress.handed s.toSm, rank c.2 ≤ rank (vectorOf (L.upTo o) c.1) := fun c hc =>
  (h.handed c hc).trans (rank_mono (Log.upTo_prefix hle))

theorem Keeps.onReply (h : Keeps L me s) (r : Scada.Reply) : Keeps L me (s.onReply v r) := by
  unfold Master.onReply
  split
  · exact h.frame rfl rfl h.parked rfl rfl rfl
  · dsimp only
    split
    · exact h.frame rfl rfl h.parked rfl rfl rfl
    · refine Keeps.insertTc ?_ _
      exact h.frame rfl rfl h.parked rfl rfl rfl

/-- After a reset nothing was ordered, and the vector is what it was. -/
theorem keeps_reset (L : Log) (me : Nat) (ho : o.ordNum = 0) (hzero : ∀ idx < numProgress, s.progress idx = ⟨0, 0⟩) :
    Keeps L me (s.onPrimeReset o) := by
  unfold Master.onPrimeReset
  rw [if_neg (not_not.mpr ho)]
  refine ⟨⟨List.Pairwise.nil, List.forall_mem_nil _⟩, List.mem_cons_self, List.forall_mem_nil _, fun _ idx hidx => ?_, ?_, ?_⟩
  · rw [Log.upTo_zero]
    exact hzero idx hidx
  · rw [handed_systemReset]
    exact List.forall_mem_nil _
  · rw [handed_systemReset]
    exact List.nodup_nil

theorem keeps_init (L : Log) (me : Nat) : Keeps L me (Master.init : Master P S) where
  queued := ⟨List.Pairwise.nil, List.forall_mem_nil _⟩
  place := List.mem_cons_self
  parked := List.forall_mem_nil _
  vector _ idx _ := by
    show _ = vectorOf (L.upTo zeroOrd) idx
    rw [Log.upTo_zero]
    rfl
  handed := List.forall_mem_nil _
  once := List.nodup_nil

end Frames

section Rounds

variable [DecidableEq G] {v : Setting P S G} {L : Log} {s : Master P S} {o : Itrc.Ordinal} {m : PrimeMsg}

/-- What becomes of the vector when an ordinal is taken, and what the master is given. -/
theorem takeOrdinal_cases (h : s.Queued) (o : Itrc.Ordinal) (m : PrimeMsg) :
    (s.Needs v o m ∧
      ((∃ x, (o, x) ∈ (s.takeOrdinal v o m).transfers ∧ (s.takeOrdinal v o m).progress = vector x ∧
          (s.takeOrdinal v o m).toSm = s.toSm ++ [.stateXfer x.body]) ∨
        (s.takeOrdinal v o m).collectingSignal = true ∧ (s.takeOrdinal v o m).toSm = s.toSm)) ∨
      ¬s.Needs v o m ∧ (s.takeOrdinal v o m).progress = take s.progress m ∧
        ((s.takeOrdinal v o m).toSm = s.toSm ∨ quiet v.site.myId s.progress m = false ∧
          ∃ z, m.toMaster numProgress s.progress = some z ∧ (s.takeOrdinal v o m).toSm = s.toSm ++ [z]) := by
  obtain ⟨q, handed, hskip⟩ := skipOrdinal_frame (v := v) s o m
  unfold Master.takeOrdinal
  dsimp only
  rw [hskip]
  by_cases hto : m.transfersTo v.site.myId = true
  · rw [hto, Bool.or_true, if_pos rfl, if_pos rfl]
    by_cases hnext : OrdConsec s.recvdOrd o
    · refine .inr ⟨fun hneeds => hneeds.2 hnext, ?_, .inl ?_⟩
      · rw [take_transfer hto, Master.ownTransfer, if_pos hnext]
        rfl
      · rw [Master.ownTransfer, if_pos hnext]
        rfl
    · have hq : ({ s with tcq := q, handed := handed } : Master P S).Queued := ⟨h.keyed, h.result⟩
      refine .inl ⟨⟨hto, hnext⟩, ?_⟩
      obtain ⟨-, x, tcq, stq, -, -, heq⟩ | ⟨-, stq, -, -, heq⟩ := ownTransfer_needed (v := v) hq hnext
      · rw [heq]
        exact .inl ⟨x, List.mem_append_right _ List.mem_cons_self, rfl, rfl⟩
      · rw [heq]
        exact .inr ⟨rfl, rfl⟩
  · have hno : m.transfersTo v.site.myId = false := Bool.eq_false_iff.mpr hto
    refine .inr ⟨fun hneeds => hto hneeds.1, ?_⟩
    rw [hno, Bool.or_false, if_neg Bool.false_ne_true]
    cases hquiet : quiet v.site.myId s.progress m with
    | true =>
      rw [if_pos rfl, take_eq_quiet v.site.myId, if_pos hquiet]
      exact ⟨rfl, .inl rfl⟩
    | false =>
      rw [if_neg Bool.false_ne_true, take_eq_quiet v.site.myId, if_neg (Bool.eq_false_iff.mp hquiet)]
      unfold Master.forward
      cases hz : m.toMaster numProgress s.progress with
      | none =>
        -- Only no-ops and messages that are not valid have nothing for the master.
        have hsilent : quiet v.site.myId s.progress m = true := by
          cases m with
          | noOp i => simp [quiet, isNoOp]
          | other => rfl
          | _ => cases hz
        rw [hsilent] at hquiet
        cases hquiet
      | some z => exact ⟨by simp only [Master.record, hz], .inr ⟨rfl, z, rfl, by simp only [Master.record, hz]⟩⟩

/-- What is taken for new is later than all that the master was given. -/
theorem Keeps.fresh {me : Nat} (h : Keeps L me s) (hidle : s.collectingSignal = false) {c : Nat × SeqPair}
    (hc : m.client = some c) (hidx : c.1 < numProgress) (hnew : m.duplicate s.progress = false) :
    c ∉ ClientProgress.handed s.toSm := by
  intro hmem
  have hle := h.handed c hmem
  rw [← h.vector hidle c.1 hidx, ← seqPairCompare_nonpos] at hle
  simp only [PrimeMsg.duplicate, hc, decide_eq_false_iff_not] at hnew
  exact hnew hle

/-- A replica takes an ordinal that is the next one or a transfer to itself. -/
theorem Keeps.takeOrdinal (h : Keeps L v.site.myId s) (hidle : s.collectingSignal = false)
    (hhas : L.Has v.site.myId o m) (hlt : s.recvdOrd.key < o.key)
    (hnext : OrdConsec s.recvdOrd o ∨ m.transfersTo v.site.myId = true) (hfits : Fits L (s.takeOrdinal v o m)) :
    Keeps L v.site.myId (s.takeOrdinal v o m) := by
  have ht := takeOrdinal_taken (v := v) h.queued o m
  obtain ⟨m', hentry, hm⟩ := id hhas
  have hplace : (s.takeOrdinal v o m).recvdOrd ∈ L.places := by
    rw [ht.recvdOrd]
    exact List.mem_cons_of_mem _ (List.mem_map_of_mem hentry)
  have hparked : ∀ x ∈ (s.takeOrdinal v o m).pendingUpdates, L.Has v.site.myId x.1 x.2 := ht.pending ▸ h.parked
  have hlater : ∀ c ∈ ClientProgress.handed s.toSm, rank c.2 ≤ rank (vectorOf (L.upTo (s.takeOrdinal v o m).recvdOrd) c.1) := by
    rw [ht.recvdOrd]
    exact h.later hlt.le
  obtain ⟨-, ⟨x, hx, hprogress, htoSm⟩ | ⟨hcollecting, htoSm⟩⟩ | ⟨hneeds, hprogress, hgiven⟩ :=
    takeOrdinal_cases (v := v) h.queued o m
  · refine ⟨ht.queued, hplace, hparked, fun _ idx hidx => ?_, ?_, ?_⟩
    · rw [hprogress, ht.recvdOrd]
      exact (hfits (o, x) hx).2 idx hidx
    · rw [htoSm, handed_stateXfer]
      exact hlater
    · rw [htoSm, handed_stateXfer]
      exact h.once
  · refine ⟨ht.queued, hplace, hparked, fun hopen => ?_, htoSm ▸ hlater, htoSm ▸ h.once⟩
    rw [hcollecting] at hopen
    cases hopen
  · have hconsec : OrdConsec s.recvdOrd o := by
      rcases hnext with hnext | hto
      · exact hnext
      · exact not_not.mp fun hgap => hneeds ⟨hto, hgap⟩
    have hvector : ∀ idx < numProgress,
        (s.takeOrdinal v o m).progress idx = vectorOf (L.upTo (s.takeOrdinal v o m).recvdOrd) idx := by
      intro idx hidx
      rw [hprogress, ht.recvdOrd, Log.upTo_next h.place hentry hconsec, vectorOf_concat, hm, take_localTo]
      exact take_congr (h.vector hidle idx hidx)
    rcases hgiven with htoSm | ⟨hquiet, z, hz, htoSm⟩
    · exact ⟨ht.queued, hplace, hparked, fun _ => hvector, htoSm ▸ hlater, htoSm ▸ h.once⟩
    · have hgiven : ClientProgress.handed (s.takeOrdinal v o m).toSm =
          ClientProgress.handed s.toSm ++ (m.client.filter fun c => c.1 < numProgress).toList := by
        rw [htoSm, handed_toMaster hz]
      have hnew : m.duplicate s.progress = false := (Bool.or_eq_false_iff.mp hquiet).2
      have hadvance : (s.takeOrdinal v o m).progress = m.advance s.progress := by
        rw [hprogress, take_eq_quiet v.site.myId, hquiet, if_neg Bool.false_ne_true]
      refine ⟨ht.queued, hplace, hparked, fun _ => hvector, fun c hc => ?_,
        hgiven ▸ List.nodup_append.mpr ⟨h.once, ?_, fun a ha b hb hab => ?_⟩⟩
      · rw [hgiven] at hc
        rcases List.mem_append.mp hc with hc | hc
        · exact hlater c hc
        · rw [Option.mem_toList, Option.filter_eq_some_iff, decide_eq_true_eq] at hc
          have hself : m.advance s.progress c.1 = c.2 := by
            simp only [PrimeMsg.advance, hc.1, Function.update_self]
          rw [← hvector c.1 hc.2, hadvance, hself]
      · cases Option.filter (fun c => decide (c.1 < numProgress)) m.client with
        | none => exact List.nodup_nil
        | some c => exact List.nodup_singleton c
      · rw [Option.mem_toList, Option.filter_eq_some_iff, decide_eq_true_eq] at hb
        exact h.fresh hidle hb.1 hb.2 hnew (hab ▸ ha)

/-- A message that is parked, refused or taken. -/
theorem Keeps.process (h : Keeps L v.site.myId s) (hhas : L.Has v.site.myId o m) (hlt : s.recvdOrd.key < o.key)
    (hfits : Fits L (s.processPrimeOrdinal v o m)) : Keeps L v.site.myId (s.processPrimeOrdinal v o m) := by
  unfold Master.processPrimeOrdinal at hfits ⊢
  split_ifs at hfits ⊢ with hc hgap
  · refine h.frame rfl rfl (fun x hx => ?_) rfl rfl rfl
    rcases List.mem_append.mp hx with hx | hx
    · exact h.parked x hx
    · rw [List.mem_singleton.mp hx]
      exact hhas
  · exact h.frame rfl rfl h.parked rfl rfl rfl
  · refine h.takeOrdinal (Bool.eq_false_iff.mpr hc) hhas hlt ?_ hfits
    by_contra hnot
    obtain ⟨hno, hto⟩ := not_or.mp hnot
    exact hgap ⟨hno, Bool.eq_false_iff.mpr hto⟩

/-- The messages of a replay. -/
theorem Keeps.replay {l : List (Itrc.Ordinal × PrimeMsg)} (h : Keeps L v.site.myId s)
    (hl : ∀ x ∈ l, L.Has v.site.myId x.1 x.2) (hfits : ∀ r ∈ replayed v s l, Fits L r) :
    (∀ r ∈ replayed v s l, Keeps L v.site.myId r) ∧ Keeps L v.site.myId (s.replay v l) := by
  induction l generalizing s with
  | nil => exact ⟨List.forall_mem_nil _, h⟩
  | cons x l ih =>
    obtain ⟨o, m⟩ := x
    rw [replayed] at hfits ⊢
    rw [Master.replay]
    by_cases hc : s.collectingSignal = true
    · rw [if_pos hc, if_pos hc]
      exact ⟨List.forall_mem_nil _, h.frame rfl rfl hl rfl rfl rfl⟩
    · rw [if_neg hc] at hfits ⊢
      rw [if_neg hc]
      obtain ⟨hfirst, hrest⟩ := List.forall_mem_cons.mp hfits
      have hnext : Keeps L v.site.myId (if 0 < ordCompare o s.recvdOrd then s.processPrimeOrdinal v o m else s) := by
        split_ifs with hlt
        · rw [if_pos hlt] at hfirst
          exact h.process (hl _ List.mem_cons_self) (ordCompare_pos.mp hlt) hfirst
        · exact h
      obtain ⟨hall, hlast⟩ := ih hnext (fun y hy => hl y (List.mem_cons_of_mem _ hy)) hrest
      exact ⟨List.forall_mem_cons.mpr ⟨hnext, hall⟩, hlast⟩

theorem Keeps.afterTransfer (h : Keeps L v.site.myId s) (hfits : ∀ r ∈ settled v s, Fits L r) :
    (∀ r ∈ settled v s, Keeps L v.site.myId r) ∧ Keeps L v.site.myId (s.afterTransfer v) := by
  unfold settled at hfits ⊢
  unfold Master.afterTransfer
  cases hdone : s.completedTransfer with
  | false => exact ⟨List.forall_mem_nil _, h⟩
  | true =>
    cases hc : s.collectingSignal with
    | true => exact ⟨List.forall_mem_nil _, h.frame rfl rfl h.parked hc.symm rfl rfl⟩
    | false =>
      rw [hdone, hc] at hfits
      refine Keeps.replay ?_ h.parked hfits
      exact h.frame rfl rfl (List.forall_mem_nil _) hc.symm rfl rfl

/-- A state of another replica. -/
theorem Keeps.offerState {sender : Nat} {st : StXfer} (h : Keeps L v.site.myId s)
    (hfits : Fits L (s.offerState v sender st)) : Keeps L v.site.myId (s.offerState v sender st) := by
  have hqueued := h.queued.offerState (v := v) sender st
  obtain ⟨hc, x, tcq, stq, -, -, -, heq⟩ | ⟨-, heq⟩ := offerState_cases (v := v) h.queued sender st
  · rw [heq] at hfits hqueued ⊢
    obtain ⟨hle, hvector⟩ := hfits (st.ord, x) (List.mem_append_right _ List.mem_cons_self)
    -- The state is not old, so it is for where the replica is.
    have hge : s.recvdOrd.key ≤ st.ord.key := by
      have hnew : ¬ordCompare st.ord s.recvdOrd < 0 := fun hlt => hc.1 (.inl hlt)
      by_contra hlt
      have hneg := ordCompare_nonpos.mpr (not_le.mp hlt).le
      rcases lt_or_eq_of_le hneg with hneg | hzero
      · exact hnew hneg
      · exact hlt (ordCompare_eq_zero.mp hzero).le
    have hsame : L.upTo st.ord = L.upTo s.recvdOrd := Log.upTo_congr (le_antisymm hle hge)
    refine ⟨hqueued, h.place, h.parked, fun _ idx hidx => ?_, ?_, ?_⟩
    · rw [← hsame]
      exact hvector idx hidx
    · rw [handed_stateXfer]
      exact h.handed
    · rw [handed_stateXfer]
      exact h.once
  · obtain ⟨q, hq⟩ := insertStId_frame (v := v) s sender st
    rw [heq, hq] at hqueued ⊢
    exact ⟨hqueued, h.place, h.parked, h.vector, h.handed, h.once⟩

/-- **A round** that is not a reset. -/
theorem Keeps.round {x : MasterInput P S} (h : Keeps L v.site.myId s) (hx : resets s x = false)
    (hhas : ∀ o m, x = .prime o m → L.Has v.site.myId o m) (hfits : ∀ r ∈ course v s x, Fits L r) :
    (∀ r ∈ course v s x, Keeps L v.site.myId r) ∧ Keeps L v.site.myId (s.step v x) := by
  unfold Master.step
  unfold course at hfits ⊢
  by_cases hfault : s.fault ≠ none
  · rw [if_pos hfault, if_pos hfault]
    exact ⟨List.forall_mem_nil _, h⟩
  rw [if_neg hfault] at hfits ⊢
  rw [if_neg hfault]
  cases x with
  | prime o m =>
    have harrive : Keeps L v.site.myId (arrive s o m) := h.frame rfl rfl h.parked rfl rfl rfl
    dsimp only [Master.onPrime] at hfits ⊢
    by_cases hold : ordCompare o s.recvdOrd ≤ 0
    · rw [if_pos hold, if_pos hold]
      exact ⟨List.forall_mem_nil _, h.frame rfl rfl h.parked rfl rfl rfl⟩
    · rw [if_neg hold] at hfits ⊢
      rw [if_neg hold]
      obtain ⟨hfirst, hrest⟩ := List.forall_mem_cons.mp hfits
      have hnext := harrive.process (hhas o m rfl) (ordCompare_pos.mp (not_le.mp hold)) hfirst
      obtain ⟨hall, hlast⟩ := hnext.afterTransfer hrest
      exact ⟨List.forall_mem_cons.mpr ⟨hnext, hall⟩, hlast⟩
  | primeReset o =>
    refine ⟨List.forall_mem_nil _, ?_⟩
    have ho : o.ordNum ≠ 0 := by
      intro ho
      rw [resets, ho, not_not.mp hfault] at hx
      cases hx
    show Keeps L v.site.myId (s.onPrimeReset o)
    rw [Master.onPrimeReset, if_pos ho]
    exact h.frame rfl rfl h.parked rfl rfl rfl
  | reply r => exact ⟨List.forall_mem_nil _, h.onReply r⟩
  | share sender tcm => exact ⟨List.forall_mem_nil _, h.insertTc _⟩
  | stateXfer sender st =>
    obtain ⟨hfirst, hrest⟩ := List.forall_mem_cons.mp hfits
    have hnext := h.offerState hfirst
    obtain ⟨hall, hlast⟩ := hnext.afterTransfer hrest
    exact ⟨List.forall_mem_cons.mpr ⟨hnext, hall⟩, hlast⟩

end Rounds

/-! ## Runs of the fleet -/

theorem Keeps.replicated {logs : Nat → Log} {i : Nat} {p : Stage P S} (h : Keeps (logs p.epoch) i p.state) :
    p.Replicated logs := ⟨h.vector, h.once⟩

/-- Where the vectors are those of what was ordered, the same messages are duplicates. -/
theorem replicated_of_stages {logs : Nat → Log} {w : Fleet P S} (h : ∀ p ∈ w.past, p.Replicated logs) :
    w.Replicated logs where
  stages := h
  classified p hp q hq hepoch hord hpi hqi m hm := by
    unfold PrimeMsg.duplicate
    cases hc : m.client with
    | none => rfl
    | some c =>
      have hidx := hm c hc
      have hsame : p.state.progress c.1 = q.state.progress c.1 := by
        rw [(h p hp).vector hpi c.1 hidx, (h q hq).vector hqi c.1 hidx, hepoch, Log.upTo_congr hord]
      simp only [hsame]

section Runs

variable [DecidableEq G] {v : Setting P S G} {logs : Nat → Log} {w : Fleet P S}

/-- What all replicas keep. -/
def Fleet.Keeps (logs : Nat → Log) (w : Fleet P S) : Prop :=
  ∀ i, ClientProgress.Keeps (logs (w.node i).epoch) i (w.node i).state

theorem Fleet.enter_self {i epoch : Nat} {states : List (Master P S)} {s : Master P S} :
    (w.enter i epoch states s).node i = ⟨epoch, s⟩ := Function.update_self ..

theorem Fleet.enter_of_ne {i j epoch : Nat} {states : List (Master P S)} {s : Master P S} (h : j ≠ i) :
    (w.enter i epoch states s).node j = w.node j := Function.update_of_ne h ..

theorem Fleet.Keeps.enter (h : w.Keeps logs) {i epoch : Nat} {states : List (Master P S)} {s : Master P S}
    (hs : ClientProgress.Keeps (logs epoch) i s) : (w.enter i epoch states s).Keeps logs := by
  intro j
  by_cases hj : j = i
  · subst hj
    rw [Fleet.enter_self]
    exact hs
  · rw [Fleet.enter_of_ne hj]
    exact h j

theorem Fleet.Replicated.enter (h : w.Replicated logs) {i epoch : Nat} {states : List (Master P S)} {s : Master P S}
    (hstates : ∀ r ∈ states, ClientProgress.Keeps (logs epoch) i r) (hs : ClientProgress.Keeps (logs epoch) i s) :
    (w.enter i epoch states s).Replicated logs := by
  refine replicated_of_stages fun p hp => ?_
  rcases List.mem_append.mp hp with hp | hp
  · exact h.stages p hp
  · obtain ⟨r, hr, rfl⟩ := List.mem_map.mp hp
    rcases List.mem_append.mp hr with hr | hr
    · exact Keeps.replicated (hstates r hr)
    · rw [List.mem_singleton.mp hr]
      exact Keeps.replicated hs

/-- What a replica had is what was ordered. -/
theorem fits_of_vouched {epoch : Nat} {s : Master P S} (h : w.Replicated logs)
    (hs : ∀ t ∈ s.transfers, t.1.key ≤ s.recvdOrd.key ∧ Vouched w.past epoch t) : Fits (logs epoch) s := by
  intro t ht
  obtain ⟨hle, p, hp, rfl, hord, hidle, hvector⟩ := hs t ht
  refine ⟨hle, fun idx hidx => ?_⟩
  rw [hvector idx hidx, (h.stages p hp).vector hidle idx hidx, Log.upTo_congr hord]

theorem round_of_resets {s : Master P S} {x : MasterInput P S} (h : resets s x = true) :
    ∃ o : Itrc.Ordinal, o.ordNum = 0 ∧ s.step v x = s.onPrimeReset o ∧ course v s x = [] := by
  cases x with
  | primeReset o =>
    obtain ⟨hfault, ho⟩ := of_decide_eq_true h
    refine ⟨o, ho, if_neg (not_not.mpr hfault), ?_⟩
    unfold course
    rw [if_neg (not_not.mpr hfault)]
  | _ => exact absurd h Bool.false_ne_true

/-- A round is good if it is not a reset, or a reset that finds no message in the vector. -/
theorem Fleet.round {i : Nat} {x : MasterInput P S} (hkeeps : w.Keeps logs) (h : w.Replicated logs)
    (hx : Genuine v logs w i x) (hzero : ResetsZero w (.round i x)) :
    (w.step v (.round i x)).Keeps logs ∧ (w.step v (.round i x)).Replicated logs := by
  have hi := hkeeps i
  simp only [Fleet.step]
  by_cases hreset : resets (w.node i).state x = true
  · rw [if_pos hreset]
    obtain ⟨o, ho, hstep, hcourse⟩ := round_of_resets (v := v.at i) hreset
    rw [hstep, hcourse]
    have hs := keeps_reset (logs ((w.node i).epoch + 1)) i ho (hzero hreset)
    exact ⟨hkeeps.enter hs, h.enter (List.forall_mem_nil _) hs⟩
  · rw [if_neg hreset]
    obtain ⟨hall, hlast⟩ := Keeps.round (v := v.at i) hi (Bool.eq_false_iff.mpr hreset) hx.ordered
      fun r hr => fits_of_vouched h (hx.transferred r hr)
    exact ⟨hkeeps.enter hlast, h.enter hall hlast⟩

/-- A reset leaves the vector, which is then that of nothing. -/
theorem Fleet.zero_of_replicated {x : Happening P S} (h : (w.step v x).Replicated logs) : ResetsZero w x := by
  cases x with
  | restart i epoch => trivial
  | round i x =>
    intro hreset idx hidx
    obtain ⟨o, ho, hstep, -⟩ := round_of_resets (v := v.at i) hreset
    simp only [Fleet.step] at h
    rw [if_pos hreset, hstep, Master.onPrimeReset, if_neg (not_not.mpr ho)] at h
    have hlast := h.stages ⟨(w.node i).epoch + 1, _⟩
      (List.mem_append_right _ (List.mem_map_of_mem (List.mem_append_right _ List.mem_cons_self)))
    have hvector := hlast.vector rfl idx hidx
    dsimp only at hvector
    rw [Log.upTo_zero] at hvector
    exact hvector

/-- **Duplicates are replicated** in a run exactly if each reset finds a vector that is all zero.
In the run Prime delivers what is ordered, and states are transferred that replicas had. -/
theorem progress_replicated_iff (v : Setting P S G) (logs : Nat → Log) (xs : List (Happening P S))
    (h : Steps (Fleet.step v) (Happening.Genuine v logs) Fleet.boot xs) :
    Always (Fleet.step v) (Fleet.Replicated logs) Fleet.boot xs ↔ Steps (Fleet.step v) ResetsZero Fleet.boot xs := by
  have hkeep : ∀ (w : Fleet P S) (x : Happening P S), w.Keeps logs → w.Replicated logs → x.Genuine v logs w →
      ResetsZero w x → (w.step v x).Keeps logs ∧ (w.step v x).Replicated logs := by
    intro w x hkeeps hw hx hzero
    cases x with
    | restart i epoch =>
      have hs : Keeps (logs epoch) i (Master.init : Master P S) := keeps_init _ _
      exact ⟨hkeeps.enter hs, hw.enter (List.forall_mem_nil _) hs⟩
    | round i x => exact Fleet.round hkeeps hw hx hzero
  refine always_iff_steps_of (I := Fleet.Keeps logs) (fun w x hkeeps hw hx => ?_) (fun w x hkeeps hw hx hzero => ?_) h
    (fun i => keeps_init _ _) ?_
  · exact ⟨Fleet.zero_of_replicated, fun hzero => (hkeep w x hkeeps hw hx hzero).2⟩
  · exact (hkeep w x hkeeps hw hx hzero).1
  · refine replicated_of_stages fun p hp => ?_
    rw [List.mem_singleton.mp hp]
    exact Keeps.replicated (keeps_init _ 0)

end Runs

/-! ## A message that comes again after a reset -/

section Examples

instance (past : List (Stage P S)) (epoch : Nat) (t : Itrc.Ordinal × StXfer) :
    Decidable (Vouched past epoch t) := by
  unfold Vouched
  infer_instance

instance (w : Fleet P S) (x : Happening P S) : Decidable (ResetsZero w x) := by
  cases x <;> unfold ResetsZero <;> infer_instance

/-- A command, and after it a transfer to the fourth replica. -/
def commandAndTransfer : Log where
  entries := [(⟨1, 1, 2⟩, command), (⟨1, 2, 2⟩, .stateTransfer 4)]
  chain := by decide

def takesCommand (i : Nat) : Happening Unit Unit := .round i (.prime ⟨1, 1, 2⟩ command)

def takesTransfer (i : Nat) : Happening Unit Unit := .round i (.prime ⟨1, 2, 2⟩ (.stateTransfer 4))

/-- What another replica sends for the transfer. -/
def hearsState (i sender : Nat) : Happening Unit Unit :=
  .round i (.stateXfer sender
    { ord := ⟨1, 2, 2⟩
      body :=
        { target := 4, latestUpdate := (List.range numProgress).map (vectorOf [command]), numClients := numProgress
          state := [] } })

def resetsAt (i : Nat) : Happening Unit Unit := .round i (.primeReset zeroOrd)

theorem has_command (i : Nat) : commandAndTransfer.Has i ⟨1, 1, 2⟩ command := ⟨command, List.mem_cons_self, rfl⟩

theorem has_transfer (i : Nat) : commandAndTransfer.Has i ⟨1, 2, 2⟩ (.stateTransfer 4) :=
  ⟨.stateTransfer 4, List.mem_cons_of_mem _ List.mem_cons_self, rfl⟩

/-- After a reset the first replica takes both, and the fourth, which is started then, its state. -/
def startsAfter : List (Happening Unit Unit) :=
  [resetsAt 1, takesCommand 1, takesTransfer 1, .restart 4 1, takesTransfer 4, hearsState 4 1, hearsState 4 2]

/-- The first replica has taken the command when it is reset, and the second was started anew
before the reset. -/
def commandAgain : List (Happening Unit Unit) := [takesCommand 1, .restart 2 0, resetsAt 1, resetsAt 2, takesCommand 1, takesCommand 2]

theorem genuine_startsAfter :
    Steps (Fleet.step replicaOne) (Happening.Genuine replicaOne fun _ => commandAndTransfer) Fleet.boot startsAfter := by
  refine ⟨⟨nofun, by decide +kernel⟩, ⟨?_, by decide +kernel⟩, ⟨?_, by decide +kernel⟩, trivial, ⟨?_, by decide +kernel⟩,
    ⟨nofun, by decide +kernel⟩, ⟨nofun, by decide +kernel⟩, trivial⟩
  · rintro o m ⟨⟩
    exact has_command 1
  · rintro o m ⟨⟩
    exact has_transfer 1
  · rintro o m ⟨⟩
    exact has_transfer 4

theorem progress_replicated_startsAfter :
    Always (Fleet.step replicaOne) (Fleet.Replicated fun _ => commandAndTransfer) Fleet.boot startsAfter :=
  (progress_replicated_iff replicaOne (fun _ => commandAndTransfer) startsAfter genuine_startsAfter).mpr (by decide +kernel)

theorem genuine_commandAgain :
    Steps (Fleet.step replicaOne) (Happening.Genuine replicaOne fun _ => commandAndTransfer) Fleet.boot commandAgain := by
  refine ⟨⟨?_, by decide +kernel⟩, trivial, ⟨nofun, by decide +kernel⟩, ⟨nofun, by decide +kernel⟩,
    ⟨?_, by decide +kernel⟩, ⟨?_, by decide +kernel⟩, trivial⟩
  · rintro o m ⟨⟩
    exact has_command 1
  · rintro o m ⟨⟩
    exact has_command 1
  · rintro o m ⟨⟩
    exact has_command 2

/-- After the reset the command is a duplicate for the first replica, and new for the second. -/
theorem duplicates_differ :
    Steps (Fleet.step replicaOne) (Happening.Genuine replicaOne fun _ => commandAndTransfer) Fleet.boot commandAgain ∧
      ¬Always (Fleet.step replicaOne) (Fleet.Replicated fun _ => commandAndTransfer) Fleet.boot commandAgain := by
  refine ⟨genuine_commandAgain, fun h => ?_⟩
  have hclassified := (h.of_prefix (List.prefix_refl _)).classified
  have hdiffer : ∃ p ∈ (commandAgain.foldl (Fleet.step replicaOne) Fleet.boot).past,
      ∃ q ∈ (commandAgain.foldl (Fleet.step replicaOne) Fleet.boot).past, p.epoch = q.epoch ∧
        p.state.recvdOrd.key = q.state.recvdOrd.key ∧ p.state.collectingSignal = false ∧
        q.state.collectingSignal = false ∧ command.duplicate p.state.progress ≠ command.duplicate q.state.progress := by
    decide +kernel
  obtain ⟨p, hp, q, hq, hepoch, hord, hpi, hqi, hne⟩ := hdiffer
  refine hne (hclassified p hp q hq hepoch hord hpi hqi command fun c hc => ?_)
  obtain rfl : c = (101, ⟨1, 1⟩) := (Option.some.inj hc).symm
  decide

end Examples

end Spire.ClientProgress
