import Spire.ExactlyOnce
import Spire.TransferReplay

/-!
# Ordinals from Prime to the reliable channel

`ORDER_Execute_Commit` numbers what it delivers by the ordinal, and by the place of the event
among all events of the ordinal; `ITRC_Master` takes the next ordinal by the total of the one
before. Where ordinals are executed one after the other, however many requests and events they
have, what the one delivers is what the other takes for the next.
-/

namespace Spire.Numbering

open Spire.Itrc Spire.Execution

variable {D E P S G : Type}

/-! ## What Prime delivers -/

section Prime

/-- The ordinal that goes with an event. -/
def ordinal (d : Delivery E) : Itrc.Ordinal := ⟨d.seqNum, d.index, d.total⟩

/-- The last of a chain of ordinals that starts at `p`. -/
def lastOf (p : Itrc.Ordinal) : List Itrc.Ordinal → Itrc.Ordinal
  | [] => p
  | o :: os => lastOf o os

variable {p o o' : Itrc.Ordinal} {os os' : List Itrc.Ordinal}

theorem lastOf_append : lastOf p (os ++ os') = lastOf (lastOf p os) os' := by
  induction os generalizing p with
  | nil => rfl
  | cons o os ih => exact ih

/-- The ordinal after another. An ordinal number ends with the event that is as many as its total. -/
def Succeeds (o o' : Itrc.Ordinal) : Prop :=
  if o.eventIdx = o.eventTot then o'.ordNum = o.ordNum + 1 ∧ o'.eventIdx = 1
  else o'.ordNum = o.ordNum ∧ o'.eventIdx = o.eventIdx + 1

instance : Decidable (Succeeds o o') := by
  unfold Succeeds
  infer_instance

theorem Succeeds.consec (h : Succeeds o o') : OrdConsec o o' := by
  unfold Succeeds at h
  split_ifs at h with hlast
  · exact .inr ⟨h.1, hlast, h.2⟩
  · exact .inl ⟨h.1.symm, h.2⟩

theorem chain_append (h : (p :: os).IsChain Succeeds) (h' : (lastOf p os :: os').IsChain Succeeds) :
    (p :: (os ++ os')).IsChain Succeeds := by
  induction os generalizing p with
  | nil => exact h'
  | cons o os ih =>
    rw [List.isChain_cons_cons] at h
    exact List.isChain_cons_cons.mpr ⟨h.1, ih h.2 h'⟩

/-- The ordinal is the last of its number. -/
def Ends (n : Nat) (o : Itrc.Ordinal) : Prop := o.ordNum = n ∧ o.eventIdx = o.eventTot

/-- The events of an ordinal from a place on, up to the total. -/
theorem chain_events {n tot k i : Nat} (h : i + k = tot) :
    ((⟨n, i, tot⟩ :: (List.range' (i + 1) k).map fun j => ⟨n, j, tot⟩) : List Itrc.Ordinal).IsChain Succeeds ∧
      Ends n (lastOf ⟨n, i, tot⟩ ((List.range' (i + 1) k).map fun j => ⟨n, j, tot⟩)) := by
  induction k generalizing i with
  | zero => exact ⟨List.isChain_singleton _, rfl, h⟩
  | succ k ih =>
    obtain ⟨hchain, hends⟩ := ih (i := i + 1) (by omega)
    have hnext : Succeeds ⟨n, i, tot⟩ ⟨n, i + 1, tot⟩ := by
      have hne : i ≠ tot := by omega
      rw [Succeeds, if_neg hne]
      exact ⟨rfl, rfl⟩
    exact ⟨List.isChain_cons_cons.mpr ⟨hnext, hchain⟩, hends⟩

theorem ordinals_events (n : Nat) (eventq : List E) :
    (eventq.mapIdx fun k e => (⟨some e, n, k + 1, eventq.length⟩ : Delivery E)).map ordinal =
      (List.range' 1 eventq.length).map fun j => ⟨n, j, eventq.length⟩ := by
  apply List.ext_getElem
  · simp only [List.length_map, List.length_mapIdx, List.length_range']
  · intro i hi hi'
    simp only [List.getElem_map, List.getElem_mapIdx, List.getElem_range', ordinal, Nat.one_mul, Nat.add_comm 1]

/-- What is delivered for an ordinal follows the end of the ordinal before. -/
theorem chain_deliveries {n : Nat} (hp : Ends n p) (eventq : List E) :
    (p :: (deliveries (n + 1) eventq).map ordinal).IsChain Succeeds ∧
      Ends (n + 1) (lastOf p ((deliveries (n + 1) eventq).map ordinal)) := by
  have hfirst : ∀ tot, Succeeds p ⟨n + 1, 1, tot⟩ := by
    intro tot
    rw [Succeeds, if_pos hp.2]
    exact ⟨congrArg (· + 1) hp.1.symm, rfl⟩
  unfold deliveries
  split_ifs with hnone
  · exact ⟨List.isChain_cons_cons.mpr ⟨hfirst 1, List.isChain_singleton _⟩, rfl, rfl⟩
  · obtain ⟨e, rest, rfl⟩ := List.exists_cons_of_ne_nil hnone
    rw [ordinals_events, List.length_cons, List.range'_succ, List.map_cons]
    obtain ⟨hchain, hends⟩ := chain_events (n := n + 1) (Nat.add_comm 1 rest.length)
    exact ⟨List.isChain_cons_cons.mpr ⟨hfirst _, hchain⟩, hends⟩

/-- The ordinals that were executed are one, two, and so on. -/
def Consecutive (executed : List (Executed D)) : Prop :=
  executed.map (fun e => e.slot.proposal.seqNum) = List.range' 1 executed.length

instance (executed : List (Executed D)) : Decidable (Consecutive executed) := by
  unfold Consecutive
  infer_instance

theorem Consecutive.concat {executed : List (Executed D)} {e : Executed D} (h : Consecutive (executed ++ [e])) :
    Consecutive executed ∧ e.slot.proposal.seqNum = executed.length + 1 := by
  unfold Consecutive at h
  rw [List.map_append, List.length_append, List.range'_append_1.symm] at h
  obtain ⟨hold, hnew⟩ := List.append_inj' h rfl
  exact ⟨hold, by simpa [Nat.add_comm] using hnew⟩

theorem seqNum_deliveries {n : Nat} {eventq : List E} : ∀ d ∈ deliveries n eventq, d.seqNum = n := by
  unfold deliveries
  split_ifs
  · exact fun d hd => by rw [List.mem_singleton.mp hd]
  · intro d hd
    obtain ⟨k, hk, rfl⟩ := List.mem_mapIdx.mp hd
    rfl

/-- **The deliveries are a chain**, if the ordinals were executed one after the other. -/
theorem delivered_succeeds (c : Config) (me : Nat) (a : Around D E) (xs : List (Execution.Input D E))
    (h : Consecutive (run c me (Node.start a) xs).executed) :
    (zeroOrd :: (run c me (Node.start a) xs).delivered.map ordinal).IsChain Succeeds ∧
      ∀ d ∈ (run c me (Node.start a) xs).delivered, d.seqNum ≠ 0 := by
  suffices hinv : Consecutive (run c me (Node.start a) xs).executed →
      (zeroOrd :: (run c me (Node.start a) xs).delivered.map ordinal).IsChain Succeeds ∧
        Ends (run c me (Node.start a) xs).executed.length
          (lastOf zeroOrd ((run c me (Node.start a) xs).delivered.map ordinal)) ∧
        ∀ d ∈ (run c me (Node.start a) xs).delivered, d.seqNum ≠ 0 from
    ⟨(hinv h).1, (hinv h).2.2⟩
  refine Lib.foldl_inv (I := fun st : Node D E => Consecutive st.executed →
      (zeroOrd :: st.delivered.map ordinal).IsChain Succeeds ∧
        Ends st.executed.length (lastOf zeroOrd (st.delivered.map ordinal)) ∧ ∀ d ∈ st.delivered, d.seqNum ≠ 0)
    (fun st x ih => ?_) fun _ => ⟨List.isChain_singleton _, ⟨rfl, rfl⟩, List.forall_mem_nil _⟩
  unfold Execution.step
  split_ifs
  · exact ih
  · cases x with
    | elsewhere a => exact ih
    | execute slot =>
      simp only [executeCommit]
      split
      · exact ih
      · exact ih
      · split
        · exact ih
        · intro hconsecutive
          obtain ⟨hold, hnew⟩ := Consecutive.concat hconsecutive
          obtain ⟨hchain, hends, hpos⟩ := ih hold
          dsimp only at hnew
          rw [hnew, List.map_append, List.length_append, lastOf_append]
          obtain ⟨hmore, hmoreEnds⟩ := chain_deliveries hends _
          refine ⟨chain_append hchain hmore, hmoreEnds, fun d hd => ?_⟩
          rcases List.mem_append.mp hd with hd | hd
          · exact hpos d hd
          · rw [seqNum_deliveries d hd]
            exact Nat.succ_ne_zero _

theorem delivered_chain (c : Config) (me : Nat) (a : Around D E) (xs : List (Execution.Input D E))
    (h : Consecutive (run c me (Node.start a) xs).executed) :
    (zeroOrd :: (run c me (Node.start a) xs).delivered.map ordinal).IsChain OrdConsec ∧
      ∀ d ∈ (run c me (Node.start a) xs).delivered, d.seqNum ≠ 0 := by
  obtain ⟨hchain, hpos⟩ := delivered_succeeds c me a xs h
  exact ⟨hchain.imp fun _ _ => Succeeds.consec, hpos⟩

end Prime

/-! ## What the reliable channel takes -/

section Replica

variable {v : Setting P S G} {s : Master P S} {o : Itrc.Ordinal}

/-- The ordinal of a message from Prime. -/
def messageOrdinal : MasterInput P S → Option Itrc.Ordinal
  | .prime o _ => some o
  | .primeReset o => some o
  | _ => none

/-- A replica that has missed nothing: it does not wait, and has reported neither a gap nor an old
ordinal. -/
structure InStep (s : Master P S) : Prop where
  queued : s.Queued
  idle : s.collectingSignal = false
  pending : s.pendingUpdates = []
  gaps : s.gaps = []
  olds : s.olds = []

theorem inStep_init : InStep (Master.init : Master P S) :=
  ⟨⟨List.Pairwise.nil, List.forall_mem_nil _⟩, rfl, rfl, rfl, rfl⟩

theorem InStep.insertTc (h : InStep s) (f : TcNode P S → TcNode P S) :
    InStep (s.insertTc v o f) ∧ (s.insertTc v o f).recvdOrd = s.recvdOrd := by
  obtain ⟨q, handed, heq⟩ := insertTc_frame (v := v) s o f
  rw [heq]
  exact ⟨⟨⟨h.queued.keyed, h.queued.result⟩, h.idle, h.pending, h.gaps, h.olds⟩, rfl⟩

end Replica

section Master

variable [DecidableEq G] {v : Setting P S G} {s : Master P S} {o : Itrc.Ordinal} {m : Scada.PrimeMsg}

/-- There is nothing to replay. -/
theorem InStep.afterTransfer (h : InStep s) : InStep (s.afterTransfer v) ∧ (s.afterTransfer v).recvdOrd = s.recvdOrd := by
  have hopen : ¬s.collectingSignal = true := Bool.eq_false_iff.mp h.idle
  unfold Master.afterTransfer
  split_ifs
  · rw [h.pending, Master.replay]
    exact ⟨⟨⟨h.queued.keyed, h.queued.result⟩, h.idle, rfl, h.gaps, h.olds⟩, rfl⟩
  · exact ⟨h, rfl⟩

/-- The next ordinal is taken. -/
theorem InStep.onPrime (h : InStep s) (hnext : OrdConsec s.recvdOrd o) :
    InStep (s.onPrime v o m) ∧ (s.onPrime v o m).recvdOrd = o := by
  have hold : ¬ordCompare o s.recvdOrd ≤ 0 := not_le.mpr (ordCompare_pos.mpr hnext.key_lt)
  unfold Master.onPrime
  dsimp only
  rw [if_neg hold]
  set i := if s.recvdFirstOrdinal = false ∧ ¬OrdConsec s.recvdOrd o then s.injected + 1 else s.injected
  set a : Master P S := { s with injected := i, recvdFirstOrdinal := true, arrived := s.arrived ++ [(o, m)] }
  have ha : InStep a := ⟨⟨h.queued.keyed, h.queued.result⟩, h.idle, h.pending, h.gaps, h.olds⟩
  have hopen : ¬a.collectingSignal = true := Bool.eq_false_iff.mp h.idle
  have hgap : ¬(¬OrdConsec a.recvdOrd o ∧ m.transfersTo v.site.myId = false) := fun hand => hand.1 hnext
  rw [Master.processPrimeOrdinal, if_neg hopen, if_neg hgap]
  have ht := takeOrdinal_taken (v := v) ha.queued o m
  have hgoes := ht.goesOn fun hneeds => hneeds.2 hnext
  have hin : InStep (a.takeOrdinal v o m) :=
    ⟨ht.queued, hgoes.1.trans h.idle, ht.pending.trans h.pending, ht.reports.2.trans h.gaps, ht.reports.1.trans h.olds⟩
  obtain ⟨hdone, hrecvd⟩ := hin.afterTransfer (v := v)
  exact ⟨hdone, hrecvd.trans ht.recvdOrd⟩

theorem InStep.onStateXfer (h : InStep s) (sender : Nat) (st : StXfer) :
    InStep (s.onStateXfer v sender st) ∧ (s.onStateXfer v sender st).recvdOrd = s.recvdOrd := by
  have hqueued := h.queued.offerState (v := v) sender st
  unfold Master.onStateXfer
  obtain ⟨-, x, tcq, stq, -, -, -, heq⟩ | ⟨-, heq⟩ := offerState_cases (v := v) h.queued sender st
  · rw [heq] at hqueued ⊢
    exact InStep.afterTransfer ⟨hqueued, rfl, h.pending, h.gaps, h.olds⟩
  · obtain ⟨q, hq⟩ := insertStId_frame (v := v) s sender st
    rw [heq, hq] at hqueued ⊢
    exact InStep.afterTransfer ⟨hqueued, h.idle, h.pending, h.gaps, h.olds⟩

/-- What Prime does not send changes neither the ordinal nor the reports. -/
theorem InStep.elsewhere {x : MasterInput P S} (h : InStep s) (hx : messageOrdinal x = none) :
    InStep (s.step v x) ∧ (s.step v x).recvdOrd = s.recvdOrd := by
  unfold Master.step
  split_ifs
  · exact ⟨h, rfl⟩
  cases x with
  | prime o m => cases hx
  | primeReset o => cases hx
  | reply r =>
    dsimp only [Master.onReply]
    split
    · exact ⟨⟨⟨h.queued.keyed, h.queued.result⟩, h.idle, h.pending, h.gaps, h.olds⟩, rfl⟩
    · rename_i rest _
      have hpopped : InStep ({ s with ordQueue := rest } : Master P S) :=
        ⟨⟨h.queued.keyed, h.queued.result⟩, h.idle, h.pending, h.gaps, h.olds⟩
      split
      · exact ⟨hpopped, rfl⟩
      · exact hpopped.insertTc _
  | share sender tcm => exact h.insertTc _
  | stateXfer sender st => exact h.onStateXfer sender st

theorem gaps_of_fault (h : InStep s) (hfault : s.fault ≠ none) (xs : List (MasterInput P S)) :
    (Master.run v s xs).gaps = [] ∧ (Master.run v s xs).olds = [] := by
  have hsame : Master.run v s xs = s := by
    induction xs with
    | nil => rfl
    | cons x xs ih =>
      have hstep : s.step v x = s := if_pos hfault
      rw [Master.run, List.foldl_cons, hstep]
      exact ih
  rw [hsame]
  exact ⟨h.gaps, h.olds⟩

/-- A replica that is given the next ordinals, between whatever else, reports nothing. -/
theorem InStep.run (h : InStep s) {xs : List (MasterInput P S)} {os : List Itrc.Ordinal}
    (hxs : xs.filterMap messageOrdinal <+: os) (hchain : (s.recvdOrd :: os).IsChain OrdConsec)
    (hpos : ∀ o ∈ os, o.ordNum ≠ 0) : (Master.run v s xs).gaps = [] ∧ (Master.run v s xs).olds = [] := by
  induction xs generalizing s os with
  | nil => exact ⟨h.gaps, h.olds⟩
  | cons x xs ih =>
    by_cases hfault : s.fault = none
    · rw [Master.run, List.foldl_cons]
      cases hx : messageOrdinal x with
      | none =>
        rw [List.filterMap_cons_none hx] at hxs
        obtain ⟨hstep, hrecvd⟩ := h.elsewhere (v := v) hx
        exact ih hstep hxs (hrecvd ▸ hchain) hpos
      | some o =>
        rw [List.filterMap_cons_some hx] at hxs
        obtain ⟨rest, rfl⟩ := hxs
        rw [List.cons_append, List.isChain_cons_cons] at hchain
        have ho := hpos o List.mem_cons_self
        cases x with
        | prime o' m =>
          cases hx
          have hstep : s.step v (.prime o m) = s.onPrime v o m := if_neg (not_not.mpr hfault)
          obtain ⟨hin, hrecvd⟩ := h.onPrime (v := v) (m := m) hchain.1
          rw [hstep]
          exact ih hin (List.prefix_append _ rest) (hrecvd.symm ▸ hchain.2)
            fun p hp => hpos p (List.mem_cons_of_mem _ hp)
        | primeReset o' =>
          -- An update of this type fails the assertion about the ordinal.
          cases hx
          have hstep : s.step v (.primeReset o) = { s with fault := some .resetOrdinal } := by
            rw [Master.step, if_neg (not_not.mpr hfault)]
            exact if_pos ho
          rw [hstep]
          have hfailed : InStep ({ s with fault := some .resetOrdinal } : Master P S) :=
            ⟨⟨h.queued.keyed, h.queued.result⟩, h.idle, h.pending, h.gaps, h.olds⟩
          exact gaps_of_fault hfailed (fun hnone => by cases hnone) xs
        | reply r => cases hx
        | share sender tcm => cases hx
        | stateXfer sender st => cases hx
    · exact gaps_of_fault h hfault _

/-- **Prime and the reliable channel agree on the numbers.** What a run of `ORDER_Execute_Commit`
delivers, over ordinals that are executed one after the other, is a chain from the zero ordinal
and strictly increasing. A replica that is given all of it, or as much of it as has come, with
contents of any kind and between shares, states and replies of any kind, reports no gap and no old
ordinal. -/
theorem numbering_agrees (c : Config) (me : Nat) (a : Around D E) (ins : List (Execution.Input D E))
    (h : Consecutive (run c me (Node.start a) ins).executed) (v : Setting P S G) (xs : List (MasterInput P S)) :
    (zeroOrd :: (run c me (Node.start a) ins).delivered.map ordinal).IsChain OrdConsec ∧
      (zeroOrd :: (run c me (Node.start a) ins).delivered.map ordinal).Pairwise (fun o o' => 0 < ordCompare o' o) ∧
      (xs.filterMap messageOrdinal <+: (run c me (Node.start a) ins).delivered.map ordinal →
        (Master.run v Master.init xs).gaps = [] ∧ (Master.run v Master.init xs).olds = []) := by
  obtain ⟨hchain, hpos⟩ := delivered_chain c me a ins h
  have hkeyed := keyed_of_next hchain
  refine ⟨hchain, hkeyed.imp fun hlt => ordCompare_pos.mpr hlt, fun hxs => ?_⟩
  refine inStep_init.run hxs hchain fun o ho => ?_
  obtain ⟨d, hd, rfl⟩ := List.mem_map.mp ho
  exact hpos d hd

end Master

/-! ## Two events, and an ordinal without any -/

section Examples

/-- Two ordinals, the first with two requests of one event each. -/
def twoOrdinals : List (Execution.Input Unit Nat) := (replayed.take 2).map .execute

/-- What is delivered for them, with a share of another replica in between. -/
def received : List (MasterInput Unit Unit) :=
  [.prime ⟨1, 1, 2⟩ (.noOp 1), .prime ⟨1, 2, 2⟩ .other, .share 2 ⟨⟨9, 1, 1⟩, (), ()⟩, .prime ⟨2, 1, 1⟩ (.stateTransfer 1)]

theorem numbering_agrees_received :
    (zeroOrd :: (run fourServers.toConfig 2 (Node.start holding) twoOrdinals).delivered.map ordinal).IsChain OrdConsec ∧
      (zeroOrd :: (run fourServers.toConfig 2 (Node.start holding) twoOrdinals).delivered.map ordinal).Pairwise
        (fun o o' => 0 < ordCompare o' o) ∧
      (Master.run replicaOne Master.init received).gaps = [] ∧ (Master.run replicaOne Master.init received).olds = [] := by
  obtain ⟨hchain, hincreasing, hreports⟩ :=
    numbering_agrees fourServers.toConfig 2 holding twoOrdinals (by decide +kernel) replicaOne received
  exact ⟨hchain, hincreasing, hreports (by decide +kernel)⟩

end Examples

end Spire.Numbering
