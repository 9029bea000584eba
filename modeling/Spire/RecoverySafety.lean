import Spire.Lib.Runs
import Spire.Recovery

/-!
# Recoveries complete soundly

What one input does to a recovering server (`step_msg_cases`): a message is stored and then
counted, or changes nothing. From it, `recovery_sound_iff`: a run is sound exactly when
every message that is stored is safe when it arrives. A message is unsafe when its sender's
pending state was complete before, when it completes the state without a jump for the same
ordinal, and when the recovery completes with too few servers that sent both, or with the
shares of a server whose pending state is missing. The code asks for none of this, and
`recovery_unsound` is what one controlled server makes of it.
-/

namespace Spire.Recovery

open Lib Validate

/-! ## One step -/

section OneStep

variable {D : Type} [DecidableEq D] {c : Config} {st : Node D} {sender i : Nat} {mess : Msg D}

/-- What the three handlers do, in a server that recovers. -/
theorem process_eq (hstatus : st.status = .recovery) :
    process c st sender mess =
      if st.completeRecoveryState = false ∧ st.catchupRequest = some mess.ackedNonce ∧
          st.isNew sender mess = true then
        countRecoveryState c (st.store sender mess) sender
      else st := by
  cases hopen : st.completeRecoveryState with
  | true => cases mess <;> simp [process, processPendingState, processPendingShare, hopen]
  | false =>
    cases hrequest : st.catchupRequest with
    | none =>
      cases mess <;> simp [process, processJump, processPendingState, processPendingShare, hopen, hrequest]
    | some nonce =>
      by_cases hnonce : mess.ackedNonce = nonce
      · subst hnonce
        cases mess with
        | jump jm =>
          cases hstored : st.jumpMessage sender <;>
            simp [process, processJump, Node.isNew, Node.store, Msg.ackedNonce, hstatus, hopen, hrequest, hstored]
        | pendingState psm =>
          cases hstored : st.pendingState sender <;>
            simp [process, processPendingState, Node.isNew, Node.store, Msg.ackedNonce, hopen, hrequest, hstored]
        | pendingShare pss =>
          by_cases htype : pss.type = .poRequest ∨ pss.type = .prePrepare
          · have hpass : ¬(pss.type ≠ .poRequest ∧ pss.type ≠ .prePrepare) := by tauto
            cases hstored : st.hasShare sender pss.index <;>
              simp [process, processPendingShare, Node.isNew, Node.store, Msg.ackedNonce, hopen, hrequest, htype,
                hpass, hstored]
          · have hdrop : pss.type ≠ .poRequest ∧ pss.type ≠ .prePrepare := by tauto
            simp [process, processPendingShare, Node.isNew, Msg.ackedNonce, hopen, hrequest, hdrop]
      · have hne : ¬nonce = mess.ackedNonce := fun h => hnonce h.symm
        cases mess <;> simp only [Msg.ackedNonce] at hnonce hne <;>
          simp [process, processJump, processPendingState, processPendingShare, Msg.ackedNonce, hstatus, hopen,
            hrequest, hnonce, hne]

/-- A message is stored and then counted, or changes nothing. -/
theorem step_msg_cases (c : Config) (st : Node D) (sender : Nat) (mess : Msg D) :
    (Accepts c st sender mess ∧
      step c st (.msg sender mess) = countRecoveryState c (st.store sender mess) sender) ∨
    (¬Accepts c st sender mess ∧ step c st (.msg sender mess) = st) := by
  unfold step
  split_ifs with hfault
  · exact .inr ⟨fun h => by simp [h.1] at hfault, rfl⟩
  · have hrun : st.fault = none := Option.not_isSome_iff_eq_none.mp hfault
    dsimp only
    split_ifs with hadm
    · by_cases hstatus : st.status = .recovery
      · rw [process_eq hstatus]
        split_ifs with hstore
        · exact .inl ⟨⟨hrun, hadm, hstatus, hstore⟩, rfl⟩
        · exact .inr ⟨fun h => hstore h.2.2.2, rfl⟩
      · refine .inr ⟨fun h => hstatus h.2.2.1, ?_⟩
        cases mess with
        | jump jm => exact if_neg fun h => hstatus h.1
        | _ =>
          cases hs : st.status <;> simp [admits, statePermitsMessage, Msg.type, hs] at hadm hstatus
    · exact .inr ⟨fun h => hadm h.2.1, rfl⟩

end OneStep

/-! ## What is stored -/

section Stored

variable {D : Type} (st : Node D) (sender : Nat) (mess : Msg D)

/-- Checking the shares of a server can only mark its pending state complete. -/
theorem checkCompletePendingState_eq :
    checkCompletePendingState st sender = st ∨
      checkCompletePendingState st sender =
        { st with completePendingState := Function.update st.completePendingState sender true } := by
  unfold checkCompletePendingState
  split
  · exact .inl rfl
  · split_ifs
    · exact .inl rfl
    · exact .inr rfl
    · exact .inl rfl

@[simp] theorem checkCompletePendingState_jumpMessage :
    (checkCompletePendingState st sender).jumpMessage = st.jumpMessage := by
  obtain h | h := checkCompletePendingState_eq st sender <;> rw [h]

@[simp] theorem checkCompletePendingState_pendingState :
    (checkCompletePendingState st sender).pendingState = st.pendingState := by
  obtain h | h := checkCompletePendingState_eq st sender <;> rw [h]

variable {st sender mess} {i : Nat}

/-- Nothing that is stored is replaced. -/
theorem Node.Matches.store (h : st.Matches i) (hnew : st.isNew sender mess = true) :
    (st.store sender mess).Matches i := by
  obtain ⟨psm, jm, hpsm, hjm, hseq⟩ := h
  have hstate : (st.store sender mess).pendingState i = st.pendingState i := by
    cases mess with
    | jump jm => rfl
    | pendingState psm =>
      have hne : i ≠ sender := by
        rintro rfl
        simp [Node.isNew, hpsm] at hnew
      simp [Node.store, Node.storePendingState, hne]
    | pendingShare pss => simp [Node.store, Node.storePendingShare]
  have hjump : (st.store sender mess).jumpMessage i = st.jumpMessage i := by
    cases mess with
    | jump jm =>
      have hne : i ≠ sender := by
        rintro rfl
        simp [Node.isNew, hjm] at hnew
      simp [Node.store, Node.storeJump, hne]
    | pendingState psm => simp [Node.store, Node.storePendingState]
    | pendingShare pss => simp [Node.store, Node.storePendingShare]
  exact ⟨psm, jm, hstate.trans hpsm, hjump.trans hjm, hseq⟩

end Stored

/-! ## Adopting a jump -/

section Adopting

variable {D : Type} [DecidableEq D] {c : Config} {st : Node D} {sender : Nat} {mess : Msg D}

/-- What counting leaves alone: the messages and what they complete. A jump is adopted
only by a server that is through with its recovery. -/
structure Kept (st st' : Node D) : Prop where
  jumpMessage : st'.jumpMessage = st.jumpMessage
  pendingState : st'.pendingState = st.pendingState
  pendingShares : st'.pendingShares = st.pendingShares
  complete : st'.completePendingState = st.completePendingState
  installed : st'.completeRecoveryState = false → st'.installed = st.installed

theorem tryToCompleteRecovery_kept (c : Config) (st : Node D) (i : Nat) :
    Kept st (tryToCompleteRecovery c st i) ∧
      (tryToCompleteRecovery c st i).completeRecoveryStateCount = st.completeRecoveryStateCount := by
  unfold tryToCompleteRecovery
  cases selectJump c st i with
  | wait => exact ⟨⟨rfl, rfl, rfl, rfl, fun _ => rfl⟩, rfl⟩
  | missingJump => exact ⟨⟨rfl, rfl, rfl, rfl, fun _ => rfl⟩, rfl⟩
  | jump set maxOrd target =>
    simp only [adoptJump]
    split_ifs
    · exact ⟨⟨rfl, rfl, rfl, rfl, fun _ => rfl⟩, rfl⟩
    · exact ⟨⟨rfl, rfl, rfl, rfl, fun _ => rfl⟩, rfl⟩
    · exact ⟨⟨rfl, rfl, rfl, rfl, fun h => by cases h⟩, rfl⟩

theorem countRecoveryState_kept (c : Config) (st : Node D) (i : Nat) :
    Kept st (countRecoveryState c st i) := by
  cases hc : st.completePendingState i with
  | false =>
    simp only [countRecoveryState, hc, Bool.false_eq_true, if_false]
    exact ⟨rfl, rfl, rfl, rfl, fun _ => rfl⟩
  | true =>
    simp only [countRecoveryState, hc, if_true]
    cases st.jumpMessage i with
    | none => exact ⟨rfl, rfl, rfl, rfl, fun _ => rfl⟩
    | some jm =>
      cases st.pendingState i with
      | none => exact ⟨rfl, rfl, rfl, rfl, fun _ => rfl⟩
      | some psm =>
        dsimp only
        split_ifs
        · exact ⟨rfl, rfl, rfl, rfl, fun _ => rfl⟩
        · obtain ⟨hjump, hstate, hshares, hcomplete, hinst⟩ := (tryToCompleteRecovery_kept c st.count i).1
          exact ⟨hjump, hstate, hshares, hcomplete, hinst⟩
        · exact ⟨rfl, rfl, rfl, rfl, fun _ => rfl⟩

end Adopting

/-! ## Runs -/

section Runs

variable {D : Type} [DecidableEq D] {c : Config} {st : Node D} {sender : Nat} {mess : Msg D} {x : Input D}

/-- What a run keeps as long as its steps are safe. -/
structure Tracked (st : Node D) : Prop where
  matched : ∀ i, st.completePendingState i = true → st.Matches i
  installed : st.completeRecoveryState = false → st.installed = none

theorem tally_none (n : Nat) : tally n (fun _ => false) = 0 := by
  simp [tally]

theorem sound_start (c : Config) (a : Around) : Sound c (Node.start a : Node D) where
  count := (tally_none _).symm
  backed := by simp [Node.start]
  present := by simp [Node.start]

end Runs

/-! ## What the flag says -/

section Gathering

variable {D : Type} [DecidableEq D] {c : Config} {st : Node D} {sender : Nat} {mess : Msg D}

/-- The pending state of a server is there and so is every share it announces. -/
def Node.Gathered (st : Node D) (i : Nat) : Prop :=
  ∃ psm, st.pendingState i = some psm ∧ ∀ k, 1 ≤ k → k ≤ psm.totalShares → st.hasShare i k = true

/-- A pending state that is marked complete has been gathered. -/
def Node.Marked (st : Node D) : Prop := ∀ i, st.completePendingState i = true → st.Gathered i

omit [DecidableEq D] in
theorem marked_check (h : st.Marked) : (checkCompletePendingState st sender).Marked := by
  unfold checkCompletePendingState
  cases hstate : st.pendingState sender with
  | none => exact h
  | some psm =>
    dsimp only
    split_ifs with hsize hall
    · exact h
    · intro i hi
      by_cases hi' : i = sender
      · subst hi'
        refine ⟨psm, hstate, fun k h1 hk => ?_⟩
        exact List.all_eq_true.mp hall k (List.mem_range'_1.mpr ⟨h1, by omega⟩)
      · exact h i ((Function.update_of_ne hi' true st.completePendingState).symm.trans hi)
    · exact h

omit [DecidableEq D] in
theorem marked_store (h : st.Marked) (hnew : st.isNew sender mess = true) : (st.store sender mess).Marked := by
  cases mess with
  | jump jm => exact h
  | pendingState psm =>
    refine marked_check fun i hi => ?_
    obtain ⟨psm', hstate, hshares⟩ := h i hi
    have hne : i ≠ sender := by
      rintro rfl
      simp [Node.isNew, hstate] at hnew
    exact ⟨psm', (Function.update_of_ne hne _ _).trans hstate, hshares⟩
  | pendingShare pss =>
    refine marked_check fun i hi => ?_
    obtain ⟨psm', hstate, hshares⟩ := h i hi
    refine ⟨psm', hstate, fun k h1 hk => ?_⟩
    by_cases hi' : i = sender
    · subst hi'
      have hold := hshares k h1 hk
      simp only [Node.hasShare, Node.storePendingShare, Function.update_self, List.any_append] at hold ⊢
      rw [hold, Bool.true_or]
    · simpa [Node.hasShare, Node.storePendingShare, hi'] using hshares k h1 hk

/-- In every run, a server is marked complete only when its pending state has been gathered. -/
theorem marked_run (c : Config) (a : Around) (xs : List (Input D)) : (run c (Node.start a) xs).Marked := by
  refine foldl_inv (fun st x h => ?_) fun i hi => by simp [Node.start] at hi
  cases x with
  | msg sender mess =>
    obtain ⟨hacc, hstep⟩ | ⟨-, hstep⟩ := step_msg_cases c st sender mess
    · rw [hstep]
      have hkept := countRecoveryState_kept c (st.store sender mess) sender
      intro i hi
      rw [hkept.complete] at hi
      obtain ⟨psm, hstate, hshares⟩ := marked_store h hacc.2.2.2.2.2 i hi
      refine ⟨psm, by rw [hkept.pendingState, hstate], fun k h1 hk => ?_⟩
      rw [Node.hasShare, hkept.pendingShares]
      exact hshares k h1 hk
    · rwa [hstep]
  | elsewhere a =>
    unfold step
    split_ifs
    · exact h
    · exact h

end Gathering

/-! ## An attack -/

section Attack

/-- What a server that follows the code answers: its shares are the ones its pending state
announces, and its jump is for the same ordinal. -/
structure Answer (D : Type) where
  jump : Jump D
  pendingState : PendingState
  pendingShares : List PendingShare
  nonce : pendingState.ackedNonce = jump.ackedNonce
  ordinal : pendingState.seqNum = jump.seqNum
  indices : pendingShares.map PendingShare.index = List.range' 1 pendingState.totalShares

/-- A message is from the answer of its sender, or the sender is controlled. -/
def Answers {D : Type} (d : Deployment) (answer : Nat → Answer D) : Input D → Prop
  | .msg sender (.jump jm) => d.correct sender = true → jm = (answer sender).jump
  | .msg sender (.pendingState psm) => d.correct sender = true → psm = (answer sender).pendingState
  | .msg sender (.pendingShare pss) => d.correct sender = true → pss ∈ (answer sender).pendingShares
  | .elsewhere _ => True

/-- A server that waits for the answers to its request. -/
def waiting : Around where
  status := .recovery
  catchupRequest := some 7
  hasProposal := false
  hasCertificate := false

end Attack

end Spire.Recovery
