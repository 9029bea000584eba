import Spire.MadeEligible
import Spire.ReplayReturn

/-!
# Where the vectors come from

What a run keeps whose steps meet the condition. `Traced` says it of one slot: where its vector came from, that the
Pre-Prepare of a prepare certificate makes the same eligible, and that a slot which is ordered, executed, or about to
be executed has the vector of the Pre-Prepare it was ordered with. The slots a replay has still to fill have no
prepare certificate, since the replay has dropped them and hands over no message before it is done with them.
-/

namespace Spire.Ordinals

open Spire.Order Spire.Replay

variable {D : Type} {c : Config} {digest : CompletePrePrepare → D} {me catchupHistory s : Nat}

/-! ## Slots -/

/-- Where the vector of a slot came from. `called` says that the slot is executed now or waits for it, `awaits` that a
replay has still to fill it. -/
structure Traced (c : Config) (filled : Option PrePrepare) (ordered : Option CompletePrePrepare) (called awaits : Prop)
    (s : Nat) (slot : OrdSlot D) : Prop where
  ok : SlotOk s slot
  parts : slot.numPartsCollected ≠ 0 → slot.collectedAllParts = true
  matrix : slot.collectedAllParts = false → slot.completePrePrepare.cumAcks = (CompletePrePrepare.null c).cumAcks
  sent : slot.collectedAllParts = false → slot.populatedEligible = true →
    ∃ own ∈ filled, slot.madeEligible = vectorOf c own
  vector : slot.collectedAllParts = true → slot.populatedEligible = true → OrdSlot.ofProposal slot = true →
    slot.madeEligible = eligible c slot.completePrePrepare
  certificate : slot.prepareCertificateReady = true → slot.collectedAllParts = true ∧
    (OrdSlot.ofProposal slot = true → eligible c slot.prepareCertificate.prePrepare = eligible c slot.completePrePrepare)
  uncertified : awaits → slot.prepareCertificateReady = false
  held : called ∨ slot.ordered = true ∨ slot.executed = true →
    slot.collectedAllParts = true ∧ slot.populatedEligible = true ∧
      (OrdSlot.ofProposal slot = true → ∃ pp, ordered = some pp ∧ slot.madeEligible = eligible c pp)

/-- A slot without what `Traced` does not speak of. -/
def core (slot : OrdSlot D) : OrdSlot D :=
  { slot with
    view := 0, prePrepareParts := fun _ => none, totalParts := 0, sentPrepare := false, sentCommit := false
    prepare := fun _ => none, commit := fun _ => none, commitCertificate := fun _ => none
    snapshot := false, preinstalledSnapshot := [] }

/-- What a replay fills in. -/
structure Fills (c : Config) (slot : OrdSlot D) : Prop where
  type : slot.type ≠ .commit
  seqNum : slot.completePrePrepare.seqNum = slot.seqNum
  vector : slot.type = .pcSet → slot.madeEligible = eligible c slot.completePrePrepare

/-- The vector is filled in unless it is there. -/
theorem core_populateEligible (slot : OrdSlot D) (pp : CompletePrePrepare) :
    core (populateEligible c slot pp) = core { slot with
      populatedEligible := true
      madeEligible := if slot.populatedEligible = true then slot.madeEligible else eligible c pp } := by
  unfold populateEligible
  split
  · rename_i hpopulated
    simp [core, hpopulated]
  · rfl

theorem moveCommitCertificate_ordered [DecidableEq D] (st : Order.Node D) (slot : OrdSlot D) :
    (moveCommitCertificate c digest st slot).ordered = true := by
  unfold moveCommitCertificate populateEligible
  dsimp only
  split <;> rfl

theorem moveCommitCertificate_proposal [DecidableEq D] (st : Order.Node D) (slot : OrdSlot D) :
    (moveCommitCertificate c digest st slot).proposal = slot.proposal := by
  unfold moveCommitCertificate populateEligible
  dsimp only
  split <;> rfl

namespace Traced

variable {filled filled' : Option PrePrepare} {ordered ordered' : Option CompletePrePrepare} {called called' awaits awaits' : Prop}
  {slot slot' : OrdSlot D} {mess : Signed PrePrepare}

theorem new (hnot : ¬called) : Traced c filled ordered called awaits s (OrdSlot.new (D := D) c s) where
  ok := slotOk_new s
  parts h := absurd rfl h
  matrix _ := rfl
  sent _ h := by cases h
  vector h := by cases h
  certificate h := by cases h
  uncertified _ := rfl
  held h := by
    rcases h with h | h | h
    · exact absurd h hnot
    · cases h
    · cases h

theorem mono (h : Traced c filled ordered called awaits s slot) (hcalled : called' → called) (hawaits : awaits' → awaits) :
    Traced c filled ordered called' awaits' s slot :=
  { h with
    uncertified := h.uncertified ∘ hawaits
    held := fun h' => h.held (h'.imp_left hcalled) }

theorem of_core (h : Traced c filled ordered called awaits s slot) (hcore : core slot' = core slot) :
    Traced c filled ordered called awaits s slot' := by
  have hslot : Traced c filled ordered called awaits s (core slot) :=
    ⟨⟨h.ok.seqNum, h.ok.proposal, h.ok.certificate, h.ok.ordered⟩, h.parts, h.matrix, h.sent, h.vector, h.certificate,
      h.uncertified, h.held⟩
  rw [← hcore] at hslot
  exact ⟨⟨hslot.ok.seqNum, hslot.ok.proposal, hslot.ok.certificate, hslot.ok.ordered⟩, hslot.parts, hslot.matrix, hslot.sent,
    hslot.vector, hslot.certificate, hslot.uncertified, hslot.held⟩

/-- The vector is filled in where the slot is complete. -/
theorem populate (h : Traced c filled ordered called awaits s slot) (hdone : slot.collectedAllParts = true) :
    Traced c filled ordered called awaits s (populateEligible c slot slot.completePrePrepare) := by
  unfold populateEligible
  split
  · exact h
  · rename_i hopen
    exact
      { ok := ⟨h.ok.seqNum, h.ok.proposal, h.ok.certificate, h.ok.ordered⟩
        parts := h.parts
        matrix := h.matrix
        sent := fun hnot => absurd hdone (by simpa using hnot)
        vector := fun _ _ _ => rfl
        certificate := h.certificate
        uncertified := h.uncertified
        held := fun hheld => absurd (h.held hheld).2.1 hopen }

theorem accept (h : Traced c filled ordered called awaits s slot) (hdone : slot.collectedAllParts = true) :
    Traced c filled ordered called awaits s (acceptProposal c slot) := (h.populate hdone).of_core rfl

/-- The proposal of a complete slot makes eligible what its Pre-Prepare makes eligible. -/
theorem eligible_proposal (h : Traced c filled ordered called awaits s slot) (htype : OrdSlot.ofProposal slot = true) :
    eligible c slot.proposal = eligible c slot.completePrePrepare := by
  unfold OrdSlot.proposal
  split
  · rename_i hready
    exact (h.certificate hready).2 htype
  · rfl

section Certificates

variable [DecidableEq D]

theorem movePrepare (h : Traced c filled ordered called awaits s slot) (hdone : slot.collectedAllParts = true)
    (hnot : ¬awaits) : Traced c filled ordered called awaits s (movePrepareCertificate c digest slot) where
  ok := ⟨h.ok.seqNum, h.ok.proposal, fun _ => h.ok.proposal (.inr hdone), h.ok.ordered⟩
  parts := h.parts
  matrix := h.matrix
  sent := h.sent
  vector := h.vector
  certificate _ := ⟨hdone, fun _ => rfl⟩
  uncertified hawaits := absurd hawaits hnot
  held := h.held

theorem certify (h : Traced c filled ordered called awaits s slot) (hdone : slot.collectedAllParts = true)
    (hnot : ¬awaits) (st : Order.Node D) : Traced c filled ordered called awaits s (certifyPrepared c digest me st slot).1 := by
  have hmove : Traced c filled ordered called awaits s (movePrepareCertificate c digest slot) := h.movePrepare hdone hnot
  unfold certifyPrepared
  dsimp only
  split
  · exact hmove.of_core rfl
  · exact hmove

/-- The last Commit orders the slot with its proposal. -/
theorem moveCommit (h : Traced c filled ordered called awaits s slot) (hdone : slot.collectedAllParts = true)
    (st : Order.Node D) :
    Traced c filled (some slot.proposal) called' awaits s (moveCommitCertificate c digest st slot) := by
  have hvector : OrdSlot.ofProposal slot = true →
      (if slot.populatedEligible = true then slot.madeEligible else eligible c slot.proposal) = eligible c slot.proposal := by
    intro htype
    split
    · rename_i hpopulated
      rw [h.eligible_proposal htype]
      exact h.vector hdone hpopulated htype
    · rfl
  have hordered : Traced c filled (some slot.proposal) called' awaits s { slot with
      ordered := true, populatedEligible := true
      madeEligible := if slot.populatedEligible = true then slot.madeEligible else eligible c slot.proposal } :=
    { ok := ⟨h.ok.seqNum, h.ok.proposal, h.ok.certificate, fun _ => hdone⟩
      parts := h.parts
      matrix := h.matrix
      sent := fun hnot => absurd hdone (by simpa using hnot)
      vector := fun _ _ htype => (hvector htype).trans (h.eligible_proposal htype)
      certificate := h.certificate
      uncertified := h.uncertified
      held := fun _ => ⟨hdone, rfl, fun htype => ⟨slot.proposal, rfl, hvector htype⟩⟩ }
  exact hordered.of_core (core_populateEligible _ _)

end Certificates

/-- The slot meets a Pre-Prepare, as the condition has it. -/
theorem meet (h : Traced c filled ordered called awaits s slot) (hbegins : Begins filled slot mess.body) :
    Traced c filled ordered called awaits s (slotFor slot mess.body) := by
  by_cases hparts : slot.numPartsCollected = 0
  · have hslot : slotFor slot mess.body = setupProposal slot mess.body := if_pos hparts
    have heligible : slot.collectedAllParts = true → OrdSlot.ofProposal slot = true →
        eligible c (setupProposal slot mess.body).completePrePrepare = eligible c slot.completePrePrepare := by
      intro hdone htype
      have hlast := hbegins hparts htype
      rw [if_pos hdone] at hlast
      exact eligible_congr hlast.symm rfl
    have hok : SlotOk s (slotFor slot mess.body) := (evolves_slotFor s slot mess.body).ok h.ok
    rw [hslot] at hok ⊢
    exact
      { ok := hok
        parts := h.parts
        matrix := h.matrix
        sent := h.sent
        vector := fun hdone hpopulated htype => (h.vector hdone hpopulated htype).trans (heligible hdone htype).symm
        certificate := fun hready =>
          ⟨(h.certificate hready).1, fun htype =>
            ((h.certificate hready).2 htype).trans (heligible (h.certificate hready).1 htype).symm⟩
        uncertified := h.uncertified
        held := h.held }
  · rw [slotFor_of_ne_zero hparts]
    exact h

/-- The only part of a Pre-Prepare is stored in a slot that has none. -/
theorem take (h : Traced c filled ordered called awaits s slot) (hbegins : Begins filled slot mess.body)
    (hdone : slot.collectedAllParts = false) : Traced c filled ordered called awaits s (takePart slot mess) := by
  have hparts : slot.numPartsCollected = 0 := by
    by_contra hparts
    exact absurd (h.parts hparts) (by simp [hdone])
  have huncertified : slot.prepareCertificateReady = false := by
    by_contra hready
    exact absurd (h.certificate (by simpa using hready)).1 (by simp [hdone])
  have hfree : ¬(called ∨ slot.ordered = true ∨ slot.executed = true) := fun hheld =>
    absurd (h.held hheld).1 (by simp [hdone])
  have hslot : slotFor slot mess.body = setupProposal slot mess.body := if_pos hparts
  have hblank : Blank c slot := ⟨hparts, h.matrix hdone, huncertified⟩
  have heligible := hblank.eligible_takePart mess
  unfold takePart at heligible ⊢
  rw [hslot] at heligible ⊢
  exact
    { ok := ⟨h.ok.seqNum, fun _ => h.ok.seqNum, h.ok.certificate, fun _ => rfl⟩
      parts := fun _ => rfl
      matrix := fun hnot => by cases hnot
      sent := fun hnot => by cases hnot
      vector := fun _ hpopulated htype => by
        have hown := hbegins hparts htype
        rw [if_neg (by simp [hdone])] at hown
        obtain ⟨own, hmem, hlast, hrows⟩ := hown hpopulated
        obtain ⟨own', hmem', hvector⟩ := h.sent hdone hpopulated
        obtain rfl : own = own' := Option.some.inj ((Option.mem_def.mp hmem).symm.trans (Option.mem_def.mp hmem'))
        refine hvector.trans (Eq.trans ?_ heligible.symm)
        simp only [vectorOf, hlast, hrows]
      certificate := fun hready => absurd hready (by simp [storePart, setupProposal, OrdSlot.markCollected, huncertified])
      uncertified := fun _ => huncertified
      held := fun hheld => absurd hheld hfree }

/-- The leader fills a slot when it sends. -/
theorem openFor (h : Traced c filled ordered called awaits s slot) {pp : PrePrepare} (hsends : Sends c slot pp)
    (hfilled : filled' = if slot.populatedEligible = false then some pp else filled) :
    Traced c filled' ordered called awaits s (openForProposal c slot pp) := by
  by_cases hopen : slot.populatedEligible = false
  · rw [if_pos hopen] at hfilled
    have hvector : (openForProposal c slot pp).madeEligible = vectorOf c pp := openForProposal_madeEligible hopen pp
    unfold openForProposal at hvector ⊢
    rw [hopen, if_neg Bool.false_ne_true] at hvector ⊢
    exact
      { ok := ⟨h.ok.seqNum, h.ok.proposal, h.ok.certificate, h.ok.ordered⟩
        parts := h.parts
        matrix := h.matrix
        sent := fun _ _ => ⟨pp, hfilled, hvector⟩
        vector := fun hdone _ _ =>
          hvector.trans (eligible_writeRows (hsends hopen hdone).1 (hsends hopen hdone).2).symm
        certificate := h.certificate
        uncertified := h.uncertified
        held := fun hheld => absurd (h.held hheld).2.1 (by simp [hopen]) }
  · rw [if_neg hopen] at hfilled
    have hsame : openForProposal c slot pp = slot := if_pos (by simpa using hopen)
    rw [hsame, hfilled]
    exact h

/-- A slot that is about to be executed, or that waits for it, is executed. -/
theorem execute (h : Traced c filled ordered called awaits s slot) (hcalled : called) :
    Traced c filled ordered called' awaits s slot.markExecuted :=
  { h with
    ok := ⟨h.ok.seqNum, h.ok.proposal, h.ok.certificate, h.ok.ordered⟩
    held := fun _ => h.held (.inl hcalled) }

/-- A replay fills a slot. -/
theorem fill {own : OrdSlot D} (h : Traced c filled ordered called awaits slot.seqNum own) (hfills : Fills c slot)
    (hready : own.prepareCertificateReady = false) :
    Traced c filled (some (fillSlot own slot).proposal) called' awaits slot.seqNum (fillSlot own slot) := by
  have hproposal : (fillSlot own slot).proposal = slot.completePrePrepare := by
    show (if own.prepareCertificateReady = true then _ else _) = _
    rw [hready, if_neg Bool.false_ne_true]
    rfl
  have hvector : OrdSlot.ofProposal (fillSlot own slot) = true → slot.madeEligible = eligible c slot.completePrePrepare :=
    fun htype => hfills.vector ((of_decide_eq_true htype).resolve_left hfills.type)
  exact
    { ok := ⟨h.ok.seqNum, fun _ => hfills.seqNum, fun hc => absurd (hready.symm.trans hc) Bool.false_ne_true, fun _ => rfl⟩
      parts := fun _ => rfl
      matrix := fun hnot => by cases hnot
      sent := fun hnot => by cases hnot
      vector := fun _ _ htype => hvector htype
      certificate := fun hc => absurd (hready.symm.trans hc) Bool.false_ne_true
      uncertified := fun _ => hready
      held := fun _ => ⟨rfl, rfl, fun htype => ⟨_, rfl, by rw [hproposal]; exact hvector htype⟩⟩ }

/-- The slot a jump lands on. -/
theorem land (cert : OrdCert D) : Traced c filled (some (landingSlot c cert).proposal) called awaits cert.seqNum (landingSlot c cert) where
  ok := ⟨rfl, fun _ => rfl, fun h => absurd h Bool.false_ne_true, fun _ => rfl⟩
  parts _ := rfl
  matrix h := by cases h
  sent h := by cases h
  vector _ _ _ := rfl
  certificate h := by cases h
  uncertified _ := rfl
  held _ := ⟨rfl, rfl, fun _ => ⟨_, rfl, rfl⟩⟩

/-- The votes of a slot change with the incarnations. -/
theorem revise (h : Traced c filled ordered called awaits s slot) (vector : List Nat) :
    Traced c filled ordered called awaits s (reviseVotes me vector slot) := by
  refine h.of_core ?_
  unfold reviseVotes
  dsimp only
  split <;> rfl

end Traced

/-! ## The history -/

/-- Every slot is traced. -/
def AllTraced (c : Config) (filled : Nat → Option PrePrepare) (ordered : Nat → Option CompletePrePrepare)
    (called awaits : Nat → Prop) (st : Order.Node D) : Prop :=
  ∀ s, Traced c (filled s) (ordered s) (called s) (awaits s) s (st.getOrdSlot c s)

namespace AllTraced

variable {filled filled' : Nat → Option PrePrepare} {ordered ordered' : Nat → Option CompletePrePrepare}
  {called called' awaits awaits' : Nat → Prop} {st st' : Order.Node D} {slot : OrdSlot D} {seq : Nat}

theorem of_history (h : AllTraced c filled ordered called awaits st) (hhistory : st'.history = st.history) :
    AllTraced c filled ordered called awaits st' := by
  intro s
  rw [Order.Node.getOrdSlot, Order.Node.slot?, hhistory]
  exact h s

theorem mono (h : AllTraced c filled ordered called awaits st) (hcalled : ∀ s, called' s → called s)
    (hawaits : ∀ s, awaits' s → awaits s) : AllTraced c filled ordered called' awaits' st :=
  fun s => (h s).mono (hcalled s) (hawaits s)

/-- One slot is put, and the others are as they were. -/
theorem put (hothers : ∀ s, s ≠ seq → Traced c (filled s) (ordered s) (called s) (awaits s) s (st.getOrdSlot c s))
    (hslot : Traced c (filled seq) (ordered seq) (called seq) (awaits seq) seq slot) :
    AllTraced c filled ordered called awaits (st.putOrdSlot seq slot) := by
  intro s
  by_cases hs : s = seq
  · subst hs
    rw [getOrdSlot_putOrdSlot_self]
    exact hslot
  · rw [Order.Node.getOrdSlot, Order.Node.slot?_putOrdSlot_of_ne st slot hs]
    exact hothers s hs

theorem put_self (h : AllTraced c filled ordered called awaits st)
    (hslot : Traced c (filled seq) (ordered seq) (called seq) (awaits seq) seq slot) :
    AllTraced c filled ordered called awaits (st.putOrdSlot seq slot) := put (fun s _ => h s) hslot

theorem sendPreparesLoop (h : AllTraced c filled ordered called awaits st) (fuel : Nat) (out : List (Msg D)) :
    AllTraced c filled ordered called awaits (Order.sendPreparesLoop c digest me fuel st out).1 := by
  induction fuel generalizing st out with
  | zero => exact h
  | succ fuel ih =>
    rw [Order.sendPreparesLoop]
    split
    · exact h
    rename_i slot hget
    split
    · exact h
    rename_i hdone
    split
    · have hnext : AllTraced c filled ordered called awaits st.advancePpAru := h.of_history rfl
      exact ih hnext out
    split
    · exact h
    split
    · exact h.of_history rfl
    · exact h
    · have hslot := h (st.ppAru + 1)
      rw [getOrdSlot_of_slot? hget] at hslot
      have hput : AllTraced c filled ordered called awaits (st.putOrdSlot (st.ppAru + 1) (acceptProposal c slot)) :=
        h.put_self (hslot.accept (by simpa using hdone))
      have hnext : AllTraced c filled ordered called awaits
          (st.putOrdSlot (st.ppAru + 1) (acceptProposal c slot)).advancePpAru := hput.of_history rfl
      exact ih hnext _

theorem sendPrepares (h : AllTraced c filled ordered called awaits st) :
    AllTraced c filled ordered called awaits (Order.sendPrepares c digest me st).1 := by
  have hloop : AllTraced c filled ordered called awaits
      (Order.sendPreparesLoop c digest me (st.history.keys.length + 1) st []).1 := h.sendPreparesLoop _ _
  unfold Order.sendPrepares
  split
  · rename_i hr
    rw [hr] at hloop
    exact hloop
  · rename_i hr
    rw [hr] at hloop
    split
    · exact hloop.of_history rfl
    · exact hloop

variable [DecidableEq D]

theorem processPrepare (h : AllTraced c filled ordered called awaits st) (hnot : ∀ s, ¬awaits s) (mess : Signed (Vouch D)) :
    AllTraced c filled ordered called awaits (Order.processPrepare c digest me st mess).1 := by
  have hown := h mess.body.seqNum
  have hstored : Traced c (filled mess.body.seqNum) (ordered mess.body.seqNum) (called mess.body.seqNum)
      (awaits mess.body.seqNum) mess.body.seqNum ((st.getOrdSlot c mess.body.seqNum).storePrepare mess) := hown.of_core rfl
  unfold Order.processPrepare
  dsimp only
  split
  · exact h
  split
  · exact h.of_history rfl
  · exact h
  split
  · exact h
  split
  · exact h.put_self hown
  split
  · exact h.put_self hown
  split
  · exact h.put_self hstored
  split
  · rename_i hready
    exact (h.put_self (hstored.certify (prepareCertificateReady_collected hready) (hnot _) st)).of_history rfl
  · exact h.put_self hstored

/-- The last part of a Pre-Prepare completes its slot. -/
theorem proposalComplete (hothers : ∀ s, s ≠ seq → Traced c (filled s) (ordered s) (called s) (awaits s) s (st.getOrdSlot c s))
    (hslot : Traced c (filled seq) (ordered seq) (called seq) (awaits seq) seq slot.markCollected) (hnot : ∀ s, ¬awaits s) :
    AllTraced c filled ordered called awaits (Order.proposalComplete c digest me st seq slot).1 := by
  have hcertified : Traced c (filled seq) (ordered seq) (called seq) (awaits seq) seq
      (certifyIfReady c digest me st slot.markCollected).1 := by
    unfold certifyIfReady
    split
    · exact hslot.certify rfl (hnot seq) st
    · exact hslot
  have hput : AllTraced c filled ordered called awaits
      (st.putOrdSlot seq (certifyIfReady c digest me st slot.markCollected).1) := put hothers hcertified
  have hnoted : AllTraced c filled ordered called awaits
      ((st.putOrdSlot seq (certifyIfReady c digest me st slot.markCollected).1).noteHighPrepared
        (certifyIfReady c digest me st slot.markCollected).1) := by
    refine hput.of_history ?_
    unfold Order.Node.noteHighPrepared
    split <;> rfl
  unfold Order.proposalComplete
  dsimp only
  split
  · exact hnoted
  · exact hnoted.sendPrepares

variable (digest) in
/-- A Commit orders its slot, or not. -/
theorem processCommit (h : AllTraced c filled ordered called awaits st) (mess : Signed (Vouch D)) :
    (AllTraced c filled ordered called awaits (Order.processCommit c digest st mess) ∧
      (((Order.processCommit c digest st mess).slot? mess.body.seqNum).any OrdSlot.ordered = true →
        (st.getOrdSlot c mess.body.seqNum).ordered = true)) ∨
    ∃ slot, (Order.processCommit c digest st mess).slot? mess.body.seqNum = some slot ∧
      (st.getOrdSlot c mess.body.seqNum).ordered = false ∧ slot.ordered = true ∧
      ∀ called', (∀ s, s ≠ mess.body.seqNum → called' s → called s) →
        AllTraced c filled (Function.update ordered mess.body.seqNum (some slot.proposal)) called' awaits
          (Order.processCommit c digest st mess) := by
  have hown := h mess.body.seqNum
  generalize hseq : mess.body.seqNum = seq at hown ⊢
  have hstored : Traced c (filled seq) (ordered seq) (called seq) (awaits seq) seq
      ((st.getOrdSlot c seq).storeCommit mess) := hown.of_core rfl
  -- the slot at hand is put, and is ordered only if it was
  have hkept : ∀ slot, Traced c (filled seq) (ordered seq) (called seq) (awaits seq) seq slot →
      slot.ordered = (st.getOrdSlot c seq).ordered →
        AllTraced c filled ordered called awaits (st.putOrdSlot seq slot) ∧
          (((st.putOrdSlot seq slot).slot? seq).any OrdSlot.ordered = true → (st.getOrdSlot c seq).ordered = true) := by
    intro slot hslot hordered
    refine ⟨h.put_self hslot, fun hany => ?_⟩
    rw [Order.Node.slot?_putOrdSlot_self, Option.any_some] at hany
    exact hordered.symm.trans hany
  have hsame : (st.slot? seq).any OrdSlot.ordered = true → (st.getOrdSlot c seq).ordered = true := by
    intro hany
    obtain ⟨slot, hslot, hordered⟩ := (Option.any_eq_true _ _).mp hany
    rw [getOrdSlot_of_slot? hslot]
    exact hordered
  unfold Order.processCommit
  dsimp only
  rw [hseq]
  split
  · exact .inl ⟨h, hsame⟩
  split
  · exact .inl ⟨h.of_history rfl, hsame⟩
  · exact .inl ⟨h, hsame⟩
  split
  · exact .inl (hkept _ hown rfl)
  split
  · exact .inl (hkept _ hown rfl)
  split
  · exact .inl (hkept _ hstored rfl)
  rename_i hnot
  split
  · rename_i hready
    have hdone := (Bool.and_eq_true_iff.mp hready).1
    refine .inr ⟨moveCommitCertificate c digest st ((st.getOrdSlot c seq).storeCommit mess),
      Order.Node.slot?_putOrdSlot_self .., Bool.eq_false_iff.mpr hnot, moveCommitCertificate_ordered st _,
      fun called' hcalled => ?_⟩
    have hput : AllTraced c filled (Function.update ordered seq
        (some (moveCommitCertificate c digest st ((st.getOrdSlot c seq).storeCommit mess)).proposal)) called' awaits
          (st.putOrdSlot seq (moveCommitCertificate c digest st ((st.getOrdSlot c seq).storeCommit mess))) := by
      refine put (fun s hs => ?_) ?_
      · rw [Function.update_of_ne hs]
        exact (h s).mono (hcalled s hs) id
      · rw [Function.update_self, moveCommitCertificate_proposal]
        exact hstored.moveCommit hdone st
    exact hput.of_history rfl
  · exact .inl (hkept _ hstored rfl)

end AllTraced

/-! ## Servers -/

/-- The slot is executed now, or waits for that. -/
def Node.called (nd : Node D) (s : Nat) : Prop := nd.call = some s ∨ s ∈ nd.pending

/-- A replay has still to fill the slot. -/
def Node.awaits (nd : Node D) (s : Nat) : Prop := ∃ slot, Frame.install slot ∈ nd.calls ∧ slot.seqNum = s

/-- What the frames hold was validated, or is what a replay fills in. -/
def FrameOk (c : Config) : Frame D → Prop
  | .message (.prePrepare mess) => validated c (Msg.prePrepare (D := D) mess) = true
  | .install slot => Fills c slot
  | _ => True

/-- One frame above another. No message is handed over while a replay has slots to fill. -/
def Covers : Frame D → Frame D → Prop
  | .message _, .install _ => False
  | _, _ => True

/-- What is left of a function that has executed something. -/
def Frame.resumes : Frame D → Bool
  | .executed | .retry | .jumped => true
  | _ => false

/-- A server all slots of which are traced. -/
structure Traces (c : Config) (filled : Nat → Option PrePrepare) (ordered : Nat → Option CompletePrePrepare) (nd : Node D) :
    Prop where
  slots : AllTraced c filled ordered nd.called nd.awaits nd.ord
  frames : ∀ frame ∈ nd.calls, FrameOk c frame
  stacked : nd.calls.Pairwise Covers

/-- Neither slots nor calls change. -/
structure Unmoved (nd nd' : Node D) : Prop where
  history : nd'.ord.history = nd.ord.history
  pending : nd'.pending = nd.pending
  call : nd'.call = nd.call
  calls : nd'.calls = nd.calls

section Histories

variable {nd nd' : Node D} {filled : Nat → Option PrePrepare} {ordered : Nat → Option CompletePrePrepare}

@[simp] theorem orderedAfter_none : orderedAfter nd' none ordered = ordered := by
  ext1 s
  simp [orderedAfter]

theorem orderedAfter_some (seq : Nat) :
    orderedAfter nd' (some seq) ordered = Function.update ordered seq ((nd'.slot? seq).map OrdSlot.proposal) := by
  ext1 s
  by_cases hs : s = seq
  · simp [orderedAfter, hs]
  · simp [orderedAfter, hs, Ne.symm hs]

end Histories

section Unmoved

variable {nd nd' nd'' : Node D}

theorem Unmoved.refl (nd : Node D) : Unmoved nd nd := ⟨rfl, rfl, rfl, rfl⟩

theorem Unmoved.trans (h : Unmoved nd nd') (h' : Unmoved nd' nd'') : Unmoved nd nd'' :=
  ⟨h'.history.trans h.history, h'.pending.trans h.pending, h'.call.trans h.call, h'.calls.trans h.calls⟩

theorem doRecon_unmoved (nd : Node D) (seq : Nat) : Unmoved nd (doRecon c nd seq) := by
  unfold doRecon
  split
  · exact .refl nd
  · dsimp only
    repeat' split
    all_goals exact ⟨rfl, rfl, rfl, rfl⟩

theorem reconFrom_unmoved (before : Nat) (nd : Node D) : Unmoved nd (reconFrom c before nd) := by
  unfold reconFrom
  generalize List.range' (before + 1) (nd.ord.ppAru - before) = seqs
  induction seqs generalizing nd with
  | nil => exact .refl nd
  | cons seq seqs ih =>
    refine Unmoved.trans ?_ (ih (reconPrepared c nd seq))
    unfold reconPrepared Node.andThen
    dsimp only
    split
    · split
      · exact doRecon_unmoved nd seq
      · exact .refl nd
    · exact .refl nd

theorem floodPrePrepare_unmoved (nd : Node D) (seq : Nat) (slot : OrdSlot D) :
    Unmoved nd (floodPrePrepare nd seq slot) := by
  unfold floodPrePrepare
  dsimp only
  split
  · exact ⟨rfl, rfl, rfl, rfl⟩
  · exact ⟨rfl, rfl, rfl, rfl⟩

theorem processPrePrepare_call [DecidableEq D] (nd : Node D) (mess : Signed PrePrepare) :
    (processPrePrepare c digest me nd mess).call = nd.call := by
  have hcollect : ∀ (nd : Node D) first slot, (collectPart c digest me nd first slot mess).call = nd.call := by
    intro nd first slot
    unfold collectPart
    dsimp only
    repeat' split
    all_goals first | rfl | exact (floodPrePrepare_unmoved ..).call | skip
    exact (reconFrom_unmoved _ _).call.trans (floodPrePrepare_unmoved ..).call
  unfold processPrePrepare
  dsimp only
  repeat' split
  all_goals first | rfl | exact hcollect ..

end Unmoved

namespace Traces

variable {filled filled' : Nat → Option PrePrepare} {ordered : Nat → Option CompletePrePrepare} {nd nd' : Node D}
  {slot : OrdSlot D} {seq : Nat} {top : Frame D} {frames : List (Frame D)} {mess : Signed PrePrepare} {cert : OrdCert D}

/-- No slot changes, and no other one is called. -/
theorem frame (h : Traces c filled ordered nd) (hhistory : nd'.ord.history = nd.ord.history)
    (hcalled : ∀ s, nd'.called s → nd.called s) (hcalls : nd'.calls = nd.calls) : Traces c filled ordered nd' where
  slots := (h.slots.of_history hhistory).mono hcalled fun s hs => by
    unfold Node.awaits at hs ⊢
    rwa [hcalls] at hs
  frames := by
    rw [hcalls]
    exact h.frames
  stacked := by
    rw [hcalls]
    exact h.stacked

theorem of_unmoved (h : Traces c filled ordered nd) (hsame : Unmoved nd nd') : Traces c filled ordered nd' := by
  refine h.frame hsame.history (fun s hs => ?_) hsame.calls
  unfold Node.called at hs ⊢
  rwa [hsame.call, hsame.pending] at hs

/-- The frame on top is done. -/
theorem pop (h : Traces c filled ordered nd) (hcalls : nd.calls = top :: frames) :
    Traces c filled ordered { nd with calls := frames } where
  slots := h.slots.mono (fun _ => id) fun s ⟨slot, hmem, hseq⟩ => ⟨slot, hcalls ▸ List.mem_cons_of_mem _ hmem, hseq⟩
  frames f hf := h.frames f (hcalls ▸ List.mem_cons_of_mem _ hf)
  stacked := by
    have hstacked := h.stacked
    rw [hcalls] at hstacked
    exact hstacked.of_cons

theorem push (h : Traces c filled ordered nd) (htop : top.resumes = true) :
    Traces c filled ordered { nd with calls := top :: nd.calls } where
  slots := by
    refine h.slots.mono (fun _ => id) fun s ⟨slot, hmem, hseq⟩ => ?_
    rcases List.mem_cons.mp hmem with rfl | hmem
    · cases htop
    · exact ⟨slot, hmem, hseq⟩
  frames f hf := by
    rcases List.mem_cons.mp hf with rfl | hf
    · unfold FrameOk
      split <;> first | cases htop | trivial
    · exact h.frames f hf
  stacked := by
    refine List.pairwise_cons.mpr ⟨fun below _ => ?_, h.stacked⟩
    unfold Covers
    split
    · cases htop
    · trivial

theorem put (h : Traces c filled ordered nd)
    (hslot : Traced c (filled seq) (ordered seq) (nd.called seq) (nd.awaits seq) seq slot) :
    Traces c filled ordered (nd.putSlot seq slot) :=
  ⟨h.slots.put_self hslot, h.frames, h.stacked⟩

theorem andThen {f : Node D → Node D} (h : Traces c filled ordered nd) (hf : Traces c filled ordered (f nd)) :
    Traces c filled ordered (nd.andThen f) := by
  unfold Node.andThen
  split
  · exact hf
  · exact h

/-- What is dropped does not wait any more. -/
theorem dropSlots (h : Traces c filled ordered nd) (hcall : nd.call = none) (drop : Nat → Bool) :
    Traces c filled ordered (nd.dropSlots drop) where
  slots s := by
    rw [getOrdSlot_dropSlots]
    split
    · rename_i hdrop
      refine .new fun hcalled => ?_
      rcases hcalled with hcalled | hpending
      · have hnone : (nd.dropSlots drop).call = none := hcall
        rw [hnone] at hcalled
        cases hcalled
      · have hkept := (List.mem_filter.mp hpending).2
        rw [hdrop] at hkept
        cases hkept
    · exact (h.slots s).mono (Or.imp_right fun hpending => (List.mem_filter.mp hpending).1) id
  frames := h.frames
  stacked := h.stacked

/-! ### Execution -/

theorem collectSlots (h : Traces c filled ordered nd) (hcall : nd.call = none) (seqs : List Nat) :
    Traces c filled ordered (seqs.foldl collectSlot nd) := by
  induction seqs generalizing nd with
  | nil => exact h
  | cons seq seqs ih =>
    have hslot : Traces c filled ordered (collectSlot nd seq) ∧ (collectSlot nd seq).call = none := by
      unfold collectSlot Node.andThen
      dsimp only
      split
      · split
        · exact ⟨h.of_unmoved ⟨rfl, rfl, rfl, rfl⟩, hcall⟩
        split
        · exact ⟨h.of_unmoved ⟨rfl, rfl, rfl, rfl⟩, hcall⟩
        · exact ⟨h.dropSlots hcall _, hcall⟩
      · exact ⟨h, hcall⟩
    exact ih hslot.1 hslot.2

theorem garbageCollect (h : Traces c filled ordered nd) (hcall : nd.call = none) :
    Traces c filled ordered (Ordinals.garbageCollect nd) := by
  unfold Ordinals.garbageCollect
  dsimp only
  split
  · exact h
  · have hcollected := h.collectSlots hcall (List.range' nd.ord.stableCatchup (distance nd.ord.aru nd.ord.gcWidth - nd.ord.stableCatchup))
    exact hcollected.andThen (hcollected.of_unmoved ⟨rfl, rfl, rfl, rfl⟩)

theorem attemptPending (h : Traces c filled ordered nd) : Traces c filled ordered (Ordinals.attemptPending nd) := by
  unfold Ordinals.attemptPending
  split
  · rename_i hmem
    refine h.frame rfl (fun s hs => ?_) rfl
    rcases hs with hs | hs
    · obtain rfl : nd.ord.aru + 1 = s := Option.some.inj hs
      exact .inr hmem
    · exact .inr hs
  · exact h

theorem executeCommit {ready : Nat → Requests} (h : Traces c filled ordered nd) (hcall : nd.call = some seq) :
    Traces c filled ordered (Ordinals.executeCommit c ready { nd with call := none } seq) := by
  have hcalled : nd.called seq := .inl hcall
  have hreturned : Traces c filled ordered { nd with call := none } :=
    h.frame rfl (fun s hs => hs.elim (fun hs => by cases hs) .inr) rfl
  have hpending : ∀ gseq, gseq = seq → Traces c filled ordered (Node.markPending { nd with call := none } gseq) := by
    intro gseq hseq
    rw [hseq]
    refine h.frame rfl (fun s hs => ?_) rfl
    rcases hs with hs | hs
    · cases hs
    · have hmem : s ∈ (if seq ∈ nd.pending then nd.pending else nd.pending ++ [seq]) := hs
      split at hmem
      · exact .inr hmem
      · rcases List.mem_append.mp hmem with hmem | hmem
        · exact .inr hmem
        · rw [List.mem_singleton.mp hmem]
          exact hcalled
  unfold Ordinals.executeCommit
  split
  · exact hreturned.of_unmoved ⟨rfl, rfl, rfl, rfl⟩
  rename_i slot hget
  have hslot := h.slots seq
  rw [getOrdSlot_of_slot? hget] at hslot
  have hseq : slot.proposal.seqNum = seq := hslot.ok.proposalSeq (hslot.held (.inl hcalled)).1
  dsimp only
  split
  · exact hpending _ hseq
  split
  · exact hpending _ hseq
  split
  · exact hreturned.of_unmoved ⟨rfl, rfl, rfl, rfl⟩
  split
  · exact hpending _ hseq
  unfold executeReady
  dsimp only
  split
  · exact hreturned.of_unmoved ⟨rfl, rfl, rfl, rfl⟩
  split
  · exact hreturned.of_unmoved ⟨rfl, rfl, rfl, rfl⟩
  have hexecuted : Traces c filled ordered (Node.putSlot { nd with call := none } seq slot.markExecuted) :=
    hreturned.put (hslot.execute hcalled)
  have hadvanced : Traces c filled ordered
      (Node.withOrd { nd with call := none } (nd.ord.putOrdSlot seq slot.markExecuted).advanceAru) :=
    hexecuted.of_unmoved ⟨rfl, rfl, rfl, rfl⟩
  exact (hadvanced.of_unmoved (doRecon_unmoved _ seq)).push rfl

theorem sendPrepares (h : Traces c filled ordered nd) : Traces c filled ordered (Ordinals.sendPrepares c digest me nd) := by
  have hprepared : Traces c filled ordered (nd.withOrd (Order.sendPrepares c digest me nd.ord).1) :=
    ⟨h.slots.sendPrepares, h.frames, h.stacked⟩
  exact hprepared.of_unmoved (reconFrom_unmoved _ _)

theorem afterExecution (h : Traces c filled ordered nd) (hcall : nd.call = none) :
    Traces c filled ordered (Ordinals.afterExecution c digest me nd) := by
  have hcall' : (Ordinals.sendPrepares c digest me nd).call = none := (reconFrom_unmoved _ _).call.trans hcall
  have hcollected : Traces c filled ordered ((Ordinals.sendPrepares c digest me nd).andThen Ordinals.garbageCollect) :=
    h.sendPrepares.andThen (h.sendPrepares.garbageCollect hcall')
  exact hcollected.andThen (hcollected.push rfl)

/-! ### Messages -/

section Messages

variable [DecidableEq D]

/-- A part that is not there meets its slot and completes it. -/
theorem collectPart (h : Traces c filled ordered nd) (hnot : ∀ s, ¬nd.awaits s)
    (hvalid : validated c (Msg.prePrepare (D := D) mess) = true)
    (hbegins : Begins (filled mess.body.seqNum) (nd.ord.getOrdSlot c mess.body.seqNum) mess.body) (first : Bool) :
    Traces c filled ordered (Ordinals.collectPart c digest me
      (nd.putSlot mess.body.seqNum (slotFor (nd.ord.getOrdSlot c mess.body.seqNum) mess.body)) first
      (slotFor (nd.ord.getOrdSlot c mess.body.seqNum) mess.body) mess) := by
  have hown := h.slots mess.body.seqNum
  generalize hseq : mess.body.seqNum = seq at hown hbegins ⊢
  generalize hslot : nd.ord.getOrdSlot c seq = own at hown hbegins ⊢
  have hmet : Traces c filled ordered (nd.putSlot seq (slotFor own mess.body)) := h.put (hown.meet hbegins)
  simp only [Order.validated, Bool.and_eq_true, decide_eq_true_eq] at hvalid
  have hindex : (mess.body.partNum - 1) * numAcksPerMessage c = 0 := by
    rw [hvalid.2, Nat.sub_self, Nat.zero_mul]
  unfold Ordinals.collectPart
  dsimp only
  rw [hindex, hseq]
  split
  · exact hmet
  split
  · exact hmet.of_unmoved ⟨rfl, rfl, rfl, rfl⟩
  split
  · exact hmet
  rename_i hdone
  split
  · exact hmet
  split
  · exact hmet.of_unmoved ⟨rfl, rfl, rfl, rfl⟩
  rw [slotFor_collectedAllParts, Bool.not_eq_true] at hdone
  have hparts : own.numPartsCollected = 0 := by
    by_contra hparts
    exact absurd (hown.parts hparts) (by simp [hdone])
  split
  · rename_i hmore
    -- a Pre-Prepare has one part
    have hone : (slotFor own mess.body).numPartsCollected + 1 < (slotFor own mess.body).totalParts := hmore
    have hset : slotFor own mess.body = setupProposal own mess.body := if_pos hparts
    rw [hset] at hone
    have htotal : own.numPartsCollected + 1 < mess.body.totalParts := hone
    omega
  · have htaken : Traced c (filled seq) (ordered seq) (nd.called seq) (nd.awaits seq) seq
        (storePart (slotFor own mess.body) mess 0).markCollected := hown.take hbegins hdone
    generalize storePart (slotFor own mess.body) mess 0 = slot at htaken ⊢
    have hflood := floodPrePrepare_unmoved ((nd.putSlot seq (slotFor own mess.body)).putSlot seq slot) seq slot
    generalize floodPrePrepare ((nd.putSlot seq (slotFor own mess.body)).putSlot seq slot) seq slot = nd' at hflood ⊢
    have hothers : ∀ s, s ≠ seq → nd'.ord.getOrdSlot c s = nd.ord.getOrdSlot c s := by
      intro s hs
      have hput : nd'.ord.slot? s = ((nd.ord.putOrdSlot seq (slotFor own mess.body)).putOrdSlot seq slot).slot? s := by
        rw [Order.Node.slot?, hflood.history]
        rfl
      rw [Order.Node.getOrdSlot, hput, Order.Node.slot?_putOrdSlot_of_ne _ _ hs,
        Order.Node.slot?_putOrdSlot_of_ne _ _ hs, Order.Node.getOrdSlot]
    have hslots : AllTraced c filled ordered nd.called nd.awaits (Order.proposalComplete c digest me nd'.ord seq slot).1 := by
      refine AllTraced.proposalComplete (fun s hs => ?_) htaken hnot
      rw [hothers s hs]
      exact h.slots s
    have hcomplete : Traces c filled ordered (nd.withOrd (Order.proposalComplete c digest me nd'.ord seq slot).1) :=
      ⟨hslots, h.frames, h.stacked⟩
    have hlines : Unmoved (nd.withOrd (Order.proposalComplete c digest me nd'.ord seq slot).1)
        (nd'.withOrd (Order.proposalComplete c digest me nd'.ord seq slot).1) :=
      ⟨rfl, hflood.pending, hflood.call, hflood.calls⟩
    exact hcomplete.of_unmoved (hlines.trans (reconFrom_unmoved _ _))

theorem processPrePrepare (h : Traces c filled ordered nd) (hnot : ∀ s, ¬nd.awaits s)
    (hvalid : validated c (Msg.prePrepare (D := D) mess) = true)
    (hbegins : reachesSlot c nd mess = true →
      Begins (filled mess.body.seqNum) (nd.ord.getOrdSlot c mess.body.seqNum) mess.body) :
    Traces c filled ordered (Ordinals.processPrePrepare c digest me nd mess) := by
  unfold Ordinals.processPrePrepare
  dsimp only
  split
  · exact h
  rename_i hdigest
  split
  · exact h
  rename_i hlines
  split
  · exact h.of_unmoved ⟨rfl, rfl, rfl, rfl⟩
  · exact h
  rename_i hview
  split
  · exact h
  rename_i hleader
  have hreaches : reachesSlot c nd mess = true := by
    simp only [reachesSlot, Bool.and_eq_true, Bool.not_eq_true', decide_eq_true_eq, decide_eq_false_iff_not]
    exact ⟨⟨⟨not_not.mp hdigest, hlines⟩, hview⟩, not_not.mp hleader⟩
  exact h.collectPart hnot hvalid (hbegins hreaches) _

/-- The Commit that orders a slot makes the server call it. -/
theorem processCommit (h : Traces c filled ordered nd) (hcall : nd.call = none) (commit : Signed (Vouch D)) :
    Traces c filled (orderedAfter (Ordinals.processCommit c digest nd commit) (Ordinals.processCommit c digest nd commit).call ordered)
      (Ordinals.processCommit c digest nd commit) := by
  unfold Ordinals.processCommit
  dsimp only
  rcases h.slots.processCommit digest commit with ⟨hslots, hsame⟩ | ⟨slot, hget, hopen, hordered, hslots⟩
  · rw [if_neg]
    · have hnone : (nd.withOrd (Order.processCommit c digest nd.ord commit)).call = none := hcall
      rw [hnone, orderedAfter_none]
      exact ⟨hslots, h.frames, h.stacked⟩
    · rintro ⟨hopen, hany⟩
      rw [hsame hany] at hopen
      cases hopen
  · have hget' : (nd.withOrd (Order.processCommit c digest nd.ord commit)).slot? commit.body.seqNum = some slot := hget
    rw [if_pos ⟨hopen, by rw [hget']; exact hordered⟩, orderedAfter_some]
    refine ⟨?_, h.frames, h.stacked⟩
    have hproposal : ((nd.withOrd (Order.processCommit c digest nd.ord commit)).slot? commit.body.seqNum).map OrdSlot.proposal =
        some slot.proposal := by
      rw [hget']
      rfl
    show AllTraced c filled (Function.update ordered commit.body.seqNum
      (((nd.withOrd (Order.processCommit c digest nd.ord commit)).slot? commit.body.seqNum).map OrdSlot.proposal)) _ _ _
    rw [hproposal]
    refine hslots _ fun s hs hcalled => ?_
    rcases hcalled with hcalled | hpending
    · exact absurd (Option.some.inj hcalled).symm hs
    · exact .inr hpending

/-- The handler of a message. -/
theorem processMessage (h : Traces c filled ordered nd) (hcall : nd.call = none) (hnot : ∀ s, ¬nd.awaits s) {m : Msg D}
    (hvalid : FrameOk c (.message m))
    (hbegins : ∀ mess, m = .prePrepare mess → reachesSlot c nd mess = true →
      Begins (filled mess.body.seqNum) (nd.ord.getOrdSlot c mess.body.seqNum) mess.body) :
    Traces c filled (orderedAfter (Ordinals.processMessage c digest me nd m) (Ordinals.processMessage c digest me nd m).call ordered)
      (Ordinals.processMessage c digest me nd m) := by
  cases m with
  | prePrepare mess =>
    have hnone : (Ordinals.processMessage c digest me nd (.prePrepare mess)).call = none :=
      (processPrePrepare_call nd mess).trans hcall
    rw [hnone, orderedAfter_none]
    exact h.processPrePrepare hnot hvalid (hbegins mess rfl)
  | prepare mess =>
    have hnone : (Ordinals.processMessage c digest me nd (.prepare mess)).call = none := hcall
    rw [hnone, orderedAfter_none]
    exact ⟨h.slots.processPrepare hnot mess, h.frames, h.stacked⟩
  | commit mess => exact h.processCommit hcall mess

end Messages

/-! ### Replays -/

/-- The next slot of a replay. -/
theorem installSlot (h : Traces c filled ordered nd) (hcall : nd.call = none) (hcalls : nd.calls = .install slot :: frames) :
    Traces c filled (orderedAfter (Ordinals.installSlot c { nd with calls := frames } slot)
      (Ordinals.installSlot c { nd with calls := frames } slot).call ordered) (Ordinals.installSlot c { nd with calls := frames } slot) := by
  have hpop := h.pop hcalls
  unfold Ordinals.installSlot
  split
  · have hnone : (Node.withOrd { nd with calls := frames } nd.ord.halt).call = none := hcall
    show Traces c filled (orderedAfter _ (Node.withOrd { nd with calls := frames } nd.ord.halt).call ordered) _
    rw [hnone, orderedAfter_none]
    exact hpop.of_unmoved ⟨rfl, rfl, rfl, rfl⟩
  · dsimp only
    have hmem : Frame.install slot ∈ nd.calls := hcalls ▸ List.mem_cons_self
    have hready := (h.slots slot.seqNum).uncertified ⟨slot, hmem, rfl⟩
    have hput : AllTraced c filled
        (Function.update ordered slot.seqNum (some (fillSlot (nd.ord.getOrdSlot c slot.seqNum) slot).proposal))
        (fun s => some slot.seqNum = some s ∨ s ∈ nd.pending) (Node.awaits { nd with calls := frames })
        (nd.ord.putOrdSlot slot.seqNum (fillSlot (nd.ord.getOrdSlot c slot.seqNum) slot)) := by
      refine AllTraced.put (fun s hs => ?_) ?_
      · rw [Function.update_of_ne hs]
        exact (hpop.slots s).mono (fun hcalled => hcalled.elim (fun heq => absurd (Option.some.inj heq).symm hs) .inr) id
      · rw [Function.update_self]
        exact (hpop.slots slot.seqNum).fill (h.frames _ hmem) hready
    rw [orderedAfter_some]
    show Traces c filled (Function.update ordered slot.seqNum (((nd.ord.putOrdSlot slot.seqNum
      (fillSlot (nd.ord.getOrdSlot c slot.seqNum) slot)).slot? slot.seqNum).map OrdSlot.proposal)) _
    rw [Order.Node.slot?_putOrdSlot_self]
    exact ⟨hput.of_history rfl, hpop.frames, hpop.stacked⟩

/-- The slots of a replay. -/
theorem fills_replaySlot (full : List (Nat × PcSet D)) (startSeq seq : Nat) (prev : Previous) :
    Fills c (replaySlot c full startSeq seq prev) := by
  unfold replaySlot
  split
  · exact ⟨nofun, rfl, fun _ => rfl⟩
  · unfold noOpSlot
    dsimp only
    generalize (if seq + 1 < startSeq then full.lookup (seq + 1) else none) = next
    cases next with
    | none => exact ⟨nofun, rfl, nofun⟩
    | some pc => exact ⟨nofun, rfl, nofun⟩

theorem executeReplay (h : Traces c filled ordered nd) (hmay : nd.mayReplay = true) (list : Bitmap)
    (pcSet : Nat → List (PcSet D)) (startSeq : Nat) :
    Traces c filled ordered (Ordinals.executeReplay c nd list pcSet startSeq) := by
  unfold Node.mayReplay at hmay
  simp only [Bool.and_eq_true, Option.isNone_iff_eq_none] at hmay
  obtain ⟨⟨hcall, -⟩, hframes⟩ := hmay
  have hdropped := h.dropSlots hcall fun seq => !survives nd.ord startSeq seq
  unfold Ordinals.executeReplay
  dsimp only
  split
  · exact hdropped.of_unmoved ⟨rfl, rfl, rfl, rfl⟩
  rename_i prev _
  -- the ordinals that are filled have no slot
  have hfresh : ∀ slot ∈ replaySlots c list pcSet nd.ord.aru startSeq prev,
      (nd.dropSlots fun seq => !survives nd.ord startSeq seq).ord.getOrdSlot c slot.seqNum = OrdSlot.new c slot.seqNum := by
    intro slot hslot
    obtain ⟨s, prev', hlow, hhigh, rfl⟩ := mem_slotsFrom hslot
    rw [replaySlot_seqNum, getOrdSlot_dropSlots]
    split
    · rfl
    · rename_i hsurvives
      rw [Bool.not_eq_true, Bool.not_eq_false'] at hsurvives
      unfold survives at hsurvives
      cases hget : nd.ord.slot? s with
      | none => rw [Order.Node.getOrdSlot, hget, Option.getD_none]
      | some own =>
        have hown := (h.slots s).ok.seqNum
        rw [getOrdSlot_of_slot? hget] at hown
        simp only [hget, hown, Bool.or_eq_true, Bool.and_eq_true, decide_eq_true_eq] at hsurvives
        omega
  have hnoInstall : ∀ slot : OrdSlot D, Frame.install slot ∉ nd.calls := fun slot hmem => by
    have hframe := List.all_eq_true.mp hframes _ hmem
    cases hframe
  refine ⟨fun s => ?_, fun frame hframe => ?_, ?_⟩
  · have hslot := hdropped.slots s
    refine { hslot with uncertified := fun hawaits => ?_ }
    obtain ⟨slot, hmem, rfl⟩ := hawaits
    rcases List.mem_append.mp hmem with hmem | hmem
    · obtain ⟨slot', hslot', heq⟩ := List.mem_map.mp hmem
      obtain rfl : slot' = slot := Frame.install.inj heq
      have hnew := hfresh slot' hslot'
      show ((nd.dropSlots fun seq => !survives nd.ord startSeq seq).ord.getOrdSlot c slot'.seqNum).prepareCertificateReady = false
      rw [hnew]
      rfl
    · rcases List.mem_cons.mp hmem with hmem | hmem
      · cases hmem
      · exact absurd hmem (hnoInstall slot)
  · rcases List.mem_append.mp hframe with hmem | hmem
    · obtain ⟨slot, hslot, rfl⟩ := List.mem_map.mp hmem
      obtain ⟨s, prev', -, -, rfl⟩ := mem_slotsFrom hslot
      exact fills_replaySlot ..
    · rcases List.mem_cons.mp hmem with rfl | hmem
      · trivial
      · exact h.frames frame hmem
  · refine List.pairwise_append.mpr ⟨?_, ?_, fun above habove below hbelow => ?_⟩
    · exact List.pairwise_map.mpr (List.pairwise_of_forall fun _ _ => trivial)
    · exact List.pairwise_cons.mpr ⟨fun _ _ => trivial, h.stacked⟩
    · obtain ⟨slot, -, rfl⟩ := List.mem_map.mp habove
      trivial

theorem finishReplay (h : Traces c filled ordered nd) (startSeq : Nat) :
    Traces c filled ordered (Ordinals.finishReplay c me nd startSeq) := by
  unfold Ordinals.finishReplay
  dsimp only
  split
  · exact h.of_unmoved ⟨rfl, rfl, rfl, rfl⟩
  · exact h.of_unmoved ⟨rfl, rfl, rfl, rfl⟩

/-! ### Certificates and jumps -/

/-- Messages are handed over one after the other. -/
theorem handOver (h : Traces c filled ordered nd)
    (hframes : ∀ frame ∈ frames, FrameOk c frame ∧ ∃ m, frame = .message m) :
    Traces c filled ordered { nd with calls := frames } where
  slots := by
    refine h.slots.mono (fun _ => id) fun s ⟨slot, hmem, _⟩ => ?_
    obtain ⟨-, m, hm⟩ := hframes _ hmem
    cases hm
  frames frame hframe := (hframes frame hframe).1
  stacked := by
    refine List.pairwise_of_forall_mem_list fun above habove below hbelow => ?_
    obtain ⟨-, m, rfl⟩ := hframes above habove
    obtain ⟨-, m', rfl⟩ := hframes below hbelow
    trivial

section Certificates

variable [DecidableEq D]

theorem adoptCertificate (h : Traces c filled ordered nd) (hcall : nd.call = none) (hcalls : nd.calls = [])
    (hvalid : validated c (Msg.prePrepare (D := D) cert.prePrepare) = true) :
    Traces c filled ordered (Ordinals.adoptCertificate c digest nd cert) := by
  have hput : Traces c filled ordered (nd.putSlot cert.seqNum (nd.ord.getOrdSlot c cert.seqNum)) := h.put (h.slots cert.seqNum)
  unfold Ordinals.adoptCertificate
  dsimp only
  split
  · exact hput
  split
  · exact hput.of_unmoved ⟨rfl, rfl, rfl, rfl⟩
  have hopened : ∀ nd' : Node D, Traces c filled ordered nd' → nd'.calls = [] →
      Traces c filled ordered { nd'.putSlot cert.seqNum { nd'.ord.getOrdSlot c cert.seqNum with
          preinstalledSnapshot := cert.vector, snapshot := true, commit := fun _ => none } with
        calls := .message (.prePrepare cert.prePrepare) ::
          (cert.commits.take c.quorum).map (fun commit => .message (.commit commit)) ++ nd'.calls } := by
    intro nd' hnd' hnone
    have hslot : Traced c (filled cert.seqNum) (ordered cert.seqNum) (nd'.called cert.seqNum) (nd'.awaits cert.seqNum)
        cert.seqNum { nd'.ord.getOrdSlot c cert.seqNum with
          preinstalledSnapshot := cert.vector, snapshot := true, commit := fun _ => none } :=
      (hnd'.slots cert.seqNum).of_core rfl
    rw [hnone, List.append_nil]
    refine (hnd'.put hslot).handOver fun frame hframe => ?_
    rcases List.mem_cons.mp hframe with rfl | hframe
    · exact ⟨hvalid, _, rfl⟩
    · obtain ⟨commit, -, rfl⟩ := List.mem_map.mp hframe
      exact ⟨trivial, _, rfl⟩
  -- the slot makes room where it has another proposal
  split
  · exact hopened _ (hput.dropSlots hcall _) hcalls
  · exact hopened _ hput hcalls

theorem processOrdCertificate (h : Traces c filled ordered nd) (hcall : nd.call = none) (hcalls : nd.calls = [])
    (hvalid : validated c (Msg.prePrepare (D := D) cert.prePrepare) = true) :
    Traces c filled ordered (Ordinals.processOrdCertificate c digest me nd cert) := by
  unfold Ordinals.processOrdCertificate
  repeat (split; · exact h)
  split
  · have hdropped := h.dropSlots hcall fun seq =>
      (nd.slot? seq).any fun slot => decide (cert.seqNum ≤ slot.seqNum) && decide (slot.view ≤ nd.ord.view)
    have hentered : Traces c filled ordered (enterView nd cert) := hdropped.of_unmoved ⟨rfl, rfl, rfl, rfl⟩
    exact hentered.adoptCertificate hcall hcalls hvalid
  · exact h.adoptCertificate hcall hcalls hvalid

end Certificates

/-- A jump lands on the slot of its certificate. -/
theorem landOn (h : Traces c filled ordered nd) (hcall : nd.call = none) (cert : OrdCert D) :
    Traces c filled (Function.update ordered cert.seqNum (some (landingSlot c cert).proposal)) (Ordinals.landOn c nd cert) := by
  have hdropped := h.dropSlots hcall fun s => !nd.outlives cert s
  have hput : AllTraced c filled (Function.update ordered cert.seqNum (some (landingSlot c cert).proposal))
      (nd.dropSlots fun s => !nd.outlives cert s).called (nd.dropSlots fun s => !nd.outlives cert s).awaits
      ((nd.dropSlots fun s => !nd.outlives cert s).ord.putOrdSlot cert.seqNum (landingSlot c cert)) := by
    refine AllTraced.put (fun s hs => ?_) ?_
    · rw [Function.update_of_ne hs]
      exact hdropped.slots s
    · rw [Function.update_self]
      exact Traced.land cert
  exact ⟨hput.of_history rfl, h.frames, h.stacked⟩

/-- The slot of the landing keeps its proposal. -/
theorem sendPrepares_proposal (nd : Node D) (s : Nat) :
    ((Ordinals.sendPrepares c digest me nd).slot? s).map OrdSlot.proposal = (nd.slot? s).map OrdSlot.proposal := by
  have hslot : (Ordinals.sendPrepares c digest me nd).slot? s = (Order.sendPrepares c digest me nd.ord).1.slot? s := by
    unfold Ordinals.sendPrepares
    rw [Node.slot?, Order.Node.slot?, (reconFrom_unmoved _ _).history]
    rfl
  have hproposal : (OrdSlot.proposal : OrdSlot D → CompletePrePrepare) = OrdSlot.proposal ∘ unprepared := rfl
  rw [hslot, hproposal, ← Option.map_map, ← Option.map_map, sendPrepares_unprepared]
  rfl

theorem jumpAhead (h : Traces c filled ordered nd) (hcall : nd.call = none) (cert : OrdCert D) :
    Traces c filled (orderedAfter (Ordinals.jumpAhead c digest me nd cert)
      (if cert.prePrepare.body.rows.length ≤ c.numServers then some cert.seqNum else none) ordered)
      (Ordinals.jumpAhead c digest me nd cert) := by
  unfold Ordinals.jumpAhead
  by_cases hrows : cert.prePrepare.body.rows.length ≤ c.numServers
  · rw [if_neg (Nat.not_lt_of_le hrows), if_pos hrows, orderedAfter_some]
    have hsent : Traces c filled (Function.update ordered cert.seqNum (some (landingSlot c cert).proposal))
        (Ordinals.sendPrepares c digest me (Ordinals.landOn c nd cert)) := (h.landOn hcall cert).sendPrepares
    have hslot : ((Ordinals.sendPrepares c digest me (Ordinals.landOn c nd cert)).slot? cert.seqNum).map OrdSlot.proposal =
        some (landingSlot c cert).proposal := by
      rw [sendPrepares_proposal, Node.slot?, slot?_landOn, if_pos rfl]
      rfl
    unfold Node.andThen
    split
    · show Traces c filled (Function.update ordered cert.seqNum
        (((Ordinals.sendPrepares c digest me (Ordinals.landOn c nd cert)).slot? cert.seqNum).map OrdSlot.proposal)) _
      rw [hslot]
      have hleft : Traces c filled (Function.update ordered cert.seqNum (some (landingSlot c cert).proposal))
          (leaveView nd.ord.view (Ordinals.sendPrepares c digest me (Ordinals.landOn c nd cert)) cert) :=
        hsent.of_unmoved ⟨rfl, rfl, rfl, rfl⟩
      exact hleft.push rfl
    · rw [hslot]
      exact hsent
  · rw [if_pos (Nat.lt_of_not_le hrows), if_neg hrows, orderedAfter_none]
    exact h.of_unmoved ⟨rfl, rfl, rfl, rfl⟩

/-! ### The server -/

theorem acceptIncarnation (h : Traces c filled ordered nd) (vector : List Nat) :
    Traces c filled ordered (Ordinals.acceptIncarnation me vector nd) where
  slots s := by
    have hlookup : (Ordinals.acceptIncarnation me vector nd).ord.slot? s = (nd.ord.slot? s).map (reviseVotes me vector) :=
      List.dlookup_map₂ s
    have hslot := h.slots s
    rw [Order.Node.getOrdSlot] at hslot ⊢
    rw [hlookup]
    cases hget : nd.ord.slot? s with
    | none =>
      rw [hget] at hslot
      exact hslot
    | some slot =>
      rw [hget] at hslot
      exact hslot.revise vector
  frames := h.frames
  stacked := h.stacked

/-- The leader sends the proposal it has constructed. -/
theorem sendOnePrePrepare (h : Traces c filled ordered nd) (hrunning : nd.running = true) (rows : List PoAruSigned)
    (hsends : ∀ pp ∈ nd.proposes c me (.propose rows), Sends c (nd.ord.getOrdSlot c pp.seqNum) pp) :
    Traces c (filledAfter c nd (nd.proposes c me (.propose rows)) filled) ordered (Ordinals.sendOnePrePrepare c me nd rows) := by
  unfold Ordinals.sendOnePrePrepare
  by_cases hleader : me = c.leaderOfView nd.ord.view
  · have hproposes : nd.proposes c me (.propose rows) =
        (if nd.seq = 1 then some (List.replicate c.numServers PoSeqPair.zero)
          else (nd.slot? (nd.seq - 1)).map OrdSlot.madeEligible).map fun last => constructPrePrepare nd last rows :=
      if_pos ⟨hrunning, hleader⟩
    rw [hproposes] at hsends ⊢
    rw [if_neg (not_not.mpr hleader)]
    dsimp only
    generalize (if nd.seq = 1 then some (List.replicate c.numServers PoSeqPair.zero)
      else (nd.slot? (nd.seq - 1)).map OrdSlot.madeEligible) = last at hsends ⊢
    cases last with
    | none => exact h.of_unmoved ⟨rfl, rfl, rfl, rfl⟩
    | some last =>
      have hsend := hsends _ rfl
      have hput : AllTraced c (filledAfter c nd (some (constructPrePrepare nd last rows)) filled) ordered nd.called nd.awaits
          (nd.ord.putOrdSlot nd.seq (openForProposal c (nd.ord.getOrdSlot c nd.seq) (constructPrePrepare nd last rows))) := by
        refine AllTraced.put (fun s hs => ?_) ?_
        · have hsame : filledAfter c nd (some (constructPrePrepare nd last rows)) filled s = filled s :=
            if_neg fun hand => hs hand.1
          rw [hsame]
          exact h.slots s
        · refine (h.slots nd.seq).openFor hsend ?_
          simp [filledAfter, constructPrePrepare]
      exact ⟨hput.of_history rfl, h.frames, h.stacked⟩
  · have hproposes : nd.proposes c me (.propose rows) = none := if_neg fun hand => hleader hand.2
    rw [hproposes, if_pos hleader]
    exact h

theorem start (catchupHistory view : Nat) (incarnations : List Nat) (proposalDigest : Bytes) :
    Traces (D := D) c filled ordered (Node.start c catchupHistory view incarnations proposalDigest) where
  slots s := Traced.new fun hcalled => by
    rcases hcalled with hcalled | hpending
    · cases hcalled
    · cases hpending
  frames frame hframe := by cases hframe
  stacked := .nil

/-- A jump lands on no slot while the server is busy, or once it has ended. -/
theorem orders_of_busy {x : Input D} (hbusy : nd.running = false ∨ nd.idle = false) (hx : ∀ ready, x ≠ .proceed ready) :
    nd.orders c catchupHistory nd' x = none := by
  have hlands : ∀ cert : OrdCert D, nd.lands c cert = false := by
    intro cert
    unfold Node.lands
    rcases hbusy with hended | hbusy
    · rw [hended]
      rfl
    · rw [hbusy, Bool.and_false]
      rfl
  unfold Node.orders
  split
  · exact absurd rfl (hx _)
  · rw [hlands, Bool.false_and]
    rfl
  · rw [hlands]
    rfl
  · rfl

theorem orders_of_ended {x : Input D} (hended : nd.running = false) : nd.orders c catchupHistory nd x = none := by
  by_cases hx : ∀ ready, x ≠ .proceed ready
  · exact orders_of_busy (.inl hended) hx
  · obtain ⟨ready, hx⟩ := not_forall.mp hx
    obtain rfl := not_not.mp hx
    unfold Node.orders
    dsimp only
    split
    · assumption
    · assumption
    · rfl

theorem proposes_of_ended {x : Input D} (hended : nd.running = false) : nd.proposes c me x = none := by
  unfold Node.proposes
  split
  · exact if_neg fun hand => absurd (hended.symm.trans hand.1) Bool.false_ne_true
  · rfl

theorem afterJump (h : Traces c filled ordered nd) : Traces c filled ordered (Ordinals.afterJump c me nd) := by
  have hseq : Traces c filled ordered
      { nd with seq := if me = c.leaderOfView nd.ord.view ∧ nd.ord.viewChangeDone = true then nd.ord.aru + 1 else nd.seq } :=
    h.of_unmoved ⟨rfl, rfl, rfl, rfl⟩
  exact hseq.push rfl

section Steps

variable [DecidableEq D]

theorem proceed_message {ready : Nat → Requests} {m : Msg D} (hcall : nd.call = none) (hcalls : nd.calls = .message m :: frames) :
    Ordinals.proceed c digest me ready nd = Ordinals.processMessage c digest me { nd with calls := frames } m := by
  unfold Ordinals.proceed
  rw [hcall, hcalls]

theorem proceed_jumped {ready : Nat → Requests} (hcall : nd.call = none) (hcalls : nd.calls = .jumped :: frames) :
    Ordinals.proceed c digest me ready nd = Ordinals.afterJump c me { nd with calls := frames } := by
  unfold Ordinals.proceed
  rw [hcall, hcalls]

/-- The next step of the handler that runs. -/
theorem proceed {ready : Nat → Requests} (h : Traces c filled ordered nd) (hrunning : nd.running = true)
    (hbegins : ∀ mess ∈ nd.takes c (.proceed ready),
      Begins (filled mess.body.seqNum) (nd.ord.getOrdSlot c mess.body.seqNum) mess.body) :
    Traces c filled (orderedAfter (Ordinals.proceed c digest me ready nd)
      (nd.orders c catchupHistory (Ordinals.proceed c digest me ready nd) (.proceed ready)) ordered)
      (Ordinals.proceed c digest me ready nd) := by
  unfold Node.orders
  cases hcall : nd.call with
  | some seq =>
    rw [orderedAfter_none, proceed_of_call hcall]
    exact h.executeCommit hcall
  | none =>
    cases hcalls : nd.calls with
    | nil =>
      rw [orderedAfter_none]
      unfold Ordinals.proceed
      rw [hcall, hcalls]
      exact h
    | cons top frames =>
      have hpop := h.pop hcalls
      cases top with
      | executed =>
        rw [orderedAfter_none, proceed_executed hcall hcalls]
        exact hpop.afterExecution hcall
      | retry =>
        rw [orderedAfter_none, proceed_retry hcall hcalls]
        exact hpop.attemptPending
      | message m =>
        have hstacked := h.stacked
        rw [hcalls] at hstacked
        -- no slot waits for a replay beneath a message
        have hnot : ∀ s, ¬Node.awaits { nd with calls := frames } s := fun s ⟨slot, hmem, _⟩ =>
          (List.pairwise_cons.mp hstacked).1 _ hmem
        rw [proceed_message hcall hcalls]
        refine hpop.processMessage hcall hnot (h.frames _ (hcalls ▸ List.mem_cons_self)) fun mess hmess hreaches => ?_
        have hhandles : nd.handles = some (.prePrepare mess) := by
          unfold Node.handles
          rw [hrunning, hcall, hcalls, hmess]
        refine hbegins mess ?_
        unfold Node.takes
        dsimp only
        rw [hhandles]
        exact if_pos hreaches
      | install slot =>
        rw [proceed_install hcall hcalls]
        exact h.installSlot hcall hcalls
      | replayed startSeq =>
        rw [orderedAfter_none, proceed_replayed hcall hcalls]
        exact hpop.finishReplay startSeq
      | jumped =>
        rw [orderedAfter_none, proceed_jumped hcall hcalls]
        exact hpop.afterJump

/-- What a server in its event loop does. -/
theorem receive (h : Traces c filled ordered nd) (hrunning : nd.running = true) (hidle : nd.idle = true) {x : Input D}
    (hvalid : x.Valid c) :
    Traces c filled (orderedAfter (Ordinals.receive c catchupHistory digest me nd x)
      (nd.orders c catchupHistory (Ordinals.receive c catchupHistory digest me nd x) x) ordered)
      (Ordinals.receive c catchupHistory digest me nd x) := by
  obtain ⟨hcall, hcalls⟩ := calls_of_idle hidle
  have hlands : ∀ cert : OrdCert D, nd.lands c cert = decide (cert.prePrepare.body.rows.length ≤ c.numServers) := by
    intro cert
    unfold Node.lands
    rw [hrunning, hidle]
    rfl
  have hjump : ∀ cert : OrdCert D, Traces c filled (orderedAfter (Ordinals.jumpAhead c digest me nd cert)
      (if nd.lands c cert then some cert.seqNum else none) ordered) (Ordinals.jumpAhead c digest me nd cert) := by
    intro cert
    have hjumped : Traces c filled (orderedAfter (Ordinals.jumpAhead c digest me nd cert)
      (if cert.prePrepare.body.rows.length ≤ c.numServers then some cert.seqNum else none) ordered)
        (Ordinals.jumpAhead c digest me nd cert) := h.jumpAhead hcall cert
    rw [hlands]
    simpa using hjumped
  cases x with
  | proceed =>
    unfold Node.orders
    rw [hcall, hcalls, orderedAfter_none]
    exact h
  | message m =>
    unfold Ordinals.receive
    dsimp only
    split
    · rename_i hmessage
      refine h.handOver fun frame hframe => ?_
      obtain rfl := List.mem_singleton.mp hframe
      refine ⟨?_, m, rfl⟩
      cases m with
      | prePrepare mess => exact hmessage
      | prepare mess => trivial
      | commit mess => trivial
    · exact h
  | retry =>
    have hpushed : Traces c filled ordered { nd with calls := .retry :: nd.calls } := h.push rfl
    rw [hcalls] at hpushed
    exact hpushed
  | propose => exact h
  | replay => exact h
  | ordCert cert => exact h.processOrdCertificate hcall hcalls hvalid
  | jump flag seqNum cert =>
    show Traces c filled (orderedAfter (processJump c catchupHistory digest me nd flag seqNum cert)
      (if nd.lands c cert && nd.jumps catchupHistory flag seqNum cert then some cert.seqNum else none) ordered)
      (processJump c catchupHistory digest me nd flag seqNum cert)
    unfold processJump
    by_cases hjumps : nd.jumps catchupHistory flag seqNum cert = true
    · rw [hjumps, if_pos rfl, Bool.and_true]
      exact hjump cert
    · rw [Bool.not_eq_true] at hjumps
      rw [hjumps, if_neg Bool.false_ne_true, Bool.and_false, if_neg Bool.false_ne_true, orderedAfter_none]
      exact h
  | recovered cert => exact hjump cert
  | incarnation vector => exact h.acceptIncarnation vector
  | elsewhere => exact h
  | restart view incarnations proposalDigest => exact start catchupHistory view incarnations proposalDigest

/-- **One step** that meets the condition keeps the slots traced. -/
theorem step {t : Logged D} {x : Input D} (h : Traces c t.filledFrom t.orderedWith t.nd) (hvalid : x.Valid c)
    (hmeets : Meets c me t x) :
    Traces c (t.step c catchupHistory digest me x).filledFrom (t.step c catchupHistory digest me x).orderedWith
      (t.step c catchupHistory digest me x).nd := by
  obtain ⟨nd, filled, ordered⟩ := t
  have hbegins := hmeets.begins
  have hsends := hmeets.sends
  dsimp only at h hbegins hsends
  unfold Logged.step
  dsimp only
  unfold Ordinals.step
  by_cases hrunning : nd.running = false
  · rw [if_pos hrunning, orders_of_ended hrunning, proposes_of_ended hrunning, orderedAfter_none]
    exact h
  rw [if_neg hrunning]
  rw [Bool.not_eq_false] at hrunning
  cases x with
  | proceed ready => exact h.proceed hrunning hbegins
  | propose rows =>
    rw [show nd.orders c catchupHistory _ (.propose rows) = none from rfl, orderedAfter_none]
    exact h.sendOnePrePrepare hrunning rows hsends
  | elsewhere => exact h.of_unmoved ⟨rfl, rfl, rfl, rfl⟩
  | replay list pcSet startSeq =>
    dsimp only
    split
    · rename_i hmay
      exact h.executeReplay hmay list pcSet startSeq
    · exact h
  | message | retry | ordCert | jump | recovered | incarnation | restart =>
    dsimp only
    by_cases hidle : nd.idle = true
    · rw [if_pos hidle]
      exact h.receive hrunning hidle hvalid
    · rw [if_neg hidle, orders_of_busy (.inr (Bool.eq_false_iff.mpr hidle)) (by simp), orderedAfter_none]
      exact h

end Steps

end Traces

/-! ## The vectors agree -/

theorem Traces.recorded {t : Logged D} (h : Traces c t.filledFrom t.orderedWith t.nd) : Recorded c t := by
  intro s slot hget htype _ hdone
  have hslot := h.slots s
  rw [getOrdSlot_of_slot? hget] at hslot
  exact (hslot.held (.inr hdone)).2.2 htype

section Runs

variable [DecidableEq D]

/-- Along a run whose steps meet the condition the slots are traced. -/
theorem Reached.traces {t : Logged D} (h : Reached c digest t) : Traces c t.filledFrom t.orderedWith t.nd := by
  obtain ⟨me, catchupHistory, view, incarnations, proposalDigest, xs, hvalid, hsteps, rfl⟩ := h
  have halways : Lib.Always (Logged.step c catchupHistory digest me)
      (fun t : Logged D => Traces c t.filledFrom t.orderedWith t.nd)
      (Logged.start c catchupHistory view incarnations proposalDigest) xs :=
    Lib.always_of_steps (fun _ _ hx htraces hmeets => htraces.step hx hmeets) hvalid hsteps (Traces.start ..)
  exact halways.of_prefix (List.prefix_refl xs)

theorem Reached.recorded {t : Logged D} (h : Reached c digest t) : Recorded c t := h.traces.recorded

theorem Reached.sameVectors {t t' : Logged D} (h : Reached c digest t) (h' : Reached c digest t') : SameVectors t t' := by
  intro s s' slot slot' pp pp' hget hget' htype htype' hfull hfull' hdone hdone' hordered hordered' hlast hacks
  obtain ⟨own, hown, hvector⟩ := h.recorded s slot hget htype hfull (.inr hdone)
  obtain ⟨own', hown', hvector'⟩ := h'.recorded s' slot' hget' htype' hfull' (.inr hdone')
  obtain rfl : pp = own := Option.some.inj (hordered.symm.trans hown)
  obtain rfl : pp' = own' := Option.some.inj (hordered'.symm.trans hown')
  rw [hvector, hvector']
  exact eligible_congr hlast hacks

/-- **The vectors agree.** All places make the same of a Pre-Prepare. Where no step of a run gives a slot another
Pre-Prepare than the one its vector was made from, whatever is ordered or executed has the vector of the Pre-Prepare
it was ordered with, and two servers have the same vector for what they executed alike. -/
theorem made_eligible_agrees (c : Config) (digest : CompletePrePrepare → D) :
    (∀ mess : Signed PrePrepare, mess.body.rows.length ≤ c.numServers → SitesAgree c digest mess) ∧
      (∀ t : Logged D, Reached c digest t → Recorded c t) ∧
        ∀ t t' : Logged D, Reached c digest t → Reached c digest t' → SameVectors t t' :=
  ⟨fun mess _ => sitesAgree c digest mess, fun _ h => h.recorded, fun _ _ h h' => h.sameVectors h'⟩

end Runs

/-! ### A leader whose view ends -/

/-- A row that makes the first request of server 1 eligible. -/
def requestRow : PoAruSigned :=
  { PoAruSigned.null threeServers.toConfig with
    body := { num := 1, ackForServer := ⟨1, 1⟩ :: List.replicate 2 PoSeqPair.zero } }

/-- A Pre-Prepare of three such rows for the first ordinal. -/
def requestProposal (view : Nat) : Signed PrePrepare :=
  { header := { firstProposal.header with machineId := threeServers.leaderOfView view }
    body := { firstProposal.body with view, rows := List.replicate 3 requestRow } }

/-- Two Commits order it, and it is executed. -/
def requestCommits (view : Nat) : List (Input CompletePrePrepare) :=
  let complete := { CompletePrePrepare.null threeServers.toConfig with
    seqNum := 1, view, proposalDigest := [], cumAcks := List.replicate 3 requestRow }
  let commit (i : Nat) := constructCommit threeServers.toConfig id (firstView.node i) i complete
  [.message (.commit (commit 2)), .proceed fun _ => .there, .message (.commit (commit 3)), .proceed fun _ => .there,
    .proceed fun _ => .there]

/-- The leader sends it and gets it back. -/
def requestRun : List (Input CompletePrePrepare) :=
  [.propose (List.replicate 3 requestRow), .message (.prePrepare (requestProposal 1)), .proceed fun _ => .there] ++
    requestCommits 1

/-- The leader sends an empty one, and before that is back the view changes. The leader of the second view sends the
other. -/
def leftoverRun : List (Input CompletePrePrepare) :=
  [.propose [], .elsewhere 2 false [1, 1, 1] [1, 1, 1] 0 [], .message (.prePrepare (requestProposal 2)),
    .proceed fun _ => .there, .replay 0 (fun _ => []) 1, .proceed fun _ => .there] ++ requestCommits 2

/-- The first server after some inputs. -/
def leaderAfter (xs : List (Input CompletePrePrepare)) : Logged CompletePrePrepare :=
  xs.foldl (Logged.step threeServers.toConfig 10 id 1) (Logged.start threeServers.toConfig 10 1 [1, 1, 1] [])

/-- What the first leader orders has the vector of its Pre-Prepare. -/
theorem requestRun_agrees : SitesAgree (D := CompletePrePrepare) threeServers.toConfig id (requestProposal 1) ∧
    ((leaderAfter requestRun).nd.slot? 1).any (fun slot => slot.ordered && slot.executed) = true ∧
    Recorded threeServers.toConfig (leaderAfter requestRun) ∧
    SameVectors (leaderAfter requestRun) (leaderAfter requestRun) := by
  obtain ⟨hsites, hrecorded, hsame⟩ := made_eligible_agrees (D := CompletePrePrepare) threeServers.toConfig id
  have hreached : Reached threeServers.toConfig id (leaderAfter requestRun) :=
    ⟨1, 10, 1, [1, 1, 1], [], requestRun, by simp [requestRun, requestCommits, Input.Valid], by decide +kernel, rfl⟩
  exact ⟨hsites _ (by decide), by decide +kernel, hrecorded _ hreached, hsame _ _ hreached hreached⟩

/-- The slot of the second is ordered with the vector of the first. -/
theorem leftoverRun_disagrees : ¬∀ xs : List (Input CompletePrePrepare),
    (∀ x ∈ xs, Input.Valid threeServers.toConfig x) → Recorded threeServers.toConfig (leaderAfter xs) := by
  intro hrecorded
  have hslot : ((leaderAfter leftoverRun).nd.slot? 1).any (fun slot =>
      OrdSlot.ofProposal slot && slot.populatedEligible && slot.ordered &&
        ((leaderAfter leftoverRun).orderedWith 1).all fun pp =>
          decide (slot.madeEligible ≠ eligible threeServers.toConfig pp)) = true := by
    decide +kernel
  obtain ⟨slot, hget, hfields⟩ := (Option.any_eq_true _ _).mp hslot
  simp only [Bool.and_eq_true] at hfields
  obtain ⟨⟨⟨htype, hfull⟩, hordered⟩, hdiffers⟩ := hfields
  have hvalid : ∀ x ∈ leftoverRun, Input.Valid threeServers.toConfig x := by
    simp [leftoverRun, requestCommits, Input.Valid]
  obtain ⟨pp, hpp, hvector⟩ := hrecorded leftoverRun hvalid 1 slot hget htype hfull (.inl hordered)
  rw [hpp, Option.all_some, decide_eq_true_eq] at hdiffers
  exact hdiffers hvector

end Spire.Ordinals
