import Spire.OrderSafety
import Spire.Ordinals

/-!
# What ordering does to the slots

The handlers of votes and proposals, seen from the history: a slot keeps the ordinal it speaks
of, it is executed by no handler, and it becomes complete where the last part of a Pre-Prepare
arrives. `Evolves` says so of one slot and `Grows` of the history, with the ordinals at which
slots are made or completed as parameters.
-/

namespace Spire.Ordinals

open Spire.Order Spire.Replay

variable {D : Type} {c : Config} {digest : CompletePrePrepare → D} {me catchupHistory : Nat}

/-! ## Slots -/

/-- A slot speaks of its own ordinal, and is complete when it is ordered. -/
structure SlotOk (s : Nat) (slot : OrdSlot D) : Prop where
  seqNum : slot.seqNum = s
  proposal : 0 < slot.numPartsCollected ∨ slot.collectedAllParts = true → slot.completePrePrepare.seqNum = s
  certificate : slot.prepareCertificateReady = true → slot.prepareCertificate.prePrepare.seqNum = s
  ordered : slot.ordered = true → slot.collectedAllParts = true

theorem slotOk_new (s : Nat) : SlotOk s (OrdSlot.new (D := D) c s) where
  seqNum := rfl
  proposal h := by simp [OrdSlot.new] at h
  certificate h := by cases h
  ordered h := by cases h

theorem SlotOk.proposalSeq {s : Nat} {slot : OrdSlot D} (h : SlotOk s slot) (hdone : slot.collectedAllParts = true) :
    slot.proposal.seqNum = s := by
  unfold OrdSlot.proposal
  split
  · rename_i hready
    exact h.certificate hready
  · exact h.proposal (.inr hdone)

/-- What the handlers of votes and proposals do to a slot. It becomes complete only where
`done` says so. -/
structure Evolves (done : Prop) (s : Nat) (slot slot' : OrdSlot D) : Prop where
  ok : SlotOk s slot → SlotOk s slot'
  executed : slot'.executed = slot.executed
  keeps : slot.collectedAllParts = true → slot'.collectedAllParts = true
  collects : slot'.collectedAllParts = true → slot.collectedAllParts = true ∨ done

theorem Evolves.refl (done : Prop) (s : Nat) (slot : OrdSlot D) : Evolves done s slot slot :=
  ⟨id, rfl, id, .inl⟩

theorem Evolves.trans {done : Prop} {s : Nat} {slot slot' slot'' : OrdSlot D} (h : Evolves done s slot slot')
    (h' : Evolves done s slot' slot'') : Evolves done s slot slot'' where
  ok := h'.ok ∘ h.ok
  executed := h'.executed.trans h.executed
  keeps := h'.keeps ∘ h.keeps
  collects hc := (h'.collects hc).elim h.collects .inr

/-- Slots that differ in what the window does not look at. -/
theorem Evolves.of_same {s : Nat} {slot slot' : OrdSlot D} (hseq : slot'.seqNum = slot.seqNum)
    (hparts : slot'.numPartsCollected = slot.numPartsCollected)
    (hdone : slot'.collectedAllParts = slot.collectedAllParts)
    (hpp : slot'.completePrePrepare = slot.completePrePrepare)
    (hready : slot'.prepareCertificateReady = slot.prepareCertificateReady)
    (hcert : slot'.prepareCertificate = slot.prepareCertificate) (hordered : slot'.ordered = slot.ordered)
    (hexec : slot'.executed = slot.executed) : Evolves False s slot slot' where
  ok h :=
    { seqNum := hseq.trans h.seqNum
      proposal := by
        rw [hparts, hdone, hpp]
        exact h.proposal
      certificate := by
        rw [hready, hcert]
        exact h.certificate
      ordered := by
        rw [hordered, hdone]
        exact h.ordered }
  executed := hexec
  keeps := hdone.trans
  collects h := .inl (hdone.symm.trans h)

theorem Evolves.weaken {done : Prop} {s : Nat} {slot slot' : OrdSlot D} (h : Evolves False s slot slot') :
    Evolves done s slot slot' :=
  ⟨h.ok, h.executed, h.keeps, fun hc => (h.collects hc).imp_right False.elim⟩

theorem evolves_populateEligible (s : Nat) (slot : OrdSlot D) (pp : CompletePrePrepare) :
    Evolves False s slot (populateEligible c slot pp) := by
  unfold populateEligible
  split
  · exact .refl ..
  · exact .of_same rfl rfl rfl rfl rfl rfl rfl rfl

theorem evolves_acceptProposal (s : Nat) (slot : OrdSlot D) : Evolves False s slot (acceptProposal c slot) :=
  (evolves_populateEligible s slot slot.completePrePrepare).trans (.of_same rfl rfl rfl rfl rfl rfl rfl rfl)

theorem evolves_openForProposal (s : Nat) (slot : OrdSlot D) (pp : PrePrepare) :
    Evolves False s slot (openForProposal c slot pp) := by
  unfold openForProposal
  split
  · exact .refl ..
  · exact .of_same rfl rfl rfl rfl rfl rfl rfl rfl

/-- The first part of a proposal, or a later one, meets its slot. -/
theorem evolves_slotFor (s : Nat) (slot : OrdSlot D) (pp : PrePrepare) : Evolves False s slot (slotFor slot pp) := by
  unfold slotFor
  split
  · exact
      { ok := fun h => ⟨h.seqNum, fun _ => h.seqNum, h.certificate, h.ordered⟩
        executed := rfl
        keeps := id
        collects := .inl }
  · exact .refl ..

theorem slotFor_seqNum {s : Nat} {slot : OrdSlot D} (h : SlotOk s slot) (pp : PrePrepare) :
    (slotFor slot pp).completePrePrepare.seqNum = s := by
  unfold slotFor
  split
  · exact h.seqNum
  · rename_i hparts
    exact h.proposal (.inl (Nat.pos_of_ne_zero hparts))

/-- A part is stored in a slot that speaks of its own ordinal. -/
theorem evolves_storePart {s : Nat} {slot : OrdSlot D} (hseq : slot.completePrePrepare.seqNum = s)
    (mess : Signed PrePrepare) (index : Nat) : Evolves False s slot (storePart slot mess index) where
  ok h := ⟨h.seqNum, fun _ => hseq, h.certificate, h.ordered⟩
  executed := rfl
  keeps := id
  collects := .inl

theorem evolves_storePrepare (s : Nat) (slot : OrdSlot D) (mess : Signed (Vouch D)) :
    Evolves False s slot (slot.storePrepare mess) := .of_same rfl rfl rfl rfl rfl rfl rfl rfl

theorem evolves_storeCommit (s : Nat) (slot : OrdSlot D) (mess : Signed (Vouch D)) :
    Evolves False s slot (slot.storeCommit mess) := .of_same rfl rfl rfl rfl rfl rfl rfl rfl

/-- The last part of a proposal is there. -/
theorem evolves_markCollected {s : Nat} {slot : OrdSlot D} (hseq : slot.completePrePrepare.seqNum = s) :
    Evolves True s slot slot.markCollected where
  ok h := ⟨h.seqNum, fun _ => hseq, h.certificate, fun _ => rfl⟩
  executed := rfl
  keeps _ := rfl
  collects _ := .inr trivial

variable [DecidableEq D]

theorem evolves_certifyPrepared (st : Order.Node D) {s : Nat} {slot : OrdSlot D} (hdone : slot.collectedAllParts = true) :
    Evolves False s slot (certifyPrepared c digest me st slot).1 := by
  have hmove : Evolves False s slot (movePrepareCertificate c digest slot) :=
    { ok := fun h => ⟨h.seqNum, h.proposal, fun _ => h.proposal (.inr hdone), h.ordered⟩
      executed := rfl
      keeps := id
      collects := .inl }
  unfold certifyPrepared
  dsimp only
  split
  · exact hmove.trans (.of_same rfl rfl rfl rfl rfl rfl rfl rfl)
  · exact hmove

theorem evolves_moveCommitCertificate (st : Order.Node D) {s : Nat} {slot : OrdSlot D}
    (hdone : slot.collectedAllParts = true) : Evolves False s slot (moveCommitCertificate c digest st slot) := by
  refine Evolves.trans ?_ (evolves_populateEligible s _ _)
  exact
    { ok := fun h => ⟨h.seqNum, h.proposal, h.certificate, fun _ => hdone⟩
      executed := rfl
      keeps := id
      collects := .inl }

/-! ## What handlers of votes and proposals do to the history -/

/-- Slots evolve, new ones appear where `fresh` says so, and the ordinals stay where they are. -/
structure Grows (c : Config) (fresh done : Nat → Prop) (st st' : Order.Node D) : Prop where
  aru : st'.aru = st.aru
  stableCatchup : st'.stableCatchup = st.stableCatchup
  gcWidth : st'.gcWidth = st.gcWidth
  forwardingWhiteLine : st'.forwardingWhiteLine = st.forwardingWhiteLine
  reconWhiteLine : st'.reconWhiteLine = st.reconWhiteLine
  kept : ∀ s, (st.slot? s).isSome = true → (st'.slot? s).isSome = true
  made : ∀ s, (st'.slot? s).isSome = true → (st.slot? s).isSome = true ∨ fresh s
  evolves : ∀ s, Evolves (done s) s (st.getOrdSlot c s) (st'.getOrdSlot c s)

namespace Grows

variable {fresh done : Nat → Prop} {st st' st'' : Order.Node D}

omit [DecidableEq D] in
theorem refl (st : Order.Node D) : Grows c fresh done st st :=
  ⟨rfl, rfl, rfl, rfl, rfl, fun _ => id, fun _ => .inl, fun _ => .refl ..⟩

omit [DecidableEq D] in
theorem trans (h : Grows c fresh done st st') (h' : Grows c fresh done st' st'') : Grows c fresh done st st'' where
  aru := h'.aru.trans h.aru
  stableCatchup := h'.stableCatchup.trans h.stableCatchup
  gcWidth := h'.gcWidth.trans h.gcWidth
  forwardingWhiteLine := h'.forwardingWhiteLine.trans h.forwardingWhiteLine
  reconWhiteLine := h'.reconWhiteLine.trans h.reconWhiteLine
  kept s := h'.kept s ∘ h.kept s
  made s hs := (h'.made s hs).elim (h.made s) .inr
  evolves s := (h.evolves s).trans (h'.evolves s)

omit [DecidableEq D] in
theorem weaken {fresh' done' : Nat → Prop} (h : Grows c fresh done st st') (hfresh : ∀ s, fresh s → fresh' s)
    (hdone : ∀ s, done s → done' s) : Grows c fresh' done' st st' where
  aru := h.aru
  stableCatchup := h.stableCatchup
  gcWidth := h.gcWidth
  forwardingWhiteLine := h.forwardingWhiteLine
  reconWhiteLine := h.reconWhiteLine
  kept := h.kept
  made s hs := (h.made s hs).imp_right (hfresh s)
  evolves s := ⟨(h.evolves s).ok, (h.evolves s).executed, (h.evolves s).keeps,
    fun hc => ((h.evolves s).collects hc).imp_right (hdone s)⟩

omit [DecidableEq D] in
/-- Other fields change. -/
theorem frame (hhistory : st'.history = st.history) (haru : st'.aru = st.aru)
    (hstable : st'.stableCatchup = st.stableCatchup) (hgc : st'.gcWidth = st.gcWidth)
    (hforward : st'.forwardingWhiteLine = st.forwardingWhiteLine)
    (hrecon : st'.reconWhiteLine = st.reconWhiteLine) : Grows c fresh done st st' := by
  have hslot : ∀ s, st'.slot? s = st.slot? s := fun s => by rw [Order.Node.slot?, hhistory, Order.Node.slot?]
  refine ⟨haru, hstable, hgc, hforward, hrecon, fun s => ?_, fun s => ?_, fun s => ?_⟩
  · rw [hslot]
    exact id
  · rw [hslot]
    exact .inl
  · rw [Order.Node.getOrdSlot, Order.Node.getOrdSlot, hslot]
    exact .refl ..

omit [DecidableEq D] in
/-- One slot is put. -/
theorem put {seq : Nat} {slot : OrdSlot D} (hfresh : (st.slot? seq).isSome = true ∨ fresh seq)
    (h : Evolves (done seq) seq (st.getOrdSlot c seq) slot) : Grows c fresh done st (st.putOrdSlot seq slot) := by
  refine ⟨rfl, rfl, rfl, rfl, rfl, fun s hs => ?_, fun s hs => ?_, fun s => ?_⟩
  · by_cases heq : s = seq
    · subst heq
      rw [Order.Node.slot?_putOrdSlot_self]
      rfl
    · rw [Order.Node.slot?_putOrdSlot_of_ne st slot heq]
      exact hs
  · by_cases heq : s = seq
    · subst heq
      exact hfresh
    · rw [Order.Node.slot?_putOrdSlot_of_ne st slot heq] at hs
      exact .inl hs
  · by_cases heq : s = seq
    · subst heq
      rw [getOrdSlot_putOrdSlot_self]
      exact h
    · rw [Order.Node.getOrdSlot, Order.Node.getOrdSlot, Order.Node.slot?_putOrdSlot_of_ne st slot heq]
      exact .refl ..

omit [DecidableEq D] in
theorem advancePpAru (st : Order.Node D) : Grows c fresh done st st.advancePpAru := frame rfl rfl rfl rfl rfl rfl

end Grows

/-- No ordinal, for the places where no slot is made or completed. -/
def nowhere : Nat → Prop := fun _ => False

omit [DecidableEq D] in
theorem sendPreparesLoop_grows (fuel : Nat) (st : Order.Node D) (out : List (Msg D)) :
    Grows c nowhere nowhere st (sendPreparesLoop c digest me fuel st out).1 := by
  induction fuel generalizing st out with
  | zero => exact .refl st
  | succ fuel ih =>
    rw [sendPreparesLoop]
    split
    · exact .refl st
    rename_i slot hget
    split
    · exact .refl st
    split
    · exact (Grows.advancePpAru st).trans (ih st.advancePpAru out)
    split
    · exact .refl st
    split
    · exact .frame rfl rfl rfl rfl rfl rfl
    · exact .refl st
    · have hput : Grows c nowhere nowhere st (st.putOrdSlot (st.ppAru + 1) (acceptProposal c slot)) := by
        refine .put (.inl (by rw [hget]; rfl)) ?_
        rw [getOrdSlot_of_slot? hget]
        exact evolves_acceptProposal _ slot
      exact (hput.trans (.advancePpAru _)).trans (ih _ _)

omit [DecidableEq D] in
theorem sendPrepares_grows (st : Order.Node D) : Grows c nowhere nowhere st (Order.sendPrepares c digest me st).1 := by
  have hloop : Grows c nowhere nowhere st (sendPreparesLoop c digest me (st.history.keys.length + 1) st []).1 :=
    sendPreparesLoop_grows (st.history.keys.length + 1) st []
  unfold Order.sendPrepares
  split
  · rename_i hr
    rw [hr] at hloop
    exact hloop
  · rename_i hr
    rw [hr] at hloop
    split
    · exact hloop.trans (.frame rfl rfl rfl rfl rfl rfl)
    · exact hloop

theorem processPrepare_grows (st : Order.Node D) (mess : Signed (Vouch D)) :
    Grows c (fun s => st.aru < s) nowhere st (processPrepare c digest me st mess).1 := by
  unfold processPrepare
  dsimp only
  split
  · exact .refl st
  rename_i hlt
  have hfresh := Or.inr (a := (st.slot? mess.body.seqNum).isSome = true) (Nat.lt_of_not_le hlt)
  split
  · exact .frame rfl rfl rfl rfl rfl rfl
  · exact .refl st
  split
  · exact .refl st
  split
  · exact .put hfresh (.refl ..)
  split
  · exact .put hfresh (.refl ..)
  have hstore := evolves_storePrepare mess.body.seqNum (st.getOrdSlot c mess.body.seqNum) mess
  split
  · exact .put hfresh hstore
  split
  · rename_i hready
    have hdone := prepareCertificateReady_collected hready
    exact (Grows.put hfresh (hstore.trans (evolves_certifyPrepared st hdone))).trans
      (.frame rfl rfl rfl rfl rfl rfl)
  · exact .put hfresh hstore

theorem processCommit_grows (st : Order.Node D) (mess : Signed (Vouch D)) :
    Grows c (fun s => st.aru < s) nowhere st (Order.processCommit c digest st mess) := by
  unfold Order.processCommit
  dsimp only
  split
  · exact .refl st
  rename_i hlt
  have hfresh := Or.inr (a := (st.slot? mess.body.seqNum).isSome = true) (Nat.lt_of_not_le hlt)
  split
  · exact .frame rfl rfl rfl rfl rfl rfl
  · exact .refl st
  split
  · exact .put hfresh (.refl ..)
  split
  · exact .put hfresh (.refl ..)
  have hstore := evolves_storeCommit mess.body.seqNum (st.getOrdSlot c mess.body.seqNum) mess
  split
  · exact .put hfresh hstore
  split
  · rename_i hready
    have hdone := (Bool.and_eq_true_iff.mp hready).1
    exact (Grows.put hfresh (hstore.trans (evolves_moveCommitCertificate st hdone))).trans
      (.frame rfl rfl rfl rfl rfl rfl)
  · exact .put hfresh hstore

/-- A slot that speaks of its own ordinal becomes complete. -/
theorem proposalComplete_grows {st : Order.Node D} {seq : Nat} {slot : OrdSlot D}
    (hget : st.slot? seq = some slot) (hseq : slot.completePrePrepare.seqNum = seq) :
    Grows c nowhere (fun s => s = seq) st (proposalComplete c digest me st seq slot).1 := by
  have hmark : Evolves (seq = seq) seq slot slot.markCollected :=
    ⟨(evolves_markCollected hseq).ok, rfl, fun _ => rfl, fun _ => .inr rfl⟩
  have hcert : Evolves (seq = seq) seq slot (certifyIfReady c digest me st slot.markCollected).1 := by
    unfold certifyIfReady
    split
    · exact hmark.trans (evolves_certifyPrepared st rfl).weaken
    · exact hmark
  have hput : Grows c nowhere (fun s => s = seq) st
      (st.putOrdSlot seq (certifyIfReady c digest me st slot.markCollected).1) := by
    refine .put (.inl (by rw [hget]; rfl)) ?_
    rw [getOrdSlot_of_slot? hget]
    exact hcert
  have hnote : Grows c nowhere (fun s => s = seq) st
      ((st.putOrdSlot seq (certifyIfReady c digest me st slot.markCollected).1).noteHighPrepared
        (certifyIfReady c digest me st slot.markCollected).1) := by
    refine hput.trans ?_
    unfold Order.Node.noteHighPrepared
    split
    · exact .frame rfl rfl rfl rfl rfl rfl
    · exact .refl _
  unfold proposalComplete
  dsimp only
  split
  · exact hnote
  · exact hnote.trans ((sendPrepares_grows _).weaken (fun _ => id) fun _ => False.elim)

/-! ## Dropping slots -/

section Dropping

omit [DecidableEq D]

theorem lookup_foldl_erase {α : Type} {seqs : List Nat} {history : AList fun _ : Nat => α} {s : Nat} :
    (seqs.foldl (fun h seq => h.erase seq) history).lookup s = if s ∈ seqs then none else history.lookup s := by
  induction seqs generalizing history with
  | nil => rfl
  | cons seq seqs ih =>
    rw [List.foldl_cons, ih]
    by_cases hs : s = seq
    · subst hs
      simp [AList.lookup_erase]
    · simp [AList.lookup_erase_ne hs, hs]

theorem slot?_dropSlots (nd : Node D) (drop : Nat → Bool) (s : Nat) :
    (nd.dropSlots drop).ord.slot? s = if drop s then none else nd.ord.slot? s := by
  show ((nd.ord.history.keys.filter drop).foldl (fun h seq => h.erase seq) nd.ord.history).lookup s = _
  rw [lookup_foldl_erase]
  by_cases hdrop : drop s = true
  · rw [if_pos hdrop]
    split
    · rfl
    · rename_i hmem
      refine AList.lookup_eq_none.mpr fun hs => hmem (List.mem_filter.mpr ⟨hs, hdrop⟩)
  · rw [if_neg hdrop, if_neg fun hmem => hdrop (List.mem_filter.mp hmem).2]
    rfl

theorem getOrdSlot_dropSlots (nd : Node D) (drop : Nat → Bool) (s : Nat) :
    (nd.dropSlots drop).ord.getOrdSlot c s = if drop s then OrdSlot.new c s else nd.ord.getOrdSlot c s := by
  rw [Order.Node.getOrdSlot, slot?_dropSlots]
  split
  · rfl
  · rfl

end Dropping

/-! ## Counters -/

section Counters

omit [DecidableEq D]

variable {nd : Node D}

/-- `ORDER_Adjust_ppARU` finds the last ordinal with a slot that passes the test, or `ARU`. -/
theorem lastWith_spec (st : Order.Node D) (high : Nat) (test : OrdSlot D → Bool) :
    (lastWith st high test = st.aru ∨
      st.aru < lastWith st high test ∧ lastWith st high test ≤ high ∧ (st.slot? (lastWith st high test)).any test = true) ∧
        ∀ s, st.aru < s → s ≤ high → (st.slot? s).any test = true → s ≤ lastWith st high test := by
  have hmem : ∀ s, s ∈ (List.range' (st.aru + 1) (high - st.aru)).reverse ↔ st.aru < s ∧ s ≤ high := by
    intro s
    rw [List.mem_reverse, List.mem_range'_1]
    omega
  have hsorted : (List.range' (st.aru + 1) (high - st.aru)).reverse.Pairwise fun a b => b < a :=
    List.pairwise_reverse.mpr List.pairwise_lt_range'
  unfold lastWith
  generalize (List.range' (st.aru + 1) (high - st.aru)).reverse = seqs at hmem hsorted
  cases hfind : seqs.find? fun seq => (st.slot? seq).any test with
  | none =>
    refine ⟨.inl rfl, fun s hlt hle htest => ?_⟩
    exact absurd htest (List.find?_eq_none.mp hfind s ((hmem s).mpr ⟨hlt, hle⟩))
  | some last =>
    obtain ⟨htest, before, rest, hseqs, hbefore⟩ := List.find?_eq_some_iff_append.mp hfind
    have hlast := (hmem last).mp (hseqs ▸ List.mem_append_right before List.mem_cons_self)
    refine ⟨.inr ⟨hlast.1, hlast.2, htest⟩, fun s hlt hle hs => ?_⟩
    have hs' := (hmem s).mpr ⟨hlt, hle⟩
    rw [hseqs] at hs' hsorted
    rcases List.mem_append.mp hs' with hearlier | hlater
    · have hnot := hbefore s hearlier
      rw [hs] at hnot
      cases hnot
    · rcases List.mem_cons.mp hlater with rfl | hrest
      · exact le_refl _
      · exact Nat.le_of_lt ((List.pairwise_cons.mp (List.pairwise_append.mp hsorted).2.1).1 s hrest)

theorem isSome_of_forwarded {s : Nat} (h : nd.forwarded s = true) : (nd.ord.slot? s).isSome = true := by
  unfold Node.forwarded Node.slot? at h
  cases hslot : nd.ord.slot? s with
  | none =>
    rw [hslot] at h
    cases h
  | some slot => rfl

end Counters

end Spire.Ordinals
