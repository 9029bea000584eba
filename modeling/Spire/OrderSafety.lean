import Spire.Order

/-!
# Agreement within a view

Any number of servers run `Spire.Order` over an adversarial network, all of them
in view `v`, from any states in which a server can enter that view. The result is
`ordered_agree`: whatever the order of deliveries, losses and duplications, and
whatever the controlled servers send, two correct servers that mark a slot of `v`
ordered hold the same proposal in it.

The argument has three parts. A slot is marked ordered only with `2f + k + 1`
stored Commits that match its proposal, and once it is, neither the proposal nor
the Commits change (`SlotInv`). A correct server sends at most one Commit for a
sequence number of the view, because it sends one only when a prepare certificate
completes and from then on the slot keeps the certificate or lies below `ARU`
(`Settled`). Two quorums of Commits share a correct signer.

The prepare certificate itself plays no part within one view; it is what a view
change carries over.
-/

namespace Spire.Order

variable {D : Type} [DecidableEq D] {c : Config} {digest : CompletePrePrepare → D} {v : Nat}

/-! ## What holds of every slot -/

/-- The invariant of the slot with sequence number `s`, given the server's `ARU`. -/
structure SlotInv (c : Config) (digest : CompletePrePrepare → D) (v aru s : Nat)
    (slot : OrdSlot D) : Prop where
  seqNum : slot.seqNum = s
  proposalSeq : 0 < slot.numPartsCollected ∨ slot.collectedAllParts = true →
    slot.completePrePrepare.seqNum = s
  noPrepares : slot.collectedAllParts = false → s ≤ aru → ∀ i, slot.prepare i = none
  ordered : slot.ordered = true → slot.collectedAllParts = true
  replayed : slot.type ≠ .commit → slot.collectedAllParts = true
  frozen : slot.collectedAllParts = true → 0 < slot.numPartsCollected ∨ s ≤ aru ∧ slot.ordered = false
  signer : ∀ i m, slot.commit i = some m → m.body.view = v → m.machineId = i
  certified : slot.ordered = true → slot.completePrePrepare.view = v →
    commitCertificateReady c digest slot = true

/-- The invariant of a server in view `v`. -/
structure NodeInv (c : Config) (digest : CompletePrePrepare → D) (v : Nat) (st : Node D) : Prop where
  view : st.view = v
  slots : ∀ s slot, st.slot? s = some slot → SlotInv c digest v st.aru s slot

/-- A new slot meets the invariant. -/
theorem slotInv_new (aru s : Nat) : SlotInv c digest v aru s (OrdSlot.new c s) where
  seqNum := rfl
  proposalSeq h := by simp [OrdSlot.new] at h
  noPrepares _ _ _ := rfl
  ordered h := nomatch h
  replayed h := absurd rfl h
  frozen h := nomatch h
  signer _ _ h := nomatch h
  certified h := nomatch h

theorem SlotInv.mono {aru aru' s : Nat} {slot : OrdSlot D} (h : SlotInv c digest v aru s slot)
    (hle : aru ≤ aru') (hnew : slot.collectedAllParts = false → aru < s → aru' < s) :
    SlotInv c digest v aru' s slot where
  seqNum := h.seqNum
  proposalSeq := h.proposalSeq
  noPrepares hc hs := by
    by_cases hold : s ≤ aru
    · exact h.noPrepares hc hold
    · have := hnew hc (by omega)
      omega
  ordered := h.ordered
  replayed := h.replayed
  frozen hc := (h.frozen hc).imp_right fun ⟨hs, ho⟩ => ⟨hs.trans hle, ho⟩
  signer := h.signer
  certified := h.certified

theorem NodeInv.getOrdSlot {st : Node D} (h : NodeInv c digest v st) (seq : Nat) :
    SlotInv c digest v st.aru seq (st.getOrdSlot c seq) := by
  unfold Node.getOrdSlot
  cases hs : st.slot? seq with
  | none => exact slotInv_new st.aru seq
  | some slot => exact h.slots seq slot hs

theorem NodeInv.put {st : Node D} (h : NodeInv c digest v st) {seq : Nat} {slot : OrdSlot D}
    (hs : SlotInv c digest v st.aru seq slot) : NodeInv c digest v (st.putOrdSlot seq slot) where
  view := h.view
  slots s slot' hget := by
    by_cases hseq : s = seq
    · subst hseq
      rw [Node.slot?_putOrdSlot_self] at hget
      cases hget
      exact hs
    · rw [Node.slot?_putOrdSlot_of_ne st slot hseq] at hget
      exact h.slots s slot' hget

/-! ## What a step keeps -/

/-- The slot of `seq` is beyond another Commit: it holds a prepare certificate, or
it has been executed. -/
def Settled (st : Node D) (seq : Nat) : Prop :=
  seq ≤ st.aru ∨ ∃ slot, st.slot? seq = some slot ∧ slot.prepareCertificateReady = true

/-- Some slot stores the Commit. -/
def Stored (st : Node D) (m : Signed (Vouch D)) : Prop :=
  ∃ s slot i, st.slot? s = some slot ∧ slot.commit i = some m

/-- What every handler call keeps: `ARU` does not go back, settled slots stay
settled, and a stored Commit was stored before or is the message handled. -/
structure Step (x : Option (Signed (Vouch D))) (st st' : Node D) : Prop where
  aru : st.aru ≤ st'.aru
  settled : ∀ s, Settled st s → Settled st' s
  stored : ∀ m, Stored st' m → Stored st m ∨ x = some m

variable {x : Option (Signed (Vouch D))}

omit [DecidableEq D] in
theorem Step.refl (st : Node D) : Step x st st := ⟨le_refl _, fun _ h => h, fun _ h => .inl h⟩

omit [DecidableEq D] in
theorem Step.trans {st st' st'' : Node D} (h : Step x st st') (h' : Step x st' st'') :
    Step x st st'' where
  aru := h.aru.trans h'.aru
  settled s hs := h'.settled s (h.settled s hs)
  stored m hm := by
    rcases h'.stored m hm with hm | hx
    · exact h.stored m hm
    · exact .inr hx

omit [DecidableEq D] in
/-- A step that changes neither `ARU` nor a slot. -/
theorem Step.frame {st st' : Node D} (haru : st'.aru = st.aru) (hhistory : st'.history = st.history) :
    Step x st st' where
  aru := le_of_eq haru.symm
  settled s hs := by
    unfold Settled Node.slot? at *
    rwa [haru, hhistory]
  stored m hm := by
    unfold Stored Node.slot? at *
    rw [hhistory] at hm
    exact .inl hm

omit [DecidableEq D] in
theorem Step.advancePpAru (st : Node D) : Step x st st.advancePpAru := Step.frame rfl rfl

theorem NodeInv.frame {st st' : Node D} (h : NodeInv c digest v st) (hview : st'.view = st.view)
    (haru : st'.aru = st.aru) (hhistory : st'.history = st.history) : NodeInv c digest v st' where
  view := hview.trans h.view
  slots s slot hget := by
    unfold Node.slot? at hget
    rw [hhistory] at hget
    rw [haru]
    exact h.slots s slot hget

omit [DecidableEq D] in
/-- An edit of one slot that keeps its certificate and adds no Commit but the one
handled. -/
theorem Step.put {st : Node D} {seq : Nat} {slot : OrdSlot D}
    (hready : (st.getOrdSlot c seq).prepareCertificateReady = true → slot.prepareCertificateReady = true)
    (hcommit : ∀ i m, slot.commit i = some m → (st.getOrdSlot c seq).commit i = some m ∨ x = some m) :
    Step x st (st.putOrdSlot seq slot) where
  aru := le_refl _
  settled s hs := by
    rcases hs with hs | ⟨old, hold, hr⟩
    · exact .inl hs
    · by_cases hseq : s = seq
      · subst hseq
        refine .inr ⟨slot, Node.slot?_putOrdSlot_self .., hready ?_⟩
        rw [Node.getOrdSlot, hold]
        exact hr
      · exact .inr ⟨old, by rw [Node.slot?_putOrdSlot_of_ne st slot hseq, hold], hr⟩
  stored m hm := by
    obtain ⟨s, slot', i, hget, hi⟩ := hm
    by_cases hseq : s = seq
    · subst hseq
      rw [Node.slot?_putOrdSlot_self] at hget
      cases hget
      rcases hcommit i m hi with hold | hx
      · refine .inl ?_
        unfold Node.getOrdSlot at hold
        cases hs : st.slot? s with
        | none => rw [hs] at hold; exact nomatch hold
        | some old => rw [hs] at hold; exact ⟨s, old, i, hs, hold⟩
      · exact .inr hx
    · rw [Node.slot?_putOrdSlot_of_ne st slot hseq] at hget
      exact .inl ⟨s, slot', i, hget, hi⟩

/-- What one handler call of server `me` does, as the agreement proof needs it. -/
structure Reaction (c : Config) (digest : CompletePrePrepare → D) (v me : Nat)
    (x : Option (Signed (Vouch D))) (st : Node D) (r : Node D × List (Msg D)) : Prop where
  inv : NodeInv c digest v r.1
  step : Step x st r.1
  signer : ∀ m ∈ r.2, m.signer = me
  settled : ∀ m, .commit m ∈ r.2 → Settled r.1 m.body.seqNum
  fresh : ∀ m, .commit m ∈ r.2 → ¬ Settled st m.body.seqNum
  single : ∀ m m', .commit m ∈ r.2 → .commit m' ∈ r.2 → m = m'

variable {me : Nat}

/-- A call that sends no Commit. -/
theorem Reaction.quiet {st : Node D} {r : Node D × List (Msg D)} (hinv : NodeInv c digest v r.1)
    (hstep : Step x st r.1)
    (hout : ∀ m ∈ r.2, m.signer = me ∧ ∀ cm, m ≠ .commit cm) : Reaction c digest v me x st r where
  inv := hinv
  step := hstep
  signer m hm := (hout m hm).1
  settled m hm := absurd rfl ((hout _ hm).2 m)
  fresh m hm := absurd rfl ((hout _ hm).2 m)
  single m _ hm := absurd rfl ((hout _ hm).2 m)

/-- A call that sends nothing. -/
theorem Reaction.silent {st st' : Node D} (hinv : NodeInv c digest v st') (hstep : Step x st st') :
    Reaction c digest v me x st (st', []) :=
  Reaction.quiet hinv hstep fun _ hm => nomatch hm

/-! ## Sending Prepares -/

/-- Two slots that agree on what the invariant reads. -/
structure SameCore (slot slot' : OrdSlot D) : Prop where
  seqNum : slot'.seqNum = slot.seqNum
  numPartsCollected : slot'.numPartsCollected = slot.numPartsCollected
  collectedAllParts : slot'.collectedAllParts = slot.collectedAllParts
  completePrePrepare : slot'.completePrePrepare = slot.completePrePrepare
  type : slot'.type = slot.type
  prepare : slot'.prepare = slot.prepare
  commit : slot'.commit = slot.commit
  ordered : slot'.ordered = slot.ordered

theorem SlotInv.congr {aru s : Nat} {slot slot' : OrdSlot D} (h : SlotInv c digest v aru s slot)
    (e : SameCore slot slot') : SlotInv c digest v aru s slot' where
  seqNum := e.seqNum ▸ h.seqNum
  proposalSeq := by
    rw [e.numPartsCollected, e.collectedAllParts, e.completePrePrepare]
    exact h.proposalSeq
  noPrepares := by
    rw [e.collectedAllParts, e.prepare]
    exact h.noPrepares
  ordered := by
    rw [e.ordered, e.collectedAllParts]
    exact h.ordered
  replayed := by
    rw [e.type, e.collectedAllParts]
    exact h.replayed
  frozen := by
    rw [e.collectedAllParts, e.numPartsCollected, e.ordered]
    exact h.frozen
  signer := by
    rw [e.commit]
    exact h.signer
  certified := by
    unfold commitCertificateReady
    rw [e.ordered, e.completePrePrepare, e.collectedAllParts, e.commit]
    exact h.certified

omit [DecidableEq D] in
theorem sameCore_populateEligible (slot : OrdSlot D) (pp : CompletePrePrepare) :
    SameCore slot (populateEligible c slot pp) := by
  unfold populateEligible
  split <;> constructor <;> rfl

omit [DecidableEq D] in
@[simp] theorem populateEligible_ready (slot : OrdSlot D) (pp : CompletePrePrepare) :
    (populateEligible c slot pp).prepareCertificateReady = slot.prepareCertificateReady := by
  unfold populateEligible
  split <;> rfl

omit [DecidableEq D] in
theorem sameCore_acceptProposal (slot : OrdSlot D) : SameCore slot (acceptProposal c slot) := by
  have h := sameCore_populateEligible (c := c) slot slot.completePrePrepare
  exact ⟨h.seqNum, h.numPartsCollected, h.collectedAllParts, h.completePrePrepare, h.type, h.prepare,
    h.commit, h.ordered⟩

omit [DecidableEq D] in
theorem getOrdSlot_of_slot? {st : Node D} {seq : Nat} {slot : OrdSlot D}
    (h : st.slot? seq = some slot) : st.getOrdSlot c seq = slot := by
  rw [Node.getOrdSlot, h, Option.getD_some]

omit [DecidableEq D] in
@[simp] theorem getOrdSlot_putOrdSlot_self (st : Node D) (seq : Nat) (slot : OrdSlot D) :
    (st.putOrdSlot seq slot).getOrdSlot c seq = slot :=
  getOrdSlot_of_slot? (st.slot?_putOrdSlot_self seq slot)

/-- Putting a slot that agrees with the server's own on what the invariant reads. -/
theorem put_sameCore {st : Node D} (h : NodeInv c digest v st) {seq : Nat} {slot : OrdSlot D}
    (e : SameCore (st.getOrdSlot c seq) slot)
    (hready : slot.prepareCertificateReady = (st.getOrdSlot c seq).prepareCertificateReady) :
    NodeInv c digest v (st.putOrdSlot seq slot) ∧ Step x st (st.putOrdSlot seq slot) := by
  refine ⟨h.put ((h.getOrdSlot seq).congr e), Step.put (c := c) (fun hr => hready.trans hr) ?_⟩
  rw [e.commit]
  exact fun _ _ h => .inl h

/-- A message is a Prepare of server `me`. -/
def IsPrepareOf (me : Nat) (m : Msg D) : Prop := ∃ p, m = .prepare p ∧ p.machineId = me

theorem sendPreparesLoop_spec (me fuel : Nat) {st : Node D} (out : List (Msg D))
    (h : NodeInv c digest v st) (hout : ∀ m ∈ out, IsPrepareOf me m) :
    NodeInv c digest v (sendPreparesLoop c digest me fuel st out).1 ∧
      Step x st (sendPreparesLoop c digest me fuel st out).1 ∧
      ∀ m ∈ (sendPreparesLoop c digest me fuel st out).2.1, IsPrepareOf me m := by
  induction fuel generalizing st out with
  | zero => exact ⟨h, Step.refl st, hout⟩
  | succ fuel ih =>
    rw [sendPreparesLoop]
    cases hget : st.slot? (st.ppAru + 1) with
    | none => exact ⟨h, Step.refl st, hout⟩
    | some slot =>
      dsimp only
      split
      · exact ⟨h, Step.refl st, hout⟩
      split
      · obtain ⟨hinv, hstep, hsent⟩ := ih out (show NodeInv c digest v st.advancePpAru from h.frame rfl rfl rfl) hout
        exact ⟨hinv, (Step.advancePpAru st).trans hstep, hsent⟩
      split
      · exact ⟨h, Step.refl st, hout⟩
      split
      · exact ⟨h.frame rfl rfl rfl, Step.frame rfl rfl, hout⟩
      · exact ⟨h, Step.refl st, hout⟩
      · have hown := getOrdSlot_of_slot? (c := c) hget
        have hcore : SameCore (st.getOrdSlot c (st.ppAru + 1)) (acceptProposal c slot) := by
          rw [hown]
          exact sameCore_acceptProposal slot
        obtain ⟨hput, hedit⟩ := put_sameCore (x := x) h hcore
          (by rw [hown]; exact populateEligible_ready slot slot.completePrePrepare)
        have hnext : NodeInv c digest v
            (st.putOrdSlot (st.ppAru + 1) (acceptProposal c slot)).advancePpAru := hput.frame rfl rfl rfl
        have hmore : ∀ m ∈ (if me = c.leaderOfView st.view then out else
            out ++ [Msg.prepare (constructPrepare c digest st me slot.completePrePrepare)]),
            IsPrepareOf me m := by
          intro m hm
          split at hm
          · exact hout m hm
          · rcases List.mem_append.mp hm with hm | hm
            · exact hout m hm
            · rw [List.mem_singleton.mp hm]
              exact ⟨_, rfl, rfl⟩
        obtain ⟨hinv, hstep, hsent⟩ := ih _ hnext hmore
        exact ⟨hinv, (hedit.trans (Step.advancePpAru _)).trans hstep, hsent⟩

theorem sendPrepares_spec (me : Nat) {st : Node D} (h : NodeInv c digest v st) :
    NodeInv c digest v (sendPrepares c digest me st).1 ∧ Step x st (sendPrepares c digest me st).1 ∧
      ∀ m ∈ (sendPrepares c digest me st).2, IsPrepareOf me m := by
  have hloop := sendPreparesLoop_spec (x := x) me (st.history.keys.length + 1) [] h fun _ hm => nomatch hm
  unfold sendPrepares
  split
  · rename_i hr
    rw [hr] at hloop
    exact hloop
  · rename_i hr
    rw [hr] at hloop
    obtain ⟨hinv, hstep, hsent⟩ := hloop
    split
    · exact ⟨hinv.frame rfl rfl rfl, hstep.trans (Step.frame rfl rfl), hsent⟩
    · exact ⟨hinv, hstep, hsent⟩

/-! ## Completing a prepare certificate -/

omit [DecidableEq D] in
/-- A later call sees the settled slots of an earlier one. -/
theorem Step.not_settled {st st' : Node D} (h : Step x st st') {s : Nat} (hs : ¬ Settled st' s) :
    ¬ Settled st s :=
  fun hold => hs (h.settled s hold)

/-- A call that continues from where an earlier one left the server. -/
theorem Reaction.after {st st' : Node D} {r : Node D × List (Msg D)} (hstep : Step x st st')
    (h : Reaction c digest v me x st' r) : Reaction c digest v me x st r where
  inv := h.inv
  step := hstep.trans h.step
  signer := h.signer
  settled := h.settled
  fresh m hm := hstep.not_settled (h.fresh m hm)
  single := h.single

/-- A call after which other fields of the state change. -/
theorem Reaction.frame {st st' : Node D} {r : Node D × List (Msg D)}
    (h : Reaction c digest v me x st r) (hview : st'.view = r.1.view) (haru : st'.aru = r.1.aru)
    (hhistory : st'.history = r.1.history) : Reaction c digest v me x st (st', r.2) where
  inv := h.inv.frame hview haru hhistory
  step := h.step.trans (Step.frame haru hhistory)
  signer := h.signer
  settled m hm := (Step.frame (x := x) haru hhistory).settled _ (h.settled m hm)
  fresh := h.fresh
  single := h.single

/-- A call that ends by sending Prepares. -/
theorem Reaction.thenPrepares {st : Node D} {r : Node D × List (Msg D)}
    (h : Reaction c digest v me x st r) :
    Reaction c digest v me x st
      ((sendPrepares c digest me r.1).1, r.2 ++ (sendPrepares c digest me r.1).2) := by
  obtain ⟨hinv, hstep, hsent⟩ := sendPrepares_spec (x := x) me h.inv
  have hcommit : ∀ m, .commit m ∈ r.2 ++ (sendPrepares c digest me r.1).2 → .commit m ∈ r.2 := by
    intro m hm
    rcases List.mem_append.mp hm with hm | hm
    · exact hm
    · obtain ⟨p, hp, -⟩ := hsent _ hm
      exact nomatch hp
  refine ⟨hinv, h.step.trans hstep, fun m hm => ?_, fun m hm => ?_, fun m hm => ?_, fun m m' hm hm' => ?_⟩
  · rcases List.mem_append.mp hm with hm | hm
    · exact h.signer m hm
    · obtain ⟨p, rfl, hp⟩ := hsent m hm
      exact hp
  · exact hstep.settled _ (h.settled m (hcommit m hm))
  · exact h.fresh m (hcommit m hm)
  · exact h.single m m' (hcommit m hm) (hcommit m' hm')

theorem certifyPrepared_core (st : Node D) (slot : OrdSlot D) :
    SameCore slot (certifyPrepared c digest me st slot).1 := by
  unfold certifyPrepared
  dsimp only
  split <;> constructor <;> rfl

theorem certifyPrepared_ready (st : Node D) (slot : OrdSlot D) :
    (certifyPrepared c digest me st slot).1.prepareCertificateReady = true := by
  unfold certifyPrepared
  dsimp only
  split <;> rfl

theorem certifyPrepared_sent {st : Node D} {slot : OrdSlot D} {m : Msg D}
    (hm : m ∈ (certifyPrepared c digest me st slot).2) :
    m = .commit (constructCommit c digest st me slot.completePrePrepare) := by
  unfold certifyPrepared at hm
  dsimp only at hm
  split at hm
  · exact List.mem_singleton.mp hm
  · exact nomatch hm

theorem prepareCertificateReady_collected {slot : OrdSlot D}
    (h : prepareCertificateReady c digest slot = true) : slot.collectedAllParts = true :=
  (Bool.and_eq_true_iff.mp h).1

/-- **A completed prepare certificate.** The slot it is put in was not settled,
and the Commit sent is for its sequence number. -/
theorem certify_reaction {st : Node D} (h : NodeInv c digest v st) {seq : Nat} {slot : OrdSlot D}
    (hs : SlotInv c digest v st.aru seq slot)
    (hcommit : ∀ i m, slot.commit i = some m → (st.getOrdSlot c seq).commit i = some m ∨ x = some m)
    (hcert : prepareCertificateReady c digest slot = true) (hfresh : ¬ Settled st seq) :
    Reaction c digest v me x st
      (st.putOrdSlot seq (certifyPrepared c digest me st slot).1,
        (certifyPrepared c digest me st slot).2) := by
  have hcore : SameCore slot (certifyPrepared c digest me st slot).1 := certifyPrepared_core st slot
  have hready : (certifyPrepared c digest me st slot).1.prepareCertificateReady = true :=
    certifyPrepared_ready st slot
  have hseq : slot.completePrePrepare.seqNum = seq :=
    hs.proposalSeq (.inr (prepareCertificateReady_collected hcert))
  refine ⟨h.put (hs.congr hcore), Step.put (c := c) (fun _ => hready) ?_, ?_, ?_, ?_, ?_⟩
  · rw [hcore.commit]
    exact hcommit
  · intro m hm
    rw [certifyPrepared_sent hm]
    rfl
  · intro m hm
    cases certifyPrepared_sent hm
    refine .inr ⟨_, ?_, hready⟩
    show (st.putOrdSlot seq _).slot? slot.completePrePrepare.seqNum = _
    rw [hseq, Node.slot?_putOrdSlot_self]
  · intro m hm
    cases certifyPrepared_sent hm
    show ¬ Settled st slot.completePrePrepare.seqNum
    rwa [hseq]
  · intro m m' hm hm'
    cases certifyPrepared_sent hm
    cases certifyPrepared_sent hm'
    rfl

/-! ## The handlers -/

/-- A slot in which a Prepare is stored, beyond `ARU`. -/
private theorem slotInv_prepare {aru s : Nat} {slot : OrdSlot D} (h : SlotInv c digest v aru s slot)
    (hs : aru < s) (mess : Signed (Vouch D)) : SlotInv c digest v aru s (slot.storePrepare mess) where
  seqNum := h.seqNum
  proposalSeq := h.proposalSeq
  noPrepares _ hle := by omega
  ordered := h.ordered
  replayed := h.replayed
  frozen := h.frozen
  signer := h.signer
  certified := h.certified

omit [DecidableEq D] in
private theorem not_settled_of_slot {st : Node D} {seq : Nat} (hseq : st.aru < seq)
    (hready : (st.getOrdSlot c seq).prepareCertificateReady = false) : ¬ Settled st seq := by
  rintro (hle | ⟨slot, hget, hr⟩)
  · omega
  · rw [getOrdSlot_of_slot? hget, hr] at hready
    exact nomatch hready

/-- Storing the slot a handler has looked up changes nothing that matters. -/
private theorem put_own {st : Node D} (h : NodeInv c digest v st) (seq : Nat) :
    NodeInv c digest v (st.putOrdSlot seq (st.getOrdSlot c seq)) ∧
      Step x st (st.putOrdSlot seq (st.getOrdSlot c seq)) :=
  put_sameCore h ⟨rfl, rfl, rfl, rfl, rfl, rfl, rfl, rfl⟩ rfl

theorem processPrepare_reaction {st : Node D} (h : NodeInv c digest v st) (mess : Signed (Vouch D)) :
    Reaction c digest v me x st (processPrepare c digest me st mess) := by
  obtain ⟨hown, hkeep⟩ := put_own (x := x) h mess.body.seqNum
  unfold processPrepare
  dsimp only
  split
  · exact .silent h (Step.refl st)
  rename_i hseq
  have hlt : st.aru < mess.body.seqNum := by omega
  have hslot := slotInv_prepare (h.getOrdSlot mess.body.seqNum) hlt mess
  split
  · exact .silent (h.frame rfl rfl rfl) (Step.frame rfl rfl)
  · exact .silent h (Step.refl st)
  split
  · exact .silent h (Step.refl st)
  split
  · exact .silent hown hkeep
  split
  · exact .silent hown hkeep
  split
  · exact .silent (h.put hslot) (Step.put (c := c) id fun _ _ hm => .inl hm)
  rename_i hopen
  split
  · rename_i hcert
    have hready : (st.getOrdSlot c mess.body.seqNum).prepareCertificateReady = false :=
      Bool.eq_false_iff.mpr fun hr => hopen (.inr hr)
    exact (certify_reaction h hslot (fun _ _ hm => .inl hm) hcert
      (not_settled_of_slot hlt hready)).frame rfl rfl rfl
  · exact .silent (h.put hslot) (Step.put (c := c) id fun _ _ hm => .inl hm)

/-! ### Commits -/

omit [DecidableEq D] in
private theorem storeCommit_commit {slot : OrdSlot D} {mess m : Signed (Vouch D)} {i : Nat}
    (hm : (slot.storeCommit mess).commit i = some m) :
    slot.commit i = some m ∨ i = mess.machineId ∧ m = mess := by
  by_cases hi : i = mess.machineId
  · subst hi
    have hself : (slot.storeCommit mess).commit mess.machineId = some mess := Function.update_self ..
    exact .inr ⟨rfl, Option.some.inj (hm.symm.trans hself)⟩
  · have hsame : (slot.storeCommit mess).commit i = slot.commit i := Function.update_of_ne hi _ _
    exact .inl (hsame ▸ hm)

/-- A slot in which a Commit is stored in the place of its sender, until then
empty. -/
private theorem slotInv_commit {aru s : Nat} {slot : OrdSlot D} (h : SlotInv c digest v aru s slot)
    {mess : Signed (Vouch D)} (hempty : slot.commit mess.machineId = none) :
    SlotInv c digest v aru s (slot.storeCommit mess) where
  seqNum := h.seqNum
  proposalSeq := h.proposalSeq
  noPrepares := h.noPrepares
  ordered := h.ordered
  replayed := h.replayed
  frozen := h.frozen
  signer i m hm hv := by
    rcases storeCommit_commit hm with hold | ⟨hi, rfl⟩
    · exact h.signer i m hold hv
    · exact hi.symm
  certified ho hv := by
    have hold := h.certified ho hv
    unfold commitCertificateReady at hold ⊢
    obtain ⟨hcollected, hcount⟩ := Bool.and_eq_true_iff.mp hold
    refine Bool.and_eq_true_iff.mpr ⟨hcollected, decide_eq_true ?_⟩
    refine (of_decide_eq_true hcount).trans (Lib.tally_mono fun i _ _ hi => ?_)
    have hne : i ≠ mess.machineId := by
      rintro rfl
      rw [matching, hempty] at hi
      exact nomatch hi
    have hsame : (slot.storeCommit mess).commit i = slot.commit i := Function.update_of_ne hne _ _
    rw [matching, hsame]
    exact hi

/-- A slot whose commit certificate is complete, marked ordered. -/
private theorem slotInv_ordered {st : Node D} {s : Nat} {slot : OrdSlot D}
    (h : SlotInv c digest v st.aru s slot) (hs : st.aru < s)
    (hcert : commitCertificateReady c digest slot = true) :
    SlotInv c digest v st.aru s (moveCommitCertificate c digest st slot) := by
  have hcollected : slot.collectedAllParts = true := (Bool.and_eq_true_iff.mp hcert).1
  refine SlotInv.congr ?_ (sameCore_populateEligible _ _)
  exact
    { seqNum := h.seqNum
      proposalSeq := h.proposalSeq
      noPrepares := h.noPrepares
      ordered := fun _ => hcollected
      replayed := h.replayed
      frozen := fun hc => .inl ((h.frozen hc).resolve_right fun hle => by omega)
      signer := h.signer
      certified := fun _ _ => hcert }

private theorem moveCommitCertificate_keeps (c : Config) (digest : CompletePrePrepare → D) (st : Node D) (slot : OrdSlot D) :
    (moveCommitCertificate c digest st slot).commit = slot.commit ∧
      (moveCommitCertificate c digest st slot).prepareCertificateReady = slot.prepareCertificateReady := by
  unfold moveCommitCertificate
  exact ⟨(sameCore_populateEligible (c := c) _ _).commit, populateEligible_ready _ _⟩

theorem processCommit_reaction {st : Node D} (h : NodeInv c digest v st) (mess : Signed (Vouch D)) :
    Reaction c digest v me (some mess) st (processCommit c digest st mess, []) := by
  obtain ⟨hown, hkeep⟩ := put_own (x := some mess) h mess.body.seqNum
  have hstored : ∀ i m, ((st.getOrdSlot c mess.body.seqNum).storeCommit mess).commit i = some m →
      (st.getOrdSlot c mess.body.seqNum).commit i = some m ∨ some mess = some m := by
    intro i m hm
    rcases storeCommit_commit hm with hold | ⟨-, rfl⟩
    · exact .inl hold
    · exact .inr rfl
  unfold processCommit
  dsimp only
  split
  · exact .silent h (Step.refl st)
  rename_i hseq
  have hlt : st.aru < mess.body.seqNum := by omega
  split
  · exact .silent (h.frame rfl rfl rfl) (Step.frame rfl rfl)
  · exact .silent h (Step.refl st)
  split
  · exact .silent hown hkeep
  rename_i hempty
  have hslot := slotInv_commit (h.getOrdSlot mess.body.seqNum)
    (Option.not_isSome_iff_eq_none.mp hempty)
  split
  · exact .silent hown hkeep
  split
  · exact .silent (h.put hslot) (Step.put (c := c) id hstored)
  split
  · rename_i hcert
    obtain ⟨hcommit, hready⟩ := moveCommitCertificate_keeps c digest st
      ((st.getOrdSlot c mess.body.seqNum).storeCommit mess)
    have hput := h.put (slotInv_ordered hslot hlt hcert)
    have hstep : Step (some mess) st (st.putOrdSlot mess.body.seqNum _) :=
      Step.put (c := c) (fun hr => hready.trans hr) (fun i m hm => hstored i m (hcommit ▸ hm))
    exact .silent (hput.frame rfl rfl rfl) (hstep.trans (Step.frame rfl rfl))
  · exact .silent (h.put hslot) (Step.put (c := c) id hstored)

/-! ### Pre-Prepares -/

/-- The first part of a proposal sets up a slot that has no part. -/
private theorem slotInv_setup {aru s : Nat} {slot : OrdSlot D} (h : SlotInv c digest v aru s slot)
    (hfirst : slot.numPartsCollected = 0) (pp : PrePrepare) :
    SlotInv c digest v aru s (setupProposal slot pp) ∧
      (setupProposal slot pp).completePrePrepare.seqNum = s := by
  refine ⟨?_, h.seqNum⟩
  exact
    { seqNum := h.seqNum
      proposalSeq := fun _ => h.seqNum
      noPrepares := h.noPrepares
      ordered := h.ordered
      replayed := h.replayed
      frozen := h.frozen
      signer := h.signer
      certified := fun ho _ => by
        -- an ordered slot holds a part
        rcases h.frozen (h.ordered ho) with hpos | ⟨-, hno⟩
        · omega
        · exact nomatch hno.symm.trans ho }

/-- A part is stored in a slot that still misses one. -/
private theorem slotInv_storePart {aru s : Nat} {slot : OrdSlot D} (h : SlotInv c digest v aru s slot)
    (hopen : slot.collectedAllParts = false) (hseq : slot.completePrePrepare.seqNum = s)
    (mess : Signed PrePrepare) (index : Nat) :
    SlotInv c digest v aru s (storePart slot mess index) where
  seqNum := h.seqNum
  proposalSeq _ := hseq
  noPrepares := h.noPrepares
  ordered := h.ordered
  replayed := h.replayed
  frozen hc := nomatch hopen.symm.trans hc
  signer := h.signer
  certified ho := nomatch hopen.symm.trans (h.ordered ho)

/-- The last part is there. -/
private theorem slotInv_markCollected {aru s : Nat} {slot : OrdSlot D}
    (h : SlotInv c digest v aru s slot) (hopen : slot.collectedAllParts = false)
    (hpos : 0 < slot.numPartsCollected) : SlotInv c digest v aru s slot.markCollected where
  seqNum := h.seqNum
  proposalSeq _ := h.proposalSeq (.inl hpos)
  noPrepares hc := nomatch hc
  ordered _ := rfl
  replayed _ := rfl
  frozen _ := .inl hpos
  signer := h.signer
  certified ho := nomatch hopen.symm.trans (h.ordered ho)

omit [DecidableEq D] in
private theorem noteHighPrepared_same (st : Node D) (slot : OrdSlot D) :
    (st.noteHighPrepared slot).view = st.view ∧ (st.noteHighPrepared slot).aru = st.aru ∧
      (st.noteHighPrepared slot).history = st.history := by
  unfold Node.noteHighPrepared
  split <;> exact ⟨rfl, rfl, rfl⟩

/-- Without Prepares no certificate is complete, where one is needed at all. -/
private theorem not_ready_of_noPrepares (hN : 0 < 2 * c.F + c.K) {slot : OrdSlot D}
    (h : ∀ i, slot.prepare i = none) : prepareCertificateReady c digest slot = false := by
  have hzero : Lib.tally c.numServers (matching digest slot.prepare slot.completePrePrepare) = 0 := by
    refine List.countP_eq_zero.mpr fun i _ hi => ?_
    rw [matching, h i] at hi
    exact nomatch hi
  unfold prepareCertificateReady
  rw [hzero, decide_eq_false (by omega), Bool.and_false]

/-- A proposal becomes complete in a slot that was open until now. -/
private theorem proposalComplete_reaction (hN : 0 < 2 * c.F + c.K) {st : Node D}
    (h : NodeInv c digest v st) {seq : Nat} {slot : OrdSlot D}
    (hs : SlotInv c digest v st.aru seq slot) (hopen : slot.collectedAllParts = false)
    (hpos : 0 < slot.numPartsCollected) (hcommit : slot.commit = (st.getOrdSlot c seq).commit)
    (hready : slot.prepareCertificateReady = (st.getOrdSlot c seq).prepareCertificateReady) :
    Reaction c digest v me x st (proposalComplete c digest me st seq slot) := by
  have hdone := slotInv_markCollected hs hopen hpos
  have hkeep : ∀ i m, slot.markCollected.commit i = some m →
      (st.getOrdSlot c seq).commit i = some m ∨ x = some m := fun i m hm => .inl (hcommit ▸ hm)
  have hput : Reaction c digest v me x st
      (st.putOrdSlot seq (certifyIfReady c digest me st slot.markCollected).1,
        (certifyIfReady c digest me st slot.markCollected).2) := by
    unfold certifyIfReady
    split
    · rename_i hcert
      refine certify_reaction h hdone hkeep hcert.2.2 ?_
      rcases Nat.lt_or_ge st.aru seq with hlt | hle
      · exact not_settled_of_slot hlt (hready ▸ hcert.1)
      · have hnone : prepareCertificateReady c digest slot.markCollected = false :=
          not_ready_of_noPrepares hN (hs.noPrepares hopen hle)
        exact absurd (hnone.symm.trans hcert.2.2) Bool.false_ne_true
    · exact .silent (h.put hdone) (Step.put (c := c) (fun hr => hready.trans hr) hkeep)
  obtain ⟨hview, haru, hhistory⟩ := noteHighPrepared_same
    (st.putOrdSlot seq (certifyIfReady c digest me st slot.markCollected).1)
    (certifyIfReady c digest me st slot.markCollected).1
  have hnoted := hput.frame hview haru hhistory
  unfold proposalComplete
  dsimp only
  split
  · exact hnoted
  · exact hnoted.thenPrepares

/-- What the slot a part meets has kept of the server's own. -/
private theorem slotFor_spec {st : Node D} (h : NodeInv c digest v st) (pp : PrePrepare) :
    SlotInv c digest v st.aru pp.seqNum (slotFor (st.getOrdSlot c pp.seqNum) pp) ∧
      (slotFor (st.getOrdSlot c pp.seqNum) pp).completePrePrepare.seqNum = pp.seqNum ∧
      (slotFor (st.getOrdSlot c pp.seqNum) pp).commit = (st.getOrdSlot c pp.seqNum).commit ∧
      (slotFor (st.getOrdSlot c pp.seqNum) pp).prepareCertificateReady =
        (st.getOrdSlot c pp.seqNum).prepareCertificateReady := by
  have hown := h.getOrdSlot pp.seqNum
  unfold slotFor
  split
  · rename_i hfirst
    obtain ⟨hs, hseq⟩ := slotInv_setup hown hfirst pp
    exact ⟨hs, hseq, rfl, rfl⟩
  · rename_i hlater
    exact ⟨hown, hown.proposalSeq (.inl (Nat.pos_of_ne_zero hlater)), rfl, rfl⟩

private theorem collectPart_reaction (hN : 0 < 2 * c.F + c.K) {st : Node D} (h : NodeInv c digest v st)
    {slot : OrdSlot D} {mess : Signed PrePrepare} (hget : st.slot? mess.body.seqNum = some slot)
    (hseq : slot.completePrePrepare.seqNum = mess.body.seqNum) (first : Bool) :
    Reaction c digest v me x st (collectPart c digest me st first slot mess) := by
  have hs := h.slots _ _ hget
  have hown := getOrdSlot_of_slot? (c := c) hget
  unfold collectPart
  split
  · exact .silent h (Step.refl st)
  split
  · exact .silent (h.frame rfl rfl rfl) (Step.frame rfl rfl)
  split
  · exact .silent h (Step.refl st)
  rename_i hopen
  have hopen := Bool.eq_false_iff.mpr hopen
  split
  · exact .silent h (Step.refl st)
  split
  · exact .silent (h.frame rfl rfl rfl) (Step.frame rfl rfl)
  have hstored := slotInv_storePart hs hopen hseq mess
    ((mess.body.partNum - 1) * numAcksPerMessage c)
  split
  · refine .silent (h.put hstored) (Step.put (c := c) ?_ ?_)
    · rw [hown]
      exact id
    · rw [hown]
      exact fun _ _ hm => .inl hm
  · refine proposalComplete_reaction hN h hstored hopen (Nat.succ_pos _) ?_ ?_
    · rw [hown]
      rfl
    · rw [hown]
      rfl

theorem processPrePrepare_reaction (hN : 0 < 2 * c.F + c.K) {st : Node D} (h : NodeInv c digest v st)
    (mess : Signed PrePrepare) : Reaction c digest v me x st (processPrePrepare c digest me st mess) := by
  unfold processPrePrepare
  split
  · exact .silent h (Step.refl st)
  split
  · exact .silent h (Step.refl st)
  split
  · exact .silent (h.frame rfl rfl rfl) (Step.frame rfl rfl)
  · exact .silent h (Step.refl st)
  split
  · exact .silent h (Step.refl st)
  · obtain ⟨hs, hseq, hcommit, hready⟩ := slotFor_spec h mess.body
    have hstep : Step x st (st.putOrdSlot mess.body.seqNum _) :=
      Step.put (c := c) (fun hr => hready.trans hr) (fun _ _ hm => .inl (hcommit ▸ hm))
    exact (collectPart_reaction hN (h.put hs) (st.slot?_putOrdSlot_self ..) hseq _).after hstep

/-! ### Execution -/

omit [DecidableEq D] in
private theorem lookup_foldl_erase {seqs : List Nat} {history : AList fun _ : Nat => OrdSlot D} {s : Nat} :
    (seqs.foldl (fun h seq => h.erase seq) history).lookup s =
      if s ∈ seqs then none else history.lookup s := by
  induction seqs generalizing history with
  | nil => rfl
  | cons seq seqs ih =>
    rw [List.foldl_cons, ih]
    by_cases hs : s = seq
    · subst hs
      simp [AList.lookup_erase]
    · simp [AList.lookup_erase_ne hs, hs]

/-- The collector drops only slots below `ARU`. -/
private theorem garbageCollect_spec {st : Node D} (h : NodeInv c digest v st) :
    NodeInv c digest v (garbageCollect st) ∧ Step x st (garbageCollect st) := by
  unfold garbageCollect
  split
  · exact ⟨h, Step.refl st⟩
  dsimp only
  split
  · refine ⟨⟨h.view, fun s slot hget => ?_⟩, ⟨le_refl _, fun s hs => ?_, fun m hm => ?_⟩⟩
    · rw [Node.slot?, lookup_foldl_erase] at hget
      split at hget
      · cases hget
      · exact h.slots s slot hget
    · rcases hs with hle | ⟨slot, hget, hr⟩
      · exact .inl hle
      · by_cases hmem : s ∈ List.range' st.stableCatchup (st.aru - st.gcWidth - st.stableCatchup)
        · have := List.mem_range'_1.mp hmem
          exact .inl (show s ≤ st.aru by omega)
        · refine .inr ⟨slot, ?_, hr⟩
          rw [Node.slot?, lookup_foldl_erase, if_neg hmem]
          exact hget
    · obtain ⟨s, slot, i, hget, hi⟩ := hm
      rw [Node.slot?, lookup_foldl_erase] at hget
      split at hget
      · cases hget
      · exact .inl ⟨s, slot, i, hget, hi⟩
  · exact ⟨h.frame rfl rfl rfl, Step.frame rfl rfl⟩

/-- `ARU` moves over a slot that is complete. -/
private theorem advanceAru_spec {st : Node D} (h : NodeInv c digest v st) {slot : OrdSlot D}
    (hget : st.slot? (st.aru + 1) = some slot) (hdone : slot.collectedAllParts = true) :
    NodeInv c digest v st.advanceAru ∧ Step x st st.advanceAru := by
  refine ⟨⟨h.view, fun s slot' hget' => ?_⟩, ⟨Nat.le_succ _, fun s hs => ?_, fun m hm => .inl hm⟩⟩
  · refine (h.slots s slot' hget').mono (Nat.le_succ _) fun hopen hlt => ?_
    have hne : s ≠ st.aru + 1 := by
      rintro rfl
      have heq : st.slot? (st.aru + 1) = some slot' := hget'
      rw [hget] at heq
      cases heq
      exact nomatch hopen.symm.trans hdone
    show st.aru + 1 < s
    omega
  · rcases hs with hle | hslot
    · exact .inl (hle.trans (Nat.le_succ _))
    · exact .inr hslot

theorem executeSlot_spec {st : Node D} (h : NodeInv c digest v st) :
    NodeInv c digest v (executeSlot st).1 ∧ Step x st (executeSlot st).1 := by
  unfold executeSlot
  split
  · exact ⟨h, Step.refl st⟩
  rename_i slot hget
  split
  · exact ⟨h, Step.refl st⟩
  rename_i hready
  split
  · exact ⟨h.frame rfl rfl rfl, Step.frame rfl rfl⟩
  split
  · exact ⟨h, Step.refl st⟩
  have hs := h.slots _ _ hget
  have hdone : slot.collectedAllParts = true := by
    by_cases ho : slot.ordered = true
    · exact hs.ordered ho
    · exact hs.replayed fun ht => hready ⟨Bool.eq_false_iff.mpr ho, ht⟩
  have hown := getOrdSlot_of_slot? (c := c) hget
  have hcore : SameCore (st.getOrdSlot c (st.aru + 1)) slot.markExecuted := by
    rw [hown]
    exact ⟨rfl, rfl, rfl, rfl, rfl, rfl, rfl, rfl⟩
  obtain ⟨hput, hmark⟩ := put_sameCore (x := x) h hcore (by rw [hown]; rfl)
  obtain ⟨hadv, hup⟩ := advanceAru_spec (x := x) hput (Node.slot?_putOrdSlot_self ..)
    (show slot.markExecuted.collectedAllParts = true from hdone)
  exact ⟨hadv, hmark.trans hup⟩

theorem executeCommit_reaction {st : Node D} (h : NodeInv c digest v st) :
    Reaction c digest v me x st (executeCommit c digest me st) := by
  obtain ⟨hexec, hstep⟩ := executeSlot_spec (x := x) h
  unfold executeCommit
  split
  · obtain ⟨hsent, hsend, hout⟩ := sendPrepares_spec (x := x) me hexec
    obtain ⟨hgc, hcollect⟩ := garbageCollect_spec (x := x) hsent
    refine .quiet hgc ((hstep.trans hsend).trans hcollect) fun m hm => ?_
    obtain ⟨p, rfl, hp⟩ := hout m hm
    exact ⟨hp, fun _ he => nomatch he⟩
  · exact .silent hexec hstep

omit [DecidableEq D] in
private theorem openForProposal_core (slot : OrdSlot D) (pp : PrePrepare) :
    SameCore slot (openForProposal c slot pp) ∧
      (openForProposal c slot pp).prepareCertificateReady = slot.prepareCertificateReady := by
  unfold openForProposal
  split
  · exact ⟨⟨rfl, rfl, rfl, rfl, rfl, rfl, rfl, rfl⟩, rfl⟩
  · exact ⟨⟨rfl, rfl, rfl, rfl, rfl, rfl, rfl, rfl⟩, rfl⟩

theorem sendOnePrePrepare_reaction {st : Node D} (h : NodeInv c digest v st) (mess : Signed PrePrepare) :
    Reaction c digest v me x st (sendOnePrePrepare c me st mess) := by
  unfold sendOnePrePrepare
  split
  · rename_i hlead
    obtain ⟨hcore, hready⟩ := openForProposal_core (c := c) (st.getOrdSlot c mess.body.seqNum) mess.body
    obtain ⟨hput, hstep⟩ := put_sameCore (x := x) h hcore hready
    refine .quiet hput hstep fun m hm => ?_
    rw [List.mem_singleton.mp hm]
    exact ⟨hlead.2.1, fun _ he => nomatch he⟩
  · exact .silent h (Step.refl st)

/-! ## The handler -/

/-- The Commit an input hands to the server, if it is one. -/
def handedCommit : Lib.Input (Msg D) Action → Option (Signed (Vouch D))
  | .msg (.commit m) => some m
  | _ => none

/-- **Every handler call is a reaction.** -/
theorem handle_reaction (me : Nat) (hN : 0 < 2 * c.F + c.K) {st : Node D} (h : NodeInv c digest v st)
    (i : Lib.Input (Msg D) Action) :
    Reaction c digest v me (handedCommit i) st (handle c digest me st i) := by
  unfold handle
  split
  · exact .silent h (Step.refl st)
  cases i with
  | msg m =>
    unfold react
    dsimp only
    split
    · cases m with
      | prePrepare m => exact processPrePrepare_reaction hN h m
      | prepare m => exact processPrepare_reaction h m
      | commit m => exact processCommit_reaction h m
    · exact .silent h (Step.refl st)
  | act a =>
    cases a with
    | propose m => exact sendOnePrePrepare_reaction h m
    | execute => exact executeCommit_reaction h
    | whiteLines f r => exact .silent (h.frame rfl rfl rfl) (Step.frame rfl rfl)

/-! ## The system -/

/-- The adversary sends anything that does not bear a correct server's signature. -/
def env (d : Deployment) : Lib.Env (Msg D) where
  correct := d.correct
  forge _ m := !d.correct m.signer

/-- A slot as a server may hold it when it enters view `v`: executed earlier, in
another view, with no Commit of `v`. -/
structure EntrySlot (v aru s : Nat) (slot : OrdSlot D) : Prop where
  seqNum : slot.seqNum = s
  executed : s ≤ aru
  collected : slot.collectedAllParts = true
  proposalSeq : slot.completePrePrepare.seqNum = s
  proposalView : slot.completePrePrepare.view ≠ v
  parts : slot.ordered = true → 0 < slot.numPartsCollected
  commits : ∀ i m, slot.commit i = some m → m.body.view ≠ v

/-- The states from which a run in view `v` starts: every server has just entered
`v`, and no correct server has sent a Commit of `v`. -/
structure ViewEntry (d : Deployment) (v : Nat) (w : Lib.World (Node D) (Msg D)) : Prop where
  view : ∀ i, (w.node i).view = v
  slots : ∀ i s slot, (w.node i).slot? s = some slot → EntrySlot v (w.node i).aru s slot
  sent : ∀ m, .commit m ∈ w.sent → d.correct m.machineId = true → m.body.view ≠ v

theorem EntrySlot.inv {aru s : Nat} {slot : OrdSlot D} (h : EntrySlot v aru s slot) :
    SlotInv c digest v aru s slot where
  seqNum := h.seqNum
  proposalSeq _ := h.proposalSeq
  noPrepares hc := nomatch hc.symm.trans h.collected
  ordered _ := h.collected
  replayed _ := h.collected
  frozen _ := by
    by_cases ho : slot.ordered = true
    · exact .inl (h.parts ho)
    · exact .inr ⟨h.executed, Bool.eq_false_iff.mpr ho⟩
  signer i m hm hv := absurd hv (h.commits i m hm)
  certified _ hv := absurd hv h.proposalView

/-- The sequence number a Commit of view `v` speaks about. -/
def commitKey (v : Nat) : Msg D → Option Nat
  | .commit m => if m.body.view = v then some m.body.seqNum else none
  | _ => none

omit [DecidableEq D] in
theorem commitKey_eq_some {m : Msg D} {s : Nat} (h : commitKey v m = some s) :
    ∃ cm, m = .commit cm ∧ cm.body.view = v ∧ cm.body.seqNum = s := by
  cases m with
  | commit cm =>
    rw [commitKey] at h
    split at h
    · rename_i hv
      exact ⟨cm, rfl, hv, Option.some.inj h⟩
    · exact nomatch h
  | prePrepare m => exact nomatch h
  | prepare m => exact nomatch h

/-- **One Commit for each sequence number.** In a run in view `v`, the Commits of
one correct server for one sequence number of `v` are the same message. -/
theorem commit_once (d : Deployment) (hN : 0 < 2 * d.F + d.K) {w₀ : Lib.World (Node D) (Msg D)}
    (h₀ : ViewEntry d v w₀) (evs : List (Lib.Event (Msg D) Action)) {m m' : Signed (Vouch D)}
    (hm : .commit m ∈ (w₀.run (env d) (handle d.toConfig digest) evs).sent)
    (hm' : .commit m' ∈ (w₀.run (env d) (handle d.toConfig digest) evs).sent)
    (hc : d.correct m.machineId = true) (hsame : m.machineId = m'.machineId)
    (hv : m.body.view = v) (hv' : m'.body.view = v) (hseq : m.body.seqNum = m'.body.seqNum) : m = m' := by
  have hone := Lib.signed_once Msg.signer (commitKey v) (E := env d) (H := handle d.toConfig digest) (w := w₀)
    (I := fun _ st => NodeInv d.toConfig digest v st)
    (R := fun _ st m => ∀ cm, m = .commit cm → Settled st cm.body.seqNum)
    (fun i => ⟨h₀.view i, fun s slot hget => (h₀.slots i s slot hget).inv⟩) ?_
    (fun i st x h => (handle_reaction i hN h x).inv) ?_ ?_ ?_ ?_ ?_ evs
    hm hm' hc hsame (k := m.body.seqNum) (if_pos hv) (hseq ▸ if_pos hv')
  · cases hone
    rfl
  · intro m hm hc
    cases m with
    | commit cm => exact if_neg (h₀.sent cm hm hc)
    | prePrepare m => rfl
    | prepare m => rfl
  · intro i st x m h _ hR cm hcm
    exact (handle_reaction i hN h x).step.settled _ (hR cm hcm)
  · intro i st x m h hm _
    have hr := handle_reaction i hN h x
    refine ⟨hr.signer m hm, fun cm hcm => ?_⟩
    subst hcm
    exact hr.settled cm hm
  · intro i st x m m' k h hm hk hk' _ hR
    obtain ⟨cm, rfl, -, hs⟩ := commitKey_eq_some hk
    obtain ⟨cm', rfl, -, hs'⟩ := commitKey_eq_some hk'
    have hfresh := (handle_reaction i hN h x).fresh cm hm
    exact hfresh (hs.trans hs'.symm ▸ hR cm' rfl)
  · intro i st x m m' k h hm hm' hk hk'
    obtain ⟨cm, rfl, -, -⟩ := commitKey_eq_some hk
    obtain ⟨cm', rfl, -, -⟩ := commitKey_eq_some hk'
    rw [(handle_reaction i hN h x).single cm cm' hm hm']
  · intro l m hf
    exact Bool.not_eq_true' _ |>.mp hf

/-- **Ordered means committed.** For a slot of `v` marked ordered there is a quorum
of servers whose Commits for its proposal were sent. -/
theorem ordered_committed (d : Deployment) (hN : 0 < 2 * d.F + d.K) {w₀ : Lib.World (Node D) (Msg D)}
    (h₀ : ViewEntry d v w₀) (evs : List (Lib.Event (Msg D) Action)) {p s : Nat} {slot : OrdSlot D}
    (hget : ((w₀.run (env d) (handle d.toConfig digest) evs).node p).slot? s = some slot)
    (hordered : slot.ordered = true) (hview : slot.completePrePrepare.view = v) :
    ∃ A ⊆ d.servers, d.quorum ≤ A.card ∧ ∀ i ∈ A, ∃ m : Signed (Vouch D),
      .commit m ∈ (w₀.run (env d) (handle d.toConfig digest) evs).sent ∧ m.machineId = i ∧
        m.body.view = v ∧ m.body.seqNum = s ∧ m.body.digest = digest slot.completePrePrepare := by
  have hinv₀ : ∀ i, NodeInv d.toConfig digest v (w₀.node i) :=
    fun i => ⟨h₀.view i, fun s slot hget => (h₀.slots i s slot hget).inv⟩
  have hinv := Lib.node_inv (E := env d) (H := handle d.toConfig digest) (w := w₀)
    (I := fun _ st => NodeInv d.toConfig digest v st) hinv₀
    (fun i st x h => (handle_reaction i hN h x).inv) evs
  have hstored := Lib.stored_sent (E := env d) (H := handle d.toConfig digest) (w := w₀)
    (I := fun _ st => NodeInv d.toConfig digest v st)
    (S := fun st m => ∃ cm, m = .commit cm ∧ cm.body.view = v ∧ Stored st cm) hinv₀ ?_
    (fun i st x h => (handle_reaction i hN h x).inv) ?_ evs
  · have hs := (hinv p).slots s slot hget
    obtain ⟨hcollected, hcount⟩ := Bool.and_eq_true_iff.mp (hs.certified hordered hview)
    refine ⟨Lib.accepted d.numServers (matching digest slot.commit slot.completePrePrepare),
      Lib.accepted_subset _ _, ?_, fun i hi => ?_⟩
    · rw [Lib.card_accepted]
      exact of_decide_eq_true hcount
    · obtain ⟨-, hmatch⟩ := Lib.mem_accepted.mp hi
      unfold matching at hmatch
      split at hmatch
      · rename_i m hm
        simp only [matchesPrePrepare, Bool.and_eq_true, decide_eq_true_eq] at hmatch
        obtain ⟨⟨hv, hseq⟩, hd⟩ := hmatch
        have hmv : m.body.view = v := hv.symm.trans hview
        exact ⟨m, hstored p _ ⟨m, rfl, hmv, s, slot, i, hget, hm⟩, hs.signer i m hm hmv, hmv,
          hseq.symm.trans (hs.proposalSeq (.inr hcollected)), hd.symm⟩
      · exact nomatch hmatch
  · rintro i m ⟨cm, rfl, hv, s, slot, j, hs, hj⟩
    exact absurd hv ((h₀.slots i s slot hs).commits j cm hj)
  · rintro i st x m h ⟨cm, rfl, hv, hst⟩
    rcases (handle_reaction i hN h x).step.stored cm hst with hold | hx
    · exact .inl ⟨cm, rfl, hv, hold⟩
    · refine .inr (.inl ?_)
      unfold handedCommit at hx
      split at hx
      · cases hx
        rfl
      · exact nomatch hx

/-- **Agreement within a view.** In a run in view `v`, two correct servers that,
at whatever times, hold the slot of `s` marked ordered with a proposal of `v`
hold the same proposal in it. -/
theorem ordered_agree (d : Deployment) (hinj : Function.Injective digest)
    {w₀ : Lib.World (Node D) (Msg D)} (h₀ : ViewEntry d v w₀)
    {evs evs₁ evs₂ : List (Lib.Event (Msg D) Action)} (h₁ : evs₁ <+: evs) (h₂ : evs₂ <+: evs)
    {p q s : Nat} (hp : d.correct p = true) (hq : d.correct q = true) (hpq : p ≠ q)
    {slotP slotQ : OrdSlot D}
    (hgetP : ((w₀.run (env d) (handle d.toConfig digest) evs₁).node p).slot? s = some slotP)
    (hgetQ : ((w₀.run (env d) (handle d.toConfig digest) evs₂).node q).slot? s = some slotQ)
    (hordP : slotP.ordered = true) (hordQ : slotQ.ordered = true)
    (hviewP : slotP.completePrePrepare.view = v) (hviewQ : slotQ.completePrePrepare.view = v) :
    slotP.completePrePrepare = slotQ.completePrePrepare := by
  have hN : 0 < 2 * d.F + d.K := by
    obtain ⟨hp, -⟩ := d.correct_iff.mp hp
    obtain ⟨hq, -⟩ := d.correct_iff.mp hq
    simp only [Config.servers, Finset.mem_Icc, Config.numServers] at hp hq
    omega
  -- what was sent by either time is still there at the end
  have hlast : ∀ {evs'} , evs' <+: evs → ∀ m,
      m ∈ (w₀.run (env d) (handle d.toConfig digest) evs').sent →
      m ∈ (w₀.run (env d) (handle d.toConfig digest) evs).sent := by
    rintro evs' ⟨rest, rfl⟩ m hm
    rw [Lib.run_append]
    exact Lib.sent_subset_run _ rest m hm
  obtain ⟨A, hA, hqA, hcommitA⟩ := ordered_committed d hN h₀ evs₁ hgetP hordP hviewP
  obtain ⟨B, hB, hqB, hcommitB⟩ := ordered_committed d hN h₀ evs₂ hgetQ hordQ hviewQ
  obtain ⟨i, hiA, hiB, hi⟩ := d.committee.exists_correct_inter hA hB hqA hqB
  obtain ⟨m, hm, hmi, hmv, hms, hmd⟩ := hcommitA i hiA
  obtain ⟨m', hm', hmi', hmv', hms', hmd'⟩ := hcommitB i hiB
  have hci : d.correct m.machineId = true := d.correct_iff.mpr ⟨hmi ▸ hA hiA, hmi ▸ hi⟩
  have hone := commit_once d hN h₀ evs (hlast h₁ _ hm) (hlast h₂ _ hm') hci (hmi.trans hmi'.symm)
    hmv hmv' (hms.trans hms'.symm)
  exact hinj (hmd.symm.trans (hone ▸ hmd'))

/-! ### A run of three servers -/

/-- The servers of `threeServers` when they start. -/
def firstView : Lib.World (Node CompletePrePrepare) (Msg CompletePrePrepare) :=
  { node := fun _ => Node.boot threeServers.toConfig 1 100 [1, 1, 1] [], sent := [] }

/-- A first proposal, with an empty matrix. -/
def firstProposal : Signed PrePrepare :=
  { header := newHeader (firstView.node 1) 1 .prePrepare 60
    body := { seqNum := 1, view := 1, proposalDigest := [], partNum := 1, totalParts := 1, rows := []
              lastExecuted := List.replicate 3 PoSeqPair.zero } }

/-- The proposal its slot assembles. -/
def firstComplete : CompletePrePrepare :=
  { CompletePrePrepare.null threeServers.toConfig with seqNum := 1, view := 1, proposalDigest := [] }

/-- The leader proposes, one Prepare certifies, two Commits order; the third
server hears nothing. -/
def firstRun : List (Lib.Event (Msg CompletePrePrepare) Action) :=
  let prepare := constructPrepare threeServers.toConfig id (firstView.node 2) 2 firstComplete
  let commit (i : Nat) := constructCommit threeServers.toConfig id (firstView.node i) i firstComplete
  [.handle 1 (.act (.propose firstProposal)), .handle 1 (.msg (.prePrepare firstProposal)),
   .handle 2 (.msg (.prePrepare firstProposal)), .handle 1 (.msg (.prepare prepare)),
   .handle 2 (.msg (.prepare prepare)), .handle 1 (.msg (.commit (commit 1))),
   .handle 2 (.msg (.commit (commit 2))), .handle 1 (.msg (.commit (commit 2))),
   .handle 2 (.msg (.commit (commit 1)))]

/-- The slot of the first sequence number after `firstRun`. -/
def firstSlot (p : Nat) : Option (OrdSlot CompletePrePrepare) :=
  ((firstView.run (env threeServers) (handle threeServers.toConfig id) firstRun).node p).slot? 1

theorem ordered_agree_threeServers : ∃ slotP slotQ, firstSlot 1 = some slotP ∧ firstSlot 2 = some slotQ ∧
    slotP.ordered = true ∧ slotP.completePrePrepare = slotQ.completePrePrepare := by
  have hmarked : ∀ p ∈ [1, 2], (firstSlot p).any
      (fun slot => slot.ordered && decide (slot.completePrePrepare.view = 1)) = true := by decide +kernel
  have hslot : ∀ p ∈ [1, 2], ∃ slot, firstSlot p = some slot ∧ slot.ordered = true ∧
      slot.completePrePrepare.view = 1 := by
    intro p hp
    obtain ⟨slot, hget, h⟩ := (Option.any_eq_true _ _).mp (hmarked p hp)
    obtain ⟨ho, hv⟩ := Bool.and_eq_true_iff.mp h
    exact ⟨slot, hget, ho, of_decide_eq_true hv⟩
  have hentry : ViewEntry threeServers 1 firstView :=
    ⟨fun _ => rfl, fun _ _ _ h => (nomatch h), fun _ h => (nomatch h)⟩
  obtain ⟨slotP, hP, hordP, hviewP⟩ := hslot 1 (by simp)
  obtain ⟨slotQ, hQ, hordQ, hviewQ⟩ := hslot 2 (by simp)
  exact ⟨slotP, slotQ, hP, hQ, hordP,
    ordered_agree threeServers Function.injective_id hentry (List.prefix_refl firstRun)
      (List.prefix_refl firstRun) (by decide) (by decide) (by decide) hP hQ hordP hordQ hviewP hviewQ⟩

end Spire.Order
