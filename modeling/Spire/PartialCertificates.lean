import Spire.Jumps

/-!
# Ordinal certificates that are taken in part

`CATCH_Process_ORD_Certificate` sets up a slot for the messages of a certificate before it hands them to
their handlers: the slot takes the vector of the first Commit as its snapshot and loses the Commits it had.
The comment there asks for a certificate that is validated. Validation does not compare views, senders
and vectors, though, and the handlers do, with the view of the server and with the slot. Where a handler drops one
of the messages, the rest stays, and the slot is taken for one whose certificate was applied: the handler returns
at the snapshot of a slot, so that the same certificate gets no further when it comes again.

`ordCert_leaves_iff` says for which certificates that does not happen. They are those the handler turns away
before it sets up the slot, and those of which every message is taken.
-/

namespace Spire.Ordinals

open Spire.Order

variable {D : Type}

/-! ## What the handler does with a certificate -/

/-- What `VAL_Validate_ORD_Certificate` has checked, apart from digests. -/
structure OrdCert.Validated (c : Config) (cert : OrdCert D) : Prop where
  prePrepare : validated c (Msg.prePrepare (D := D) cert.prePrepare) = true
  rows : cert.prePrepare.body.rows.length ≤ c.numServers
  length : cert.commits.length = c.quorum
  commits : ∀ commit ∈ cert.commits, validated c (.commit commit) = true ∧ commit.body.seqNum = cert.seqNum

/-- The message that is handed to its handler next. -/
def Node.handles (nd : Node D) : Option (Msg D) :=
  match nd.running, nd.call, nd.calls with
  | true, none, .message mess :: _ => some mess
  | _, _, _ => none

/-- The handler of a message returned before it stored the message. A part that was there already stays. -/
def Rejected (c : Config) (before after : Node D) : Msg D → Prop
  | .prePrepare mess =>
    (after.ord.getOrdSlot c mess.body.seqNum).prePrepareParts mess.body.partNum ≠ some mess
  | .prepare mess =>
    (after.ord.getOrdSlot c mess.body.seqNum).prepare = (before.ord.getOrdSlot c mess.body.seqNum).prepare
  | .commit mess =>
    (after.ord.getOrdSlot c mess.body.seqNum).commit = (before.ord.getOrdSlot c mess.body.seqNum).commit

section Code

variable [DecidableEq D] (c : Config) (catchupHistory : Nat) (digest : CompletePrePrepare → D) (me : Nat)
  (ready : Nat → Requests) (nd : Node D) (cert : OrdCert D)

/-- A server after `k` steps of a call of `CATCH_Process_ORD_Certificate`. -/
def during : Nat → Node D
  | 0 => step c catchupHistory digest me nd (.ordCert cert)
  | k + 1 => step c catchupHistory digest me (during k) (.proceed ready)

/-- One of the messages of the certificate, the Pre-Prepare and `2f + k + 1` Commits, is rejected. -/
def RejectsSome : Prop :=
  ∃ k ≤ c.quorum, ∃ mess, (during c catchupHistory digest me ready nd cert k).handles = some mess ∧
    Rejected c (during c catchupHistory digest me ready nd cert k)
      (during c catchupHistory digest me ready nd cert (k + 1)) mess

/-- The handler hands over the messages of the certificate. -/
def Applies : Prop := (processOrdCertificate c digest me nd cert).calls ≠ nd.calls

/-- The slot of the certificate is as it was, and every certificate for the ordinal that would have been applied
still is. -/
structure SlotLeft (nd' : Node D) (seqNum : Nat) : Prop where
  commit : (nd'.ord.getOrdSlot c seqNum).commit = (nd.ord.getOrdSlot c seqNum).commit
  snapshot : (nd'.ord.getOrdSlot c seqNum).snapshot = (nd.ord.getOrdSlot c seqNum).snapshot
  preinstalledSnapshot : (nd'.ord.getOrdSlot c seqNum).preinstalledSnapshot =
    (nd.ord.getOrdSlot c seqNum).preinstalledSnapshot
  prepareCertificateReady : (nd'.ord.getOrdSlot c seqNum).prepareCertificateReady =
    (nd.ord.getOrdSlot c seqNum).prepareCertificateReady
  ordered : (nd'.ord.getOrdSlot c seqNum).ordered = (nd.ord.getOrdSlot c seqNum).ordered
  later : ∀ cert : OrdCert D, cert.Validated c → cert.seqNum = seqNum → Applies c digest me nd cert →
    Applies c digest me nd' cert

/-- The error path leaves the slot intact. -/
def LeavesSlot : Prop :=
  RejectsSome c catchupHistory digest me ready nd cert →
    SlotLeft c digest me nd (during c catchupHistory digest me ready nd cert (c.quorum + 1)) cert.seqNum

/-! ## Which messages are taken -/

/-- The slot of a certificate, unless it makes room because the certificate enters a view. -/
def openedSlot : OrdSlot D :=
  if entersView nd cert ∧ (nd.slot? cert.seqNum).any
      fun slot => decide (cert.seqNum ≤ slot.seqNum) && decide (slot.view ≤ nd.ord.view) then
    OrdSlot.new c cert.seqNum
  else nd.ord.getOrdSlot c cert.seqNum

/-- The slot the messages meet, which drops another proposal. -/
def targetSlot : OrdSlot D :=
  let slot := openedSlot c nd cert
  if slot.collectedAllParts = true ∧ digest slot.completePrePrepare ≠ digest (cert.proposal c) then
    OrdSlot.new c cert.seqNum
  else slot

/-- The certificate is turned away before its slot is set up. -/
def TurnedAway : Prop :=
  cert.sender = me ∨ cert.prePrepare.body.proposalDigest ≠ nd.ord.proposalDigest ∨ cert.type ≠ .commit ∨
    cert.seqNum ≤ nd.ord.aru ∨ (nd.slot? cert.seqNum).any OrdSlot.ordered = true ∨
    (openedSlot c nd cert).snapshot = true

/-- A message of view `view` passes the view tests of the handlers. -/
def PassesView (view : Nat) : Prop :=
  if entersView nd cert then view = cert.view else nd.ord.acceptsView view = some true

/-- The slot has the Pre-Prepare, or has room for it, and then its view and its sender are right. -/
def TakesPrePrepare : Prop :=
  let slot := targetSlot c digest nd cert
  let pp := cert.prePrepare
  slot.prePrepareParts 1 = some pp ∨
    PassesView nd cert pp.body.view ∧ pp.machineId = c.leaderOfView pp.body.view ∧ slot.collectedAllParts = false ∧
      slot.prePrepareParts 1 = none ∧
      (slot.numPartsCollected = 0 ∨
        slot.view = pp.body.view ∧ slot.view ≠ if entersView nd cert then cert.view else nd.ord.view)

/-- Every message of the certificate is taken. -/
structure TakesAll : Prop where
  prePrepare : TakesPrePrepare c digest nd cert
  views : ∀ commit ∈ cert.commits, PassesView nd cert commit.body.view
  vectors : ∀ commit ∈ cert.commits, commit.body.preinstalledIncarnations = cert.vector
  senders : (cert.commits.map Signed.machineId).Nodup

end Code

/-! ## What the handlers of the messages leave alone -/

/-- A slot without what `ORDER_Send_Prepares` writes. -/
def unprepared (slot : OrdSlot D) : OrdSlot D :=
  { slot with sentPrepare := false, madeEligible := [], populatedEligible := false }

section Frames

variable {c : Config} {digest : CompletePrePrepare → D} {me seq : Nat} {st st' st'' : Order.Node D} {nd nd' nd'' : Node D}

@[simp] theorem unprepared_populateEligible (slot : OrdSlot D) (pp : CompletePrePrepare) :
    unprepared (populateEligible c slot pp) = unprepared slot := by
  unfold populateEligible
  split <;> rfl

@[simp] theorem unprepared_acceptProposal (slot : OrdSlot D) : unprepared (acceptProposal c slot) = unprepared slot :=
  unprepared_populateEligible slot slot.completePrePrepare

theorem sendPreparesLoop_unprepared (fuel : Nat) (st : Order.Node D) (out : List (Msg D)) (s : Nat) :
    ((sendPreparesLoop c digest me fuel st out).1.slot? s).map unprepared = (st.slot? s).map unprepared := by
  induction fuel generalizing st out with
  | zero => rfl
  | succ fuel ih =>
    rw [sendPreparesLoop]
    split
    · rfl
    rename_i slot hget
    split
    · rfl
    split
    · exact ih st.advancePpAru out
    split
    · rfl
    split
    · rfl
    · rfl
    · rw [ih]
      show ((st.putOrdSlot (st.ppAru + 1) (acceptProposal c slot)).slot? s).map unprepared = _
      by_cases hs : s = st.ppAru + 1
      · rw [hs, Order.Node.slot?_putOrdSlot_self, hget]
        simp
      · rw [Order.Node.slot?_putOrdSlot_of_ne st _ hs]

theorem sendPrepares_unprepared (st : Order.Node D) (s : Nat) :
    ((Order.sendPrepares c digest me st).1.slot? s).map unprepared = (st.slot? s).map unprepared := by
  have hloop : ((sendPreparesLoop c digest me (st.history.keys.length + 1) st []).1.slot? s).map unprepared =
      (st.slot? s).map unprepared := sendPreparesLoop_unprepared _ st [] s
  unfold Order.sendPrepares
  split
  · rename_i hr
    rw [hr] at hloop
    exact hloop
  · rename_i hr
    rw [hr] at hloop
    split
    · exact hloop
    · exact hloop

/-- The view, the ordinals and views of the slots, and the snapshot of the slot at `seq` once it is taken. -/
structure Undisturbed (c : Config) (seq : Nat) (st st' : Order.Node D) : Prop where
  mode : SameMode st st'
  aru : st'.aru = st.aru
  others : ∀ s, s ≠ seq →
    (st'.slot? s).map (fun slot => (slot.seqNum, slot.view)) = (st.slot? s).map fun slot => (slot.seqNum, slot.view)
  own : (st.getOrdSlot c seq).snapshot = true → (st'.getOrdSlot c seq).snapshot = true ∧
    (st'.getOrdSlot c seq).preinstalledSnapshot = (st.getOrdSlot c seq).preinstalledSnapshot

namespace Undisturbed

theorem trans (h : Undisturbed c seq st st') (h' : Undisturbed c seq st' st'') : Undisturbed c seq st st'' where
  mode := h.mode.trans h'.mode
  aru := h'.aru.trans h.aru
  others s hs := (h'.others s hs).trans (h.others s hs)
  own hsnap :=
    let hown := h.own hsnap
    ⟨(h'.own hown.1).1, (h'.own hown.1).2.trans hown.2⟩

/-- No slot changes. -/
theorem frame (hmode : SameMode st st') (haru : st'.aru = st.aru) (hhistory : st'.history = st.history) :
    Undisturbed c seq st st' := by
  have hslot : ∀ s, st'.slot? s = st.slot? s := fun s => by rw [Order.Node.slot?, hhistory, Order.Node.slot?]
  refine ⟨hmode, haru, fun s _ => by rw [hslot], fun hsnap => ?_⟩
  rw [Order.Node.getOrdSlot, hslot]
  exact ⟨hsnap, rfl⟩

/-- The slot at `seq` is put. -/
theorem put {slot : OrdSlot D} (hsnap : (st.getOrdSlot c seq).snapshot = true → slot.snapshot = true ∧
      slot.preinstalledSnapshot = (st.getOrdSlot c seq).preinstalledSnapshot) :
    Undisturbed c seq st (st.putOrdSlot seq slot) := by
  refine ⟨⟨rfl, rfl⟩, rfl, fun s hs => ?_, fun h => ?_⟩
  · rw [Order.Node.slot?_putOrdSlot_of_ne st slot hs]
  · rw [getOrdSlot_putOrdSlot_self]
    exact hsnap h

/-- A message of an ordinal that is not executed yet passes the view tests as before. -/
theorem acceptsView (h : Undisturbed c seq st st') (hlt : st.aru < seq) (view : Nat) :
    st'.acceptsView view = st.acceptsView view := by
  have hlast := h.others st.aru (Nat.ne_of_lt hlt)
  unfold Order.Node.acceptsView
  rw [h.mode.view, h.mode.viewChangeDone, h.aru]
  cases hslot : st.slot? st.aru with
  | none =>
    rw [hslot, Option.map_none, Option.map_eq_none_iff] at hlast
    rw [hlast]
  | some slot =>
    rw [hslot, Option.map_some, Option.map_eq_some_iff] at hlast
    obtain ⟨slot', hslot', heq⟩ := hlast
    have hview : slot'.view = slot.view := congrArg Prod.snd heq
    simp only [hslot', hview]

end Undisturbed

/-- What is left of a server when only the white lines and what was reconciled and forwarded changes. -/
structure OnlyLines (nd nd' : Node D) : Prop where
  history : nd'.ord.history = nd.ord.history
  mode : SameMode nd.ord nd'.ord
  aru : nd'.ord.aru = nd.ord.aru
  call : nd'.call = nd.call
  calls : nd'.calls = nd.calls

theorem OnlyLines.refl (nd : Node D) : OnlyLines nd nd := ⟨rfl, .refl _, rfl, rfl, rfl⟩

theorem OnlyLines.trans (h : OnlyLines nd nd') (h' : OnlyLines nd' nd'') : OnlyLines nd nd'' :=
  ⟨h'.history.trans h.history, h.mode.trans h'.mode, h'.aru.trans h.aru, h'.call.trans h.call, h'.calls.trans h.calls⟩

theorem OnlyLines.slot? (h : OnlyLines nd nd') (s : Nat) : nd'.ord.slot? s = nd.ord.slot? s := by
  rw [Order.Node.slot?, h.history, Order.Node.slot?]

theorem floodPrePrepare_lines (nd : Node D) (seq : Nat) (slot : OrdSlot D) : OnlyLines nd (floodPrePrepare nd seq slot) := by
  unfold floodPrePrepare
  dsimp only
  split
  · exact ⟨rfl, ⟨rfl, rfl⟩, rfl, rfl, rfl⟩
  · exact ⟨rfl, ⟨rfl, rfl⟩, rfl, rfl, rfl⟩

theorem reconFrom_lines (before : Nat) (nd : Node D) : OnlyLines nd (reconFrom c before nd) := by
  have hrecon : ∀ (nd : Node D) seq, OnlyLines nd (doRecon c nd seq) := by
    intro nd seq
    unfold doRecon
    split
    · exact .refl nd
    · dsimp only
      repeat' split
      all_goals exact ⟨rfl, ⟨rfl, rfl⟩, rfl, rfl, rfl⟩
  unfold reconFrom
  generalize List.range' (before + 1) (nd.ord.ppAru - before) = seqs
  induction seqs generalizing nd with
  | nil => exact .refl nd
  | cons seq seqs ih =>
    refine OnlyLines.trans ?_ (ih (reconPrepared c nd seq))
    unfold reconPrepared Node.andThen
    dsimp only
    split
    · split
      · exact hrecon nd seq
      · exact .refl nd
    · exact .refl nd

end Frames

/-! ## The Pre-Prepare -/

/-- What a certificate puts into a slot. -/
def collected (slot : OrdSlot D) :
    (Nat → Option (Signed PrePrepare)) × (Nat → Option (Signed (Vouch D))) × Bool × List Nat :=
  (slot.prePrepareParts, slot.commit, slot.snapshot, slot.preinstalledSnapshot)

section PrePrepares

variable {c : Config} {digest : CompletePrePrepare → D} {me seq : Nat} {st : Order.Node D} {nd : Node D} {mess : Signed PrePrepare}

theorem collected_of_unprepared {slot slot' : OrdSlot D} (h : unprepared slot' = unprepared slot) :
    collected slot' = collected slot := by
  show collected (unprepared slot') = collected (unprepared slot)
  rw [h]

@[simp] theorem collected_slotFor (slot : OrdSlot D) (pp : PrePrepare) : collected (slotFor slot pp) = collected slot := by
  unfold slotFor
  split <;> rfl

theorem slotFor_collectedAllParts (slot : OrdSlot D) (pp : PrePrepare) :
    (slotFor slot pp).collectedAllParts = slot.collectedAllParts := by
  unfold slotFor
  split <;> rfl

theorem slotFor_of_ne_zero {slot : OrdSlot D} {pp : PrePrepare} (h : slot.numPartsCollected ≠ 0) : slotFor slot pp = slot :=
  if_neg h

variable [DecidableEq D]

theorem collected_certifyIfReady (st : Order.Node D) (slot : OrdSlot D) :
    collected (certifyIfReady c digest me st slot).1 = collected slot := by
  unfold certifyIfReady certifyPrepared
  dsimp only
  repeat' split
  all_goals rfl

/-- What the handler of a Pre-Prepare does to the ordinals of a server. The slot at `seq` has `parts` then. -/
structure Handled (c : Config) (seq : Nat) (parts : Nat → Option (Signed PrePrepare)) (nd nd' : Node D) : Prop where
  undisturbed : Undisturbed c seq nd.ord nd'.ord
  call : nd'.call = nd.call
  calls : nd'.calls = nd.calls
  own : collected (nd'.ord.getOrdSlot c seq) = (parts, (collected (nd.ord.getOrdSlot c seq)).2)

omit [DecidableEq D] in
/-- The slot at `seq` is put, with the parts it had. -/
theorem Handled.put {slot : OrdSlot D} {st : Order.Node D} (hslot : collected slot = collected (nd.ord.getOrdSlot c seq))
    (hmode : SameMode nd.ord st) (haru : st.aru = nd.ord.aru) (hhistory : st.history = (nd.ord.putOrdSlot seq slot).history) :
    Handled c seq (nd.ord.getOrdSlot c seq).prePrepareParts nd (nd.withOrd st) := by
  have hown : st.getOrdSlot c seq = slot := by
    rw [Order.Node.getOrdSlot, Order.Node.slot?, hhistory]
    exact getOrdSlot_putOrdSlot_self nd.ord seq slot
  have hput : Undisturbed c seq nd.ord (nd.ord.putOrdSlot seq slot) := by
    refine .put fun hsnap => ⟨?_, ?_⟩
    · exact (congrArg (fun p => p.2.2.1) hslot).trans hsnap
    · exact congrArg (fun p => p.2.2.2) hslot
  exact ⟨hput.trans (.frame ⟨hmode.view, hmode.viewChangeDone⟩ haru hhistory), rfl, rfl,
    (congrArg collected hown).trans hslot⟩

/-- A part that completes its proposal is stored. -/
theorem proposalComplete_others (seq : Nat) (slot : OrdSlot D) {s : Nat} (hs : s ≠ seq) :
    ((proposalComplete c digest me st seq slot).1.slot? s).map unprepared = (st.slot? s).map unprepared := by
  have hnote : ∀ (st : Order.Node D) (slot : OrdSlot D) (s : Nat), (st.noteHighPrepared slot).slot? s = st.slot? s := by
    intro st slot s
    unfold Order.Node.noteHighPrepared
    split <;> rfl
  unfold proposalComplete
  dsimp only
  split
  · rw [hnote, Order.Node.slot?_putOrdSlot_of_ne st _ hs]
  · rw [sendPrepares_unprepared, hnote, Order.Node.slot?_putOrdSlot_of_ne st _ hs]

theorem proposalComplete_own (seq : Nat) (slot : OrdSlot D) :
    collected ((proposalComplete c digest me st seq slot).1.getOrdSlot c seq) = collected slot := by
  have hput : ∀ r : OrdSlot D, ((st.putOrdSlot seq r).noteHighPrepared r).slot? seq = some r := by
    intro r
    unfold Order.Node.noteHighPrepared
    split
    · exact st.slot?_putOrdSlot_self seq r
    · exact st.slot?_putOrdSlot_self seq r
  have hcert : collected (certifyIfReady c digest me st slot.markCollected).1 = collected slot :=
    collected_certifyIfReady st slot.markCollected
  unfold proposalComplete
  dsimp only
  rw [← hcert]
  generalize (certifyIfReady c digest me st slot.markCollected).1 = r
  split
  · rw [getOrdSlot_of_slot? (hput r)]
  · have hsend : ((Order.sendPrepares c digest me ((st.putOrdSlot seq r).noteHighPrepared r)).1.slot? seq).map unprepared =
        some (unprepared r) := by
      rw [sendPrepares_unprepared, hput]
      rfl
    obtain ⟨slot', hslot', heq⟩ := Option.map_eq_some_iff.mp hsend
    rw [getOrdSlot_of_slot? hslot', collected_of_unprepared heq]

theorem proposalComplete_aru (seq : Nat) (slot : OrdSlot D) : (proposalComplete c digest me st seq slot).1.aru = st.aru := by
  have hnote : ∀ r : OrdSlot D, ((st.putOrdSlot seq r).noteHighPrepared r).aru = st.aru := by
    intro r
    unfold Order.Node.noteHighPrepared
    split <;> rfl
  unfold proposalComplete
  dsimp only
  split
  · exact hnote _
  · exact (sendPrepares_grows _).aru.trans (hnote _)

/-- A part is stored in a slot that was put. -/
theorem store_handled {slot : OrdSlot D} {index : Nat} (hslot : collected slot = collected (nd.ord.getOrdSlot c seq))
    (hpart : mess.body.partNum = 1) :
    let slot' := storePart slot mess index
    let nd' := floodPrePrepare ((nd.putSlot seq slot).putSlot seq slot') seq slot'
    Handled c seq (Function.update (nd.ord.getOrdSlot c seq).prePrepareParts 1 (some mess)) nd
      (if slot'.numPartsCollected < slot'.totalParts then nd'
      else reconFrom c nd'.ord.ppAru (nd'.withOrd (proposalComplete c digest me nd'.ord seq slot').1)) := by
  intro slot' nd'
  have hflood : OnlyLines ((nd.putSlot seq slot).putSlot seq slot') nd' := floodPrePrepare_lines _ seq slot'
  have hparts : collected slot' =
      (Function.update (nd.ord.getOrdSlot c seq).prePrepareParts 1 (some mess), (collected (nd.ord.getOrdSlot c seq)).2) := by
    show (Function.update slot.prePrepareParts mess.body.partNum (some mess), (collected slot).2) = _
    have hprevious : slot.prePrepareParts = (nd.ord.getOrdSlot c seq).prePrepareParts := congrArg Prod.fst hslot
    rw [hpart, hslot, hprevious]
  have hstored : SameMode nd.ord nd'.ord := ⟨hflood.mode.view, hflood.mode.viewChangeDone⟩
  have hput : ∀ s, s ≠ seq → nd'.ord.slot? s = nd.ord.slot? s := by
    intro s hs
    rw [hflood.slot?]
    show ((nd.ord.putOrdSlot seq slot).putOrdSlot seq slot').slot? s = _
    rw [Order.Node.slot?_putOrdSlot_of_ne _ _ hs, Order.Node.slot?_putOrdSlot_of_ne _ _ hs]
  have hself : nd'.ord.slot? seq = some slot' := by
    rw [hflood.slot?]
    exact Order.Node.slot?_putOrdSlot_self _ seq slot'
  have hkeeps : ∀ own : OrdSlot D, collected own = collected slot' → (nd.ord.getOrdSlot c seq).snapshot = true →
      own.snapshot = true ∧ own.preinstalledSnapshot = (nd.ord.getOrdSlot c seq).preinstalledSnapshot := by
    intro own hown hsnap
    rw [hparts] at hown
    exact ⟨(congrArg (fun p => p.2.2.1) hown).trans hsnap, congrArg (fun p => p.2.2.2) hown⟩
  split
  · refine ⟨⟨hstored, hflood.aru, fun s hs => by rw [hput s hs], hkeeps _ ?_⟩, hflood.call, hflood.calls, ?_⟩
    · rw [getOrdSlot_of_slot? hself]
    · rw [getOrdSlot_of_slot? hself, hparts]
  · generalize hcomplete : (proposalComplete c digest me nd'.ord seq slot').1 = ord
    have hrecon : OnlyLines (nd'.withOrd ord) (reconFrom c nd'.ord.ppAru (nd'.withOrd ord)) := reconFrom_lines _ _
    have hown : collected ((reconFrom c nd'.ord.ppAru (nd'.withOrd ord)).ord.getOrdSlot c seq) = collected slot' := by
      rw [Order.Node.getOrdSlot, hrecon.slot?, ← Order.Node.getOrdSlot]
      show collected (ord.getOrdSlot c seq) = _
      rw [← hcomplete]
      exact proposalComplete_own seq slot'
    have hmode : SameMode nd.ord ord := by
      rw [← hcomplete]
      exact hstored.trans (proposalComplete_mode c digest me nd'.ord seq slot')
    have haru : ord.aru = nd.ord.aru := by
      rw [← hcomplete, proposalComplete_aru]
      exact hflood.aru
    refine ⟨⟨hmode.trans hrecon.mode, hrecon.aru.trans haru, fun s hs => ?_, hkeeps _ hown⟩, hrecon.call.trans hflood.call,
      hrecon.calls.trans hflood.calls, hown.trans hparts⟩
    have hothers : (ord.slot? s).map unprepared = (nd.ord.slot? s).map unprepared := by
      rw [← hcomplete, proposalComplete_others seq slot' hs, hput s hs]
    rw [hrecon.slot?]
    have hface := congrArg (Option.map fun slot : OrdSlot D => (slot.seqNum, slot.view)) hothers
    rwa [Option.map_map, Option.map_map] at hface

/-- A Pre-Prepare of an ordinal that is not executed yet is in its slot after its handler. -/
def TakesPart (c : Config) (nd : Node D) (mess : Signed PrePrepare) : Prop :=
  let slot := nd.ord.getOrdSlot c mess.body.seqNum
  slot.prePrepareParts 1 = some mess ∨
    nd.ord.acceptsView mess.body.view = some true ∧ mess.machineId = c.leaderOfView mess.body.view ∧
      slot.collectedAllParts = false ∧ slot.prePrepareParts 1 = none ∧
      (slot.numPartsCollected = 0 ∨ slot.view = mess.body.view ∧ slot.view ≠ nd.ord.view)

variable (c digest me nd mess) in
theorem processPrePrepare_handled (hlt : nd.ord.aru < mess.body.seqNum)
    (hdigest : mess.body.proposalDigest = nd.ord.proposalDigest) (hpart : mess.body.partNum = 1)
    (hrows : mess.body.rows.length ≤ c.numServers) :
    ∃ parts, Handled c mess.body.seqNum parts nd (processPrePrepare c digest me nd mess) ∧
      (parts 1 = some mess ↔ TakesPart c nd mess) := by
  have hkept : ∀ ord : Order.Node D, SameMode nd.ord ord → ord.aru = nd.ord.aru → ord.history = nd.ord.history →
      Handled c mess.body.seqNum (nd.ord.getOrdSlot c mess.body.seqNum).prePrepareParts nd (nd.withOrd ord) := by
    intro ord hmode haru hhistory
    refine ⟨.frame hmode haru hhistory, rfl, rfl, ?_⟩
    show collected (ord.getOrdSlot c mess.body.seqNum) = _
    rw [Order.Node.getOrdSlot, Order.Node.slot?, hhistory]
    rfl
  have hlines : ¬(mess.body.seqNum ≤ nd.ord.forwardingWhiteLine ∧ mess.body.seqNum + 1 ≤ nd.ord.reconWhiteLine ∧
      mess.body.seqNum + 1 ≤ nd.ord.aru) := fun h => by omega
  unfold processPrePrepare TakesPart
  dsimp only
  rw [if_neg (not_not.mpr hdigest), if_neg hlines]
  cases hview : nd.ord.acceptsView mess.body.view with
  | none => exact ⟨_, hkept nd.ord.halt ⟨rfl, rfl⟩ rfl rfl, by simp⟩
  | some accepted =>
    cases accepted with
    | false => exact ⟨_, hkept nd.ord (.refl _) rfl rfl, by simp⟩
    | true =>
      dsimp only
      split
      · rename_i hleader
        exact ⟨_, hkept nd.ord (.refl _) rfl rfl, by simp [hleader]⟩
      rename_i hleader
      rw [not_not] at hleader
      have hslot := collected_slotFor (nd.ord.getOrdSlot c mess.body.seqNum) mess.body
      have hdrop : ∀ st : Order.Node D, SameMode nd.ord st → st.aru = nd.ord.aru →
          st.history = (nd.ord.putOrdSlot mess.body.seqNum (slotFor (nd.ord.getOrdSlot c mess.body.seqNum) mess.body)).history →
          Handled c mess.body.seqNum (nd.ord.getOrdSlot c mess.body.seqNum).prePrepareParts nd (nd.withOrd st) :=
        fun _ => .put hslot
      have hparts : (slotFor (nd.ord.getOrdSlot c mess.body.seqNum) mess.body).prePrepareParts =
          (nd.ord.getOrdSlot c mess.body.seqNum).prePrepareParts := congrArg Prod.fst hslot
      have hdone := slotFor_collectedAllParts (nd.ord.getOrdSlot c mess.body.seqNum) mess.body
      have hlater : ((nd.ord.getOrdSlot c mess.body.seqNum).numPartsCollected == 0) = false →
          (nd.ord.getOrdSlot c mess.body.seqNum).numPartsCollected ≠ 0 ∧
            (slotFor (nd.ord.getOrdSlot c mess.body.seqNum) mess.body).view = (nd.ord.getOrdSlot c mess.body.seqNum).view :=
        fun hfirst => ⟨beq_eq_false_iff_ne.mp hfirst, by rw [slotFor_of_ne_zero (beq_eq_false_iff_ne.mp hfirst)]⟩
      unfold collectPart
      rw [hparts, hdone, hpart]
      split
      · rename_i hother
        obtain ⟨hne, hsame⟩ := hlater hother.1
        rw [hsame] at hother
        exact ⟨_, hdrop _ ⟨rfl, rfl⟩ rfl rfl, by simp [hne, hother.2]⟩
      rename_i hother
      split
      · rename_i hinconsistent
        obtain ⟨hne, hsame⟩ := hlater hinconsistent.1
        rw [hsame] at hinconsistent
        have hview' : (nd.ord.getOrdSlot c mess.body.seqNum).view = nd.ord.view := hinconsistent.2.1
        exact ⟨_, hdrop _ ⟨rfl, rfl⟩ rfl rfl, by simp [hne, hview']⟩
      rename_i hinconsistent
      split
      · rename_i hcomplete
        exact ⟨_, hdrop _ ⟨rfl, rfl⟩ rfl rfl, by simp [hcomplete]⟩
      rename_i hcomplete
      split
      · rename_i hthere
        exact ⟨_, hdrop _ ⟨rfl, rfl⟩ rfl rfl, by simp [Option.ne_none_iff_isSome.mpr hthere]⟩
      rename_i hthere
      rw [if_neg (by omega)]
      refine ⟨_, store_handled hslot hpart, ?_⟩
      have hnone := Option.not_isSome_iff_eq_none.mp hthere
      refine iff_of_true (Function.update_self ..) (.inr ⟨rfl, hleader, Bool.eq_false_iff.mpr hcomplete, hnone, ?_⟩)
      by_cases hfirst : (nd.ord.getOrdSlot c mess.body.seqNum).numPartsCollected = 0
      · exact .inl hfirst
      · obtain ⟨-, hsame⟩ := hlater (beq_eq_false_iff_ne.mpr hfirst)
        rw [hsame] at hother hinconsistent
        refine .inr ⟨not_not.mp fun hne => hother ⟨beq_eq_false_iff_ne.mpr hfirst, hne⟩, fun hview' => ?_⟩
        exact hinconsistent ⟨beq_eq_false_iff_ne.mpr hfirst, hview', by simp [hnone]⟩

end PrePrepares

/-! ## The Commits -/

section Commits

variable [DecidableEq D] {c : Config} {digest : CompletePrePrepare → D} {st : Order.Node D} {nd : Node D}
  {mess : Signed (Vouch D)}

theorem collected_moveCommitCertificate (st : Order.Node D) (slot : OrdSlot D) :
    collected (moveCommitCertificate c digest st slot) = (slot.prePrepareParts, slot.commit, true,
      if slot.snapshot then slot.preinstalledSnapshot else st.preinstalledIncarnations) :=
  collected_of_unprepared (unprepared_populateEligible (c := c) _ slot.proposal)

/-- A Commit of the ordinal `seq`, which is not executed yet, gets past the tests of its handler. -/
structure TakesCommit (c : Config) (seq : Nat) (st : Order.Node D) (mess : Signed (Vouch D)) : Prop where
  view : st.acceptsView mess.body.view = some true
  first : (st.getOrdSlot c seq).commit mess.machineId = none
  vector : mess.body.preinstalledIncarnations = st.expectedIncarnations (st.getOrdSlot c seq)

/-- What `ORDER_Process_Commit` does to the ordinals. -/
structure Committed (c : Config) (seq : Nat) (st st' : Order.Node D) (mess : Signed (Vouch D)) : Prop where
  undisturbed : Undisturbed c seq st st'
  taken : TakesCommit c seq st mess →
    (st'.getOrdSlot c seq).commit = Function.update (st.getOrdSlot c seq).commit mess.machineId (some mess)
  dropped : ¬TakesCommit c seq st mess → (st'.getOrdSlot c seq).commit = (st.getOrdSlot c seq).commit
  ordered : (st.getOrdSlot c seq).ordered = false → (st'.getOrdSlot c seq).ordered = true →
    c.quorum ≤ Lib.tally c.numServers fun s => ((st'.getOrdSlot c seq).commit s).isSome

theorem processCommit_committed {seq : Nat} (hseq : mess.body.seqNum = seq) (hlt : st.aru < seq) :
    Committed c seq st (Order.processCommit c digest st mess) mess := by
  subst hseq
  have hdrop : ∀ st' : Order.Node D, SameMode st st' → st'.aru = st.aru →
      st'.getOrdSlot c mess.body.seqNum = st.getOrdSlot c mess.body.seqNum →
      (∀ s, s ≠ mess.body.seqNum → st'.slot? s = st.slot? s) → ¬TakesCommit c mess.body.seqNum st mess →
      Committed c mess.body.seqNum st st' mess := by
    intro st' hmode haru hown hothers hnot
    refine ⟨⟨hmode, haru, fun s hs => by rw [hothers s hs], ?_⟩, fun h => absurd h hnot, ?_, ?_⟩
    · rw [hown]
      exact fun hsnap => ⟨hsnap, rfl⟩
    · rw [hown]
      exact fun _ => rfl
    · rw [hown]
      exact fun hopen hdone => by rw [hopen] at hdone; cases hdone
  unfold Order.processCommit
  dsimp only
  rw [if_neg (Nat.not_le_of_lt hlt)]
  cases hview : st.acceptsView mess.body.view with
  | none => exact hdrop st.halt ⟨rfl, rfl⟩ rfl rfl (fun _ _ => rfl) fun h => by simpa [hview] using h.view
  | some accepted =>
    cases accepted with
    | false => exact hdrop st (.refl st) rfl rfl (fun _ _ => rfl) fun h => by simpa [hview] using h.view
    | true =>
      have hput : ∀ {s}, s ≠ mess.body.seqNum → ∀ slot : OrdSlot D, (st.putOrdSlot mess.body.seqNum slot).slot? s = st.slot? s :=
        fun hs slot => st.slot?_putOrdSlot_of_ne slot hs
      dsimp only
      split
      · rename_i hthere
        refine hdrop _ ⟨rfl, rfl⟩ rfl (getOrdSlot_putOrdSlot_self ..) (fun s hs => hput hs _) fun h => ?_
        rw [h.first] at hthere
        cases hthere
      rename_i hthere
      split
      · rename_i hvector
        exact hdrop _ ⟨rfl, rfl⟩ rfl (getOrdSlot_putOrdSlot_self ..) (fun s hs => hput hs _) fun h => hvector h.vector
      rename_i hvector
      have htakes : TakesCommit c mess.body.seqNum st mess := ⟨hview, Option.not_isSome_iff_eq_none.mp hthere, not_not.mp hvector⟩
      have hstore : ∀ (st' : Order.Node D) (slot : OrdSlot D), SameMode st st' → st'.aru = st.aru →
          st'.history = (st.putOrdSlot mess.body.seqNum slot).history →
          slot.commit = Function.update (st.getOrdSlot c mess.body.seqNum).commit mess.machineId (some mess) →
          ((st.getOrdSlot c mess.body.seqNum).snapshot = true → slot.snapshot = true ∧
            slot.preinstalledSnapshot = (st.getOrdSlot c mess.body.seqNum).preinstalledSnapshot) →
          ((st.getOrdSlot c mess.body.seqNum).ordered = false → slot.ordered = true →
            c.quorum ≤ Lib.tally c.numServers fun s => (slot.commit s).isSome) →
          Committed c mess.body.seqNum st st' mess := by
        intro st' slot hmode haru hhistory hcommit hsnap hordered
        have hown : st'.getOrdSlot c mess.body.seqNum = slot := by
          rw [Order.Node.getOrdSlot, Order.Node.slot?, hhistory]
          exact getOrdSlot_putOrdSlot_self st mess.body.seqNum slot
        refine ⟨(Undisturbed.put hsnap).trans (.frame ⟨hmode.view, hmode.viewChangeDone⟩ haru hhistory),
          fun _ => hown ▸ hcommit, fun h => absurd htakes h, ?_⟩
        rw [hown]
        exact hordered
      split
      · rename_i hdone
        exact hstore _ _ ⟨rfl, rfl⟩ rfl rfl rfl (fun hsnap => ⟨hsnap, rfl⟩) fun hopen => absurd hdone (by simp [OrdSlot.storeCommit, hopen])
      rename_i hopen
      split
      · rename_i hready
        refine hstore _ _ ⟨rfl, rfl⟩ rfl rfl ?_ ?_ fun _ _ => ?_
        · exact congrArg (fun p => p.2.1) (collected_moveCommitCertificate (c := c) st _)
        · intro hsnap
          refine ⟨congrArg (fun p => p.2.2.1) (collected_moveCommitCertificate (c := c) st _), ?_⟩
          refine (congrArg (fun p => p.2.2.2) (collected_moveCommitCertificate (c := c) st _)).trans (if_pos ?_)
          exact hsnap
        · have hcount := of_decide_eq_true (Bool.and_eq_true_iff.mp hready).2
          refine hcount.trans (Lib.tally_mono fun s _ _ hs => ?_)
          have hcommit : (moveCommitCertificate c digest st ((st.getOrdSlot c mess.body.seqNum).storeCommit mess)).commit s =
              ((st.getOrdSlot c mess.body.seqNum).storeCommit mess).commit s :=
            congrArg (fun p => p.2.1 s) (collected_moveCommitCertificate (c := c) st _)
          rw [hcommit]
          unfold matching at hs
          split at hs
          · rename_i hsome
            rw [hsome]
            rfl
          · cases hs
      · exact hstore _ _ ⟨rfl, rfl⟩ rfl rfl rfl (fun hsnap => ⟨hsnap, rfl⟩) fun _ hdone => absurd hdone hopen

variable (c digest) in
/-- `ORDER_Execute_Commit` is called where a Commit makes its slot ordered. -/
theorem processCommit_frame {seq : Nat} (hseq : mess.body.seqNum = seq) (nd : Node D) :
    (processCommit c digest nd mess).ord = Order.processCommit c digest nd.ord mess ∧
      (processCommit c digest nd mess).calls = nd.calls ∧
      ((processCommit c digest nd mess).call = nd.call ∨ (nd.ord.getOrdSlot c seq).ordered = false ∧
        ((Order.processCommit c digest nd.ord mess).getOrdSlot c seq).ordered = true) := by
  subst hseq
  unfold processCommit
  dsimp only
  split
  · rename_i hdone
    refine ⟨rfl, rfl, .inr ⟨hdone.1, ?_⟩⟩
    obtain ⟨slot, hslot, hordered⟩ := (Option.any_eq_true _ _).mp hdone.2
    have hown : (Order.processCommit c digest nd.ord mess).getOrdSlot c mess.body.seqNum = slot := getOrdSlot_of_slot? hslot
    rw [hown]
    exact hordered
  · exact ⟨rfl, rfl, .inl rfl⟩

end Commits

/-! ## The slot is set up -/

section Setup

variable {c : Config} {digest : CompletePrePrepare → D} {me : Nat} {nd nd' : Node D} {cert : OrdCert D}

theorem openedSlot_of_stays (hstays : entersView nd cert = false) : nd.ord.getOrdSlot c cert.seqNum = openedSlot c nd cert := by
  unfold openedSlot
  rw [hstays, if_neg (by simp)]

/-- Whether a certificate enters its view is decided by what the handlers of its messages leave alone. -/
theorem Undisturbed.entersView (h : Undisturbed c cert.seqNum nd.ord nd'.ord) (hpos : 0 < cert.seqNum) :
    entersView nd' cert = entersView nd cert := by
  have hbefore := h.others (cert.seqNum - 1) (by omega)
  unfold Ordinals.entersView Node.slot?
  rw [h.mode.view, h.mode.viewChangeDone, h.aru]
  cases hslot : nd.ord.slot? (cert.seqNum - 1) with
  | none =>
    rw [hslot, Option.map_none, Option.map_eq_none_iff] at hbefore
    rw [hbefore]
  | some slot =>
    rw [hslot, Option.map_some, Option.map_eq_some_iff] at hbefore
    obtain ⟨slot', hslot', heq⟩ := hbefore
    obtain ⟨hseq, hview⟩ := Prod.mk.inj heq
    simp only [hslot', hseq, hview]

/-- A certificate does not enter the view it has entered. -/
theorem entersView_enterView (nd : Node D) (cert : OrdCert D) : entersView (enterView nd cert) cert = false := by
  have hview : (enterView nd cert).ord.view = cert.view := rfl
  have hdone : (enterView nd cert).ord.viewChangeDone = true := rfl
  unfold entersView
  rw [hview, hdone]
  cases hslot : (enterView nd cert).slot? (cert.seqNum - 1) with
  | none => simp
  | some slot =>
    by_cases hlt : slot.view < cert.view
    · simp [Nat.ne_of_gt hlt]
    · simp [hlt]

theorem acceptsView_enterView (nd : Node D) (cert : OrdCert D) (view : Nat) :
    (enterView nd cert).ord.acceptsView view = some (decide (view = cert.view)) := by
  have hview : (enterView nd cert).ord.view = cert.view := rfl
  have hdone : (enterView nd cert).ord.viewChangeDone = true := rfl
  unfold Order.Node.acceptsView
  rw [hview, hdone]
  rcases Nat.lt_trichotomy view cert.view with hlt | heq | hgt
  · rw [if_neg (Nat.not_lt_of_lt hlt), if_pos hlt, decide_eq_false (Nat.ne_of_lt hlt)]
    rfl
  · rw [heq, if_neg (Nat.lt_irrefl _), if_neg (Nat.lt_irrefl _), decide_eq_true rfl]
  · rw [if_pos hgt, decide_eq_false (Nat.ne_of_gt hgt)]

theorem getOrdSlot_enterView (hslot : entersView nd cert = true) :
    (enterView nd cert).ord.getOrdSlot c cert.seqNum = openedSlot c nd cert := by
  have hget : (enterView nd cert).ord.slot? cert.seqNum = (nd.dropSlots fun seq =>
      (nd.slot? seq).any fun slot => decide (cert.seqNum ≤ slot.seqNum) && decide (slot.view ≤ nd.ord.view)).ord.slot?
        cert.seqNum := rfl
  unfold openedSlot
  rw [Order.Node.getOrdSlot, hget, slot?_dropSlots, hslot]
  simp only [true_and]
  split
  · rfl
  · rfl

variable [DecidableEq D]

/-- The slot, the view and the messages the handler leaves behind. -/
structure Adopted (c : Config) (digest : CompletePrePrepare → D) (nd nd' : Node D) (cert : OrdCert D) : Prop where
  call : nd'.call = nd.call
  calls : nd'.calls = .message (.prePrepare cert.prePrepare) ::
    cert.commits.map (fun commit => .message (.commit commit)) ++ nd.calls
  aru : nd'.ord.aru = nd.ord.aru
  proposalDigest : nd'.ord.proposalDigest = nd.ord.proposalDigest
  view : nd'.ord.view = if entersView nd cert then cert.view else nd.ord.view
  passes : ∀ view, nd'.ord.acceptsView view = some true ↔ PassesView nd cert view
  entersView : entersView nd' cert = false
  own : nd'.ord.getOrdSlot c cert.seqNum =
    { targetSlot c digest nd cert with preinstalledSnapshot := cert.vector, snapshot := true, commit := fun _ => none }

variable (c digest) in
/-- The slot drops another proposal. -/
theorem dropped_target (nd : Node D) (cert : OrdCert D) :
    let own := nd.ord.getOrdSlot c cert.seqNum
    let dropped :=
      if own.collectedAllParts = true ∧ digest own.completePrePrepare ≠ digest (cert.proposal c) then
        (nd.putSlot cert.seqNum own).dropSlots fun s => s = cert.seqNum
      else nd.putSlot cert.seqNum own
    let target :=
      if own.collectedAllParts = true ∧ digest own.completePrePrepare ≠ digest (cert.proposal c) then
        OrdSlot.new c cert.seqNum
      else own
    dropped.ord.getOrdSlot c cert.seqNum = target ∧
      (∀ s, s ≠ cert.seqNum → dropped.ord.slot? s = nd.ord.slot? s) ∧ SameMode nd.ord dropped.ord ∧
      dropped.ord.aru = nd.ord.aru ∧ dropped.ord.proposalDigest = nd.ord.proposalDigest ∧ dropped.call = nd.call ∧
      dropped.calls = nd.calls := by
  intro own dropped target
  have hput : ∀ s, s ≠ cert.seqNum → (nd.putSlot cert.seqNum own).ord.slot? s = nd.ord.slot? s :=
    fun s hs => nd.ord.slot?_putOrdSlot_of_ne own hs
  by_cases hother : own.collectedAllParts = true ∧ digest own.completePrePrepare ≠ digest (cert.proposal c)
  · have hdropped : dropped = (nd.putSlot cert.seqNum own).dropSlots fun s => s = cert.seqNum := if_pos hother
    have htarget : target = OrdSlot.new c cert.seqNum := if_pos hother
    rw [hdropped, htarget]
    refine ⟨?_, fun s hs => ?_, ⟨rfl, rfl⟩, rfl, rfl, rfl, rfl⟩
    · rw [getOrdSlot_dropSlots, if_pos (decide_eq_true rfl)]
    · rw [slot?_dropSlots, if_neg (by simpa using hs), hput s hs]
  · have hdropped : dropped = nd.putSlot cert.seqNum own := if_neg hother
    have htarget : target = own := if_neg hother
    rw [hdropped, htarget]
    exact ⟨getOrdSlot_putOrdSlot_self .., hput, ⟨rfl, rfl⟩, rfl, rfl, rfl, rfl⟩

variable (digest) in
/-- The slot is set up once the view is entered. -/
theorem adoptCertificate_spec (hcert : cert.Validated c) (hsnap : (nd.ord.getOrdSlot c cert.seqNum).snapshot = false) :
    let own := nd.ord.getOrdSlot c cert.seqNum
    let target :=
      if own.collectedAllParts = true ∧ digest own.completePrePrepare ≠ digest (cert.proposal c) then
        OrdSlot.new c cert.seqNum
      else own
    let nd' := adoptCertificate c digest nd cert
    Undisturbed c cert.seqNum nd.ord nd'.ord ∧ nd'.call = nd.call ∧ nd'.ord.proposalDigest = nd.ord.proposalDigest ∧
      nd'.calls = .message (.prePrepare cert.prePrepare) ::
        cert.commits.map (fun commit => .message (.commit commit)) ++ nd.calls ∧
      nd'.ord.getOrdSlot c cert.seqNum =
        { target with preinstalledSnapshot := cert.vector, snapshot := true, commit := fun _ => none } := by
  intro own target nd'
  have htake : cert.commits.take c.quorum = cert.commits := List.take_of_length_le (Nat.le_of_eq hcert.length)
  obtain ⟨htarget, hothers, hmode, haru, hdigest, hcall, hcalls⟩ := dropped_target c digest nd cert
  have heq : nd' = adoptCertificate c digest nd cert := rfl
  unfold adoptCertificate at heq
  dsimp only at heq
  rw [if_neg (by rw [hsnap]; simp), if_neg (Nat.not_lt_of_le hcert.rows), htake, htarget, hcalls] at heq
  rw [heq]
  refine ⟨⟨⟨hmode.view, hmode.viewChangeDone⟩, haru, fun s hs => ?_, fun h => absurd h (by rw [hsnap]; simp)⟩, hcall, hdigest,
    rfl, getOrdSlot_putOrdSlot_self ..⟩
  show (((_ : Order.Node D).putOrdSlot cert.seqNum _).slot? s).map _ = _
  rw [Order.Node.slot?_putOrdSlot_of_ne _ _ hs, hothers s hs]

theorem processOrdCertificate_adopted (hcert : cert.Validated c) (hnot : ¬TurnedAway c me nd cert) :
    Adopted c digest nd (processOrdCertificate c digest me nd cert) cert := by
  simp only [TurnedAway, not_or, not_not, Bool.not_eq_true, Nat.not_le] at hnot
  obtain ⟨hsender, hdigest, htype, hlt, hordered, hsnap⟩ := hnot
  have hpos : 0 < cert.seqNum := Nat.zero_lt_of_lt hlt
  unfold processOrdCertificate
  rw [if_neg hsender, if_neg (not_not.mpr hdigest), if_neg (not_not.mpr htype), if_neg (Nat.not_le_of_lt hlt),
    if_neg (by rw [hordered]; simp)]
  by_cases henters : entersView nd cert = true
  · rw [if_pos henters]
    have hopened : (enterView nd cert).ord.getOrdSlot c cert.seqNum = openedSlot c nd cert := getOrdSlot_enterView henters
    obtain ⟨hfar, hcall, hproposal, hcalls, hown⟩ :=
      adoptCertificate_spec digest hcert (by rw [hopened]; exact hsnap)
    rw [hopened] at hown
    refine ⟨hcall, hcalls, hfar.aru, hproposal, ?_, fun view => ?_, ?_, hown⟩
    · rw [if_pos henters, hfar.mode.view]
      rfl
    · rw [hfar.acceptsView hlt, acceptsView_enterView, PassesView, if_pos henters]
      simp
    · rw [hfar.entersView hpos, entersView_enterView]
  · rw [if_neg henters]
    have hopened : nd.ord.getOrdSlot c cert.seqNum = openedSlot c nd cert := openedSlot_of_stays (Bool.eq_false_iff.mpr henters)
    obtain ⟨hfar, hcall, hproposal, hcalls, hown⟩ :=
      adoptCertificate_spec digest hcert (by rw [hopened]; exact hsnap)
    rw [hopened] at hown
    refine ⟨hcall, hcalls, hfar.aru, hproposal, ?_, fun view => ?_, ?_, hown⟩
    · rw [if_neg henters, hfar.mode.view]
    · rw [hfar.acceptsView hlt, PassesView, if_neg henters]
    · rw [hfar.entersView hpos]
      exact Bool.eq_false_iff.mpr henters

theorem adoptCertificate_of_snapshot (hsnap : (nd.ord.getOrdSlot c cert.seqNum).snapshot = true) :
    adoptCertificate c digest nd cert = nd.putSlot cert.seqNum (nd.ord.getOrdSlot c cert.seqNum) := by
  unfold adoptCertificate
  exact if_pos hsnap

theorem processOrdCertificate_turnedAway (haway : TurnedAway c me nd cert) :
    (processOrdCertificate c digest me nd cert).call = nd.call ∧ (processOrdCertificate c digest me nd cert).calls = nd.calls := by
  unfold processOrdCertificate
  split
  · exact ⟨rfl, rfl⟩
  rename_i hsender
  split
  · exact ⟨rfl, rfl⟩
  rename_i hdigest
  split
  · exact ⟨rfl, rfl⟩
  rename_i htype
  split
  · exact ⟨rfl, rfl⟩
  rename_i hlt
  split
  · exact ⟨rfl, rfl⟩
  rename_i hordered
  have hsnap : (openedSlot c nd cert).snapshot = true := by
    simpa [TurnedAway, hsender, hdigest, htype, hlt, hordered] using haway
  by_cases henters : entersView nd cert = true
  · rw [if_pos henters, adoptCertificate_of_snapshot (by rw [getOrdSlot_enterView henters]; exact hsnap)]
    exact ⟨rfl, rfl⟩
  · have hopened : nd.ord.getOrdSlot c cert.seqNum = openedSlot c nd cert := openedSlot_of_stays (Bool.eq_false_iff.mpr henters)
    rw [if_neg henters, adoptCertificate_of_snapshot (by rw [hopened]; exact hsnap)]
    exact ⟨rfl, rfl⟩

end Setup

/-! ## The run of the handler -/

/-- The items of a list differ when each differs from those before it. -/
theorem nodup_iff_notMem_take {α : Type} {l : List α} : l.Nodup ↔ ∀ i (hi : i < l.length), l[i] ∉ l.take i := by
  rw [List.nodup_iff_pairwise_ne, List.pairwise_iff_getElem]
  constructor
  · intro hne i hi hmem
    obtain ⟨j, hj, heq⟩ := List.mem_take_iff_getElem.mp hmem
    exact hne j i (by omega) hi (by omega) heq
  · intro hnot i j hi hj hlt heq
    exact hnot j hj (List.mem_take_iff_getElem.mpr ⟨i, by omega, heq⟩)

section Runs

variable [DecidableEq D] {c : Config} {catchupHistory : Nat} {digest : CompletePrePrepare → D} {me : Nat} {ready : Nat → Requests}
  {nd nd₀ nd' : Node D} {cert : OrdCert D} {i : Nat}

theorem step_of_message {mess : Msg D} {frames : List (Frame D)} (hrunning : nd.running = true) (hcall : nd.call = none)
    (hcalls : nd.calls = .message mess :: frames) :
    step c catchupHistory digest me nd (.proceed ready) = processMessage c digest me { nd with calls := frames } mess := by
  unfold step
  rw [if_neg (by rw [hrunning]; simp)]
  show proceed c digest me ready nd = _
  unfold proceed
  rw [hcall, hcalls]

theorem step_of_ended (hended : nd.running = false) (x : Input D) : step c catchupHistory digest me nd x = nd :=
  if_pos hended

/-- A process that has not ended after a while has not ended before. -/
theorem during_running {k l : Nat} (hle : k ≤ l) (hlive : (during c catchupHistory digest me ready nd cert l).running = true) :
    (during c catchupHistory digest me ready nd cert k).running = true := by
  induction l, hle using Nat.le_induction with
  | base => exact hlive
  | succ l _ ih =>
    refine ih ?_
    by_contra hended
    rw [during, step_of_ended (Bool.eq_false_iff.mpr hended)] at hlive
    exact hended hlive

/-- A server after the Pre-Prepare and `i` Commits of a certificate. -/
structure Midway (c : Config) (cert : OrdCert D) (i : Nat) (nd₀ nd' : Node D) : Prop where
  undisturbed : Undisturbed c cert.seqNum nd₀.ord nd'.ord
  calls : nd'.calls = (cert.commits.drop i).map fun commit => .message (.commit commit)
  call : i < c.quorum → nd'.call = none
  stored : ∀ s, ((nd'.ord.getOrdSlot c cert.seqNum).commit s).isSome = true → s ∈ (cert.commits.map Signed.machineId).take i

/-- The Pre-Prepare is handed to its handler. -/
theorem midway_prePrepare (hcert : cert.Validated c) (hadopted : Adopted c digest nd nd₀ cert) (hidle : nd.idle = true)
    (hlt : nd.ord.aru < cert.seqNum) (hdigest : cert.prePrepare.body.proposalDigest = nd.ord.proposalDigest) :
    let nd' := processMessage c digest me
      { nd₀ with calls := cert.commits.map fun commit => .message (.commit commit) } (.prePrepare cert.prePrepare)
    Midway c cert 0 nd₀ nd' ∧
      ((nd'.ord.getOrdSlot c cert.seqNum).prePrepareParts 1 = some cert.prePrepare ↔ TakesPrePrepare c digest nd cert) := by
  intro nd'
  obtain ⟨hcall, hcalls⟩ := Bool.and_eq_true_iff.mp hidle
  have hvalid := hcert.prePrepare
  simp only [validated, Bool.and_eq_true, decide_eq_true_eq] at hvalid
  obtain ⟨parts, hhandled, hparts⟩ := processPrePrepare_handled c digest me
    { nd₀ with calls := cert.commits.map fun commit => .message (.commit commit) } cert.prePrepare
    (by rw [hadopted.aru]; exact hlt) (hdigest.trans hadopted.proposalDigest.symm) hvalid.2 hcert.rows
  have hslot : ∀ {α : Type} (f : OrdSlot D → α), f (nd₀.ord.getOrdSlot c cert.prePrepare.body.seqNum) =
      f { targetSlot c digest nd cert with
        preinstalledSnapshot := cert.vector, snapshot := true, commit := fun _ => none } :=
    fun f => congrArg f hadopted.own
  refine ⟨⟨hhandled.undisturbed, hhandled.calls, fun _ => ?_, fun s hs => ?_⟩, ?_⟩
  · exact hhandled.call.trans (hadopted.call.trans (Option.isNone_iff_eq_none.mp hcall))
  · have hcommit := congrArg (fun p => p.2.1 s) hhandled.own
    have hnone : (nd'.ord.getOrdSlot c cert.seqNum).commit s = none := hcommit.trans (hslot fun slot => slot.commit s)
    rw [hnone] at hs
    cases hs
  · have hown : (nd'.ord.getOrdSlot c cert.seqNum).prePrepareParts = parts := congrArg Prod.fst hhandled.own
    rw [hown, hparts]
    unfold TakesPart TakesPrePrepare
    dsimp only
    rw [hadopted.passes, hadopted.view, hslot fun slot => slot.prePrepareParts 1, hslot OrdSlot.collectedAllParts,
      hslot OrdSlot.numPartsCollected, hslot OrdSlot.view]

/-- The next Commit is handed to its handler. -/
theorem Midway.next (h : Midway c cert i nd₀ nd') (hcert : cert.Validated c) (hlt : nd₀.ord.aru < cert.seqNum)
    (hi : i < cert.commits.length) :
    let nd'' := processMessage c digest me
      { nd' with calls := (cert.commits.drop (i + 1)).map fun commit => .message (.commit commit) } (.commit cert.commits[i])
    Midway c cert (i + 1) nd₀ nd'' ∧ Committed c cert.seqNum nd'.ord nd''.ord cert.commits[i] := by
  intro nd''
  obtain ⟨-, hseq⟩ := hcert.commits cert.commits[i] (List.getElem_mem hi)
  obtain ⟨hord, hcalls, hcall⟩ := processCommit_frame c digest hseq
    { nd' with calls := (cert.commits.drop (i + 1)).map fun commit => .message (.commit commit) }
  have hcommitted : Committed c cert.seqNum nd'.ord nd''.ord cert.commits[i] := by
    have haru : nd'.ord.aru < cert.seqNum := by
      rw [h.undisturbed.aru]
      exact hlt
    have hown : Committed c cert.seqNum nd'.ord (Order.processCommit c digest nd'.ord cert.commits[i]) cert.commits[i] :=
      processCommit_committed hseq haru
    rwa [← hord] at hown
  have hsenders : i < (cert.commits.map Signed.machineId).length := by rwa [List.length_map]
  have hstored : ∀ s, ((nd''.ord.getOrdSlot c cert.seqNum).commit s).isSome = true →
      s ∈ (cert.commits.map Signed.machineId).take (i + 1) := by
    intro s hs
    rw [List.take_succ_eq_append_getElem hsenders, List.mem_append, List.mem_singleton, List.getElem_map]
    by_cases htakes : TakesCommit c cert.seqNum nd'.ord cert.commits[i]
    · rw [hcommitted.taken htakes] at hs
      by_cases heq : s = cert.commits[i].machineId
      · exact .inr heq
      · rw [Function.update_of_ne heq] at hs
        exact .inl (h.stored s hs)
    · rw [hcommitted.dropped htakes] at hs
      exact .inl (h.stored s hs)
  refine ⟨⟨h.undisturbed.trans hcommitted.undisturbed, hcalls, fun hlast => ?_, hstored⟩, hcommitted⟩
  rcases hcall with hcall | ⟨hopen, hordered⟩
  · exact hcall.trans (h.call (Nat.lt_of_succ_lt hlast))
  · have hord' : nd''.ord = Order.processCommit c digest nd'.ord cert.commits[i] := hord
    have hcount := hcommitted.ordered hopen (by rw [hord']; exact hordered)
    have hfew := hcount.trans (Lib.tally_le_length hstored)
    rw [List.length_take] at hfew
    omega

theorem during_zero (hrunning : nd.running = true) (hidle : nd.idle = true) :
    during c catchupHistory digest me ready nd cert 0 = processOrdCertificate c digest me nd cert := by
  show step c catchupHistory digest me nd (.ordCert cert) = _
  unfold step
  rw [if_neg (by rw [hrunning]; simp)]
  exact if_pos hidle

omit [DecidableEq D] in
theorem calls_of_idle (hidle : nd.idle = true) : nd.call = none ∧ nd.calls = [] := by
  obtain ⟨hcall, hcalls⟩ := Bool.and_eq_true_iff.mp hidle
  exact ⟨Option.isNone_iff_eq_none.mp hcall, List.isEmpty_iff.mp hcalls⟩

omit [DecidableEq D] in
theorem lt_of_not_turnedAway (hnot : ¬TurnedAway c me nd cert) :
    nd.ord.aru < cert.seqNum ∧ cert.prePrepare.body.proposalDigest = nd.ord.proposalDigest := by
  simp only [TurnedAway, not_or, not_not, Nat.not_le] at hnot
  exact ⟨hnot.2.2.2.1, hnot.2.1⟩

/-- A call of the handler for a certificate that is not turned away, by a server in its event loop. -/
structure Call (c : Config) (catchupHistory : Nat) (digest : CompletePrePrepare → D) (me : Nat) (ready : Nat → Requests)
    (nd : Node D) (cert : OrdCert D) : Prop where
  running : nd.running = true
  idle : nd.idle = true
  validated : cert.Validated c
  live : (during c catchupHistory digest me ready nd cert (c.quorum + 1)).running = true
  entered : ¬TurnedAway c me nd cert

namespace Call

theorem adopted (h : Call c catchupHistory digest me ready nd cert) :
    Adopted c digest nd (during c catchupHistory digest me ready nd cert 0) cert := by
  rw [during_zero h.running h.idle]
  exact processOrdCertificate_adopted h.validated h.entered

theorem first_calls (h : Call c catchupHistory digest me ready nd cert) :
    (during c catchupHistory digest me ready nd cert 0).call = none ∧
      (during c catchupHistory digest me ready nd cert 0).calls =
        .message (.prePrepare cert.prePrepare) :: cert.commits.map fun commit => .message (.commit commit) := by
  obtain ⟨hcall, hcalls⟩ := calls_of_idle h.idle
  refine ⟨h.adopted.call.trans hcall, ?_⟩
  rw [h.adopted.calls, hcalls, List.append_nil]

/-- The Pre-Prepare goes to its handler first. -/
theorem first_step (h : Call c catchupHistory digest me ready nd cert) :
    Midway c cert 0 (during c catchupHistory digest me ready nd cert 0) (during c catchupHistory digest me ready nd cert 1) ∧
      (((during c catchupHistory digest me ready nd cert 1).ord.getOrdSlot c cert.seqNum).prePrepareParts 1 =
        some cert.prePrepare ↔ TakesPrePrepare c digest nd cert) := by
  obtain ⟨hcall, hcalls⟩ := h.first_calls
  obtain ⟨hlt, hdigest⟩ := lt_of_not_turnedAway h.entered
  have hstep : during c catchupHistory digest me ready nd cert 1 =
      step c catchupHistory digest me (during c catchupHistory digest me ready nd cert 0) (.proceed ready) := rfl
  rw [hstep, step_of_message (during_running (Nat.zero_le _) h.live) hcall hcalls]
  exact midway_prePrepare h.validated h.adopted h.idle hlt hdigest

/-- The Commits follow. -/
theorem next_step (h : Call c catchupHistory digest me ready nd cert) (hi : i < cert.commits.length)
    (hmidway : Midway c cert i (during c catchupHistory digest me ready nd cert 0)
      (during c catchupHistory digest me ready nd cert (i + 1))) :
    Midway c cert (i + 1) (during c catchupHistory digest me ready nd cert 0)
        (during c catchupHistory digest me ready nd cert (i + 2)) ∧
      Committed c cert.seqNum (during c catchupHistory digest me ready nd cert (i + 1)).ord
        (during c catchupHistory digest me ready nd cert (i + 2)).ord cert.commits[i] := by
  have hquorum : i < c.quorum := by rwa [← h.validated.length]
  have hcalls := hmidway.calls
  rw [List.drop_eq_getElem_cons hi, List.map_cons] at hcalls
  have hstep : during c catchupHistory digest me ready nd cert (i + 2) =
      step c catchupHistory digest me (during c catchupHistory digest me ready nd cert (i + 1)) (.proceed ready) := rfl
  rw [hstep, step_of_message (during_running (by omega) h.live) (hmidway.call hquorum) hcalls]
  refine hmidway.next h.validated ?_ hi
  rw [h.adopted.aru]
  exact (lt_of_not_turnedAway h.entered).1

theorem midway (h : Call c catchupHistory digest me ready nd cert) (hi : i ≤ c.quorum) :
    Midway c cert i (during c catchupHistory digest me ready nd cert 0) (during c catchupHistory digest me ready nd cert (i + 1)) := by
  induction i with
  | zero => exact h.first_step.1
  | succ i ih => exact (h.next_step (by rw [h.validated.length]; exact hi) (ih (Nat.le_of_succ_le hi))).1

/-- Whether a Commit is taken depends on the Commits before it only in that theirs may be from the same server. -/
theorem takesCommit_iff (h : Call c catchupHistory digest me ready nd cert) (hi : i < cert.commits.length) :
    TakesCommit c cert.seqNum (during c catchupHistory digest me ready nd cert (i + 1)).ord cert.commits[i] ↔
      PassesView nd cert cert.commits[i].body.view ∧
        cert.commits[i].body.preinstalledIncarnations = cert.vector ∧
        ((during c catchupHistory digest me ready nd cert (i + 1)).ord.getOrdSlot c cert.seqNum).commit
          cert.commits[i].machineId = none := by
  have hmidway := h.midway (Nat.le_of_lt (h.validated.length ▸ hi))
  have hlt : (during c catchupHistory digest me ready nd cert 0).ord.aru < cert.seqNum := by
    rw [h.adopted.aru]
    exact (lt_of_not_turnedAway h.entered).1
  obtain ⟨hsnap, hvector⟩ := hmidway.undisturbed.own (by rw [h.adopted.own])
  have hexpected : (during c catchupHistory digest me ready nd cert (i + 1)).ord.expectedIncarnations
      ((during c catchupHistory digest me ready nd cert (i + 1)).ord.getOrdSlot c cert.seqNum) = cert.vector := by
    unfold Order.Node.expectedIncarnations
    rw [if_pos hsnap, hvector, h.adopted.own]
  have hview := hmidway.undisturbed.acceptsView hlt cert.commits[i].body.view
  constructor
  · intro htakes
    exact ⟨(h.adopted.passes _).mp (hview ▸ htakes.view), hexpected ▸ htakes.vector, htakes.first⟩
  · rintro ⟨hpasses, hlists, hfirst⟩
    exact ⟨hview ▸ (h.adopted.passes _).mpr hpasses, hfirst, hexpected.symm ▸ hlists⟩

theorem handles_prePrepare (h : Call c catchupHistory digest me ready nd cert) :
    (during c catchupHistory digest me ready nd cert 0).handles = some (.prePrepare cert.prePrepare) := by
  unfold Node.handles
  rw [during_running (Nat.zero_le _) h.live, h.first_calls.1, h.first_calls.2]

theorem handles_commit (h : Call c catchupHistory digest me ready nd cert) (hi : i < cert.commits.length) :
    (during c catchupHistory digest me ready nd cert (i + 1)).handles = some (.commit cert.commits[i]) := by
  have hquorum : i < c.quorum := by rwa [← h.validated.length]
  have hmidway := h.midway (Nat.le_of_lt hquorum)
  have hcalls := hmidway.calls
  rw [List.drop_eq_getElem_cons hi, List.map_cons] at hcalls
  unfold Node.handles
  rw [during_running (by omega) h.live, hmidway.call hquorum, hcalls]

theorem rejected_prePrepare_iff (h : Call c catchupHistory digest me ready nd cert) :
    Rejected c (during c catchupHistory digest me ready nd cert 0) (during c catchupHistory digest me ready nd cert 1)
      (.prePrepare cert.prePrepare) ↔ ¬TakesPrePrepare c digest nd cert := by
  have hpart := h.validated.prePrepare
  simp only [Order.validated, Bool.and_eq_true, decide_eq_true_eq] at hpart
  rw [← h.first_step.2]
  simp only [Rejected, hpart.2]
  rfl

theorem rejected_commit_iff (h : Call c catchupHistory digest me ready nd cert) (hi : i < cert.commits.length) :
    Rejected c (during c catchupHistory digest me ready nd cert (i + 1))
      (during c catchupHistory digest me ready nd cert (i + 2)) (.commit cert.commits[i]) ↔
        ¬TakesCommit c cert.seqNum (during c catchupHistory digest me ready nd cert (i + 1)).ord cert.commits[i] := by
  have hcommitted := (h.next_step hi (h.midway (Nat.le_of_lt (h.validated.length ▸ hi)))).2
  simp only [Rejected, (h.validated.commits _ (List.getElem_mem hi)).2]
  refine ⟨fun hsame htakes => ?_, hcommitted.dropped⟩
  rw [hcommitted.taken htakes] at hsame
  have hsender := congrFun hsame cert.commits[i].machineId
  rw [Function.update_self, htakes.first] at hsender
  cases hsender

/-- As long as no Commit is rejected, the slot has those that were handed over. -/
theorem stored_of_taken (h : Call c catchupHistory digest me ready nd cert) (hi : i ≤ cert.commits.length)
    (htakes : ∀ j (hj : j < cert.commits.length), j < i →
      TakesCommit c cert.seqNum (during c catchupHistory digest me ready nd cert (j + 1)).ord cert.commits[j]) :
    ∀ s ∈ (cert.commits.map Signed.machineId).take i,
      (((during c catchupHistory digest me ready nd cert (i + 1)).ord.getOrdSlot c cert.seqNum).commit s).isSome = true := by
  induction i with
  | zero =>
    intro s hs
    cases hs
  | succ i ih =>
    have hsenders : i < (cert.commits.map Signed.machineId).length := by rwa [List.length_map]
    have hcommitted := (h.next_step hi (h.midway (h.validated.length ▸ Nat.le_of_succ_le hi))).2
    intro s hs
    rw [List.take_succ_eq_append_getElem hsenders, List.mem_append, List.mem_singleton, List.getElem_map] at hs
    rw [hcommitted.taken (htakes i hi (Nat.lt_succ_self i))]
    by_cases heq : s = cert.commits[i].machineId
    · rw [heq, Function.update_self]
      rfl
    · rw [Function.update_of_ne heq]
      exact ih (Nat.le_of_succ_le hi) (fun j hj hlt => htakes j hj (Nat.lt_succ_of_lt hlt)) s (hs.resolve_right heq)

/-- **Which certificates have a message rejected.** -/
theorem rejectsSome_iff (h : Call c catchupHistory digest me ready nd cert) :
    RejectsSome c catchupHistory digest me ready nd cert ↔ ¬TakesAll c digest nd cert := by
  have hlength : (cert.commits.map Signed.machineId).length = cert.commits.length := List.length_map _
  constructor
  · rintro ⟨k, hk, mess, hhandles, hrejected⟩ hall
    cases k with
    | zero =>
      rw [h.handles_prePrepare] at hhandles
      obtain rfl := Option.some.inj hhandles
      exact h.rejected_prePrepare_iff.mp hrejected hall.prePrepare
    | succ i =>
      have hi : i < cert.commits.length := by rwa [h.validated.length]
      rw [h.handles_commit hi] at hhandles
      obtain rfl := Option.some.inj hhandles
      refine (h.rejected_commit_iff hi).mp hrejected ((h.takesCommit_iff hi).mpr
        ⟨hall.views _ (List.getElem_mem hi), hall.vectors _ (List.getElem_mem hi), ?_⟩)
      by_contra hthere
      have hmem := (h.midway (Nat.le_of_lt (h.validated.length ▸ hi))).stored _ (Option.ne_none_iff_isSome.mp hthere)
      have hnot := nodup_iff_notMem_take.mp hall.senders i (hlength ▸ hi)
      rw [List.getElem_map] at hnot
      exact hnot hmem
  · intro hnot
    by_contra hnone
    have htakes : ∀ i (hi : i < cert.commits.length),
        TakesCommit c cert.seqNum (during c catchupHistory digest me ready nd cert (i + 1)).ord cert.commits[i] := by
      intro i hi
      by_contra hdropped
      exact hnone ⟨i + 1, h.validated.length ▸ hi, _, h.handles_commit hi, (h.rejected_commit_iff hi).mpr hdropped⟩
    refine hnot ⟨?_, fun commit hmem => ?_, fun commit hmem => ?_, nodup_iff_notMem_take.mpr fun i hi hmem => ?_⟩
    · by_contra hdropped
      exact hnone ⟨0, Nat.zero_le _, _, h.handles_prePrepare, h.rejected_prePrepare_iff.mpr hdropped⟩
    · obtain ⟨i, hi, rfl⟩ := List.mem_iff_getElem.mp hmem
      exact ((h.takesCommit_iff hi).mp (htakes i hi)).1
    · obtain ⟨i, hi, rfl⟩ := List.mem_iff_getElem.mp hmem
      exact ((h.takesCommit_iff hi).mp (htakes i hi)).2.1
    · have hi' : i < cert.commits.length := hlength ▸ hi
      have hthere := h.stored_of_taken (Nat.le_of_lt hi') (fun j hj _ => htakes j hj) _ hmem
      rw [List.getElem_map, (htakes i hi').first] at hthere
      cases hthere

/-- The same certificate gets no further when it comes again. -/
theorem not_slotLeft (h : Call c catchupHistory digest me ready nd cert) :
    ¬SlotLeft c digest me nd (during c catchupHistory digest me ready nd cert (c.quorum + 1)) cert.seqNum := by
  intro hleft
  have hmidway := h.midway (le_refl c.quorum)
  have hlt := (lt_of_not_turnedAway h.entered).1
  refine hleft.later cert h.validated rfl ?_ ?_
  · have hfirst : during c catchupHistory digest me ready nd cert 0 = processOrdCertificate c digest me nd cert :=
      during_zero h.running h.idle
    unfold Applies
    rw [← hfirst, h.first_calls.2, (calls_of_idle h.idle).2]
    exact List.cons_ne_nil _ _
  · have hsnap := (hmidway.undisturbed.own (by rw [h.adopted.own])).1
    have hstays : entersView (during c catchupHistory digest me ready nd cert (c.quorum + 1)) cert = false := by
      rw [hmidway.undisturbed.entersView (Nat.zero_lt_of_lt hlt), h.adopted.entersView]
    refine (processOrdCertificate_turnedAway (.inr (.inr (.inr (.inr (.inr ?_)))))).2
    rw [← openedSlot_of_stays hstays]
    exact hsnap

end Call

/-- Where a certificate is turned away, no message is handed over. -/
theorem during_turnedAway (hrunning : nd.running = true) (hidle : nd.idle = true) (haway : TurnedAway c me nd cert) (k : Nat) :
    (during c catchupHistory digest me ready nd cert k).call = none ∧
      (during c catchupHistory digest me ready nd cert k).calls = [] := by
  induction k with
  | zero =>
    have hreturns : (processOrdCertificate c digest me nd cert).call = nd.call ∧
        (processOrdCertificate c digest me nd cert).calls = nd.calls := processOrdCertificate_turnedAway haway
    rw [during_zero hrunning hidle, hreturns.1, hreturns.2]
    exact calls_of_idle hidle
  | succ k ih =>
    rw [during]
    unfold step
    split
    · exact ih
    · show (proceed c digest me ready _).call = none ∧ (proceed c digest me ready _).calls = []
      unfold proceed
      rw [ih.1, ih.2]
      exact ih

/-- **When the error path leaves the slot intact.** It does for every certificate that is turned away before its
slot is set up, and for every one of which every message is taken, so that none is rejected; and for no other. -/
theorem ordCert_leaves_iff (hrunning : nd.running = true) (hidle : nd.idle = true) (hcert : cert.Validated c)
    (hlive : (during c catchupHistory digest me ready nd cert (c.quorum + 1)).running = true) :
    LeavesSlot c catchupHistory digest me ready nd cert ↔ TurnedAway c me nd cert ∨ TakesAll c digest nd cert := by
  by_cases haway : TurnedAway c me nd cert
  · refine iff_of_true (fun hrejects => ?_) (.inl haway)
    obtain ⟨k, -, mess, hhandles, -⟩ := hrejects
    have hnothing : (during c catchupHistory digest me ready nd cert k).call = none ∧
        (during c catchupHistory digest me ready nd cert k).calls = [] := during_turnedAway hrunning hidle haway k
    unfold Node.handles at hhandles
    rw [hnothing.1, hnothing.2] at hhandles
    generalize (during c catchupHistory digest me ready nd cert k).running = running at hhandles
    cases running <;> cases hhandles
  · have hcall : Call c catchupHistory digest me ready nd cert := ⟨hrunning, hidle, hcert, hlive, haway⟩
    constructor
    · intro hleaves
      refine .inr (by_contra fun hnot => hcall.not_slotLeft (hleaves (hcall.rejectsSome_iff.mpr hnot)))
    · rintro (h | hall) hrejects
      · exact absurd h haway
      · exact absurd hall (hcall.rejectsSome_iff.mp hrejects)

end Runs

/-! ### A certificate of a later view -/

/-- The certificate server 1 has of an ordinal, with the Commits of servers 1 and 2 and an empty matrix. -/
def certificateOf (view seq : Nat) : OrdCert CompletePrePrepare :=
  let leader := threeServers.leaderOfView view
  let complete := { CompletePrePrepare.null threeServers.toConfig with seqNum := seq, view, proposalDigest := [] }
  let commit (i : Nat) := constructCommit threeServers.toConfig id (firstView.node i) i complete
  { sender := 1, type := .commit, view
    prePrepare :=
      { header := { firstProposal.header with machineId := leader }, body := { (proposalAt seq).body with view } }
    commits := [commit 1, commit 2] }

theorem validated_certificateOf {view seq : Nat} (hpos : seq ≠ 0) : (certificateOf view seq).Validated threeServers.toConfig := by
  have hserver : ∀ i ∈ [1, 2], i ∈ threeServers.servers := by decide
  refine ⟨?_, Nat.zero_le _, rfl, fun commit hcommit => ⟨?_, ?_⟩⟩
  · simp only [validated, Bool.and_eq_true, decide_eq_true_eq]
    exact ⟨⟨⟨threeServers.leaderOfView_mem view, hpos⟩, rfl⟩, rfl⟩
  all_goals
    simp only [certificateOf, List.mem_cons, List.not_mem_nil, or_false] at hcommit
    rcases hcommit with rfl | rfl
  · simpa [validated] using ⟨hserver 1 (by decide), hpos⟩
  · simpa [validated] using ⟨hserver 2 (by decide), hpos⟩
  · rfl
  · rfl

/-- A server in the first view that has executed nothing. -/
def waiting : Node CompletePrePrepare := Node.start threeServers.toConfig 10 1 [1, 1, 1] []

/-- The certificate of the first ordinal is taken. -/
theorem firstCertificate_taken : waiting.running = true ∧ waiting.idle = true ∧
    (certificateOf 1 1).Validated threeServers.toConfig ∧
    (during threeServers.toConfig 10 id 3 (fun _ => .there) waiting (certificateOf 1 1) 3).running = true ∧
    LeavesSlot threeServers.toConfig 10 id 3 (fun _ => .there) waiting (certificateOf 1 1) := by
  have hvalid : (certificateOf 1 1).Validated threeServers.toConfig := validated_certificateOf one_ne_zero
  have hlive : (during threeServers.toConfig 10 id 3 (fun _ => .there) waiting (certificateOf 1 1) 3).running = true := by
    decide +kernel
  have hpasses : PassesView waiting (certificateOf 1 1) 1 := by
    unfold PassesView
    decide +kernel
  refine ⟨rfl, rfl, hvalid, hlive, (ordCert_leaves_iff rfl rfl hvalid hlive).mpr (.inr ?_)⟩
  exact
    { prePrepare := .inr ⟨hpasses, by decide, rfl, rfl, .inl rfl⟩
      views := List.forall_mem_cons.mpr ⟨hpasses, List.forall_mem_singleton.mpr hpasses⟩
      vectors := by decide
      senders := by decide }

/-- A server that has not heard of the second view takes the snapshot of a certificate of it, and rejects the messages.
The ordinal is not the next one, so that the certificate does not enter its view. -/
theorem secondCertificate_half : ¬∀ (ready : Nat → Requests) (nd : Node CompletePrePrepare) (cert : OrdCert CompletePrePrepare),
    nd.running = true → nd.idle = true → cert.Validated threeServers.toConfig →
    (∀ commit ∈ cert.commits, commit.body.digest = cert.proposal threeServers.toConfig) →
    (during threeServers.toConfig 10 id 3 ready nd cert 3).running = true →
    LeavesSlot threeServers.toConfig 10 id 3 ready nd cert := by
  intro hleaves
  have hlive : (during threeServers.toConfig 10 id 3 (fun _ => .there) waiting (certificateOf 2 2) 3).running = true := by
    decide +kernel
  have hcall : Call threeServers.toConfig 10 id 3 (fun _ => .there) waiting (certificateOf 2 2) := by
    refine ⟨rfl, rfl, validated_certificateOf two_ne_zero, hlive, ?_⟩
    unfold TurnedAway
    decide +kernel
  have hfails : ¬PassesView waiting (certificateOf 2 2) 2 := by
    unfold PassesView
    decide +kernel
  have hrejects := hcall.rejectsSome_iff.mpr fun hall => hfails (hall.views _ List.mem_cons_self)
  exact hcall.not_slotLeft (hleaves _ _ _ hcall.running hcall.idle hcall.validated (by decide +kernel) hlive hrejects)

end Spire.Ordinals
