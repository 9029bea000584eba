import Spire.Lib.Runs
import Spire.PartialCertificates

/-!
# The vectors of the slots

`made_eligible` of a slot is what its Pre-Prepare makes eligible: for each server the later of
`PRE_ORDER_Proof_ARU` over the matrix and `last_executed`. It is computed in five places, from the message that
a leader sends, from the proposal of a slot that is prepared or ordered, from the certificate that a replay puts
into a slot and from the one a server jumps to. `sitesAgree` says that they agree.

`populated_eligible` goes with the vector, and three of the places leave a vector that is there. The leader fills
its slot when it sends, before its own message comes back. Such a slot has no part of a Pre-Prepare, nor has one
that a replay has filled, so that `ORDER_Process_Pre_Prepare` takes the first one that comes for the beginning of
the slot, whoever sent it, and does not touch the flag.

`Logged` is a server with two histories, the Pre-Prepares its slots were filled from when it sent them, and those
its slots were ordered with. `Meets` is the condition on a step: what begins a slot is what the slot was filled from.
-/

namespace Spire.Ordinals

open Spire.Order Spire.Replay Spire.PreOrder

variable {D : Type}

/-! ## The vector -/

/-- The later of two points, by `PRE_ORDER_Seq_Compare`. -/
def latest (p q : PoSeqPair) : PoSeqPair := if SeqLe p q then q else p

/-- What a Pre-Prepare makes eligible. -/
def vectorOf (c : Config) (pp : PrePrepare) : List PoSeqPair :=
  (List.range c.numServers).map fun i => latest (proofAru c (i + 1) pp.rows) (pp.lastExecuted.getD i PoSeqPair.zero)

theorem latest_spec (p q : PoSeqPair) :
    SeqLe p (latest p q) ∧ SeqLe q (latest p q) ∧ (latest p q = p ∨ latest p q = q) := by
  unfold latest
  split
  · rename_i hle
    exact ⟨hle, seqLe_refl q, .inr rfl⟩
  · rename_i hnot
    exact ⟨seqLe_refl p, (Std.Total.total p q).resolve_left hnot, .inl rfl⟩

section Vector

variable {c : Config} {pp : CompletePrePrepare} {rows : List PoAruSigned}

/-- A column of the rows copied into a matrix as it was created is that of the rows. -/
theorem column_writeRows (c : Config) (server : Nat) (rows : List PoAruSigned) :
    column c server (writeRows (CompletePrePrepare.null c).cumAcks 0 rows) = column c server rows := by
  have hrow : ∀ s, (writeRows (CompletePrePrepare.null c).cumAcks 0 rows).getD s (PoAruSigned.null c) =
      rows.getD s (PoAruSigned.null c) := by
    intro s
    simp only [writeRows, List.take_zero, List.nil_append, Nat.zero_add, List.getD_eq_getElem?_getD]
    by_cases hs : s < rows.length
    · rw [List.getElem?_append_left hs]
    · simp [List.getElem?_append_right (Nat.le_of_not_lt hs), List.getElem?_eq_none (Nat.le_of_not_lt hs),
        CompletePrePrepare.null, List.getElem?_replicate]
      split <;> rfl
  simp only [column, hrow]

theorem proofAru_writeRows (c : Config) (server : Nat) (rows : List PoAruSigned) :
    proofAru c server (writeRows (CompletePrePrepare.null c).cumAcks 0 rows) = proofAru c server rows := by
  simp only [proofAru, column_writeRows]

/-- Only `last_executed` and the matrix count. -/
theorem eligible_congr {pp' : CompletePrePrepare} (hlast : pp'.lastExecuted = pp.lastExecuted)
    (hacks : pp'.cumAcks = pp.cumAcks) : eligible c pp' = eligible c pp := by
  simp only [eligible, hlast, hacks]

/-- `eligible` of the rows of a message, as they are. -/
theorem eligible_rows {own : PrePrepare} (hlast : pp.lastExecuted = own.lastExecuted) (hacks : pp.cumAcks = own.rows) :
    eligible c pp = vectorOf c own := by
  simp only [eligible, vectorOf, latest, hlast, hacks]
  apply List.map_congr_left
  intro i _
  by_cases hle : SeqLe (proofAru c (i + 1) own.rows) (own.lastExecuted.getD i PoSeqPair.zero)
  · rw [if_neg (not_lt.mpr hle), if_pos hle]
  · rw [if_pos (not_le.mp hle), if_neg hle]

/-- And of the rows once they were copied. -/
theorem eligible_writeRows {own : PrePrepare} (hlast : pp.lastExecuted = own.lastExecuted)
    (hacks : pp.cumAcks = writeRows (CompletePrePrepare.null c).cumAcks 0 own.rows) : eligible c pp = vectorOf c own := by
  have hrows : eligible c { pp with cumAcks := own.rows } = vectorOf c own := eligible_rows hlast rfl
  rw [← hrows]
  simp only [eligible, hacks, proofAru_writeRows]

end Vector

/-! ## The places that compute it -/

/-- A slot that no part was stored in. -/
structure Blank (c : Config) (slot : OrdSlot D) : Prop where
  parts : slot.numPartsCollected = 0
  matrix : slot.completePrePrepare.cumAcks = (CompletePrePrepare.null c).cumAcks
  uncertified : slot.prepareCertificateReady = false

/-- The slot once the only part of a Pre-Prepare was stored. -/
def takePart (slot : OrdSlot D) (mess : Signed PrePrepare) : OrdSlot D :=
  (storePart (slotFor slot mess.body) mess 0).markCollected

/-- Every place fills in the vector of the Pre-Prepare, which is the greatest of two points for each server. -/
structure SitesAgree [DecidableEq D] (c : Config) (digest : CompletePrePrepare → D) (mess : Signed PrePrepare) : Prop where
  greatest : ∀ i < c.numServers,
    let p := proofAru c (i + 1) mess.body.rows
    let last := mess.body.lastExecuted.getD i PoSeqPair.zero
    let v := (vectorOf c mess.body).getD i PoSeqPair.zero
    SeqLe p v ∧ SeqLe last v ∧ (v = p ∨ v = last)
  /-- `ORDER_Send_One_Pre_Prepare`. -/
  sent : ∀ slot : OrdSlot D, slot.populatedEligible = false →
    (openForProposal c slot mess.body).madeEligible = vectorOf c mess.body
  /-- `ORDER_Send_Prepares`. -/
  prepared : ∀ slot : OrdSlot D, Blank c slot → slot.populatedEligible = false →
    (acceptProposal c (takePart slot mess)).madeEligible = vectorOf c mess.body
  /-- `ORDER_Move_Commit_Certificate`, without and with a prepare certificate. -/
  ordered : ∀ (st : Order.Node D) slot, Blank c slot → slot.populatedEligible = false →
    (moveCommitCertificate c digest st (takePart slot mess)).madeEligible = vectorOf c mess.body ∧
      (moveCommitCertificate c digest st (movePrepareCertificate c digest (takePart slot mess))).madeEligible =
        vectorOf c mess.body
  /-- `VIEW_Execute_Replay`. -/
  replayed : ∀ (own : OrdSlot D) (pc : PcSet D) seq, pc.prePrepare = mess →
    (fillSlot own (pcSetSlot c seq pc)).madeEligible = vectorOf c mess.body
  /-- `CATCH_Jump_Ahead`. -/
  jumped : ∀ cert : OrdCert D, cert.prePrepare = mess → (landingSlot c cert).madeEligible = vectorOf c mess.body

section Sites

variable {c : Config} {slot : OrdSlot D} {mess : Signed PrePrepare}

theorem populateEligible_madeEligible (h : slot.populatedEligible = false) (pp : CompletePrePrepare) :
    (populateEligible c slot pp).madeEligible = eligible c pp := by
  simp [populateEligible, h]

theorem moveCommitCertificate_madeEligible [DecidableEq D] {digest : CompletePrePrepare → D} (st : Order.Node D)
    (h : slot.populatedEligible = false) : (moveCommitCertificate c digest st slot).madeEligible = eligible c slot.proposal := by
  simp [moveCommitCertificate, populateEligible, h]

theorem openForProposal_madeEligible (h : slot.populatedEligible = false) (pp : PrePrepare) :
    (openForProposal c slot pp).madeEligible = vectorOf c pp := by
  unfold openForProposal
  rw [h, if_neg Bool.false_ne_true]
  exact eligible_rows rfl rfl

/-- A blank slot holds the Pre-Prepare that was stored in it. -/
theorem Blank.eligible_takePart (h : Blank c slot) (mess : Signed PrePrepare) :
    eligible c (takePart slot mess).completePrePrepare = vectorOf c mess.body := by
  have hslot : slotFor slot mess.body = setupProposal slot mess.body := if_pos h.parts
  apply eligible_writeRows
  · simp [takePart, hslot, storePart, setupProposal, OrdSlot.markCollected]
  · simp [takePart, hslot, storePart, setupProposal, OrdSlot.markCollected, h.matrix]

theorem takePart_populatedEligible (slot : OrdSlot D) (mess : Signed PrePrepare) :
    (takePart slot mess).populatedEligible = slot.populatedEligible := by
  unfold takePart slotFor
  split <;> rfl

/-- **The five places agree.** -/
theorem sitesAgree [DecidableEq D] (c : Config) (digest : CompletePrePrepare → D) (mess : Signed PrePrepare) :
    SitesAgree c digest mess where
  greatest i hi := by
    simp only [vectorOf, List.getD_eq_getElem?_getD, List.getElem?_map, List.getElem?_range hi, Option.map_some,
      Option.getD_some]
    exact latest_spec _ _
  sent slot h := openForProposal_madeEligible h mess.body
  prepared slot hblank h := by
    rw [← hblank.eligible_takePart mess]
    exact populateEligible_madeEligible ((takePart_populatedEligible slot mess).trans h) _
  ordered st slot hblank h := by
    have hopen := (takePart_populatedEligible slot mess).trans h
    have huncertified : (takePart slot mess).prepareCertificateReady = false := by
      rw [← hblank.uncertified]
      unfold takePart slotFor
      split <;> rfl
    have hproposal : (takePart slot mess).proposal = (takePart slot mess).completePrePrepare := by
      rw [OrdSlot.proposal, huncertified, if_neg Bool.false_ne_true]
    rw [← hblank.eligible_takePart mess]
    constructor
    · rw [← hproposal]
      exact moveCommitCertificate_madeEligible st hopen
    · exact moveCommitCertificate_madeEligible st hopen
  replayed own pc seq hpc := by
    subst hpc
    exact eligible_writeRows rfl rfl
  jumped cert hcert := by
    subst hcert
    exact eligible_writeRows rfl rfl

end Sites

/-! ## Histories -/

/-- A server, the Pre-Prepares its slots were filled from when it sent them, and those they were ordered with. -/
structure Logged (D : Type) where
  nd : Node D
  filledFrom : Nat → Option PrePrepare
  orderedWith : Nat → Option CompletePrePrepare

/-- The start of a server. -/
def Logged.start (c : Config) (catchupHistory view : Nat) (incarnations : List Nat) (proposalDigest : Bytes) : Logged D :=
  { nd := Node.start c catchupHistory view incarnations proposalDigest
    filledFrom := fun _ => none
    orderedWith := fun _ => none }

/-- The slots whose vector is that of a Pre-Prepare. The others are no-ops of a replay. -/
def OrdSlot.ofProposal (slot : OrdSlot D) : Bool := decide (slot.type = .commit ∨ slot.type = .pcSet)

/-- What is ordered or executed has the vector of the Pre-Prepare it was ordered with. -/
def Recorded (c : Config) (t : Logged D) : Prop :=
  ∀ s slot, t.nd.slot? s = some slot → OrdSlot.ofProposal slot = true → slot.populatedEligible = true →
    slot.ordered = true ∨ slot.executed = true → ∃ pp, t.orderedWith s = some pp ∧ slot.madeEligible = eligible c pp

/-- An input as it passes validation, with the Pre-Prepare of a certificate. -/
def Input.Valid (c : Config) : Input D → Prop
  | .ordCert cert | .jump _ _ cert | .recovered cert => validated c (Msg.prePrepare (D := D) cert.prePrepare) = true
  | _ => True

/-- The tests of `ORDER_Process_Pre_Prepare` before it looks up the slot. -/
def reachesSlot (c : Config) (nd : Node D) (mess : Signed PrePrepare) : Bool :=
  let seq := mess.body.seqNum
  decide (mess.body.proposalDigest = nd.ord.proposalDigest) &&
    !decide (seq ≤ nd.ord.forwardingWhiteLine ∧ seq + 1 ≤ nd.ord.reconWhiteLine ∧ seq + 1 ≤ nd.ord.aru) &&
    decide (nd.ord.acceptsView mess.body.view = some true) && decide (mess.machineId = c.leaderOfView mess.body.view)

/-- The Pre-Prepare whose slot a step looks up. -/
def Node.takes (c : Config) (nd : Node D) : Input D → Option (Signed PrePrepare)
  | .proceed _ =>
    match nd.handles with
    | some (.prePrepare mess) => if reachesSlot c nd mess then some mess else none
    | _ => none
  | _ => none

/-- The Pre-Prepare that a leader sends. -/
def Node.proposes (c : Config) (me : Nat) (nd : Node D) : Input D → Option PrePrepare
  | .propose rows =>
    if nd.running = true ∧ me = c.leaderOfView nd.ord.view then
      (if nd.seq = 1 then some (List.replicate c.numServers PoSeqPair.zero)
        else (nd.slot? (nd.seq - 1)).map OrdSlot.madeEligible).map fun last => constructPrePrepare nd last rows
    else none
  | _ => none

/-- A certificate that a jump lands on. -/
def Node.lands (c : Config) (nd : Node D) (cert : OrdCert D) : Bool :=
  nd.running && nd.idle && decide (cert.prePrepare.body.rows.length ≤ c.numServers)

/-- The ordinal that a step orders, which leads from `nd` to `nd'`: by its last Commit, by a replay, by a jump. -/
def Node.orders (c : Config) (catchupHistory : Nat) (nd nd' : Node D) : Input D → Option Nat
  | .proceed _ =>
    match nd.call, nd.calls with
    | none, .message _ :: _ => nd'.call
    | none, .install _ :: _ => nd'.call
    | _, _ => none
  | .jump flag seqNum cert =>
    if nd.lands c cert && nd.jumps catchupHistory flag seqNum cert then some cert.seqNum else none
  | .recovered cert => if nd.lands c cert then some cert.seqNum else none
  | _ => none

/-- The first history after a leader has sent a Pre-Prepare. It fills the slot unless that is filled. -/
def filledAfter (c : Config) (nd : Node D) (sent : Option PrePrepare) (filled : Nat → Option PrePrepare) (s : Nat) :
    Option PrePrepare :=
  match sent with
  | some pp => if s = pp.seqNum ∧ (nd.ord.getOrdSlot c s).populatedEligible = false then some pp else filled s
  | none => filled s

/-- The second history once an ordinal is ordered. -/
def orderedAfter (nd' : Node D) (seq : Option Nat) (ordered : Nat → Option CompletePrePrepare) (s : Nat) :
    Option CompletePrePrepare :=
  if seq = some s then (nd'.slot? s).map OrdSlot.proposal else ordered s

section Code

variable [DecidableEq D] (c : Config) (catchupHistory : Nat) (digest : CompletePrePrepare → D) (me : Nat)

/-- One step, with its histories. -/
def Logged.step (t : Logged D) (x : Input D) : Logged D :=
  let nd' := Ordinals.step c catchupHistory digest me t.nd x
  { nd := nd'
    filledFrom := filledAfter c t.nd (t.nd.proposes c me x) t.filledFrom
    orderedWith := orderedAfter nd' (t.nd.orders c catchupHistory nd' x) t.orderedWith }

/-- A Pre-Prepare that meets a slot without parts goes with what a replay has put there, or is the one that the
slot was filled from. -/
def Begins (filled : Option PrePrepare) (slot : OrdSlot D) (pp : PrePrepare) : Prop :=
  slot.numPartsCollected = 0 → OrdSlot.ofProposal slot = true →
    if slot.collectedAllParts = true then slot.completePrePrepare.lastExecuted = pp.lastExecuted
    else slot.populatedEligible = true → ∃ own ∈ filled, own.lastExecuted = pp.lastExecuted ∧ own.rows = pp.rows

/-- A leader that fills a complete slot sends the Pre-Prepare which the slot has. -/
def Sends (slot : OrdSlot D) (pp : PrePrepare) : Prop :=
  slot.populatedEligible = false → slot.collectedAllParts = true →
    slot.completePrePrepare.lastExecuted = pp.lastExecuted ∧
      slot.completePrePrepare.cumAcks = writeRows (CompletePrePrepare.null c).cumAcks 0 pp.rows

/-- **The condition.** No step gives a slot another Pre-Prepare than the one its vector was made from. -/
structure Meets (t : Logged D) (x : Input D) : Prop where
  begins : ∀ mess ∈ t.nd.takes c x,
    Begins (t.filledFrom mess.body.seqNum) (t.nd.ord.getOrdSlot c mess.body.seqNum) mess.body
  sends : ∀ pp ∈ t.nd.proposes c me x, Sends c (t.nd.ord.getOrdSlot c pp.seqNum) pp

/-- A server that a run has led to, each step of which meets the condition. -/
def Reached (t : Logged D) : Prop :=
  ∃ me catchupHistory view incarnations proposalDigest xs, (∀ x ∈ xs, Input.Valid c x) ∧
    Lib.Steps (Logged.step c catchupHistory digest me) (Meets c me)
      (Logged.start c catchupHistory view incarnations proposalDigest) xs ∧
    t = xs.foldl (Logged.step c catchupHistory digest me) (Logged.start c catchupHistory view incarnations proposalDigest)

/-- Slots of two servers that were ordered with the same `last_executed` and matrix have the same vector. -/
def SameVectors (t t' : Logged D) : Prop :=
  ∀ s s' slot slot' pp pp', t.nd.slot? s = some slot → t'.nd.slot? s' = some slot' →
    OrdSlot.ofProposal slot = true → OrdSlot.ofProposal slot' = true → slot.populatedEligible = true →
    slot'.populatedEligible = true → slot.executed = true → slot'.executed = true →
    t.orderedWith s = some pp → t'.orderedWith s' = some pp' → pp.lastExecuted = pp'.lastExecuted →
    pp.cumAcks = pp'.cumAcks → slot.madeEligible = slot'.madeEligible

end Code

section Decidable

variable {c : Config} {me : Nat}

instance (filled : Option PrePrepare) (slot : OrdSlot D) (pp : PrePrepare) : Decidable (Begins filled slot pp) :=
  inferInstanceAs (Decidable (slot.numPartsCollected = 0 → OrdSlot.ofProposal slot = true →
    if slot.collectedAllParts = true then slot.completePrePrepare.lastExecuted = pp.lastExecuted
    else slot.populatedEligible = true → ∃ own ∈ filled, own.lastExecuted = pp.lastExecuted ∧ own.rows = pp.rows))

instance (slot : OrdSlot D) (pp : PrePrepare) : Decidable (Sends c slot pp) :=
  inferInstanceAs (Decidable (slot.populatedEligible = false → slot.collectedAllParts = true →
    slot.completePrePrepare.lastExecuted = pp.lastExecuted ∧
      slot.completePrePrepare.cumAcks = writeRows (CompletePrePrepare.null c).cumAcks 0 pp.rows))

instance (t : Logged D) (x : Input D) : Decidable (Meets c me t x) :=
  decidable_of_iff ((∀ mess ∈ t.nd.takes c x,
      Begins (t.filledFrom mess.body.seqNum) (t.nd.ord.getOrdSlot c mess.body.seqNum) mess.body) ∧
      ∀ pp ∈ t.nd.proposes c me x, Sends c (t.nd.ord.getOrdSlot c pp.seqNum) pp)
    ⟨fun h => ⟨h.1, h.2⟩, fun h => ⟨h.begins, h.sends⟩⟩

end Decidable

end Spire.Ordinals
