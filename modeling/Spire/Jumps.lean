import Spire.OrdinalEdits

/-!
# Jumps

`CATCH_Jump_Ahead` takes a server to the ordinal of a certificate. The slots up to there go, and so do
later ones of views before that of the certificate, as its comment says. The comparison that follows the
comment is with the ordinal instead of the view.

Whatever stays, the counters that a jump moves stand at its ordinal or have moved over slots. Those that
were ahead of it before are left where they are, or go back to the last slot that was prepared
(`ORDER_Adjust_ppARU`), also over ordinals whose slots are gone. `jump_keeps_iff` has both as conditions.

It is about the function up to where it looks for complete states. What it calls last, it calls after any
execution.
-/

namespace Spire.Ordinals

open Spire.Order Spire.Replay

variable {D : Type} {c : Config} {me : Nat} {nd nd' nd'' : Node D} {cert : OrdCert D}

/-! ## Counters over slots -/

/-- From `low` to `high` there are slots at all ordinals. -/
def Over (nd : Node D) (low high : Nat) : Prop := low ≤ high ∧ ∀ s, low < s → s ≤ high → (nd.ord.slot? s).isSome = true

theorem Over.refl (nd : Node D) (line : Nat) : Over nd line line :=
  ⟨le_refl line, fun _ hlt hle => absurd hle (Nat.not_le_of_lt hlt)⟩

theorem Over.trans {low line high : Nat} (h : Over nd low line) (h' : Over nd line high) : Over nd low high :=
  ⟨h.1.trans h'.1, fun s hlt hle => (Nat.lt_or_ge line s).elim (fun hgt => h'.2 s hgt hle) (h.2 s hlt)⟩

theorem Over.congr {low high : Nat} (h : Over nd low high) (hslots : ∀ s, (nd'.ord.slot? s).isSome = (nd.ord.slot? s).isSome) :
    Over nd' low high :=
  ⟨h.1, fun s hlt hle => (hslots s).trans (h.2 s hlt hle)⟩

theorem over_advance {p : Nat → Bool} {fuel line : Nat} (hp : ∀ s, p s = true → (nd.ord.slot? s).isSome = true) :
    Over nd line (Lib.advance p fuel line) :=
  ⟨Lib.le_advance, fun s hlt hle => hp s (Lib.marked_of_le_advance hlt hle)⟩

/-- The server goes on preparing and reconciling: no slot comes or goes, those it has prepared stay as they
are, and two counters move over slots. -/
structure Proceeds (nd nd' : Node D) : Prop where
  halted : nd'.ord.halted = nd.ord.halted
  slots : ∀ s, (nd'.ord.slot? s).isSome = (nd.ord.slot? s).isSome
  below : ∀ s ≤ nd.ord.ppAru, nd'.ord.slot? s = nd.ord.slot? s
  aru : nd'.ord.aru = nd.ord.aru
  stableCatchup : nd'.ord.stableCatchup = nd.ord.stableCatchup
  forwardingWhiteLine : nd'.ord.forwardingWhiteLine = nd.ord.forwardingWhiteLine
  ppAru : Over nd nd.ord.ppAru nd'.ord.ppAru
  reconWhiteLine : Over nd nd.ord.reconWhiteLine nd'.ord.reconWhiteLine

theorem Proceeds.refl (nd : Node D) : Proceeds nd nd :=
  ⟨rfl, fun _ => rfl, fun _ _ => rfl, rfl, rfl, rfl, .refl nd _, .refl nd _⟩

theorem Proceeds.of_ord (h : nd'.ord = nd.ord) : Proceeds nd nd' := by
  refine ⟨?_, fun s => ?_, fun s _ => ?_, ?_, ?_, ?_, ?_, ?_⟩
  all_goals rw [h]
  · exact .refl nd _
  · exact .refl nd _

theorem Proceeds.trans (h : Proceeds nd nd') (h' : Proceeds nd' nd'') : Proceeds nd nd'' where
  halted := h'.halted.trans h.halted
  slots s := (h'.slots s).trans (h.slots s)
  below s hs := (h'.below s (hs.trans h.ppAru.1)).trans (h.below s hs)
  aru := h'.aru.trans h.aru
  stableCatchup := h'.stableCatchup.trans h.stableCatchup
  forwardingWhiteLine := h'.forwardingWhiteLine.trans h.forwardingWhiteLine
  ppAru := h.ppAru.trans (h'.ppAru.congr fun s => (h.slots s).symm)
  reconWhiteLine := h.reconWhiteLine.trans (h'.reconWhiteLine.congr fun s => (h.slots s).symm)

theorem proceeds_updateReconWhiteLine (nd : Node D) : Proceeds nd nd.updateReconWhiteLine :=
  ⟨rfl, fun _ => rfl, fun _ _ => rfl, rfl, rfl, rfl, .refl nd _, over_advance fun _ h => (Bool.and_eq_true_iff.mp h).1⟩

theorem proceeds_doRecon (nd : Node D) (seq : Nat) : Proceeds nd (doRecon c nd seq) := by
  unfold doRecon
  split
  · exact .refl nd
  · dsimp only
    split
    · exact .refl nd
    split
    · exact .refl nd
    split
    · exact .refl nd
    split
    · exact .refl nd
    split
    · exact .of_ord rfl
    · have hmark : Proceeds nd { nd with reconciled := Function.update nd.reconciled seq true } := .of_ord rfl
      exact hmark.trans (proceeds_updateReconWhiteLine _)

theorem proceeds_reconFrom (before : Nat) (nd : Node D) : Proceeds nd (reconFrom c before nd) := by
  unfold reconFrom
  generalize List.range' (before + 1) (nd.ord.ppAru - before) = seqs
  induction seqs generalizing nd with
  | nil => exact .refl nd
  | cons seq seqs ih =>
    have hstep : Proceeds nd (reconPrepared c nd seq) := by
      unfold reconPrepared Node.andThen
      dsimp only
      split
      · split
        · exact proceeds_doRecon nd seq
        · exact .refl nd
      · exact .refl nd
    exact hstep.trans (ih _)

section Prepares

variable {digest : CompletePrePrepare → D}

/-- The loop of `ORDER_Send_Prepares`, from a slot that is there. -/
theorem proceeds_sendPreparesLoop (fuel : Nat) (st : Order.Node D) (out : List (Msg D))
    (hlast : (st.slot? st.ppAru).isSome = true) :
    Proceeds (nd.withOrd st) (nd.withOrd (sendPreparesLoop c digest me fuel st out).1) ∧
      ((sendPreparesLoop c digest me fuel st out).1.slot? (sendPreparesLoop c digest me fuel st out).1.ppAru).isSome = true := by
  induction fuel generalizing st out with
  | zero => exact ⟨.refl _, hlast⟩
  | succ fuel ih =>
    rw [sendPreparesLoop]
    split
    · exact ⟨.refl _, hlast⟩
    rename_i slot hget
    have hnext : (st.slot? (st.ppAru + 1)).isSome = true := by rw [hget]; rfl
    have hadvance : Over (nd.withOrd st) st.ppAru (st.ppAru + 1) := by
      refine ⟨Nat.le_succ _, fun s hlt hle => ?_⟩
      rw [Nat.le_antisymm hle hlt]
      exact hnext
    split
    · exact ⟨.refl _, hlast⟩
    split
    · have hstep : Proceeds (nd.withOrd st) (nd.withOrd st.advancePpAru) :=
        ⟨rfl, fun _ => rfl, fun _ _ => rfl, rfl, rfl, rfl, hadvance, .refl _ _⟩
      obtain ⟨hrest, hslot⟩ := ih st.advancePpAru out hnext
      exact ⟨hstep.trans hrest, hslot⟩
    split
    · exact ⟨.refl _, hlast⟩
    split
    · rename_i hcontinues
      -- The slot before is there, so that the assertion holds.
      unfold continues at hcontinues
      rw [Option.isSome_iff_exists] at hlast
      obtain ⟨prev, hprev⟩ := hlast
      rw [hprev] at hcontinues
      cases hcontinues
    · exact ⟨.refl _, hlast⟩
    · have hput : ∀ s, ((st.putOrdSlot (st.ppAru + 1) (acceptProposal c slot)).slot? s).isSome = (st.slot? s).isSome := by
        intro s
        by_cases heq : s = st.ppAru + 1
        · rw [heq, Order.Node.slot?_putOrdSlot_self, hnext]
          rfl
        · rw [Order.Node.slot?_putOrdSlot_of_ne st _ heq]
      have hstep : Proceeds (nd.withOrd st)
          (nd.withOrd (st.putOrdSlot (st.ppAru + 1) (acceptProposal c slot)).advancePpAru) :=
        ⟨rfl, hput, fun s hs => st.slot?_putOrdSlot_of_ne _ (Nat.ne_of_lt (Nat.lt_succ_of_le hs)), rfl, rfl, rfl,
          hadvance, .refl _ _⟩
      obtain ⟨hrest, hslot⟩ := ih (st.putOrdSlot (st.ppAru + 1) (acceptProposal c slot)).advancePpAru _
        ((hput _).trans hnext)
      exact ⟨hstep.trans hrest, hslot⟩

/-- `ORDER_Send_Prepares`, from a slot that is there. -/
theorem proceeds_sendPrepares (hlast : (nd.ord.slot? nd.ord.ppAru).isSome = true) :
    Proceeds nd (sendPrepares c digest me nd) := by
  have hord : Proceeds nd (nd.withOrd (Order.sendPrepares c digest me nd.ord).1) := by
    obtain ⟨hloop, hslot⟩ := @proceeds_sendPreparesLoop D c me nd digest (nd.ord.history.keys.length + 1) nd.ord [] hlast
    unfold Order.sendPrepares
    split
    · rename_i hr
      rw [hr] at hloop
      exact hloop
    · rename_i hr
      rw [hr] at hloop hslot
      rw [if_neg (by rw [Option.isNone_iff_eq_none]; exact Option.isSome_iff_ne_none.mp hslot)]
      exact hloop
  exact hord.trans (proceeds_reconFrom _ _)

end Prepares

/-! ## Landing -/

/-- The history after the landing: the slots that outlive the jump and its own. -/
theorem slot?_landOn (nd : Node D) (cert : OrdCert D) (s : Nat) :
    (landOn c nd cert).ord.slot? s =
      if s = cert.seqNum then some (landingSlot c cert) else if nd.outlives cert s then nd.ord.slot? s else none := by
  have hput : (landOn c nd cert).ord.slot? s =
      ((nd.dropSlots fun s => !nd.outlives cert s).ord.putOrdSlot cert.seqNum (landingSlot c cert)).slot? s := rfl
  rw [hput]
  by_cases heq : s = cert.seqNum
  · rw [if_pos heq, heq, Order.Node.slot?_putOrdSlot_self]
  · rw [if_neg heq, Order.Node.slot?_putOrdSlot_of_ne _ _ heq, slot?_dropSlots]
    cases nd.outlives cert s with
    | true => rfl
    | false => rfl

/-- What outlives a jump is there. -/
theorem isSome_of_outlives {s : Nat} (h : nd.outlives cert s = true) : (nd.ord.slot? s).isSome = true := by
  unfold Node.outlives Node.slot? at h
  cases hslot : nd.ord.slot? s with
  | none =>
    rw [hslot] at h
    cases h
  | some slot => rfl

theorem isSome_landOn {s : Nat} (hs : s ≠ cert.seqNum) :
    ((landOn c nd cert).ord.slot? s).isSome = true ↔ nd.outlives cert s = true := by
  rw [slot?_landOn, if_neg hs]
  split
  · rename_i houtlives
    exact ⟨fun _ => houtlives, isSome_of_outlives⟩
  · rename_i houtlives
    exact ⟨fun h => absurd h (by simp), fun h => absurd h houtlives⟩

/-- The history after the slots that do not outlive the jump are gone. -/
def afterDrop (nd : Node D) (cert : OrdCert D) : Order.Node D :=
  { (nd.dropSlots fun s => !nd.outlives cert s).ord with aru := cert.seqNum }

/-- The counters after the landing. -/
structure Landed (c : Config) (nd : Node D) (cert : OrdCert D) : Prop where
  halted : (landOn c nd cert).ord.halted = nd.ord.halted
  aru : (landOn c nd cert).ord.aru = cert.seqNum
  ppAru : (landOn c nd cert).ord.ppAru = lastWith (afterDrop nd cert) nd.ord.ppAru OrdSlot.sentPrepare
  stableCatchup : (landOn c nd cert).ord.stableCatchup = max nd.ord.stableCatchup cert.seqNum
  forwardingWhiteLine : Over (landOn c nd cert) (max nd.ord.forwardingWhiteLine cert.seqNum)
    (landOn c nd cert).ord.forwardingWhiteLine
  reconWhiteLine : Over (landOn c nd cert) (max nd.ord.reconWhiteLine cert.seqNum) (landOn c nd cert).ord.reconWhiteLine

theorem landed (nd : Node D) (cert : OrdCert D) : Landed c nd cert where
  halted := rfl
  aru := rfl
  ppAru := rfl
  stableCatchup := rfl
  forwardingWhiteLine := over_advance fun _ h => isSome_of_forwarded h
  reconWhiteLine := over_advance fun _ h => (Bool.and_eq_true_iff.mp h).1

theorem slot?_afterDrop (nd : Node D) (cert : OrdCert D) (s : Nat) :
    (afterDrop nd cert).slot? s = if nd.outlives cert s then nd.ord.slot? s else none := by
  have hdrop : (afterDrop nd cert).slot? s = (nd.dropSlots fun s => !nd.outlives cert s).ord.slot? s := rfl
  rw [hdrop, slot?_dropSlots]
  cases nd.outlives cert s with
  | true => rfl
  | false => rfl

/-- `ppARU` stands at a slot. -/
theorem landOn_last (nd : Node D) (cert : OrdCert D) :
    ((landOn c nd cert).ord.slot? (landOn c nd cert).ord.ppAru).isSome = true := by
  rw [(landed (c := c) nd cert).ppAru]
  rcases (lastWith_spec (afterDrop nd cert) nd.ord.ppAru OrdSlot.sentPrepare).1 with hstand | ⟨hlt, -, htest⟩
  · have haru : (afterDrop nd cert).aru = cert.seqNum := rfl
    rw [hstand, haru, slot?_landOn, if_pos rfl]
    rfl
  · have hne : lastWith (afterDrop nd cert) nd.ord.ppAru OrdSlot.sentPrepare ≠ cert.seqNum := Nat.ne_of_gt hlt
    rw [slot?_afterDrop] at htest
    rw [isSome_landOn hne]
    by_contra hgone
    rw [if_neg hgone] at htest
    cases htest

/-! ## What a jump keeps -/

/-- A slot that is still of use after a jump: a later one, of no earlier view. -/
def Useful (nd : Node D) (cert : OrdCert D) (s : Nat) : Prop :=
  ∃ slot, nd.ord.slot? s = some slot ∧ cert.seqNum < slot.seqNum ∧ cert.view ≤ slot.view

/-- The server has jumped: it has kept the slots that are still of use and no others, it stands at the slot
of the certificate, and its counters stand there or are ahead over slots. -/
structure JumpKept (c : Config) (nd : Node D) (cert : OrdCert D) (nd' : Node D) : Prop where
  running : nd'.ord.halted = false
  kept : ∀ s, s ≠ cert.seqNum → ((nd'.ord.slot? s).isSome = true ↔ Useful nd cert s)
  own : nd'.ord.slot? cert.seqNum = some (landingSlot c cert)
  aru : nd'.ord.aru = cert.seqNum
  ppAru : Over nd' cert.seqNum nd'.ord.ppAru
  stableCatchup : Over nd' cert.seqNum nd'.ord.stableCatchup
  forwardingWhiteLine : Over nd' cert.seqNum nd'.ord.forwardingWhiteLine
  reconWhiteLine : Over nd' cert.seqNum nd'.ord.reconWhiteLine

/-- At the ordinals after that of the certificate up to `line` there are slots that outlive the jump. -/
def Covered (nd : Node D) (cert : OrdCert D) (line : Nat) : Prop :=
  ∀ s, cert.seqNum < s → s ≤ line → nd.outlives cert s = true

/-- The rows of the certificate fit into its slot; for each later slot it makes no difference whether its
view is compared with the view of the certificate or with its ordinal; and the counters that are ahead of
the certificate are ahead over slots that outlive the jump, `ppARU` up to the last that was prepared. -/
structure JumpCondition (c : Config) (nd : Node D) (cert : OrdCert D) : Prop where
  rows : cert.prePrepare.body.rows.length ≤ c.numServers
  views : ∀ s slot, s ≠ cert.seqNum → nd.ord.slot? s = some slot → cert.seqNum < slot.seqNum →
    (cert.seqNum ≤ slot.view ↔ cert.view ≤ slot.view)
  prepared : ∀ s slot, cert.seqNum < s → s ≤ nd.ord.ppAru → nd.outlives cert s = true → nd.ord.slot? s = some slot →
    slot.sentPrepare = true → Covered nd cert s
  stableCatchup : Covered nd cert nd.ord.stableCatchup
  forwardingWhiteLine : Covered nd cert nd.ord.forwardingWhiteLine
  reconWhiteLine : Covered nd cert nd.ord.reconWhiteLine

theorem outlives_iff {s : Nat} : nd.outlives cert s = true ↔
    ∃ slot, nd.ord.slot? s = some slot ∧ cert.seqNum < slot.seqNum ∧ cert.seqNum ≤ slot.view := by
  unfold Node.outlives Node.slot?
  rw [Option.any_eq_true]
  simp only [Bool.and_eq_true, decide_eq_true_eq]

section Jump

variable {digest : CompletePrePrepare → D}

/-- **What a jump does** after it has landed. -/
theorem jumpAhead_spec (hrows : cert.prePrepare.body.rows.length ≤ c.numServers) :
    Proceeds (landOn c nd cert) (jumpAhead c digest me nd cert) := by
  have hprepares : Proceeds (landOn c nd cert) (sendPrepares c digest me (landOn c nd cert)) :=
    proceeds_sendPrepares (landOn_last nd cert)
  unfold jumpAhead Node.andThen
  rw [if_neg (Nat.not_lt_of_le hrows)]
  split
  · exact hprepares.trans ⟨rfl, fun _ => rfl, fun _ _ => rfl, rfl, rfl, rfl, .refl _ _, .refl _ _⟩
  · exact hprepares

/-- **Jumps keep the useful slots** exactly under the condition. -/
theorem jump_keeps_iff (hrunning : nd.ord.halted = false) :
    JumpKept c nd cert (jumpAhead c digest me nd cert) ↔ JumpCondition c nd cert := by
  have hland : Landed c nd cert := landed nd cert
  have hlast := lastWith_spec (afterDrop nd cert) nd.ord.ppAru OrdSlot.sentPrepare
  constructor
  · intro h
    have hrows : cert.prePrepare.body.rows.length ≤ c.numServers := by
      by_contra hmany
      have hended := h.running
      unfold jumpAhead at hended
      rw [if_pos (Nat.lt_of_not_le hmany)] at hended
      cases hended
    have hjump : Proceeds (landOn c nd cert) (jumpAhead c digest me nd cert) := jumpAhead_spec hrows
    have hkept : ∀ s, s ≠ cert.seqNum → (nd.outlives cert s = true ↔ Useful nd cert s) := by
      intro s hs
      rw [← h.kept s hs, hjump.slots, isSome_landOn hs]
    have hover : ∀ {low line : Nat}, low ≤ line → Over (jumpAhead c digest me nd cert) cert.seqNum line →
        Covered nd cert low := by
      intro low line hle hline s hlt hs
      have hslot := hline.2 s hlt (hs.trans hle)
      rwa [hjump.slots, isSome_landOn (Nat.ne_of_gt hlt)] at hslot
    refine
      { rows := hrows, views := fun s slot hs hslot hlater => ?_
        prepared := fun s slot hlt hle houtlives hslot hsent => ?_
        stableCatchup := hover ?_ h.stableCatchup, forwardingWhiteLine := hover ?_ h.forwardingWhiteLine
        reconWhiteLine := hover ?_ h.reconWhiteLine }
    · have hiff := hkept s hs
      rw [outlives_iff] at hiff
      constructor
      · intro hview
        obtain ⟨slot', hslot', -, hview'⟩ := hiff.mp ⟨slot, hslot, hlater, hview⟩
        rw [hslot] at hslot'
        obtain rfl := Option.some.inj hslot'
        exact hview'
      · intro hview
        obtain ⟨slot', hslot', -, hview'⟩ := hiff.mpr ⟨slot, hslot, hlater, hview⟩
        rw [hslot] at hslot'
        obtain rfl := Option.some.inj hslot'
        exact hview'
    · refine hover ?_ h.ppAru
      have htest : ((afterDrop nd cert).slot? s).any OrdSlot.sentPrepare = true := by
        rw [slot?_afterDrop, if_pos houtlives, hslot]
        exact hsent
      have hfound := hlast.2 s hlt hle htest
      rw [← hland.ppAru] at hfound
      exact hfound.trans hjump.ppAru.1
    · rw [hjump.stableCatchup, hland.stableCatchup]
      exact le_max_left _ _
    · rw [hjump.forwardingWhiteLine]
      exact (le_max_left _ _).trans hland.forwardingWhiteLine.1
    · exact (le_max_left _ _).trans (hland.reconWhiteLine.1.trans hjump.reconWhiteLine.1)
  · intro h
    have hjump : Proceeds (landOn c nd cert) (jumpAhead c digest me nd cert) := jumpAhead_spec h.rows
    have hover : ∀ {line : Nat}, Covered nd cert line → Over (landOn c nd cert) cert.seqNum (max line cert.seqNum) := by
      intro line hcovered
      refine ⟨le_max_right _ _, fun s hlt hle => (isSome_landOn (Nat.ne_of_gt hlt)).mpr (hcovered s hlt ?_)⟩
      omega
    have hprepared : Over (landOn c nd cert) cert.seqNum (landOn c nd cert).ord.ppAru := by
      rw [hland.ppAru]
      rcases hlast.1 with hstand | ⟨hlt, hle, htest⟩
      · rw [hstand]
        exact .refl _ _
      · rw [slot?_afterDrop] at htest
        split at htest
        · rename_i houtlives
          rw [Option.any_eq_true] at htest
          obtain ⟨slot, hslot, hsent⟩ := htest
          refine ⟨Nat.le_of_lt hlt, fun s hs hle' => (isSome_landOn (Nat.ne_of_gt hs)).mpr ?_⟩
          exact h.prepared _ slot hlt hle houtlives hslot hsent s hs hle'
        · cases htest
    refine
      { running := by rw [hjump.halted, hland.halted, hrunning]
        kept := fun s hs => ?_, own := ?_, aru := by rw [hjump.aru, hland.aru]
        ppAru := (hprepared.trans hjump.ppAru).congr hjump.slots
        stableCatchup := ?_, forwardingWhiteLine := ?_
        reconWhiteLine := (((hover h.reconWhiteLine).trans hland.reconWhiteLine).trans hjump.reconWhiteLine).congr hjump.slots }
    · rw [hjump.slots, isSome_landOn hs, outlives_iff]
      constructor
      · rintro ⟨slot, hslot, hlater, hview⟩
        exact ⟨slot, hslot, hlater, (h.views s slot hs hslot hlater).mp hview⟩
      · rintro ⟨slot, hslot, hlater, hview⟩
        exact ⟨slot, hslot, hlater, (h.views s slot hs hslot hlater).mpr hview⟩
    · rw [hjump.below _ hprepared.1, slot?_landOn, if_pos rfl]
    · rw [hjump.stableCatchup, hland.stableCatchup]
      exact (hover h.stableCatchup).congr hjump.slots
    · rw [hjump.forwardingWhiteLine]
      exact ((hover h.forwardingWhiteLine).trans hland.forwardingWhiteLine).congr hjump.slots

end Jump

/-! ### A server that is behind -/

/-- A proposal of the leader of the first view, with an empty matrix. -/
def proposalAt (seq : Nat) : Signed PrePrepare :=
  { firstProposal with body := { firstProposal.body with seqNum := seq } }

/-- A server of `threeServers` that has heard of one ordinal only, that of the leader's last proposal. -/
def behind (seq : Nat) : Node CompletePrePrepare :=
  [Input.message (.prePrepare (proposalAt seq)), .proceed fun _ => .there].foldl (step threeServers.toConfig 10 id 2)
    (Node.start threeServers.toConfig 10 1 [1, 1, 1] [])

/-- The certificate of an ordinal of the first view. -/
def certificateAt (seq : Nat) : OrdCert CompletePrePrepare :=
  let complete := { CompletePrePrepare.null threeServers.toConfig with seqNum := seq, view := 1, proposalDigest := [] }
  let commit (i : Nat) := constructCommit threeServers.toConfig id (firstView.node i) i complete
  { sender := 1, type := .commit, view := 1, prePrepare := proposalAt seq, commits := [commit 1, commit 3] }

/-- At the first ordinal of the first view the two comparisons are one. -/
theorem firstJump_keeps : (behind 2).ord.halted = false ∧
    JumpKept threeServers.toConfig (behind 2) (certificateAt 1)
      (jumpAhead threeServers.toConfig id 2 (behind 2) (certificateAt 1)) := by
  have hrunning : (behind 2).ord.halted = false := by decide +kernel
  have hppAru : (behind 2).ord.ppAru = 0 := by decide +kernel
  have hcovered : ∀ {line : Nat}, line = 0 → Covered (behind 2) (certificateAt 1) line := by
    intro line hline s hlt hle
    omega
  refine ⟨hrunning, (jump_keeps_iff hrunning).mpr ?_⟩
  exact
    { rows := by decide +kernel
      views := fun _ _ _ _ _ => Iff.rfl
      prepared := fun s _ hlt hle => by omega
      stableCatchup := hcovered (by decide +kernel)
      forwardingWhiteLine := hcovered (by decide +kernel)
      reconWhiteLine := hcovered (by decide +kernel) }

/-- A jump to the second ordinal of the first view drops the third, which is of the same view. -/
theorem secondJump_loses : ¬∀ (nd : Node CompletePrePrepare) (cert : OrdCert CompletePrePrepare), nd.ord.halted = false →
    JumpKept threeServers.toConfig nd cert (jumpAhead threeServers.toConfig id 2 nd cert) := by
  intro hkeeps
  have hkept := (hkeeps (behind 3) (certificateAt 2) (by decide +kernel)).kept 3 (by decide +kernel)
  have hgone : ((jumpAhead threeServers.toConfig id 2 (behind 3) (certificateAt 2)).ord.slot? 3).isSome = false := by
    decide +kernel
  have hslot : ((behind 3).ord.slot? 3).any (fun slot => slot.seqNum == 3 && slot.view == 1) = true := by decide +kernel
  obtain ⟨slot, hslot, hfields⟩ := (Option.any_eq_true _ _).mp hslot
  obtain ⟨hseq, hview⟩ := Bool.and_eq_true_iff.mp hfields
  have huseful : Useful (behind 3) (certificateAt 2) 3 :=
    ⟨slot, hslot, beq_iff_eq.mp hseq ▸ by decide +kernel, beq_iff_eq.mp hview ▸ by decide +kernel⟩
  rw [hkept.mpr huseful] at hgone
  cases hgone

end Spire.Ordinals
