import Spire.Lib.Runs
import Spire.Jumps

/-!
# Replays that return

`VIEW_Execute_Replay` fills a slot for each ordinal from the one executed last to where the new view starts,
and executes it or marks it as pending, as the comment above its loop says. After the loop it takes `ppARU`
back to the last slot that was prepared. None of the slots it has filled is, so that `ppARU` ends at `ARU`,
and the assertion that closes the function fails where a slot is pending. It also fails where the slot the new
view starts with was ordered already and is executed in turn.

`replay_returns_iff` is about a call of the function from start to end. Whether the requests of an ordinal are
there is a function of the ordinal: a call scans for those of an ordinal once, since a slot that waits stays as
it is until the call has ended.
-/

namespace Spire.Ordinals

open Spire.Order Spire.Replay

variable {D : Type} {c : Config} {digest : CompletePrePrepare → D} {me startSeq top : Nat}
  {ready : Nat → Requests} {nd nd' : Node D} {base : List (Frame D)}

/-! ## A call that returns -/

/-- The functions that were called above `depth` others have returned, or the process has ended. -/
def Node.returned (depth : Nat) (nd : Node D) : Bool :=
  !nd.running || nd.call.isNone && decide (nd.calls.length ≤ depth)

/-- The replay has returned to `base`. `ppARU` is before `startSeq`; every ordinal from `low` to there is executed
or pending; and `ARU` is before the first that is pending. -/
structure ReplayKept (base : List (Frame D)) (low startSeq : Nat) (nd : Node D) : Prop where
  running : nd.running = true
  calls : nd.calls = base
  ppAru : nd.ord.ppAru + 1 = startSeq
  through : ∀ s, low < s → s < startSeq → s ≤ nd.ord.aru ∨ s ∈ nd.pending
  stops : nd.ord.aru + 1 = startSeq ∨ nd.ord.aru + 1 < startSeq ∧ nd.ord.aru + 1 ∈ nd.pending

/-- `VIEW_Execute_Replay` returns and leaves what it should. -/
def ReplayReturns [DecidableEq D] (c : Config) (digest : CompletePrePrepare → D) (me : Nat) (ready : Nat → Requests) (nd : Node D)
    (list : Bitmap) (pcSet : Nat → List (PcSet D)) (startSeq : Nat) : Prop :=
  Lib.Halts (proceed c digest me ready) (Node.returned nd.calls.length)
    (ReplayKept nd.calls nd.ord.aru startSeq) (executeReplay c nd list pcSet startSeq)

/-! ## States of a view change -/

/-- The ordering invariants of a server in a view change: the slots of the catchup history are there, executed
and complete, the white lines have gone over them, none of a later ordinal and of the new view was prepared, and
what is pending is in the history. -/
structure ViewChanging (nd : Node D) : Prop where
  running : nd.running = true
  call : nd.call = none
  changing : nd.ord.viewChangeDone = false
  seqNum : ∀ s slot, nd.ord.slot? s = some slot → slot.seqNum = s
  first : nd.ord.slot? 0 = none
  window : ∀ s, 0 < s → nd.ord.stableCatchup ≤ s → s ≤ nd.ord.aru →
    ∃ slot, nd.ord.slot? s = some slot ∧ slot.executed = true ∧ slot.collectedAllParts = true
  stable : nd.ord.stableCatchup ≤ nd.ord.aru ∧ (0 < nd.ord.aru → 0 < nd.ord.stableCatchup)
  lines : nd.ord.aru ≤ nd.ord.forwardingWhiteLine ∧ nd.ord.aru ≤ nd.ord.reconWhiteLine
  unprepared : ∀ s slot, nd.ord.aru < s → nd.ord.slot? s = some slot → nd.ord.view ≤ slot.view → slot.sentPrepare = false
  pending : ∀ s ∈ nd.pending, ∃ slot, nd.ord.slot? s = some slot ∧ slot.proposal.seqNum = s

/-- A slot the replay has filled, and not executed yet. -/
structure Filled (s : Nat) (slot : OrdSlot D) : Prop where
  seqNum : slot.proposal.seqNum = s
  executed : slot.executed = false
  collected : slot.collectedAllParts = true

/-- The replay has filled the slots up to `top`. -/
structure Replaying (startSeq top : Nat) (nd : Node D) : Prop where
  running : nd.running = true
  changing : nd.ord.viewChangeDone = false
  first : nd.ord.slot? 0 = none
  window : ∀ s, 0 < s → nd.ord.stableCatchup ≤ s → s ≤ nd.ord.aru →
    ∃ slot, nd.ord.slot? s = some slot ∧ slot.executed = true ∧ slot.collectedAllParts = true
  stable : nd.ord.stableCatchup ≤ nd.ord.aru ∧ (0 < nd.ord.aru → 0 < nd.ord.stableCatchup)
  lines : top ≤ nd.ord.forwardingWhiteLine ∧ top ≤ nd.ord.reconWhiteLine
  filled : ∀ s, nd.ord.aru < s → s ≤ top → ∃ slot, nd.ord.slot? s = some slot ∧ Filled s slot ∧ nd.reconciled s = true
  unprepared : ∀ s slot, nd.ord.aru < s → nd.ord.slot? s = some slot → slot.sentPrepare = false
  fresh : ∀ s, top < s → s < startSeq → nd.ord.slot? s = none ∧ s ∉ nd.pending
  pending : ∀ s ∈ nd.pending, ∃ slot, nd.ord.slot? s = some slot ∧ slot.proposal.seqNum = s
  below : nd.ord.aru ≤ top ∧ top < startSeq

/-- `ppARU` is at `ARU`, or ahead of it at a slot. -/
def Node.ahead (nd : Node D) : Prop :=
  nd.ord.aru ≤ nd.ord.ppAru ∧ (nd.ord.ppAru = nd.ord.aru ∨ (nd.ord.slot? nd.ord.ppAru).isSome = true)

/-- The slot before the next ordinal is there unless that is the first. -/
theorem Replaying.isNone_last (h : Replaying startSeq top nd) :
    (nd.ord.slot? nd.ord.aru).isNone = decide (nd.ord.aru = 0) := by
  by_cases haru : nd.ord.aru = 0
  · rw [haru, h.first]
    rfl
  · obtain ⟨slot, hslot, -⟩ := h.window _ (Nat.pos_of_ne_zero haru) h.stable.1 (le_refl _)
    rw [hslot, decide_eq_false haru]
    rfl

/-- The next ordinal follows one that was executed, or is the first. -/
theorem Replaying.followsExecuted (h : Replaying startSeq top nd) : nd.followsExecuted (nd.ord.aru + 1) = true := by
  unfold Node.followsExecuted Node.slot?
  rw [Nat.add_sub_cancel]
  by_cases haru : nd.ord.aru = 0
  · rw [haru, h.first]
    rfl
  · obtain ⟨slot, hslot, hexecuted, -⟩ := h.window _ (Nat.pos_of_ne_zero haru) h.stable.1 (le_refl _)
    rw [hslot]
    exact hexecuted

/-- The ordinals after the next one follow one that was not. -/
theorem Replaying.not_followsExecuted (h : Replaying startSeq top nd) {s : Nat} (hlow : nd.ord.aru < s) (hhigh : s ≤ top) :
    nd.followsExecuted (s + 1) = false := by
  obtain ⟨slot, hslot, hfilled, -⟩ := h.filled s hlow hhigh
  unfold Node.followsExecuted Node.slot?
  rw [Nat.add_sub_cancel, hslot]
  exact hfilled.executed

/-- The frames and the slot that is called do not matter. -/
theorem Replaying.frame (h : Replaying startSeq top nd) (call : Option Nat) (calls : List (Frame D)) :
    Replaying startSeq top { nd with call, calls } := { h with }

/-! ## One round -/

/-- What one round fills in. -/
structure Installed (c : Config) (startSeq top : Nat) (slot : OrdSlot D) (nd nd' : Node D) : Prop where
  replaying : Replaying startSeq (top + 1) nd'
  ahead : nd.ahead → nd'.ahead
  aru : nd'.ord.aru = nd.ord.aru
  call : nd'.call = some (top + 1)
  calls : nd'.calls = nd.calls
  pending : nd'.pending = nd.pending
  slot? : ∀ s, s ≠ top + 1 → nd'.ord.slot? s = nd.ord.slot? s
  filled : nd'.ord.slot? (top + 1) = some (fillSlot (OrdSlot.new c (top + 1)) slot)

/-- A round fills the slot, and takes both white lines over it. -/
theorem installSlot_eq {slot : OrdSlot D} (h : Replaying startSeq top nd) (hseq : slot.seqNum = top + 1)
    (hlast : top + 1 < startSeq) (hfits : fits c slot = true) : ∃ forwarding recon,
      top + 1 ≤ forwarding ∧ top + 1 ≤ recon ∧ installSlot c nd slot =
        { nd with
          ord := { nd.ord.putOrdSlot (top + 1) (fillSlot (OrdSlot.new c (top + 1)) slot) with
            forwardingWhiteLine := forwarding, reconWhiteLine := recon }
          numForwarded := Function.update nd.numForwarded (top + 1) slot.totalParts
          reconciled := Function.update nd.reconciled (top + 1) true
          call := some (top + 1) } := by
  have hnew : nd.ord.getOrdSlot c (top + 1) = OrdSlot.new c (top + 1) := by
    rw [Order.Node.getOrdSlot, (h.fresh (top + 1) (Nat.lt_succ_self top) hlast).1]
    rfl
  let nd₁ : Node D :=
    { nd with
      ord := nd.ord.putOrdSlot (top + 1) (fillSlot (OrdSlot.new c (top + 1)) slot)
      numForwarded := Function.update nd.numForwarded (top + 1) slot.totalParts
      reconciled := Function.update nd.reconciled (top + 1) true }
  have hslot : nd₁.slot? (top + 1) = some (fillSlot (OrdSlot.new c (top + 1)) slot) :=
    nd.ord.slot?_putOrdSlot_self (top + 1) _
  have hnext : ∀ {line k : Nat}, top ≤ line → line < k → k ≤ top + 1 → k = top + 1 := fun hline hlt hle => by omega
  refine ⟨nd₁.updateForwardingWhiteLine.ord.forwardingWhiteLine,
    nd₁.updateForwardingWhiteLine.updateReconWhiteLine.ord.reconWhiteLine, ?_, ?_, ?_⟩
  · refine Lib.le_advance_keys nd₁.ord.history
      (fun k hk => AList.lookup_isSome.mp (isSome_of_forwarded hk)) fun k hlt hle => ?_
    rw [hnext h.lines.1 hlt hle, Node.forwarded, hslot]
    simp [nd₁, fillSlot]
  · refine Lib.le_advance_keys nd₁.ord.history
      (fun k hk => AList.lookup_isSome.mp (Bool.and_eq_true_iff.mp hk).1) fun k hlt hle => ?_
    rw [hnext h.lines.2 hlt hle]
    have hthere : (nd₁.updateForwardingWhiteLine.slot? (top + 1)).isSome = true := by
      show (nd₁.slot? (top + 1)).isSome = true
      rw [hslot]
      rfl
    refine Bool.and_eq_true_iff.mpr ⟨hthere, ?_⟩
    simp [nd₁, Node.updateForwardingWhiteLine, Node.withOrd]
  · unfold installSlot
    rw [if_neg (by rw [hfits]; simp), hseq, hnew]
    rfl

theorem installed {slot : OrdSlot D} (h : Replaying startSeq top nd) (hseq : slot.seqNum = top + 1) (hlast : top + 1 < startSeq)
    (hproposal : slot.completePrePrepare.seqNum = top + 1) (hfits : fits c slot = true) :
    Installed c startSeq top slot nd (installSlot c nd slot) := by
  obtain ⟨forwarding, recon, hforwarding, hrecon, heq⟩ := installSlot_eq h hseq hlast hfits
  have hput : ∀ s, s ≠ top + 1 → (installSlot c nd slot).ord.slot? s = nd.ord.slot? s := by
    intro s hs
    rw [heq]
    exact nd.ord.slot?_putOrdSlot_of_ne _ hs
  have hself : (installSlot c nd slot).ord.slot? (top + 1) = some (fillSlot (OrdSlot.new c (top + 1)) slot) := by
    rw [heq]
    exact nd.ord.slot?_putOrdSlot_self (top + 1) _
  have hkeeps : ∀ {s : Nat}, s ≤ top → (installSlot c nd slot).ord.slot? s = nd.ord.slot? s := fun hs => hput _ (by omega)
  have hord : (installSlot c nd slot).ord =
      { nd.ord.putOrdSlot (top + 1) (fillSlot (OrdSlot.new c (top + 1)) slot) with
        forwardingWhiteLine := forwarding, reconWhiteLine := recon } := by rw [heq]
  have haru : (installSlot c nd slot).ord.aru = nd.ord.aru := by rw [hord]; rfl
  have hstable : (installSlot c nd slot).ord.stableCatchup = nd.ord.stableCatchup := by rw [hord]; rfl
  have hppAru : (installSlot c nd slot).ord.ppAru = nd.ord.ppAru := by rw [hord]; rfl
  have hpending : (installSlot c nd slot).pending = nd.pending := by rw [heq]
  have hreconciled : (installSlot c nd slot).reconciled = Function.update nd.reconciled (top + 1) true := by rw [heq]
  refine ⟨?_, ?_, haru, by rw [heq], by rw [heq], hpending, hput, hself⟩
  rotate_left
  · rintro ⟨hle, hlast⟩
    unfold Node.ahead
    rw [haru, hppAru]
    refine ⟨hle, hlast.imp_right fun hthere => ?_⟩
    by_cases hs : nd.ord.ppAru = top + 1
    · rw [hs, hself]
      rfl
    · rw [hput _ hs]
      exact hthere
  refine
    { running := by rw [heq]; exact h.running, changing := by rw [hord]; exact h.changing
      first := (hput 0 (Nat.succ_ne_zero top).symm).trans h.first, window := ?_, stable := by rw [haru, hstable]; exact h.stable
      lines := by rw [hord]; exact ⟨hforwarding, hrecon⟩, filled := ?_, unprepared := ?_, fresh := ?_
      pending := ?_, below := by rw [haru]; exact ⟨h.below.1.trans (Nat.le_succ top), hlast⟩ }
  · rw [haru, hstable]
    intro s hpos hlow hhigh
    rw [hkeeps (hhigh.trans h.below.1)]
    exact h.window s hpos hlow hhigh
  · rw [haru, hreconciled]
    intro s hlow hhigh
    rcases Nat.eq_or_lt_of_le hhigh with rfl | hbelow
    · exact ⟨_, hself, ⟨hproposal, rfl, rfl⟩, by simp⟩
    · obtain ⟨own, hown, hfilled, hrec⟩ := h.filled s hlow (Nat.le_of_lt_succ hbelow)
      refine ⟨own, (hkeeps (Nat.le_of_lt_succ hbelow)).trans hown, hfilled, ?_⟩
      rw [Function.update_of_ne (Nat.ne_of_lt hbelow)]
      exact hrec
  · rw [haru]
    intro s own hlow hown
    by_cases hs : s = top + 1
    · rw [hs, hself] at hown
      obtain rfl := Option.some.inj hown
      rfl
    · rw [hput s hs] at hown
      exact h.unprepared s own hlow hown
  · intro s hlow hhigh
    rw [hput s (Nat.ne_of_gt hlow), hpending]
    exact h.fresh s (Nat.lt_of_succ_lt hlow) hhigh
  · rw [hpending]
    intro s hs
    obtain ⟨own, hown, hseq'⟩ := h.pending s hs
    have hne : s ≠ top + 1 := by
      rintro rfl
      exact (h.fresh _ (Nat.lt_succ_self top) hlast).2 hs
    exact ⟨own, (hput s hne).trans hown, hseq'⟩

/-! ## Execution -/

/-- A slot of the replay that is executed when its round comes. -/
structure Passes (c : Config) (ready : Nat → Requests) (slot : OrdSlot D) : Prop where
  fits : fits c slot = true
  onward : goesBack c (decide (slot.seqNum = 1)) slot.completePrePrepare slot = false
  there : ready slot.seqNum = .there

/-- The first ordinal of the new view does not follow at once: it is not pending, or it waits for requests. -/
def Waits (c : Config) (ready : Nat → Requests) (startSeq : Nat) (nd : Node D) : Prop :=
  startSeq ∈ nd.pending → ∀ slot, nd.ord.slot? startSeq = some slot →
    ready startSeq ≠ .there ∧ (ready startSeq = .missing → goesBack c false slot.proposal slot = false)

theorem markPending_of_mem {s : Nat} (h : s ∈ nd.pending) : nd.markPending s = nd := by
  unfold Node.markPending
  rw [if_pos h]

theorem Replaying.markPending (h : Replaying startSeq top nd) {s : Nat} (hlow : nd.ord.aru < s) (hhigh : s ≤ top) :
    Replaying startSeq top (nd.markPending s) := by
  have hmem : ∀ {s'}, s' ∈ (nd.markPending s).pending → s' ∈ nd.pending ∨ s' = s := by
    intro s' hs'
    unfold Node.markPending at hs'
    split at hs'
    · exact .inl hs'
    · exact (List.mem_append.mp hs').imp_right List.mem_singleton.mp
  refine { h with fresh := fun s' hs' hlt => ?_, pending := fun s' hs' => ?_ }
  · obtain ⟨hnone, hnot⟩ := h.fresh s' hs' hlt
    exact ⟨hnone, fun hmark => (hmem hmark).elim hnot (by omega)⟩
  · rcases hmem hs' with hold | rfl
    · exact h.pending s' hold
    · obtain ⟨slot, hslot, hfilled, -⟩ := h.filled s' hlow hhigh
      exact ⟨slot, hslot, hfilled.seqNum⟩

/-- `ORDER_Execute_Commit` for a slot that follows one that was not executed. -/
theorem executeCommit_of_not_follows {seq : Nat} {slot : OrdSlot D} (hslot : nd.ord.slot? seq = some slot)
    (hseq : slot.proposal.seqNum = seq) (hfollows : nd.followsExecuted seq = false) :
    executeCommit c ready nd seq = nd.markPending seq := by
  have hslot' : nd.slot? seq = some slot := hslot
  unfold executeCommit
  rw [hslot']
  dsimp only
  rw [hseq, if_pos hfollows]

/-- `ORDER_Execute_Commit` for a slot that follows one that was executed. -/
theorem executeCommit_of_follows {seq : Nat} {slot : OrdSlot D} (hslot : nd.ord.slot? seq = some slot)
    (hseq : slot.proposal.seqNum = seq) (hfollows : nd.followsExecuted seq = true) :
    executeCommit c ready nd seq =
      if ready seq = .awaited then nd.markPending seq
      else if goesBack c (nd.ord.slot? (seq - 1)).isNone slot.proposal slot then nd.crash .backwards
      else if ready seq = .missing then nd.markPending seq
      else executeReady c nd seq slot := by
  have hslot' : nd.slot? seq = some slot := hslot
  unfold executeCommit
  rw [hslot']
  dsimp only
  rw [hseq, if_neg (by rw [hfollows]; simp)]
  rfl

/-- The slot is executed: nothing is left to reconcile. -/
theorem Replaying.executeReady_eq (h : Replaying startSeq top nd) (hnext : nd.ord.aru + 1 = top) {slot : OrdSlot D}
    (hslot : nd.ord.slot? top = some slot) :
    executeReady c nd top slot =
      { nd with ord := (nd.ord.putOrdSlot top slot.markExecuted).advanceAru, calls := .executed :: nd.calls } := by
  obtain ⟨own, hown, hfilled, hrec⟩ := h.filled top (by omega) (le_refl top)
  rw [hslot] at hown
  obtain rfl := Option.some.inj hown
  have hseq := hfilled.seqNum
  have hlast : ¬((nd.slot? (top - 1)).isNone = true ∧ top ≠ 1) := by
    rintro ⟨hnone, hne⟩
    have haru : top - 1 = nd.ord.aru := by omega
    have hnone' : (nd.ord.slot? nd.ord.aru).isNone = true := haru ▸ hnone
    rw [h.isNone_last, decide_eq_true_eq] at hnone'
    omega
  have hdone : doRecon c (nd.withOrd (nd.ord.putOrdSlot top slot.markExecuted).advanceAru) top =
      nd.withOrd (nd.ord.putOrdSlot top slot.markExecuted).advanceAru := by
    have hself : (nd.withOrd (nd.ord.putOrdSlot top slot.markExecuted).advanceAru).slot? top = some slot.markExecuted :=
      nd.ord.slot?_putOrdSlot_self top _
    unfold doRecon
    rw [hself]
    exact if_pos hrec
  unfold executeReady
  dsimp only
  rw [hseq, if_neg hlast, if_neg (by omega), hdone]
  rfl

/-- The replay has executed the slots it has filled, and left alone those of later ordinals. -/
structure Continues (startSeq top : Nat) (nd nd' : Node D) : Prop where
  replaying : Replaying startSeq top nd'
  aru : nd'.ord.aru = top
  call : nd'.call = nd.call
  later : ∀ s, top < s → nd'.ord.slot? s = nd.ord.slot? s
  pending : ∀ s, top < s → (s ∈ nd'.pending ↔ s ∈ nd.pending)

theorem Replaying.execute (h : Replaying startSeq top nd) (hnext : nd.ord.aru + 1 = top) {slot : OrdSlot D}
    (hslot : nd.ord.slot? top = some slot) : Continues startSeq top nd (executeReady c nd top slot) := by
  obtain ⟨own, hown, hfilled, hrec⟩ := h.filled top (by omega) (le_refl top)
  rw [hslot] at hown
  obtain rfl := Option.some.inj hown
  rw [h.executeReady_eq hnext hslot]
  have hself : (nd.ord.putOrdSlot top slot.markExecuted).advanceAru.slot? top = some slot.markExecuted :=
    nd.ord.slot?_putOrdSlot_self top _
  have hput : ∀ s, s ≠ top → (nd.ord.putOrdSlot top slot.markExecuted).advanceAru.slot? s = nd.ord.slot? s :=
    fun s hs => nd.ord.slot?_putOrdSlot_of_ne _ hs
  refine ⟨?_, hnext, rfl, fun s hs => hput s (Nat.ne_of_gt hs), fun s hs => Iff.rfl⟩
  have hstable : (nd.ord.putOrdSlot top slot.markExecuted).advanceAru.stableCatchup =
      if nd.ord.aru = 0 then 1 else nd.ord.stableCatchup := rfl
  have haru : (nd.ord.putOrdSlot top slot.markExecuted).advanceAru.aru = top := hnext
  have hbefore := h.stable
  refine
    { running := h.running, changing := h.changing, first := (hput 0 (by omega)).trans h.first
      window := fun s hpos hlow hhigh => ?_, stable := ?_, lines := h.lines
      filled := fun s hlow hhigh => ?_, unprepared := fun s own hlow hown => ?_, fresh := fun s hlow hhigh => ?_
      pending := fun s hs => ?_, below := ⟨Nat.le_of_eq hnext, h.below.2⟩ }
  · rcases Nat.eq_or_lt_of_le (hhigh.trans_eq hnext) with rfl | hbelow
    · exact ⟨_, hself, rfl, hfilled.collected⟩
    · rw [hput s (Nat.ne_of_lt hbelow)]
      refine h.window s hpos ?_ (by omega)
      rw [hstable, if_neg (by omega)] at hlow
      exact hlow
  · dsimp only
    rw [hstable, haru]
    split
    · omega
    · omega
  · exact absurd hhigh (Nat.not_le_of_lt (hnext ▸ hlow))
  · have hlow' : top < s := hnext ▸ hlow
    rw [hput s (Nat.ne_of_gt hlow')] at hown
    exact h.unprepared s own (by omega) hown
  · rw [hput s (Nat.ne_of_gt hlow)]
    exact h.fresh s hlow hhigh
  · obtain ⟨own, hown, hseq⟩ := h.pending s hs
    by_cases htop : s = top
    · rw [htop, hself]
      rw [htop, hslot] at hown
      obtain rfl := Option.some.inj hown
      exact ⟨_, rfl, htop ▸ hseq⟩
    · exact ⟨own, (hput s htop).trans hown, hseq⟩

/-! ## After an execution -/

/-- In a view change the loop of `ORDER_Send_Prepares` moves `ppARU` over complete slots. -/
theorem sendPreparesLoop_changing (fuel : Nat) (st : Order.Node D) (out : List (Msg D)) (hchanging : st.viewChangeDone = false) :
    ∃ p, st.ppAru ≤ p ∧ (p = st.ppAru ∨ (st.slot? p).isSome = true) ∧
      (sendPreparesLoop c digest me fuel st out).1 = { st with ppAru := p } := by
  induction fuel generalizing st with
  | zero => exact ⟨st.ppAru, le_refl _, .inl rfl, rfl⟩
  | succ fuel ih =>
    rw [sendPreparesLoop]
    split
    · exact ⟨st.ppAru, le_refl _, .inl rfl, rfl⟩
    rename_i slot hget
    split
    · exact ⟨st.ppAru, le_refl _, .inl rfl, rfl⟩
    rw [if_pos (.inr hchanging)]
    obtain ⟨p, hle, hslot, heq⟩ := ih st.advancePpAru hchanging
    refine ⟨p, (Nat.le_succ _).trans hle, .inr ?_, heq⟩
    rcases hslot with rfl | hslot
    · show (st.slot? (st.ppAru + 1)).isSome = true
      rw [hget]
      rfl
    · exact hslot

/-- Nothing is reconciled in a view change. -/
theorem reconFrom_changing (before : Nat) (hchanging : nd.ord.viewChangeDone = false) : reconFrom c before nd = nd := by
  unfold reconFrom
  generalize List.range' (before + 1) (nd.ord.ppAru - before) = seqs
  induction seqs with
  | nil => rfl
  | cons seq seqs ih =>
    have hstep : reconPrepared c nd seq = nd := by
      unfold reconPrepared Node.andThen
      dsimp only
      rw [hchanging]
      simp
    rw [List.foldl_cons, hstep, ih]

/-- `ORDER_Send_Prepares` in a view change, where the next slot is complete or `ppARU` is at a slot. -/
theorem sendPrepares_changing (hchanging : nd.ord.viewChangeDone = false)
    (hnext : (nd.ord.slot? (nd.ord.ppAru + 1)).any OrdSlot.collectedAllParts = true ∨ (nd.ord.slot? nd.ord.ppAru).isSome = true) :
    ∃ p, nd.ord.ppAru ≤ p ∧ ((nd.ord.slot? (nd.ord.ppAru + 1)).any OrdSlot.collectedAllParts = true → nd.ord.ppAru < p) ∧
      (nd.ord.slot? p).isSome = true ∧ sendPrepares c digest me nd = nd.withOrd { nd.ord with ppAru := p } := by
  have hloop : ∃ p, nd.ord.ppAru ≤ p ∧
      ((nd.ord.slot? (nd.ord.ppAru + 1)).any OrdSlot.collectedAllParts = true → nd.ord.ppAru < p) ∧
      (nd.ord.slot? p).isSome = true ∧
      (sendPreparesLoop c digest me (nd.ord.history.keys.length + 1) nd.ord []).1 = { nd.ord with ppAru := p } := by
    rw [sendPreparesLoop]
    cases hget : nd.ord.slot? (nd.ord.ppAru + 1) with
    | none =>
      rw [hget] at hnext
      exact ⟨_, le_refl _, (fun h => by cases h), hnext.resolve_left (by simp), rfl⟩
    | some slot =>
      dsimp only
      by_cases hcollected : slot.collectedAllParts = true
      · rw [if_neg (by rw [hcollected]; simp), if_pos (.inr hchanging)]
        obtain ⟨p, hle, hslot, heq⟩ := @sendPreparesLoop_changing D c digest me nd.ord.history.keys.length
          nd.ord.advancePpAru [] hchanging
        refine ⟨p, (Nat.le_succ _).trans hle, fun _ => hle, ?_, heq⟩
        rcases hslot with rfl | hslot
        · show (nd.ord.slot? (nd.ord.ppAru + 1)).isSome = true
          rw [hget]
          rfl
        · exact hslot
      · rw [hget] at hnext
        rw [if_pos (Bool.not_eq_true _ ▸ hcollected)]
        exact ⟨_, le_refl _, fun h => absurd h hcollected, hnext.resolve_left hcollected, rfl⟩
  obtain ⟨p, hle, hlt, hslot, heq⟩ := hloop
  have hord : (Order.sendPrepares c digest me nd.ord).1 = { nd.ord with ppAru := p } := by
    unfold Order.sendPrepares
    split
    · rename_i hr
      rw [hr] at heq
      exact heq
    · rename_i hr
      rw [hr] at heq
      have hthere : (({ nd.ord with ppAru := p } : Order.Node D).slot? p).isNone = false := by
        rw [← Option.not_isSome]
        exact congrArg _ hslot
      dsimp only at heq
      rw [heq, if_neg (by rw [hthere]; simp)]
  refine ⟨p, hle, hlt, hslot, ?_⟩
  unfold sendPrepares
  rw [hord]
  exact reconFrom_changing _ hchanging

/-- The slots from `low` on and before `high` are gone. -/
structure Dropped (low high : Nat) (nd nd' : Node D) : Prop where
  ord : ∃ history, nd'.ord = { nd.ord with history }
  slot? : ∀ s, nd'.ord.slot? s = if low ≤ s ∧ s < high then none else nd.ord.slot? s
  pending : ∀ s, s ∈ nd'.pending ↔ s ∈ nd.pending ∧ ¬(low ≤ s ∧ s < high)
  fault : nd'.fault = nd.fault
  call : nd'.call = nd.call
  calls : nd'.calls = nd.calls

theorem Dropped.running {low high : Nat} (h : Dropped low high nd nd') : nd'.running = nd.running := by
  obtain ⟨history, hord⟩ := h.ord
  unfold Node.running
  rw [hord, h.fault]

/-- The collector drops slots that are complete and behind both white lines. -/
theorem collected_range (n low : Nat) (nd : Node D) (hrunning : nd.running = true)
    (hdone : ∀ s, low ≤ s → s < low + n → (nd.ord.slot? s).any OrdSlot.collectedAllParts = true ∧
      s ≤ nd.ord.forwardingWhiteLine ∧ s + 1 ≤ nd.ord.reconWhiteLine) :
    Dropped low (low + n) nd ((List.range' low n).foldl collectSlot nd) := by
  induction n generalizing low nd with
  | zero =>
    have hnone : ∀ s, ¬(low ≤ s ∧ s < low + 0) := fun s hs => by omega
    exact ⟨⟨_, rfl⟩, fun s => (if_neg (hnone s)).symm, fun s => ⟨fun hs => ⟨hs, hnone s⟩, And.left⟩, rfl, rfl, rfl⟩
  | succ n ih =>
    obtain ⟨hcollected, hforwarding, hrecon⟩ := hdone low (le_refl low) (by omega)
    have hstep : collectSlot nd low = nd.dropSlots fun s => s = low := by
      obtain ⟨slot, hslot, hslot'⟩ := (Option.any_eq_true _ _).mp hcollected
      have hget : nd.slot? low = some slot := hslot
      unfold collectSlot Node.andThen
      dsimp only
      rw [if_pos hrunning, hget]
      rw [if_neg (by simp [hslot', hforwarding]), if_neg (Nat.not_lt_of_le hrecon)]
    have hslots := fun s => slot?_dropSlots nd (fun s => s = low) s
    rw [List.range'_succ, List.foldl_cons, hstep]
    have hrest := ih (low + 1) (nd.dropSlots fun s => s = low) hrunning fun s hlow hhigh => by
      rw [hslots, if_neg (by simp; omega)]
      exact hdone s (by omega) (by omega)
    obtain ⟨history, hord⟩ := hrest.ord
    refine ⟨⟨history, hord⟩, fun s => ?_, fun s => ?_, hrest.fault, hrest.call, hrest.calls⟩
    · rw [hrest.slot?, hslots]
      by_cases hs : s = low
      · rw [if_neg (by omega), if_pos (by simpa using hs), if_pos (by omega)]
      · rw [if_neg (show ¬(decide (s = low) = true) by simpa using hs)]
        by_cases hin : low + 1 ≤ s ∧ s < low + 1 + n
        · rw [if_pos hin, if_pos (by omega)]
        · rw [if_neg hin, if_neg (by omega)]
    · rw [hrest.pending]
      have hfirst : s ∈ (nd.dropSlots fun s => s = low).pending ↔ s ∈ nd.pending ∧ s ≠ low := by
        show s ∈ nd.pending.filter _ ↔ _
        rw [List.mem_filter]
        simp
      rw [hfirst]
      constructor
      · rintro ⟨⟨hs, hne⟩, hnot⟩
        exact ⟨hs, by omega⟩
      · rintro ⟨hs, hnot⟩
        exact ⟨⟨hs, by omega⟩, by omega⟩

theorem distance_of_le {a b : Nat} (hle : b ≤ a) (hlt : a < 2 ^ 32) : distance a b = a - b := by
  unfold distance Validate.wrap32
  omega

/-- The collector finds what it looks for in the catchup history. -/
theorem Replaying.collect (h : Replaying startSeq top nd) (haru : nd.ord.aru = top) (hword : startSeq < 2 ^ 32) :
    Continues startSeq top nd (garbageCollect nd) ∧ (garbageCollect nd).calls = nd.calls ∧
      (garbageCollect nd).ord.ppAru = nd.ord.ppAru ∧
      ∀ s, top ≤ s → (garbageCollect nd).ord.slot? s = nd.ord.slot? s := by
  have hle := h.stable.1
  have hlt : nd.ord.aru < 2 ^ 32 := (haru ▸ h.below.2).trans hword
  unfold garbageCollect
  rw [distance_of_le hle hlt]
  split
  · exact ⟨⟨h, haru, rfl, fun _ _ => rfl, fun _ _ => Iff.rfl⟩, rfl, rfl, fun _ _ => rfl⟩
  rename_i hwide
  dsimp only
  rw [distance_of_le (by omega) hlt]
  generalize hgc : nd.ord.aru - nd.ord.gcWidth = stable
  have hrange : nd.ord.stableCatchup ≤ stable ∧ stable ≤ nd.ord.aru := by omega
  have hdropped : Dropped nd.ord.stableCatchup stable nd
      ((List.range' nd.ord.stableCatchup (stable - nd.ord.stableCatchup)).foldl collectSlot nd) := by
    have hsum : nd.ord.stableCatchup + (stable - nd.ord.stableCatchup) = stable := by omega
    have hpos := h.stable.2
    have hlines := h.lines
    have hdrop := collected_range (stable - nd.ord.stableCatchup) nd.ord.stableCatchup nd h.running fun s hlow hhigh => by
      obtain ⟨slot, hslot, -, hcollected⟩ := h.window s (by omega) hlow (by omega)
      rw [hslot]
      exact ⟨hcollected, by omega, by omega⟩
    rwa [hsum] at hdrop
  generalize (List.range' nd.ord.stableCatchup (stable - nd.ord.stableCatchup)).foldl collectSlot nd = nd₁ at hdropped
  have hafter : (nd₁.andThen fun nd => nd.withOrd { nd.ord with stableCatchup := stable }) =
      nd₁.withOrd { nd₁.ord with stableCatchup := stable } := by
    unfold Node.andThen
    rw [if_pos (hdropped.running.trans h.running)]
  rw [hafter]
  obtain ⟨history, hord⟩ := hdropped.ord
  have hkeeps : ∀ {s}, stable ≤ s → nd₁.ord.slot? s = nd.ord.slot? s := fun hs => by
    rw [hdropped.slot?, if_neg (by omega)]
  have hslot? : ∀ {s slot}, nd₁.ord.slot? s = some slot → nd.ord.slot? s = some slot := by
    intro s slot hslot
    rw [hdropped.slot?] at hslot
    split at hslot
    · cases hslot
    · exact hslot
  have haru' : nd₁.ord.aru = nd.ord.aru := by rw [hord]
  have hpos := h.stable.2
  refine ⟨⟨?_, haru'.trans haru, hdropped.call, fun s hs => hkeeps (by omega), fun s hs => ?_⟩, hdropped.calls, by rw [hord]; rfl,
    fun s hs => hkeeps (by omega)⟩
  · refine
      { running := hdropped.running.trans h.running, changing := ?_, first := ?_, window := fun s hs hlow hhigh => ?_
        stable := ?_, lines := ?_, filled := fun s hlow hhigh => ?_, unprepared := fun s slot hlow hslot => ?_
        fresh := fun s hlow hhigh => ?_, pending := fun s hs => ?_, below := ?_ }
    · show nd₁.ord.viewChangeDone = false
      rw [hord]
      exact h.changing
    · show nd₁.ord.slot? 0 = none
      rw [hdropped.slot?, h.first]
      exact ite_self _
    · have hlow' : stable ≤ s := hlow
      have hhigh' : s ≤ nd₁.ord.aru := hhigh
      obtain ⟨slot, hslot, hrest⟩ := h.window s hs (by omega) (by omega)
      exact ⟨slot, (hkeeps hlow').trans hslot, hrest⟩
    · show stable ≤ nd₁.ord.aru ∧ (0 < nd₁.ord.aru → 0 < stable)
      omega
    · show top ≤ nd₁.ord.forwardingWhiteLine ∧ top ≤ nd₁.ord.reconWhiteLine
      rw [hord]
      exact h.lines
    · exact absurd hhigh (Nat.not_le_of_lt (haru ▸ haru' ▸ hlow))
    · exact h.unprepared s slot (haru' ▸ hlow) (hslot? hslot)
    · have hslot : nd₁.ord.slot? s = nd.ord.slot? s := hkeeps (by omega)
      obtain ⟨hnone, hnot⟩ := h.fresh s hlow hhigh
      exact ⟨hslot.trans hnone, fun hs => hnot ((hdropped.pending s).mp hs).1⟩
    · obtain ⟨hs', hnot⟩ := (hdropped.pending s).mp hs
      obtain ⟨slot, hslot, hseq⟩ := h.pending s hs'
      refine ⟨slot, ?_, hseq⟩
      show nd₁.ord.slot? s = some slot
      rw [hdropped.slot?, if_neg hnot, hslot]
    · show nd₁.ord.aru ≤ top ∧ top < startSeq
      rw [haru']
      exact h.below
  · show s ∈ nd₁.pending ↔ _
    rw [hdropped.pending]
    exact ⟨And.left, fun h => ⟨h, by omega⟩⟩

theorem Replaying.withPpAru (h : Replaying startSeq top nd) (p : Nat) :
    Replaying startSeq top (nd.withOrd { nd.ord with ppAru := p }) := { h with }

/-- The rest of `ORDER_Execute_Commit` comes to its end, with `ppARU` at a slot. -/
theorem Replaying.afterExecution (h : Replaying startSeq top nd) (haru : nd.ord.aru = top) (hpos : 0 < top)
    (hword : startSeq < 2 ^ 32)
    (hppAru : top ≤ nd.ord.ppAru + 1 ∧ (nd.ord.ppAru + 1 = top ∨ (nd.ord.slot? nd.ord.ppAru).isSome = true)) :
    Continues startSeq top nd (afterExecution c digest me nd) ∧
      (afterExecution c digest me nd).calls = .retry :: nd.calls ∧ (afterExecution c digest me nd).ahead := by
  have htop : (nd.ord.slot? top).any OrdSlot.collectedAllParts = true := by
    obtain ⟨slot, hslot, -, hcollected⟩ := h.window top hpos (haru ▸ h.stable.1) (Nat.le_of_eq haru.symm)
    rw [hslot]
    exact hcollected
  obtain ⟨p, hle, hlt, hthere, hsend⟩ := @sendPrepares_changing D c digest me nd h.changing
    (hppAru.2.imp_left fun heq => by rw [heq]; exact htop)
  have hp : top ≤ p := by
    rcases Nat.eq_or_lt_of_le hppAru.1 with heq | hahead
    · have := hlt (heq ▸ htop)
      omega
    · omega
  have hprepared := h.withPpAru p
  have hslots : ∀ s, (nd.withOrd { nd.ord with ppAru := p }).ord.slot? s = nd.ord.slot? s := fun _ => rfl
  have hppAru₁ : (nd.withOrd { nd.ord with ppAru := p }).ord.ppAru = p := rfl
  have hframe : (nd.withOrd { nd.ord with ppAru := p }).call = nd.call ∧
      (nd.withOrd { nd.ord with ppAru := p }).calls = nd.calls ∧
      (nd.withOrd { nd.ord with ppAru := p }).pending = nd.pending := ⟨rfl, rfl, rfl⟩
  have haru₁ : (nd.withOrd { nd.ord with ppAru := p }).ord.aru = top := haru
  generalize nd.withOrd { nd.ord with ppAru := p } = nd₁ at hsend hprepared hslots hppAru₁ hframe haru₁
  obtain ⟨hcollect, hcalls, hppAru', hkeeps⟩ := hprepared.collect haru₁ hword
  have hrunning := hcollect.replaying.running
  have hafter : Ordinals.afterExecution c digest me nd =
      { garbageCollect nd₁ with calls := .retry :: (garbageCollect nd₁).calls } := by
    unfold Ordinals.afterExecution
    rw [hsend]
    unfold Node.andThen
    rw [if_pos hprepared.running, if_pos hrunning]
  rw [hafter]
  refine ⟨⟨{ hcollect.replaying with }, hcollect.aru, hcollect.call.trans hframe.1, fun s hs => ?_, fun s hs => ?_⟩, ?_, ?_, .inr ?_⟩
  · exact (hcollect.later s hs).trans (hslots s)
  · rw [← hframe.2.2]
    exact hcollect.pending s hs
  · exact congrArg _ (hcalls.trans hframe.2.1)
  · show (garbageCollect nd₁).ord.aru ≤ (garbageCollect nd₁).ord.ppAru
    rw [hcollect.aru, hppAru', hppAru₁]
    exact hp
  · show ((garbageCollect nd₁).ord.slot? (garbageCollect nd₁).ord.ppAru).isSome = true
    rw [hppAru', hppAru₁, hkeeps _ hp, hslots]
    exact hthere

/-! ## The end of the replay -/

/-- No slot after the one executed last was prepared, so that `ppARU` goes back there. -/
theorem Replaying.adjusted (h : Replaying startSeq top nd) : (adjustPpAru (adjustHighPrepared nd.ord)).ppAru = nd.ord.aru := by
  rcases (lastWith_spec (adjustHighPrepared nd.ord) nd.ord.ppAru OrdSlot.sentPrepare).1 with hstand | ⟨hlt, -, htest⟩
  · exact hstand
  · obtain ⟨slot, hslot, hsent⟩ := (Option.any_eq_true _ _).mp htest
    rw [h.unprepared _ slot hlt hslot] at hsent
    cases hsent

theorem finishReplay_call (startSeq : Nat) (nd : Node D) : (finishReplay c me nd startSeq).call = nd.call := by
  unfold finishReplay
  dsimp only
  split
  · rfl
  · rfl

/-- Where `ppARU` is anywhere else, the assertion fails. -/
theorem finishReplay_fails (hne : (adjustPpAru (adjustHighPrepared nd.ord)).ppAru + 1 ≠ startSeq) :
    (finishReplay c me nd startSeq).running = false := by
  have hne' : (nd.withOrd (adjustPpAru (adjustHighPrepared nd.ord))).ord.ppAru + 1 ≠ startSeq := hne
  unfold finishReplay
  dsimp only
  rw [if_pos hne']
  exact Bool.and_false _

/-- The replay ends well where all its slots were executed. -/
theorem Replaying.finish (h : Replaying startSeq top nd) (hlast : nd.ord.aru + 1 = startSeq) (low : Nat) :
    ReplayKept nd.calls low startSeq (finishReplay c me nd startSeq) := by
  have hppAru := h.adjusted
  have hend : ¬(nd.withOrd (adjustPpAru (adjustHighPrepared nd.ord))).ord.ppAru + 1 ≠ startSeq :=
    fun hne => hne (hppAru ▸ hlast)
  have heq : finishReplay c me nd startSeq =
      { nd.withOrd { adjustPpAru (adjustHighPrepared nd.ord) with viewChangeDone := true } with
        seq := if me = c.leaderOfView nd.ord.view then startSeq else nd.seq } := by
    unfold finishReplay
    dsimp only
    rw [if_neg hend]
    rfl
  rw [heq]
  exact
    { running := h.running, calls := rfl, ppAru := hppAru ▸ hlast
      through := fun s _ hs => .inl (Nat.le_of_lt_succ (hlast ▸ hs)), stops := .inl hlast }

/-! ## What the rest of the program does not touch -/

theorem doRecon_calls (nd : Node D) (seq : Nat) : (doRecon c nd seq).calls = nd.calls := by
  unfold doRecon
  split
  · rfl
  · dsimp only
    repeat' split
    all_goals rfl

theorem reconFrom_calls (before : Nat) (nd : Node D) : (reconFrom c before nd).calls = nd.calls := by
  unfold reconFrom
  generalize List.range' (before + 1) (nd.ord.ppAru - before) = seqs
  induction seqs generalizing nd with
  | nil => rfl
  | cons seq seqs ih =>
    rw [List.foldl_cons, ih]
    unfold reconPrepared Node.andThen
    dsimp only
    split
    · split
      · exact doRecon_calls nd seq
      · rfl
    · rfl

/-- The collector leaves the counter of executions and the frames alone. -/
theorem garbageCollect_frame (nd : Node D) : (garbageCollect nd).ord.aru = nd.ord.aru ∧ (garbageCollect nd).calls = nd.calls := by
  have hslot : ∀ (nd : Node D) seq, (collectSlot nd seq).ord.aru = nd.ord.aru ∧ (collectSlot nd seq).calls = nd.calls := by
    intro nd seq
    unfold collectSlot Node.andThen
    dsimp only
    repeat' split
    all_goals exact ⟨rfl, rfl⟩
  have hslots : ∀ (seqs : List Nat) (nd : Node D),
      (seqs.foldl collectSlot nd).ord.aru = nd.ord.aru ∧ (seqs.foldl collectSlot nd).calls = nd.calls := by
    intro seqs
    induction seqs with
    | nil => exact fun nd => ⟨rfl, rfl⟩
    | cons seq seqs ih =>
      intro nd
      obtain ⟨haru, hcalls⟩ := ih (collectSlot nd seq)
      exact ⟨haru.trans (hslot nd seq).1, hcalls.trans (hslot nd seq).2⟩
  unfold garbageCollect
  dsimp only
  split
  · exact ⟨rfl, rfl⟩
  · unfold Node.andThen
    split
    · exact hslots _ nd
    · exact hslots _ nd

/-- `ORDER_Execute_Commit` executes at most one ordinal. -/
theorem executeCommit_frame (nd : Node D) (seq : Nat) : nd.ord.aru ≤ (executeCommit c ready nd seq).ord.aru ∧
    ((executeCommit c ready nd seq).calls = nd.calls ∨ (executeCommit c ready nd seq).calls = .executed :: nd.calls) := by
  unfold executeCommit
  split
  · exact ⟨le_refl _, .inl rfl⟩
  dsimp only
  split
  · exact ⟨le_refl _, .inl rfl⟩
  split
  · exact ⟨le_refl _, .inl rfl⟩
  split
  · exact ⟨le_refl _, .inl rfl⟩
  split
  · exact ⟨le_refl _, .inl rfl⟩
  unfold executeReady
  dsimp only
  split
  · exact ⟨le_refl _, .inl rfl⟩
  split
  · exact ⟨le_refl _, .inl rfl⟩
  refine ⟨?_, .inr (congrArg _ (doRecon_calls _ seq))⟩
  rw [(proceeds_doRecon _ seq).aru]
  exact Nat.le_succ _

/-- An execution takes `ARU` on, unless it ends the process. -/
theorem executeReady_frame (nd : Node D) (seq : Nat) (slot : OrdSlot D) : (executeReady c nd seq slot).running = false ∨
    (executeReady c nd seq slot).ord.aru = nd.ord.aru + 1 ∧ (executeReady c nd seq slot).calls = .executed :: nd.calls := by
  unfold executeReady
  dsimp only
  split
  · exact .inl (Bool.and_false _)
  split
  · exact .inl (Bool.and_false _)
  · exact .inr ⟨(proceeds_doRecon _ seq).aru, congrArg _ (doRecon_calls _ seq)⟩

theorem afterExecution_frame (nd : Node D) : (afterExecution c digest me nd).ord.aru = nd.ord.aru ∧
    ((afterExecution c digest me nd).calls = nd.calls ∨ (afterExecution c digest me nd).calls = .retry :: nd.calls) := by
  have hsend : (sendPrepares c digest me nd).ord.aru = nd.ord.aru ∧ (sendPrepares c digest me nd).calls = nd.calls :=
    ⟨(proceeds_reconFrom _ _).aru.trans (sendPrepares_grows nd.ord).aru, reconFrom_calls _ _⟩
  have hcollect := garbageCollect_frame (sendPrepares c digest me nd)
  unfold afterExecution Node.andThen
  split
  · split
    · exact ⟨hcollect.1.trans hsend.1, .inr (congrArg _ (hcollect.2.trans hsend.2))⟩
    · exact ⟨hcollect.1.trans hsend.1, .inl (hcollect.2.trans hsend.2)⟩
  · exact ⟨hsend.1, .inl hsend.2⟩

theorem attemptPending_frame (nd : Node D) :
    (attemptPending nd).ord.aru = nd.ord.aru ∧ (attemptPending nd).calls = nd.calls := by
  unfold attemptPending
  split
  · exact ⟨rfl, rfl⟩
  · exact ⟨rfl, rfl⟩

theorem le_ppAru_adjusted (st : Order.Node D) : st.aru ≤ (adjustPpAru (adjustHighPrepared st)).ppAru := by
  rcases (lastWith_spec (adjustHighPrepared st) st.ppAru OrdSlot.sentPrepare).1 with hstand | ⟨hlt, -, -⟩
  · exact Nat.le_of_eq hstand.symm
  · exact Nat.le_of_lt hlt

/-! ## The run -/

theorem returned_of_ended (hended : nd.running = false) (depth : Nat) : nd.returned depth = true := by
  unfold Node.returned
  rw [hended]
  rfl

theorem returned_of_call (hrunning : nd.running = true) {seq : Nat} (hcall : nd.call = some seq) (depth : Nat) :
    nd.returned depth = false := by
  unfold Node.returned
  rw [hrunning, hcall]
  rfl

theorem returned_of_calls {depth : Nat} (hrunning : nd.running = true) (hlong : depth < nd.calls.length) :
    nd.returned depth = false := by
  unfold Node.returned
  rw [hrunning, decide_eq_false (Nat.not_le_of_lt hlong), Bool.and_false]
  rfl

/-- The frames above those of the replay are of executions. -/
def Above (startSeq : Nat) (base calls : List (Frame D)) : Prop :=
  ∃ frames, calls = frames ++ .replayed startSeq :: base ∧ ∀ frame ∈ frames, frame = .executed ∨ frame = .retry

theorem Above.cons {calls : List (Frame D)} (h : Above startSeq base calls) {frame : Frame D}
    (hframe : frame = .executed ∨ frame = .retry) : Above startSeq base (frame :: calls) := by
  obtain ⟨frames, rfl, hframes⟩ := h
  refine ⟨frame :: frames, rfl, fun f hf => ?_⟩
  rcases List.mem_cons.mp hf with rfl | hf
  · exact hframe
  · exact hframes f hf

theorem Above.long {calls : List (Frame D)} (h : Above startSeq base calls) : base.length < calls.length := by
  obtain ⟨frames, rfl, -⟩ := h
  rw [List.length_append, List.length_cons]
  omega

variable {low : Nat} {slots : List (OrdSlot D)}

/-- The frames of the rounds that are left. -/
def roundsLeft (slots : List (OrdSlot D)) (startSeq : Nat) (base : List (Frame D)) : List (Frame D) :=
  slots.map .install ++ .replayed startSeq :: base

/-- The slots are for the ordinals after `top`, up to where the new view starts. -/
def Consecutive (startSeq : Nat) : Nat → List (OrdSlot D) → Prop
  | top, [] => top + 1 = startSeq
  | top, slot :: slots => slot.seqNum = top + 1 ∧ slot.completePrePrepare.seqNum = top + 1 ∧ Consecutive startSeq (top + 1) slots

theorem Consecutive.lt {slot : OrdSlot D} (h : Consecutive startSeq top (slot :: slots)) : top + 1 < startSeq := by
  have hle : ∀ {slots : List (OrdSlot D)} {top : Nat}, Consecutive startSeq top slots → top < startSeq := by
    intro slots
    induction slots with
    | nil => exact fun h => Nat.lt_of_succ_le (Nat.le_of_eq h)
    | cons slot slots ih => exact fun h => Nat.lt_of_succ_lt (ih h.2.2)
  exact hle h.2.2

theorem returned_roundsLeft (hrunning : nd.running = true) (hcalls : nd.calls = roundsLeft slots startSeq base) :
    nd.returned base.length = false := by
  refine returned_of_calls hrunning ?_
  rw [hcalls, roundsLeft, List.length_append, List.length_cons]
  omega

/-- One that does not fit ends the process. -/
theorem installSlot_ends {slot : OrdSlot D} (hfits : fits c slot = false) : (installSlot c nd slot).running = false := by
  unfold installSlot
  rw [if_pos hfits]
  rfl

/-- What `ORDER_Execute_Commit` does with the slot a round has filled. -/
theorem Installed.executeCommit {slot : OrdSlot D} (hin : Installed c startSeq top slot nd nd') (htop : nd.ord.aru = top)
    (hseq : slot.seqNum = top + 1) (hproposal : slot.completePrePrepare.seqNum = top + 1) :
    Ordinals.executeCommit c ready { nd' with call := none } (top + 1) =
      if ready slot.seqNum = .awaited then { nd' with call := none }.markPending (top + 1)
      else if goesBack c (decide (slot.seqNum = 1)) slot.completePrePrepare slot then { nd' with call := none }.crash .backwards
      else if ready slot.seqNum = .missing then { nd' with call := none }.markPending (top + 1)
      else executeReady c { nd' with call := none } (top + 1) (fillSlot (OrdSlot.new c (top + 1)) slot) := by
  have haru : nd'.ord.aru = top := hin.aru.trans htop
  have hfollows : nd'.followsExecuted (top + 1) = true := haru ▸ hin.replaying.followsExecuted
  have hisNone : (nd'.ord.slot? (top + 1 - 1)).isNone = decide (slot.seqNum = 1) := by
    have hlast := hin.replaying.isNone_last
    rw [haru] at hlast
    rw [Nat.add_sub_cancel, hlast, hseq]
    exact decide_eq_decide.mpr (by omega)
  have hcommit := @executeCommit_of_follows D c ready { nd' with call := none } (top + 1) _ hin.filled hproposal hfollows
  have hback : goesBack c (nd'.ord.slot? (top + 1 - 1)).isNone (fillSlot (OrdSlot.new c (top + 1)) slot).proposal
      (fillSlot (OrdSlot.new c (top + 1)) slot) = goesBack c (decide (slot.seqNum = 1)) slot.completePrePrepare slot := by
    rw [hisNone]
    rfl
  rw [hcommit, hback, hseq]

section Runs

variable [DecidableEq D]

theorem proceed_of_call {seq : Nat} (hcall : nd.call = some seq) :
    proceed c digest me ready nd = executeCommit c ready { nd with call := none } seq := by
  unfold proceed
  rw [hcall]

theorem proceed_executed {frames : List (Frame D)} (hcall : nd.call = none) (hcalls : nd.calls = .executed :: frames) :
    proceed c digest me ready nd = afterExecution c digest me { nd with calls := frames } := by
  simp only [proceed, hcall, hcalls]

theorem proceed_retry {frames : List (Frame D)} (hcall : nd.call = none) (hcalls : nd.calls = .retry :: frames) :
    proceed c digest me ready nd = attemptPending { nd with calls := frames } := by
  simp only [proceed, hcall, hcalls]

theorem proceed_install {slot : OrdSlot D} {frames : List (Frame D)} (hcall : nd.call = none)
    (hcalls : nd.calls = .install slot :: frames) :
    proceed c digest me ready nd = installSlot c { nd with calls := frames } slot := by
  simp only [proceed, hcall, hcalls]

theorem proceed_replayed {frames : List (Frame D)} (hcall : nd.call = none) (hcalls : nd.calls = .replayed startSeq :: frames) :
    proceed c digest me ready nd = finishReplay c me { nd with calls := frames } startSeq := by
  simp only [proceed, hcall, hcalls]

/-- The replay runs to its end and leaves what it should. -/
def EndsKept (c : Config) (digest : CompletePrePrepare → D) (me : Nat) (ready : Nat → Requests) (base : List (Frame D))
    (low startSeq : Nat) (nd : Node D) : Prop :=
  Lib.Halts (proceed c digest me ready) (Node.returned base.length) (ReplayKept base low startSeq) nd

theorem not_endsKept_of_ended (hended : nd.running = false) : ¬EndsKept c digest me ready base low startSeq nd := by
  intro h
  have hkept := (Lib.halts_of_done (returned_of_ended hended _)).mp h
  rw [hkept.running] at hended
  cases hended

/-- Once the first ordinal of the new view is executed, the assertion fails. -/
theorem not_endsKept_of_beyond (haru : startSeq ≤ nd.ord.aru) (hcalls : Above startSeq base nd.calls) :
    ¬EndsKept c digest me ready base low startSeq nd := by
  let I : Node D → Prop := fun nd => nd.running = false ∨ startSeq ≤ nd.ord.aru ∧ Above startSeq base nd.calls
  refine Lib.not_halts_of_inv (I := I) ?_ ?_ (.inr ⟨haru, hcalls⟩)
  · rintro nd (hended | ⟨haru, hcalls⟩) hnot
    · rw [returned_of_ended hended] at hnot
      cases hnot
    cases hcall : nd.call with
    | some seq =>
      rw [proceed_of_call hcall]
      obtain ⟨hle, hframes⟩ := @executeCommit_frame D c ready { nd with call := none } seq
      refine .inr ⟨haru.trans hle, ?_⟩
      rcases hframes with heq | heq
      · rw [heq]
        exact hcalls
      · rw [heq]
        exact hcalls.cons (.inl rfl)
    | none =>
      obtain ⟨frames, heq, hframes⟩ := hcalls
      cases frames with
      | nil =>
        rw [proceed_replayed hcall heq]
        refine .inl (finishReplay_fails (Nat.ne_of_gt (Nat.lt_succ_of_le (haru.trans ?_))))
        exact le_ppAru_adjusted nd.ord
      | cons frame frames =>
        rw [List.cons_append] at heq
        have habove : Above startSeq base (frames ++ .replayed startSeq :: base) :=
          ⟨frames, rfl, fun f hf => hframes f (List.mem_cons_of_mem frame hf)⟩
        rcases hframes frame List.mem_cons_self with rfl | rfl
        · rw [proceed_executed hcall heq]
          obtain ⟨haru', hcalls'⟩ := @afterExecution_frame D c digest me
            { nd with calls := frames ++ .replayed startSeq :: base }
          refine .inr ⟨haru.trans_eq haru'.symm, ?_⟩
          rcases hcalls' with heq' | heq'
          · rw [heq']
            exact habove
          · rw [heq']
            exact habove.cons (.inr rfl)
        · rw [proceed_retry hcall heq]
          obtain ⟨haru', hcalls'⟩ := attemptPending_frame { nd with calls := frames ++ .replayed startSeq :: base }
          refine .inr ⟨haru.trans_eq haru'.symm, ?_⟩
          rw [hcalls']
          exact habove
  · rintro nd (hended | ⟨-, hcalls⟩) hdone hkept
    · rw [hkept.running] at hended
      cases hended
    · rw [returned_of_calls hkept.running hcalls.long] at hdone
      cases hdone

/-- Once a slot is pending, so are all that follow, and the assertion fails. -/
theorem Replaying.not_endsKept (h : Replaying startSeq top nd) (hpending : nd.ord.aru < top) (hcall : nd.call = none)
    (hcalls : nd.calls = roundsLeft slots startSeq base) (hslots : Consecutive startSeq top slots) :
    ¬EndsKept c digest me ready base low startSeq nd := by
  induction slots generalizing nd top with
  | nil =>
    unfold EndsKept
    rw [Lib.halts_step (returned_roundsLeft h.running hcalls), proceed_replayed hcall hcalls]
    refine not_endsKept_of_ended (finishReplay_fails ?_)
    have hppAru : (adjustPpAru (adjustHighPrepared nd.ord)).ppAru = nd.ord.aru := h.adjusted
    have hlast : top + 1 = startSeq := hslots
    show (adjustPpAru (adjustHighPrepared nd.ord)).ppAru + 1 ≠ startSeq
    omega
  | cons slot slots ih =>
    have hlast := hslots.lt
    obtain ⟨hseq, hproposal, hrest⟩ := hslots
    have hround : nd.calls = .install slot :: roundsLeft slots startSeq base := hcalls
    unfold EndsKept
    rw [Lib.halts_step (returned_roundsLeft h.running hcalls), proceed_install hcall hround]
    cases hfits : fits c slot with
    | false => exact not_endsKept_of_ended (installSlot_ends hfits)
    | true =>
      have hin := installed (h.frame nd.call (roundsLeft slots startSeq base)) hseq hlast hproposal hfits
      generalize installSlot c { nd with calls := roundsLeft slots startSeq base } slot = nd₁ at hin
      have haru : nd₁.ord.aru < top + 1 := hin.aru.trans_lt (Nat.lt_succ_of_lt hpending)
      have hcommit := @executeCommit_of_not_follows D c ready { nd₁ with call := none } (top + 1) _ hin.filled hproposal
        (hin.replaying.not_followsExecuted (hin.aru.trans_lt hpending) (Nat.le_succ top))
      rw [Lib.halts_step (returned_of_call hin.replaying.running hin.call _), proceed_of_call hin.call, hcommit]
      exact ih ((hin.replaying.frame none nd₁.calls).markPending haru (le_refl _)) haru rfl hin.calls hrest

/-- A round whose slot is not executed makes the replay fail. -/
theorem Replaying.not_passes {slot : OrdSlot D} (h : Replaying startSeq top nd) (htop : nd.ord.aru = top) (hcall : nd.call = none)
    (hcalls : nd.calls = roundsLeft (slot :: slots) startSeq base) (hslots : Consecutive startSeq top (slot :: slots))
    (hnot : ¬Passes c ready slot) : ¬EndsKept c digest me ready base low startSeq nd := by
  have hlast := hslots.lt
  obtain ⟨hseq, hproposal, hrest⟩ := hslots
  have hround : nd.calls = .install slot :: roundsLeft slots startSeq base := hcalls
  unfold EndsKept
  rw [Lib.halts_step (returned_roundsLeft h.running hcalls), proceed_install hcall hround]
  cases hfits : fits c slot with
  | false => exact not_endsKept_of_ended (installSlot_ends hfits)
  | true =>
    have hin := installed (h.frame nd.call (roundsLeft slots startSeq base)) hseq hlast hproposal hfits
    generalize installSlot c { nd with calls := roundsLeft slots startSeq base } slot = nd₁ at hin
    have haru : nd₁.ord.aru < top + 1 := (hin.aru.trans htop).trans_lt (Nat.lt_succ_self top)
    have hpending : ¬EndsKept c digest me ready base low startSeq ({ nd₁ with call := none }.markPending (top + 1)) :=
      ((hin.replaying.frame none nd₁.calls).markPending haru (le_refl _)).not_endsKept haru rfl hin.calls hrest
    rw [Lib.halts_step (returned_of_call hin.replaying.running hin.call _), proceed_of_call hin.call,
      hin.executeCommit htop hseq hproposal]
    split
    · exact hpending
    split
    · exact not_endsKept_of_ended (Bool.and_false _)
    rename_i hawaited hback
    split
    · exact hpending
    rename_i hmissing
    refine absurd ⟨hfits, Bool.not_eq_true _ ▸ hback, ?_⟩ hnot
    cases hready : ready slot.seqNum with
    | awaited => exact absurd hready hawaited
    | missing => exact absurd hready hmissing
    | there => rfl

/-- A round whose slot is executed, up to the search for a pending slot. -/
theorem Replaying.round {slot : OrdSlot D} {frames : List (Frame D)} (hword : startSeq < 2 ^ 32)
    (h : Replaying startSeq top nd) (htop : nd.ord.aru = top) (hahead : nd.ahead) (hcall : nd.call = none)
    (hcalls : nd.calls = .install slot :: frames) (hlong : base.length < frames.length) (hseq : slot.seqNum = top + 1)
    (hproposal : slot.completePrePrepare.seqNum = top + 1) (hlast : top + 1 < startSeq) (hpasses : Passes c ready slot) :
    ∃ nd', Continues startSeq (top + 1) nd nd' ∧ nd'.ahead ∧ nd'.calls = frames ∧
      (EndsKept c digest me ready base low startSeq nd ↔ EndsKept c digest me ready base low startSeq (attemptPending nd')) := by
  have hin := installed (h.frame nd.call frames) hseq hlast hproposal hpasses.fits
  have hinstall : proceed c digest me ready nd = installSlot c { nd with calls := frames } slot := proceed_install hcall hcalls
  have hdone : nd.returned base.length = false := by
    refine returned_of_calls h.running ?_
    rw [hcalls, List.length_cons]
    omega
  generalize installSlot c { nd with calls := frames } slot = nd₁ at hin hinstall
  -- the slot is executed
  have hready := hin.replaying.frame none nd₁.calls
  have hexecute : proceed c digest me ready nd₁ =
      executeReady c { nd₁ with call := none } (top + 1) (fillSlot (OrdSlot.new c (top + 1)) slot) := by
    rw [proceed_of_call hin.call, hin.executeCommit htop hseq hproposal, if_neg (by rw [hpasses.there]; simp),
      if_neg (by rw [hpasses.onward]; simp), if_neg (by rw [hpasses.there]; simp)]
  have haru : nd₁.ord.aru + 1 = top + 1 := congrArg (· + 1) (hin.aru.trans htop)
  have hexecuted := @Replaying.execute D c startSeq (top + 1) { nd₁ with call := none } hready haru _ hin.filled
  obtain ⟨hcalls₂, hppAru₂, hthere₂⟩ : (executeReady c { nd₁ with call := none } (top + 1)
      (fillSlot (OrdSlot.new c (top + 1)) slot)).calls = .executed :: frames ∧
      (executeReady c { nd₁ with call := none } (top + 1) (fillSlot (OrdSlot.new c (top + 1)) slot)).ord.ppAru = nd₁.ord.ppAru ∧
      ∀ s, (nd₁.ord.slot? s).isSome = true →
        ((executeReady c { nd₁ with call := none } (top + 1) (fillSlot (OrdSlot.new c (top + 1)) slot)).ord.slot? s).isSome = true := by
    rw [hready.executeReady_eq haru hin.filled]
    refine ⟨congrArg _ hin.calls, rfl, fun s hs => ?_⟩
    by_cases heq : s = top + 1
    · rw [heq]
      exact congrArg Option.isSome (nd₁.ord.slot?_putOrdSlot_self (top + 1) _)
    · exact (congrArg Option.isSome (nd₁.ord.slot?_putOrdSlot_of_ne _ heq)).trans hs
  generalize executeReady c { nd₁ with call := none } (top + 1) (fillSlot (OrdSlot.new c (top + 1)) slot) = nd₂
    at hexecute hexecuted hcalls₂ hppAru₂ hthere₂
  -- what follows an execution
  have hahead₁ := hin.ahead hahead
  have hppAru : top + 1 ≤ nd₂.ord.ppAru + 1 ∧ (nd₂.ord.ppAru + 1 = top + 1 ∨ (nd₂.ord.slot? nd₂.ord.ppAru).isSome = true) := by
    rw [hppAru₂, ← haru]
    exact ⟨Nat.succ_le_succ hahead₁.1, hahead₁.2.imp (congrArg (· + 1)) (hthere₂ _)⟩
  obtain ⟨hafter, hcalls₃, hahead₃⟩ := @Replaying.afterExecution D c digest me startSeq (top + 1) { nd₂ with calls := frames }
    (hexecuted.replaying.frame nd₂.call frames) hexecuted.aru (Nat.succ_pos top) hword hppAru
  have hcall₂ : nd₂.call = none := hexecuted.call
  have hstep₂ : proceed c digest me ready nd₂ = Ordinals.afterExecution c digest me { nd₂ with calls := frames } :=
    proceed_executed hcall₂ hcalls₂
  generalize Ordinals.afterExecution c digest me { nd₂ with calls := frames } = nd₃ at hafter hcalls₃ hahead₃ hstep₂
  have hcall₃ : nd₃.call = none := hafter.call.trans hcall₂
  have hstep₃ : proceed c digest me ready nd₃ = attemptPending { nd₃ with calls := frames } := proceed_retry hcall₃ hcalls₃
  have hlong' : ∀ {calls : List (Frame D)} {frame : Frame D}, calls = frame :: frames → base.length < calls.length := by
    rintro calls frame rfl
    rw [List.length_cons]
    omega
  refine ⟨{ nd₃ with calls := frames }, ⟨hafter.replaying.frame _ _, hafter.aru, hcall₃.trans hcall.symm, fun s hs => ?_,
    fun s hs => ?_⟩, hahead₃, rfl, ?_⟩
  · exact (hafter.later s hs).trans ((hexecuted.later s hs).trans (hin.slot? s (Nat.ne_of_gt hs)))
  · refine (hafter.pending s hs).trans ((hexecuted.pending s hs).trans ?_)
    show s ∈ nd₁.pending ↔ s ∈ nd.pending
    rw [hin.pending]
  · unfold EndsKept
    rw [Lib.halts_step hdone, hinstall, Lib.halts_step (returned_of_call hin.replaying.running hin.call _), hexecute,
      Lib.halts_step (returned_of_calls hexecuted.replaying.running (hlong' hcalls₂)), hstep₂,
      Lib.halts_step (returned_of_calls hafter.replaying.running (hlong' hcalls₃)), hstep₃]

/-- The end of the replay, after it has looked for a pending slot. -/
theorem Replaying.last (h : Replaying startSeq top nd) (hlast : nd.ord.aru + 1 = startSeq) (hcall : nd.call = none)
    (hcalls : nd.calls = .replayed startSeq :: base) : EndsKept c digest me ready base low startSeq nd := by
  have hround : nd.calls = roundsLeft [] startSeq base := hcalls
  unfold EndsKept
  rw [Lib.halts_step (returned_roundsLeft h.running hround), proceed_replayed hcall hcalls]
  have hkept : ReplayKept base low startSeq (finishReplay c me { nd with calls := base } startSeq) :=
    (h.frame nd.call base).finish hlast low
  refine (Lib.halts_of_done ?_).mpr hkept
  have hcall' := @finishReplay_call D c me startSeq { nd with calls := base }
  unfold Node.returned
  rw [hkept.running, hkept.calls, hcall', hcall, decide_eq_true (le_refl _)]
  rfl

/-- After the last round the replay ends well exactly where the first ordinal of the new view waits. -/
theorem Replaying.attemptPending_last (h : Replaying startSeq top nd) (hlast : nd.ord.aru + 1 = startSeq)
    (hpos : 0 < nd.ord.aru) (hcall : nd.call = none) (hcalls : nd.calls = .replayed startSeq :: base) :
    EndsKept c digest me ready base low startSeq (attemptPending nd) ↔ Waits c ready startSeq nd := by
  unfold attemptPending
  rw [hlast]
  split
  · rename_i hpending
    obtain ⟨slot, hslot, hseq⟩ := h.pending startSeq hpending
    have hends : EndsKept c digest me ready base low startSeq { nd with call := none } :=
      (h.frame none nd.calls).last hlast rfl hcalls
    have hcommit := @executeCommit_of_follows D c ready { nd with call := none } startSeq slot hslot hseq
      (hlast ▸ h.followsExecuted)
    have hisNone : (nd.ord.slot? (startSeq - 1)).isNone = false := by
      rw [← hlast, Nat.add_sub_cancel, h.isNone_last, decide_eq_false (Nat.ne_of_gt hpos)]
    have hwaits : Waits c ready startSeq nd ↔
        ready startSeq ≠ .there ∧ (ready startSeq = .missing → goesBack c false slot.proposal slot = false) := by
      constructor
      · exact fun hwaits => hwaits hpending slot hslot
      · intro hwaits _ own hown
        rw [hslot] at hown
        obtain rfl := Option.some.inj hown
        exact hwaits
    have hcrash : ¬EndsKept c digest me ready base low startSeq ({ nd with call := none }.crash .backwards) :=
      not_endsKept_of_ended (Bool.and_false _)
    have hmark : { nd with call := none }.markPending startSeq = { nd with call := none } := markPending_of_mem hpending
    dsimp only at hcommit
    rw [hisNone, hmark] at hcommit
    have hdone : ({ nd with call := some startSeq } : Node D).returned base.length = false :=
      returned_of_call (h.frame (some startSeq) nd.calls).running rfl _
    have hstep : proceed c digest me ready { nd with call := some startSeq } =
        executeCommit c ready { nd with call := none } startSeq := proceed_of_call rfl
    unfold EndsKept
    rw [Lib.halts_step hdone, hstep, hcommit, hwaits]
    cases hready : ready startSeq with
    | awaited => exact iff_of_true hends ⟨by simp, fun h => by cases h⟩
    | missing =>
      cases hback : goesBack c false slot.proposal slot with
      | true => exact iff_of_false hcrash fun h => by cases h.2 rfl
      | false => exact iff_of_true hends ⟨by simp, fun _ => rfl⟩
    | there =>
      refine iff_of_false ?_ fun h => h.1 rfl
      cases hback : goesBack c false slot.proposal slot with
      | true => exact hcrash
      | false =>
        rw [if_neg (by simp), if_neg (by simp), if_neg (by simp)]
        rcases @executeReady_frame D c { nd with call := none } startSeq slot with hended | ⟨haru, hframes⟩
        · exact not_endsKept_of_ended hended
        · refine not_endsKept_of_beyond (Nat.le_of_eq (haru.trans hlast).symm) ?_
          rw [hframes]
          exact ⟨[.executed], congrArg _ hcalls, fun frame hframe => .inl (List.mem_singleton.mp hframe)⟩
  · rename_i hpending
    exact ⟨fun _ hwaits => absurd hwaits hpending, fun _ => h.last hlast hcall hcalls⟩


/-- **The rounds of a replay.** It ends well exactly where each slot is executed in its round and the first
ordinal of the new view waits. -/
theorem Replaying.endsKept_iff (hword : startSeq < 2 ^ 32) (h : Replaying startSeq top nd) (htop : nd.ord.aru = top)
    (hahead : nd.ahead) (hcall : nd.call = none) (hcalls : nd.calls = roundsLeft slots startSeq base)
    (hslots : Consecutive startSeq top slots) : EndsKept c digest me ready base low startSeq nd ↔
      (∀ slot ∈ slots, Passes c ready slot) ∧ (slots ≠ [] → Waits c ready startSeq nd) := by
  induction slots generalizing nd top with
  | nil => exact iff_of_true (h.last (htop ▸ hslots) hcall hcalls) ⟨List.forall_mem_nil _, fun hne => absurd rfl hne⟩
  | cons slot slots ih =>
    by_cases hpasses : Passes c ready slot
    · have hlast := hslots.lt
      have hcons := hslots
      obtain ⟨hseq, hproposal, hrest⟩ := hslots
      have hlong : base.length < (roundsLeft slots startSeq base).length := by
        rw [roundsLeft, List.length_append, List.length_cons]
        omega
      obtain ⟨nd', hcontinues, hahead', hcalls', hround⟩ := @Replaying.round D c digest me startSeq top ready nd base low _ slot
        (roundsLeft slots startSeq base) hword h htop hahead hcall hcalls hlong hseq hproposal hlast hpasses
      have hwaits : Waits c ready startSeq nd' ↔ Waits c ready startSeq nd := by
        unfold Waits
        rw [hcontinues.pending _ hlast, hcontinues.later _ hlast]
      have hcall' : nd'.call = none := hcontinues.call.trans hcall
      have hall : (∀ own ∈ slot :: slots, Passes c ready own) ↔ ∀ own ∈ slots, Passes c ready own := by
        rw [List.forall_mem_cons]
        exact and_iff_right hpasses
      rw [hround, hall]
      cases slots with
      | nil =>
        have hend : nd'.ord.aru + 1 = startSeq := by rw [hcontinues.aru]; exact hrest
        rw [hcontinues.replaying.attemptPending_last hend (hcontinues.aru ▸ Nat.succ_pos top) hcall' hcalls', hwaits]
        exact ⟨fun hw => ⟨List.forall_mem_nil _, fun _ => hw⟩, fun hw => hw.2 (by simp)⟩
      | cons next slots =>
        have hnone : attemptPending nd' = nd' := by
          unfold attemptPending
          rw [hcontinues.aru, if_neg (hcontinues.replaying.fresh _ (Nat.lt_succ_self _) hrest.lt).2]
        rw [hnone, ih hcontinues.replaying hcontinues.aru hahead' hcall' hcalls' hrest, hwaits]
        simp
    · refine iff_of_false (h.not_passes htop hcall hcalls hslots hpasses) fun hall => ?_
      exact hpasses (hall.1 slot List.mem_cons_self)

end Runs

/-! ## The whole replay -/

section Whole

variable {list : Bitmap} {pcSet : Nat → List (PcSet D)} {prev : Previous}

/-- The replay starts at an ordinal that is not executed yet, its slots are executed when their rounds come, and
the first ordinal of the new view does not follow at once: it is not pending, or it waits for requests. -/
structure ReplayCondition (c : Config) (ready : Nat → Requests) (nd : Node D) (list : Bitmap) (pcSet : Nat → List (PcSet D))
    (startSeq : Nat) : Prop where
  later : nd.ord.aru < startSeq
  passes : ∀ prev, previous c nd.ord = some prev → ∀ slot ∈ replaySlots c list pcSet nd.ord.aru startSeq prev,
    Passes c ready slot
  waits : nd.ord.aru + 1 < startSeq → startSeq ∈ nd.pending → ∀ slot, nd.ord.slot? startSeq = some slot →
    nd.ord.view ≤ slot.view →
      ready startSeq ≠ .there ∧ (ready startSeq = .missing → goesBack c false slot.proposal slot = false)

theorem replaySlot_proposal (full : List (Nat × PcSet D)) (startSeq seq : Nat) (prev : Previous) :
    (replaySlot c full startSeq seq prev).completePrePrepare.seqNum = seq := by
  unfold replaySlot
  split
  · rfl
  · rfl

theorem consecutive_slotsFrom (full : List (Nat × PcSet D)) (count : Nat) (prev : Previous) (hend : top + count + 1 = startSeq) :
    Consecutive startSeq top (slotsFrom c full startSeq count (top + 1) prev) := by
  induction count generalizing top prev with
  | zero => exact hend
  | succ count ih =>
    exact ⟨replaySlot_seqNum c full startSeq (top + 1) prev, replaySlot_proposal full startSeq (top + 1) prev,
      ih _ (by omega)⟩

/-- The slots that survive the cleaning: those of the catchup history, and those of the new view that follow. -/
theorem survives_iff {s : Nat} {slot : OrdSlot D} (h : ViewChanging nd) (hslot : nd.ord.slot? s = some slot) :
    survives nd.ord startSeq s = true ↔
      nd.ord.stableCatchup ≤ s ∧ s ≤ nd.ord.aru ∨ startSeq ≤ s ∧ nd.ord.view ≤ slot.view := by
  unfold survives
  rw [hslot]
  dsimp only
  rw [h.seqNum s slot hslot]
  simp

/-- The node the rounds start from. -/
def cleaned (nd : Node D) (startSeq : Nat) : Node D := nd.dropSlots fun seq => !survives nd.ord startSeq seq

theorem slot?_cleaned (s : Nat) :
    (cleaned nd startSeq).ord.slot? s = if survives nd.ord startSeq s then nd.ord.slot? s else none := by
  unfold cleaned
  rw [slot?_dropSlots]
  cases survives nd.ord startSeq s with
  | true => rfl
  | false => rfl

theorem mem_pending_cleaned (s : Nat) :
    s ∈ (cleaned nd startSeq).pending ↔ s ∈ nd.pending ∧ survives nd.ord startSeq s = true := by
  show s ∈ nd.pending.filter _ ↔ _
  rw [List.mem_filter]
  simp

/-- The slot executed last survives. -/
theorem previous_cleaned (h : ViewChanging nd) :
    ∃ prev, previous c nd.ord = some prev ∧ previous c (cleaned nd startSeq).ord = some prev := by
  by_cases hzero : nd.ord.aru = 0
  · have hzero' : (cleaned nd startSeq).ord.aru = 0 := hzero
    exact ⟨_, if_pos hzero, if_pos hzero'⟩
  · obtain ⟨slot, hslot, -⟩ := h.window _ (Nat.pos_of_ne_zero hzero) h.stable.1 (le_refl _)
    have hsurvives : survives nd.ord startSeq nd.ord.aru = true := (survives_iff h hslot).mpr (.inl ⟨h.stable.1, le_refl _⟩)
    have hzero' : ¬(cleaned nd startSeq).ord.aru = 0 := hzero
    have hslot' : (cleaned nd startSeq).ord.slot? (cleaned nd startSeq).ord.aru = some slot := by
      show (cleaned nd startSeq).ord.slot? nd.ord.aru = some slot
      rw [slot?_cleaned, if_pos hsurvives, hslot]
    unfold previous
    rw [if_neg hzero, if_neg hzero', hslot, hslot']
    exact ⟨_, rfl, rfl⟩

/-- After the cleaning, no slot is filled. -/
theorem ViewChanging.replaying (h : ViewChanging nd) (hlater : nd.ord.aru < startSeq) :
    Replaying startSeq nd.ord.aru (cleaned nd startSeq) := by
  have hgone : ∀ s, nd.ord.aru < s → s < startSeq → ∀ slot, nd.ord.slot? s = some slot → survives nd.ord startSeq s ≠ true := by
    intro s hlow hhigh slot hslot hsurvives
    rcases (survives_iff h hslot).mp hsurvives with hin | hin
    · omega
    · omega
  have hslot? : ∀ {s slot}, (cleaned nd startSeq).ord.slot? s = some slot →
      survives nd.ord startSeq s = true ∧ nd.ord.slot? s = some slot := by
    intro s slot hslot
    rw [slot?_cleaned] at hslot
    split at hslot
    · exact ⟨‹_›, hslot⟩
    · cases hslot
  refine
    { running := h.running, changing := h.changing, first := ?_, window := fun s hpos hlow hhigh => ?_, stable := h.stable
      lines := h.lines, filled := fun s hlow hhigh => absurd hhigh (Nat.not_le_of_lt hlow)
      unprepared := fun s slot hlow hslot => ?_, fresh := fun s hlow hhigh => ⟨?_, fun hs => ?_⟩
      pending := fun s hs => ?_, below := ⟨le_refl _, hlater⟩ }
  · rw [slot?_cleaned, h.first]
    exact ite_self _
  · obtain ⟨slot, hslot, hrest⟩ := h.window s hpos hlow hhigh
    rw [slot?_cleaned, if_pos ((survives_iff h hslot).mpr (.inl ⟨hlow, hhigh⟩))]
    exact ⟨slot, hslot, hrest⟩
  · obtain ⟨hsurvives, hslot⟩ := hslot? hslot
    have hlow' : nd.ord.aru < s := hlow
    rcases (survives_iff h hslot).mp hsurvives with hin | hin
    · omega
    · exact h.unprepared s slot hlow' hslot hin.2
  · rw [slot?_cleaned]
    split
    · rename_i hsurvives
      cases hslot : nd.ord.slot? s with
      | none => rfl
      | some slot => exact absurd hsurvives (hgone s hlow hhigh slot hslot)
    · rfl
  · obtain ⟨hs', hsurvives⟩ := (mem_pending_cleaned s).mp hs
    obtain ⟨slot, hslot, -⟩ := h.pending s hs'
    exact hgone s hlow hhigh slot hslot hsurvives
  · obtain ⟨hs', hsurvives⟩ := (mem_pending_cleaned s).mp hs
    rw [slot?_cleaned, if_pos hsurvives]
    exact h.pending s hs'

/-- **Replays return** exactly under the condition. -/
theorem replay_returns_iff [DecidableEq D] (h : ViewChanging nd) (hword : startSeq < 2 ^ 32) :
    ReplayReturns c digest me ready nd list pcSet startSeq ↔ ReplayCondition c ready nd list pcSet startSeq := by
  obtain ⟨prev, hprev, hcleaned⟩ := @previous_cleaned D c startSeq nd h
  have hstart : executeReplay c nd list pcSet startSeq =
      { (cleaned nd startSeq).withOrd { (cleaned nd startSeq).ord with ppAru := nd.ord.aru } with
        calls := roundsLeft (replaySlots c list pcSet nd.ord.aru startSeq prev) startSeq nd.calls } := by
    unfold executeReplay
    dsimp only
    have hmatch := hcleaned
    unfold cleaned at hmatch
    rw [hmatch]
    rfl
  have hreturns : ReplayReturns c digest me ready nd list pcSet startSeq ↔
      EndsKept c digest me ready nd.calls nd.ord.aru startSeq (executeReplay c nd list pcSet startSeq) := Iff.rfl
  rw [hreturns, hstart]
  by_cases hlater : nd.ord.aru < startSeq
  · have hslots : Consecutive startSeq nd.ord.aru (replaySlots c list pcSet nd.ord.aru startSeq prev) :=
      consecutive_slotsFrom _ _ prev (by omega)
    have hne : replaySlots c list pcSet nd.ord.aru startSeq prev ≠ [] ↔ nd.ord.aru + 1 < startSeq := by
      generalize replaySlots c list pcSet nd.ord.aru startSeq prev = slots at hslots
      cases slots with
      | nil => exact iff_of_false (fun hne => hne rfl) (Nat.not_lt_of_le (Nat.le_of_eq (Eq.symm hslots)))
      | cons slot slots => exact iff_of_true (by simp) hslots.lt
    have hwaits : Waits c ready startSeq (cleaned nd startSeq) ↔ (startSeq ∈ nd.pending → ∀ slot,
        nd.ord.slot? startSeq = some slot → nd.ord.view ≤ slot.view →
          ready startSeq ≠ .there ∧ (ready startSeq = .missing → goesBack c false slot.proposal slot = false)) := by
      unfold Waits
      rw [mem_pending_cleaned, slot?_cleaned]
      constructor
      · intro hw hpending slot hslot hview
        have hsurvives : survives nd.ord startSeq startSeq = true := (survives_iff h hslot).mpr (.inr ⟨le_refl _, hview⟩)
        exact hw ⟨hpending, hsurvives⟩ slot (by rw [if_pos hsurvives, hslot])
      · rintro hw ⟨hpending, hsurvives⟩ slot hslot
        rw [if_pos hsurvives] at hslot
        refine hw hpending slot hslot ?_
        rcases (survives_iff h hslot).mp hsurvives with hin | hin
        · omega
        · exact hin.2
    have hreplaying := ((h.replaying hlater).withPpAru nd.ord.aru).frame nd.call
      (roundsLeft (replaySlots c list pcSet nd.ord.aru startSeq prev) startSeq nd.calls)
    refine (hreplaying.endsKept_iff hword rfl ⟨le_refl _, .inl rfl⟩ h.call rfl hslots).trans ?_
    constructor
    · rintro ⟨hpasses, hw⟩
      refine ⟨hlater, fun prev' hprev' => ?_, fun hlt => hwaits.mp (hw (hne.mpr hlt))⟩
      rw [hprev] at hprev'
      obtain rfl := Option.some.inj hprev'
      exact hpasses
    · intro hcond
      exact ⟨hcond.passes prev hprev, fun hslots' => hwaits.mpr (hcond.waits (hne.mp hslots'))⟩
  · refine iff_of_false (not_endsKept_of_beyond (Nat.le_of_not_lt hlater) ⟨[], ?_, List.forall_mem_nil _⟩)
      fun hcond => hlater hcond.later
    have hnone : startSeq - 1 - nd.ord.aru = 0 := by omega
    show roundsLeft (replaySlots c list pcSet nd.ord.aru startSeq prev) startSeq nd.calls = _
    unfold replaySlots
    rw [hnone]
    rfl

end Whole

/-! ### A request that is not there -/

/-- A server that enters view 3 and has executed nothing. -/
def entering : Node CompletePrePrepare :=
  let nd : Node CompletePrePrepare := Node.start fourServers.toConfig 10 3 [1, 1, 1, 1] []
  nd.withOrd { nd.ord with viewChangeDone := false }

/-- A certificate for the first ordinal, whose matrix makes the first request of server 1 eligible. -/
def requestCertificate : PcSet CompletePrePrepare :=
  let row := { PoAruSigned.null fourServers.toConfig with
    body := { num := 1, ackForServer := ⟨1, 1⟩ :: List.replicate 3 PoSeqPair.zero } }
  let pc := Replay.certificateOf 1 1
  let pc := { pc with prePrepare := { pc.prePrepare with body := { pc.prePrepare.body with rows := List.replicate 4 row } } }
  { pc with prepares := pc.prepares.map fun m =>
      { m with body := { m.body with digest := proposalOf fourServers.toConfig pc } } }

theorem entering_changing : ViewChanging entering where
  running := rfl
  call := rfl
  changing := rfl
  seqNum s slot hslot := by cases hslot
  first := rfl
  window s hpos _ hhigh := absurd hhigh (Nat.not_le_of_lt hpos)
  stable := ⟨le_refl 0, fun h => absurd h (Nat.lt_irrefl 0)⟩
  lines := ⟨le_refl 0, le_refl 0⟩
  unprepared s slot _ hslot := by cases hslot
  pending s hs := by cases hs

/-- Where the request is there, the replay returns. -/
theorem entering_returns : ViewChanging entering ∧ 2 < 2 ^ 32 ∧
    ReplayReturns fourServers.toConfig id 2 (fun _ => .there) entering 0b1110#32
      (fun i => if i = 1 then [requestCertificate] else []) 2 := by
  refine ⟨entering_changing, by decide, (replay_returns_iff entering_changing (by decide)).mpr ?_⟩
  have hslots : ∀ prev, previous fourServers.toConfig entering.ord = some prev →
      (replaySlots fourServers.toConfig 0b1110#32 (fun i => if i = 1 then [requestCertificate] else []) 0 2 prev).all
        (fun slot => fits fourServers.toConfig slot &&
          !goesBack fourServers.toConfig (decide (slot.seqNum = 1)) slot.completePrePrepare slot) = true := by
    intro prev hprev
    obtain rfl := Option.some.inj hprev
    decide +kernel
  refine ⟨by decide, fun prev hprev slot hslot => ?_, fun _ hpending => by cases hpending⟩
  obtain ⟨hfits, honward⟩ := Bool.and_eq_true_iff.mp (List.all_eq_true.mp (hslots prev hprev) slot hslot)
  exact ⟨hfits, by simpa using honward, rfl⟩

/-- Where it is missing, the closing assertion fails. -/
theorem entering_fails : ¬∀ (ready : Nat → Requests) (nd : Node CompletePrePrepare) (list : Bitmap)
    (pcSet : Nat → List (PcSet CompletePrePrepare)) (startSeq : Nat), ViewChanging nd → nd.ord.aru < startSeq →
    startSeq < 2 ^ 32 → ReplayReturns fourServers.toConfig id 2 ready nd list pcSet startSeq := by
  intro h
  have hreturns := h (fun _ => .missing) entering 0b1110#32 (fun i => if i = 1 then [requestCertificate] else []) 2
    entering_changing (by decide) (by decide)
  unfold ReplayReturns at hreturns
  rw [Lib.halts_step (by decide +kernel), Lib.halts_step (by decide +kernel), Lib.halts_step (by decide +kernel),
    Lib.halts_of_done (by decide +kernel)] at hreturns
  have hended := hreturns.running
  revert hended
  decide +kernel

end Spire.Ordinals
