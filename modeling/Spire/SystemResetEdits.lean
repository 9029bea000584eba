import Spire.Lib.Chain
import Spire.SystemReset

/-!
# The edits of a system reset

Every handler of `Spire.SystemReset` is a sequence of small edits, each with the guards,
of those its handler has tested, that results rely on. `handle_moves` takes a step of a
server apart: it does nothing, because the server is done with the reset or has failed;
or it is a sequence of edits; or the server proposes, or enters a view, which are single
moves made from the state the step starts in.
-/

namespace Spire.Reset

open Spire.Lib Spire.Replay

variable {D : Type}

/-- A server that takes part in the reset. -/
def Node.Live (st : Node D) : Prop := st.halted = none ∧ st.status ≠ .normal

theorem Node.Live.running {st : Node D} (h : st.Live) : st.halted = none := h.1

theorem Node.Live.resetting {st : Node D} (h : st.Live) : st.status ≠ .normal := h.2

/-- Messages that vouch for nothing. -/
def Msg.light : Msg D → Bool
  | .share _ | .newLeader _ | .newLeaderProof _ | .newView _ => true
  | _ => false

/-- The part of the state that says nothing about what was agreed. -/
def Node.scratch (st : Node D) (status : RecoveryStatus) (share : Nat → Option (Signed ResetShare))
    (shareCount : Nat) (minWaitDone : Bool) (newLeader : Nat → Option (Signed NewLeader)) (rbSeq : Nat)
    (delayQueued rotateQueued : Bool) : Node D :=
  { st with status, share, shareCount, minWaitDone, newLeader, rbSeq, delayQueued, rotateQueued }

/-- The handlers that check whether a view change is complete. -/
def Rechecks (x : Input (Msg D) Action) : Prop :=
  (∃ m, x = .msg (.viewChange m)) ∨ ∃ m, x = .msg (.newView m)

/-- The assertions of `PR_Check_Complete_VC_State`. -/
def Abort.ofCheck : Abort → Bool
  | .certificateMismatch | .missingViewChange | .leaderHasProposal => true
  | _ => false

section Edits

variable [DecidableEq D]

/-- What a server does to its state while it handles `x`, in one view. -/
inductive Edit (p : Params D) (me : Nat) (x : Input (Msg D) Action) : Node D → Node D → List (Msg D) → Prop
  | scratched {st : Node D} {status : RecoveryStatus} {share : Nat → Option (Signed ResetShare)}
      {shareCount : Nat} {minWaitDone : Bool} {newLeader : Nat → Option (Signed NewLeader)} {rbSeq : Nat}
      {delayQueued rotateQueued : Bool} (hstatus : status ≠ .normal) {out : List (Msg D)}
      (hout : ∀ m ∈ out, m.light = true) :
      Edit p me x st
        (st.scratch status share shareCount minWaitDone newLeader rbSeq delayQueued rotateQueued) out
  | proposalStored {st : Node D} {mess : Signed ResetProposal} (hx : x = .msg (.proposal mess))
      (hnone : st.proposal = none) (hleader : mess.machineId = p.config.leaderOfView st.view)
      (hview : mess.body.view = st.view) : Edit p me x st { st with proposal := some mess } []
  | accepted {st : Node D} {proposal : Signed ResetProposal} (hproposal : st.proposal = some proposal)
      (hme : me ≠ p.config.leaderOfView st.view) (hfresh : st.sentPrepare = false)
      (hcollected : 1 < st.view → st.collected = true)
      (hcarry : ∀ carried, st.carryOver = some carried → carried.body.shares = proposal.body.shares) :
      Edit p me x st { st with sentPrepare := true, accepted := proposal.body :: st.accepted }
        [.prepare (constructPrepare p me st proposal)]
  | prepareStored {st : Node D} {mess : Signed (ResetVouch D)} (hx : x = .msg (.prepare mess))
      (hsender : mess.machineId ∈ p.config.servers) (hview : mess.body.view = st.view)
      (hnew : st.prepare mess.machineId = none) :
      Edit p me x st
        { st with
          prepare := Function.update st.prepare mess.machineId (some mess)
          prepareCount := st.prepareCount + 1 } []
  | commitSent {st : Node D} {proposal : Signed ResetProposal} (hstored : ∃ i mess, st.prepare i = some mess)
      (hproposal : st.proposal = some proposal) (hfresh : st.sentCommit = false)
      (hquorum : 2 * p.config.F + p.config.K ≤
        tally p.config.numServers (vouching p st.prepare proposal.body)) :
      Edit p me x st
        { st with
          sentCommit := true, committed := (constructCommit p me st proposal).body :: st.committed }
        [.commit (constructCommit p me st proposal)]
  | commitStored {st : Node D} {mess : Signed (ResetVouch D)} (hx : x = .msg (.commit mess))
      (hsender : mess.machineId ∈ p.config.servers) (hview : mess.body.view = st.view)
      (hnew : st.commit mess.machineId = none) :
      Edit p me x st
        { st with
          commit := Function.update st.commit mess.machineId (some mess)
          commitCount := st.commitCount + 1 } []
  | executedByCommits {st : Node D} {proposal : Signed ResetProposal} {cert : Signed (ResetCertificate D)}
      (hproposal : st.proposal = some proposal)
      (hquorum : p.config.quorum ≤ tally p.config.numServers (vouching p st.commit proposal.body))
      (hcert : constructCertificate p me st proposal = some cert) :
      Edit p me x st
        (executeProposal me
          { st with proposalDigest := some (p.digest proposal.body), certificate := some cert } proposal.body)
        [.certificate cert]
  | executedByCertificate {st : Node D} {mess : Signed (ResetCertificate D)}
      (hx : x = .msg (.certificate mess)) (hvalid : validated p (.certificate mess) = true)
      (hme : ∃ m ∈ mess.body.proposal.body.shares, m.machineId = me) (header : Header) (hheader : header.machineId = me) :
      Edit p me x st
        (executeProposal me
          { st with
            view := mess.body.view, proposal := some mess.body.proposal
            proposalDigest := some (p.digest mess.body.proposal.body)
            certificate := some { header, body := mess.body } } mess.body.proposal.body)
        [.certificate { header, body := mess.body }]
  | viewChangeStored {st : Node D} {mess : Signed (ViewChange D)} (hx : x = .msg (.viewChange mess))
      (hvalid : validated p (.viewChange mess) = true) (hview : mess.body.tag.view = st.view)
      (hnew : st.viewChange mess.body.tag.machineId = none) :
      Edit p me x st
        { st with
          viewChange := Function.update st.viewChange mess.body.tag.machineId (some mess)
          viewChangeBitmap := st.viewChangeBitmap.set mess.body.tag.machineId } []
  | newViewStored {st : Node D} {mess : Signed NewView} (hx : x = .msg (.newView mess))
      (hview : mess.body.tag.view = st.view) (hnone : st.newView = none) :
      Edit p me x st { st with newView := some mess } []
  | completed {st : Node D} {newView : Signed NewView} {carried : Option (Signed ResetProposal)}
      (hx : Rechecks x) (hnewView : st.newView = some newView)
      (hcarried : carryOver st.viewChange (listed p newView.body.list) st.carryOver = .ok carried) :
      Edit p me x st
        { st with
          carryOver := carried, collected := true, minWaitDone := true
          completions := (st.view, carried) :: st.completions } []
  | takenOver {st : Node D} {carried : Signed ResetProposal} (hme : me = p.config.leaderOfView st.view)
      (hnone : st.proposal = none) :
      Edit p me x st
        { st with
          proposal := some (takeOver me st carried), proposed := takeOver me st carried :: st.proposed }
        [.proposal (takeOver me st carried)]
  | crashed {st : Node D} {view : Nat} {proposal : Option (Signed ResetProposal)} {proposalDigest : Option D}
      {a : Abort} (hx : a.ofCheck = true → Rechecks x)
      (hmismatch : a = .certificateMismatch →
        ∃ listed, carryOver st.viewChange listed st.carryOver = .error .certificateMismatch) :
      Edit p me x st { st with view, proposal, proposalDigest, halted := some a } []

/-- An edit of a server that takes part. -/
def Move (p : Params D) (me : Nat) (x : Input (Msg D) Action) (st st' : Node D) (out : List (Msg D)) : Prop :=
  st.Live ∧ Edit p me x st st' out

/-- The leader proposes the shares it has. -/
structure Proposes (p : Params D) (me : Nat) (x : Input (Msg D) Action) (st st' : Node D)
    (out : List (Msg D)) : Prop where
  action : x = .act .postSharesDelay
  leader : me = p.config.leaderOfView st.view
  result : ∃ (status : RecoveryStatus) (proposal : Signed ResetProposal), status ≠ .normal ∧
    proposal.machineId = me ∧ proposal.body.view = st.view ∧ out = [.proposal proposal] ∧
    st' = { st with
      delayQueued := false, status, proposal := some proposal, proposed := proposal :: st.proposed }

/-- A New-Leader message is the last one needed for its view. -/
def newLeaderCompletes (p : Params D) (st : Node D) (mess : Signed NewLeader) : Bool :=
  decide (st.view < mess.body.newView) &&
  !((st.newLeader mess.machineId).any fun m => decide (mess.body.newView ≤ m.body.newView)) &&
  decide (supporters p { st with newLeader := Function.update st.newLeader mess.machineId (some mess) }
    mess.body.newView = p.config.quorum)

/-- The inputs that make a server leave its view, and the view it enters. -/
def leavesFor (p : Params D) (me : Nat) (st : Node D) : Input (Msg D) Action → Option Nat
  | .msg (.newLeader m) => if newLeaderCompletes p st m then some m.body.newView else none
  | .msg (.newLeaderProof m) =>
    if st.view < m.body.newView ∧ ∀ nl ∈ m.body.newLeaders, nl.body.newView = m.body.newView then
      some m.body.newView
    else none
  | .act .rotateLeader =>
    if st.rotateQueued ∧ newLeaderCompletes p st (constructNewLeader me st) then some (st.view + 1) else none
  | _ => none

/-- A server enters a view and reports what it prepared in the one it leaves. -/
structure Enters (p : Params D) (me : Nat) (x : Input (Msg D) Action) (st st' : Node D)
    (out : List (Msg D)) : Prop where
  result : ∃ view vc announced, leavesFor p me st x = some view ∧ st.view < view ∧
    constructViewChange p me { st with view, rbSeq := 1 } = some vc ∧
    (∀ m ∈ announced, m.light = true) ∧ out = announced ++ [.viewChange vc] ∧
    st' = { st.clearReset with view, rbSeq := 2, rotateQueued := true, reported := vc :: st.reported }

/-! ## The handlers, edit by edit -/

variable {p : Params D} {me : Nat} {x : Input (Msg D) Action} {st : Node D}

omit [DecidableEq D] in
theorem light_singleton {m : Msg D} (h : m.light = true) : ∀ m' ∈ [m], m'.light = true := by
  intro m' hm'
  rw [List.mem_singleton.mp hm']
  exact h

/-- A part that changes nothing and sends nothing. -/
private theorem same_chain (st : Node D) : Chain (Move p me x) st st [] := .nil st

/-- A change of the part of the state that says nothing. -/
private theorem scratch_chain {status : RecoveryStatus} (share : Nat → Option (Signed ResetShare))
    (shareCount : Nat) (minWaitDone : Bool) (newLeader : Nat → Option (Signed NewLeader)) (rbSeq : Nat)
    (delayQueued rotateQueued : Bool) (hst : st.Live) (hstatus : status ≠ .normal) :
    Chain (Move p me x) st
      (st.scratch status share shareCount minWaitDone newLeader rbSeq delayQueued rotateQueued) [] :=
  .single ⟨hst, .scratched hstatus fun _ hm => absurd hm List.not_mem_nil⟩

private theorem halt_chain (hst : st.Live) {a : Abort} (hx : a.ofCheck = true → Rechecks x)
    (hmismatch : a = .certificateMismatch →
      ∃ listed, carryOver st.viewChange listed st.carryOver = .error .certificateMismatch) :
    Chain (Move p me x) st (st.halt a) [] :=
  .single ⟨hst, .crashed hx hmismatch⟩

omit [DecidableEq D] in
/-- Taking shares over changes nothing else but the status. -/
theorem adoptShares_eq (me : Nat) (st : Node D) (shares : List (Signed ResetShare)) (h : st.status ≠ .normal) :
    ∃ status share shareCount, status ≠ RecoveryStatus.normal ∧ adoptShares me st shares =
      st.scratch status share shareCount st.minWaitDone st.newLeader st.rbSeq st.delayQueued st.rotateQueued := by
  unfold adoptShares
  induction shares generalizing st with
  | nil => exact ⟨st.status, st.share, st.shareCount, h, rfl⟩
  | cons m shares ih =>
    rw [List.foldl_cons]
    by_cases hm : m.machineId = me
    · obtain ⟨status, share, shareCount, hstatus, heq⟩ := ih
        { (if (st.share m.machineId).any fun own => decide (m.header.incarnation < own.header.incarnation)
            then st else st.storeShare m) with status := .reset } (fun h => nomatch h)
      refine ⟨status, share, shareCount, hstatus, ?_⟩
      simp only [hm, if_true] at heq ⊢
      rw [heq]
      split <;> rfl
    · obtain ⟨status, share, shareCount, hstatus, heq⟩ := ih
        (if (st.share m.machineId).any fun own => decide (m.header.incarnation < own.header.incarnation)
          then st else st.storeShare m) (by split <;> exact h)
      refine ⟨status, share, shareCount, hstatus, ?_⟩
      simp only [hm, if_false] at heq ⊢
      rw [heq]
      split <;> rfl

theorem processShare_chain (hst : st.Live) (mess : Signed ResetShare) :
    Chain (Move p me x) st (processShare p me st mess) [] := by
  unfold processShare
  split
  · exact same_chain st
  split
  · exact same_chain st
  dsimp only
  split
  · exact scratch_chain _ _ st.minWaitDone st.newLeader st.rbSeq st.delayQueued st.rotateQueued hst hst.resetting
  · exact scratch_chain _ _ st.minWaitDone st.newLeader st.rbSeq true true hst hst.resetting

theorem processStored_chain (hst : st.Live) :
    Chain (Move p me x) st (processStored p me st).1 (processStored p me st).2 := by
  unfold processStored
  split
  · exact same_chain st
  rename_i proposal hproposal
  split
  · exact same_chain st
  split
  · exact same_chain st
  split
  · exact same_chain st
  rename_i hview
  split
  · exact same_chain st
  rename_i hcovers
  obtain ⟨status, share, shareCount, hstatus, heq⟩ := adoptShares_eq me st proposal.body.shares hst.resetting
  dsimp only
  rw [heq]
  have hadopted : Chain (Move p me x) st _ [] :=
    scratch_chain share shareCount st.minWaitDone st.newLeader st.rbSeq st.delayQueued st.rotateQueued hst hstatus
  split
  · rename_i hsend
    refine hadopted.trans (.single ⟨⟨hst.running, hstatus⟩, .accepted hproposal hsend.1 hsend.2 (fun h1 => ?_) fun carried hcarried => ?_⟩)
    · exact Bool.eq_true_of_not_eq_false fun h => hview ⟨h1, h⟩
    · have hsame : coversMe st proposal.body = true := Bool.eq_true_of_not_eq_false hcovers
      have hcarry : st.carryOver = some carried := hcarried
      unfold coversMe at hsame
      rw [hcarry] at hsame
      exact of_decide_eq_true hsame
  · exact hadopted

theorem processProposal_chain (hst : st.Live) {mess : Signed ResetProposal} (hx : x = .msg (.proposal mess)) :
    Chain (Move p me x) st (processProposal p me st mess).1 (processProposal p me st mess).2 := by
  unfold processProposal
  split
  · exact same_chain st
  split
  · exact same_chain st
  rename_i hnone
  split
  · exact same_chain st
  rename_i hleader
  split
  · exact same_chain st
  rename_i hview
  split
  · exact same_chain st
  have hstored : Move p me x st { st with proposal := some mess } [] :=
    ⟨hst, .proposalStored hx (Option.not_isSome_iff_eq_none.mp hnone) (not_not.mp hleader) (not_not.mp hview)⟩
  exact .cons hstored (processStored_chain hst)

theorem processPrepare_chain (hst : st.Live) {mess : Signed (ResetVouch D)} (hx : x = .msg (.prepare mess))
    (hsender : mess.machineId ∈ p.config.servers) :
    Chain (Move p me x) st (processPrepare p me st mess).1 (processPrepare p me st mess).2 := by
  unfold processPrepare
  split
  · exact same_chain st
  rename_i hview
  split
  · exact same_chain st
  rename_i hnew
  have hstored : Move p me x st _ [] :=
    ⟨hst, .prepareStored hx hsender (not_not.mp hview) (Option.not_isSome_iff_eq_none.mp hnew)⟩
  dsimp only
  split
  · exact .single hstored
  rename_i proposal hproposal
  split
  · exact .single hstored
  split
  · exact .single hstored
  rename_i hfresh
  split
  · rename_i hquorum
    exact .cons hstored (.single
      ⟨hst, .commitSent ⟨mess.machineId, mess, Function.update_self ..⟩ hproposal
        (Bool.eq_false_of_not_eq_true hfresh) hquorum⟩)
  · exact .single hstored

theorem processCommit_chain (hst : st.Live) {mess : Signed (ResetVouch D)} (hx : x = .msg (.commit mess))
    (hsender : mess.machineId ∈ p.config.servers) :
    Chain (Move p me x) st (processCommit p me st mess).1 (processCommit p me st mess).2 := by
  unfold processCommit
  split
  · exact same_chain st
  rename_i hview
  split
  · exact same_chain st
  rename_i hnew
  have hstored : Move p me x st _ [] :=
    ⟨hst, .commitStored hx hsender (not_not.mp hview) (Option.not_isSome_iff_eq_none.mp hnew)⟩
  dsimp only
  split
  · exact .single hstored
  rename_i proposal hproposal
  split
  · exact .single hstored
  split
  · exact .single hstored
  split
  · exact .single hstored
  rename_i hquorum
  split
  · exact .cons hstored (.single ⟨hst, .crashed (fun h => nomatch h) fun h => nomatch h⟩)
  split
  · exact .cons hstored (.single ⟨hst, .crashed (fun h => nomatch h) fun h => nomatch h⟩)
  rename_i cert hcert
  exact .cons hstored (.single ⟨hst, .executedByCommits hproposal (not_lt.mp hquorum) hcert⟩)

theorem complete_chain (hst : st.Live) {newView : Signed NewView} {carried : Option (Signed ResetProposal)}
    (hx : Rechecks x) (hnewView : st.newView = some newView)
    (hcarried : carryOver st.viewChange (listed p newView.body.list) st.carryOver = .ok carried) :
    Chain (Move p me x) st (complete p me st carried).1 (complete p me st carried).2 := by
  have hdone : Move p me x st _ [] := ⟨hst, .completed hx hnewView hcarried⟩
  unfold complete
  dsimp only
  split
  · exact .cons hdone (processStored_chain hst)
  rename_i hme
  split
  · exact .cons hdone (scratch_chain _ _ _ _ _ true _ hst hst.resetting)
  rename_i carried
  split
  · refine .cons hdone (.single ⟨hst, .crashed (fun _ => hx) fun h => ?_⟩)
    cases h
  rename_i hnone
  exact .cons hdone (.single ⟨hst, .takenOver (not_not.mp hme) (Option.not_isSome_iff_eq_none.mp hnone)⟩)

theorem checkCompleteVcState_chain (hst : st.Live) (hx : Rechecks x) :
    Chain (Move p me x) st (checkCompleteVcState p me st).1 (checkCompleteVcState p me st).2 := by
  unfold checkCompleteVcState
  split
  · exact same_chain st
  rename_i newView hnewView
  split
  · exact same_chain st
  split
  · rename_i a herror
    exact halt_chain hst (fun _ => hx) fun ha => ⟨_, ha ▸ herror⟩
  rename_i carried hcarried
  exact complete_chain hst hx hnewView hcarried

theorem processViewChange_chain (hst : st.Live) {mess : Signed (ViewChange D)} (hx : x = .msg (.viewChange mess))
    (hvalid : validated p (.viewChange mess) = true) :
    Chain (Move p me x) st (processViewChange p me st mess).1 (processViewChange p me st mess).2 := by
  have hre : Rechecks x := .inl ⟨mess, hx⟩
  unfold processViewChange
  split
  · exact same_chain st
  rename_i hview
  split
  · exact same_chain st
  split
  · exact halt_chain hst (fun h => nomatch h) fun h => nomatch h
  rename_i hnew
  have hstored : Move p me x st _ [] :=
    ⟨hst, .viewChangeStored hx hvalid (not_not.mp hview) (Option.not_isSome_iff_eq_none.mp hnew)⟩
  dsimp only
  split
  · refine .cons hstored (.cons_sent ⟨hst, .scratched ?_ ?_⟩ (checkCompleteVcState_chain hst hre))
    · exact hst.resetting
    · exact light_singleton rfl
  · exact .cons hstored (checkCompleteVcState_chain hst hre)

theorem processNewView_chain (hst : st.Live) {mess : Signed NewView} (hx : x = .msg (.newView mess)) :
    Chain (Move p me x) st (processNewView p me st mess).1 (processNewView p me st mess).2 := by
  unfold processNewView
  split
  · exact same_chain st
  rename_i hview
  split
  · exact same_chain st
  split
  · exact same_chain st
  rename_i hnone
  have hstored : Move p me x st _ [] :=
    ⟨hst, .newViewStored hx (not_not.mp hview) (Option.not_isSome_iff_eq_none.mp hnone)⟩
  exact .cons hstored (checkCompleteVcState_chain hst (.inr ⟨mess, hx⟩))

omit [DecidableEq D] in
theorem validForMe_spec {proposal : ResetProposal} (h : validForMe me st proposal = true) :
    ∃ m ∈ proposal.shares, m.machineId = me := by
  unfold validForMe at h
  cases hown : st.share me with
  | none =>
    rw [hown] at h
    cases h
  | some own =>
    rw [hown] at h
    obtain ⟨m, hm, h⟩ := List.any_eq_true.mp h
    exact ⟨m, hm, (of_decide_eq_true h).1⟩

theorem processCertificate_chain (hst : st.Live) {mess : Signed (ResetCertificate D)} (hx : x = .msg (.certificate mess))
    (hvalid : validated p (.certificate mess) = true) :
    Chain (Move p me x) st (processCertificate p me st mess).1 (processCertificate p me st mess).2 := by
  unfold processCertificate
  split
  · exact same_chain st
  split
  · exact same_chain st
  split
  · exact same_chain st
  rename_i hme
  dsimp only
  split
  · exact .single ⟨hst, .crashed (fun h => nomatch h) fun h => nomatch h⟩
  · exact .single
      ⟨hst, .executedByCertificate hx hvalid (validForMe_spec (Bool.eq_true_of_not_eq_false hme)) _ rfl⟩

/-! ## A step of a server -/

variable (p me) in
/-- Leaving a view: the server reports, or fails because it lacks Prepares. -/
theorem startViewChange_spec (st : Node D) (newLeader : Nat → Option (Signed NewLeader)) (view : Nat) :
    (∃ vc, constructViewChange p me { st with view, rbSeq := 1 } = some vc ∧
      startViewChange p me { st with newLeader, view } =
        ({ st.clearReset with view, rbSeq := 2, rotateQueued := true, reported := vc :: st.reported },
          [.viewChange vc])) ∨
    startViewChange p me { st with newLeader, view } =
      ({ st with newLeader, view, rbSeq := 1, halted := some .tooFewPrepares }, []) := by
  unfold startViewChange
  have hsame : constructViewChange p me { st with newLeader, view, rbSeq := 1 } =
      constructViewChange p me { st with view, rbSeq := 1 } := rfl
  cases hvc : constructViewChange p me { st with view, rbSeq := 1 } with
  | none =>
    right
    simp only [hsame, hvc]
    rfl
  | some vc =>
    left
    refine ⟨vc, rfl, ?_⟩
    simp only [hsame, hvc]
    rfl

variable (p me) in
/-- A New-Leader message is kept, or is the last one needed. -/
theorem processNewLeader_spec (st : Node D) (mess : Signed NewLeader) :
    (∃ newLeader, processNewLeader p me st mess = ({ st with newLeader }, [])) ∨
    newLeaderCompletes p st mess = true ∧ st.view < mess.body.newView ∧
      ∃ newLeader proof, processNewLeader p me st mess =
        ((startViewChange p me { st with newLeader, view := mess.body.newView }).1,
          .newLeaderProof proof :: (startViewChange p me { st with newLeader, view := mess.body.newView }).2) := by
  unfold processNewLeader
  split
  · exact .inl ⟨_, rfl⟩
  rename_i hview
  split
  · exact .inl ⟨_, rfl⟩
  rename_i hnew
  dsimp only
  split
  · exact .inl ⟨_, rfl⟩
  rename_i hcount
  have hlt : st.view < mess.body.newView := not_le.mp hview
  refine .inr ⟨?_, hlt, _, _, rfl⟩
  unfold newLeaderCompletes
  rw [Bool.and_eq_true, Bool.and_eq_true, Bool.not_eq_true']
  exact ⟨⟨decide_eq_true hlt, Bool.eq_false_of_not_eq_true hnew⟩, decide_eq_true (not_not.mp hcount)⟩

/-- What a step of a server is made of. -/
def Moves (p : Params D) (me : Nat) (x : Input (Msg D) Action) (st st' : Node D) (out : List (Msg D)) : Prop :=
  Chain (Move p me x) st st' out ∨ Proposes p me x st st' out ∨ Enters p me x st st' out

/-- A server that leaves its view enters the other, whatever it announces, or fails. -/
def Leaves (p : Params D) (me : Nat) (x : Input (Msg D) Action) (st : Node D) (r : Node D × List (Msg D)) : Prop :=
  (r.1.newLeader = fun _ => none) ∧
      (∀ announced, (∀ m ∈ announced, m.light = true) → Enters p me x st r.1 (announced ++ r.2)) ∨
    r.2 = [] ∧ ∀ out, (∀ m ∈ out, m.light = true) → Chain (Move p me x) st r.1 out

theorem startViewChange_leaves (hst : st.Live) (newLeader : Nat → Option (Signed NewLeader)) (q : Bool) {view : Nat}
    (hleaves : leavesFor p me st x = some view) (hview : st.view < view) :
    Leaves p me x st (startViewChange p me { st with rotateQueued := q, newLeader, view }) := by
  obtain ⟨vc, hvc, heq⟩ | heq := startViewChange_spec p me { st with rotateQueued := q } newLeader view
  · left
    rw [heq]
    exact ⟨rfl, fun announced hlight => ⟨view, vc, announced, hleaves, hview, hvc, hlight, rfl, rfl⟩⟩
  · right
    rw [heq]
    refine ⟨rfl, fun out hlight => ?_⟩
    have hscratch : Move p me x st
        (st.scratch st.status st.share st.shareCount st.minWaitDone newLeader 1 st.delayQueued q) out :=
      ⟨hst, .scratched hst.resetting hlight⟩
    refine (Chain.single hscratch).snoc ⟨hst, .crashed (fun h => ?_) fun h => ?_⟩
    all_goals cases h

theorem Leaves.moves {r : Node D × List (Msg D)} (h : Leaves p me x st r) {announced : List (Msg D)}
    (hlight : ∀ m ∈ announced, m.light = true) : Moves p me x st r.1 (announced ++ r.2) := by
  obtain ⟨-, henters⟩ | ⟨hout, hchain⟩ := h
  · exact .inr (.inr (henters announced hlight))
  · rw [hout, List.append_nil]
    exact .inl (hchain announced hlight)

omit [DecidableEq D] in
theorem light_newLeader (o : Option (Signed NewLeader)) :
    ∀ m ∈ (o.map (Msg.newLeader (D := D))).toList, m.light = true := by
  cases o with
  | none => exact fun _ hm => absurd hm List.not_mem_nil
  | some nl => exact light_singleton rfl

/-- `PR_Rotate_Reset_Leader` also sends the server's own New-Leader message, if it is
still there. -/
theorem Leaves.moves_own {r : Node D × List (Msg D)} (h : Leaves p me x st r) {announced : List (Msg D)}
    (hlight : ∀ m ∈ announced, m.light = true) :
    Moves p me x st r.1 (announced ++ r.2 ++ ((r.1.newLeader me).map Msg.newLeader).toList) := by
  obtain ⟨hnone, henters⟩ | ⟨hout, hchain⟩ := h
  · rw [hnone]
    exact .inr (.inr ((List.append_nil _).symm ▸ henters announced hlight))
  · rw [hout, List.append_nil]
    refine .inl (hchain _ fun m hm => ?_)
    exact (List.mem_append.mp hm).elim (hlight m) (light_newLeader _ m)

theorem newLeader_moves (hst : st.Live) {mess : Signed NewLeader} (hx : x = .msg (.newLeader mess)) :
    Moves p me x st (processNewLeader p me st mess).1 (processNewLeader p me st mess).2 := by
  obtain ⟨newLeader, heq⟩ | ⟨hcompletes, hview, newLeader, proof, heq⟩ :=
    processNewLeader_spec p me st mess
  · rw [heq]
    exact .inl (scratch_chain _ _ _ newLeader _ _ _ hst hst.resetting)
  · have hleaves : leavesFor p me st x = some mess.body.newView := by
      rw [hx, leavesFor, if_pos hcompletes]
    rw [heq]
    exact (startViewChange_leaves hst newLeader st.rotateQueued hleaves hview).moves (light_singleton rfl)

theorem newLeaderProof_moves (hst : st.Live) {mess : Signed NewLeaderProof}
    (hx : x = .msg (.newLeaderProof mess)) :
    Moves p me x st (processNewLeaderProof p me st mess).1 (processNewLeaderProof p me st mess).2 := by
  unfold processNewLeaderProof
  split
  · exact .inl (same_chain st)
  rename_i hview
  split
  · exact .inl (same_chain st)
  rename_i hall
  have hlt : st.view < mess.body.newView := not_le.mp hview
  have hleaves : leavesFor p me st x = some mess.body.newView := by
    rw [hx, leavesFor, if_pos]
    refine ⟨hlt, fun nl hnl => ?_⟩
    by_contra hne
    exact hall (List.any_eq_true.mpr ⟨nl, hnl, decide_eq_true hne⟩)
  exact (startViewChange_leaves hst st.newLeader st.rotateQueued hleaves hlt).moves (light_singleton rfl)

theorem rotateLeader_moves (hst : st.Live) (hqueued : st.rotateQueued = true) (hx : x = .act .rotateLeader) :
    Moves p me x st (rotateLeader p me st).1 (rotateLeader p me st).2 := by
  unfold rotateLeader
  obtain ⟨newLeader, heq⟩ | ⟨hcompletes, hview, newLeader, proof, heq⟩ :=
    processNewLeader_spec p me { st with rotateQueued := false } (constructNewLeader me st)
  · have hscratch : Edit p me x st
        (st.scratch st.status st.share st.shareCount st.minWaitDone newLeader st.rbSeq st.delayQueued false)
        ((newLeader me).map Msg.newLeader).toList :=
      .scratched hst.resetting (light_newLeader _)
    rw [heq]
    exact .inl (.single ⟨hst, hscratch⟩)
  · have hleaves : leavesFor p me st x = some (st.view + 1) := by
      rw [hx, leavesFor, if_pos ⟨hqueued, hcompletes⟩]
    rw [heq]
    exact (startViewChange_leaves hst newLeader false hleaves (Nat.lt_succ_self _)).moves_own (light_singleton rfl)

theorem postSharesDelay_moves (hst : st.Live) (hx : x = .act .postSharesDelay) :
    Moves p me x st (postSharesDelay p me st).1 (postSharesDelay p me st).2 := by
  obtain ⟨status, hstatus, heq⟩ : ∃ status, status ≠ RecoveryStatus.normal ∧
      (if st.view = 1 ∧ (st.share me).isSome = true then { st with delayQueued := false, status := .reset }
        else { st with delayQueued := false }) =
      st.scratch status st.share st.shareCount st.minWaitDone st.newLeader st.rbSeq false st.rotateQueued := by
    split
    · exact ⟨.reset, (by decide), rfl⟩
    · exact ⟨st.status, hst.resetting, rfl⟩
  unfold postSharesDelay
  dsimp only
  rw [heq]
  split
  · rename_i hme
    exact .inr (.inl ⟨hx, hme, status, _, hstatus, rfl, rfl, rfl, rfl⟩)
  · have hscratch : Move p me x st
        (st.scratch status st.share st.shareCount true st.newLeader st.rbSeq false st.rotateQueued) [] :=
      ⟨hst, .scratched hstatus fun _ hm => absurd hm List.not_mem_nil⟩
    exact .inl (.cons hscratch (processStored_chain ⟨hst.running, hstatus⟩))

/-- What the queue holds for a server that is done. -/
def Node.Quiet (st : Node D) : Prop := st.status = .normal → st.delayQueued = false ∧ st.rotateQueued = false

variable (p me) in
/-- **A step of a server.** -/
theorem handle_moves (hquiet : st.Quiet) (x : Input (Msg D) Action) :
    handle p me st x = (st, []) ∨ st.Live ∧ Moves p me x st (handle p me st x).1 (handle p me st x).2 := by
  unfold handle
  split
  · exact .inl rfl
  rename_i hhalted
  have hrun : st.halted = none := Option.not_isSome_iff_eq_none.mp hhalted
  cases x with
  | msg m =>
    dsimp only
    split
    · rename_i hok
      obtain ⟨hpermits, hvalid⟩ := Bool.and_eq_true_iff.mp hok
      have hst : st.Live := by
        refine ⟨hrun, fun h => ?_⟩
        rw [h] at hpermits
        cases m <;> cases hpermits
      refine .inr ⟨hst, ?_⟩
      cases m with
      | share m => exact .inl (processShare_chain hst m)
      | proposal m => exact .inl (processProposal_chain hst rfl)
      | prepare m => exact .inl (processPrepare_chain hst rfl (of_decide_eq_true hvalid))
      | commit m => exact .inl (processCommit_chain hst rfl (of_decide_eq_true hvalid))
      | newLeader m => exact newLeader_moves hst rfl
      | newLeaderProof m => exact newLeaderProof_moves hst rfl
      | viewChange m => exact .inl (processViewChange_chain hst rfl hvalid)
      | newView m => exact .inl (processNewView_chain hst rfl)
      | certificate m => exact .inl (processCertificate_chain hst rfl hvalid)
    · exact .inl rfl
  | act a =>
    have hlive : (st.status = .normal → False) → st.Live := fun h => ⟨hrun, h⟩
    cases a with
    | share nonce key =>
      simp only [perform]
      split
      · rename_i hstartup
        have hst : st.Live := hlive fun h => nomatch hstartup.symm.trans h
        exact .inr ⟨hst, .inl (.single ⟨hst, .scratched hst.resetting (light_singleton rfl)⟩)⟩
      · exact .inl rfl
    | postSharesDelay =>
      simp only [perform]
      split
      · rename_i hqueued
        have hst : st.Live := hlive fun h => nomatch hqueued.symm.trans (hquiet h).1
        exact .inr ⟨hst, postSharesDelay_moves hst rfl⟩
      · exact .inl rfl
    | rotateLeader =>
      simp only [perform]
      split
      · rename_i hqueued
        have hst : st.Live := hlive fun h => nomatch hqueued.symm.trans (hquiet h).2
        exact .inr ⟨hst, rotateLeader_moves hst hqueued rfl⟩
      · exact .inl rfl

/-! ## What every step keeps -/

variable {st' : Node D} {out : List (Msg D)}

omit [DecidableEq D] in
/-- A server that is in an executed proposal is done. -/
theorem status_of_member {proposal : ResetProposal} (h : ∃ m ∈ proposal.shares, m.machineId = me) :
    (executeProposal me st proposal).status = .normal := by
  obtain ⟨m, hm, hsender⟩ := h
  exact if_pos (List.any_eq_true.mpr ⟨m, hm, decide_eq_true hsender⟩)

theorem Edit.quiet (h : Edit p me x st st' out) (hst : st.Quiet) : st'.Quiet := by
  cases h with
  | scratched hstatus => exact fun h => absurd h hstatus
  | executedByCommits => exact fun _ => ⟨rfl, rfl⟩
  | executedByCertificate => exact fun _ => ⟨rfl, rfl⟩
  | _ => exact hst

theorem Moves.quiet (h : Moves p me x st st' out) (hlive : st.Live) (hst : st.Quiet) : st'.Quiet := by
  obtain hchain | hproposes | henters := h
  · exact hchain.inv (fun _ _ _ he => he.2.quiet) hst
  · obtain ⟨status, proposal, hstatus, -, -, -, rfl⟩ := hproposes.result
    exact fun h => absurd h hstatus
  · obtain ⟨view, vc, announced, -, -, -, -, -, rfl⟩ := henters.result
    exact fun h => absurd h hlive.resetting

theorem quiet_handle (hst : st.Quiet) (x : Input (Msg D) Action) : (handle p me st x).1.Quiet := by
  obtain heq | ⟨hlive, hmoves⟩ := handle_moves p me hst x
  · rwa [heq]
  · exact hmoves.quiet hlive hst

omit [DecidableEq D] in
theorem quiet_boot (incarnation : Nat) : (Node.boot incarnation : Node D).Quiet :=
  fun _ => ⟨rfl, rfl⟩

end Edits

end Spire.Reset
