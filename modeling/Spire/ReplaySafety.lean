import Spire.ViewChangeEdits

/-!
# Agreement on a replay

Any number of servers run `Spire.ViewChange` over an adversarial network, from any
ordering state, through any number of views. The result is `replay_agree`: two
correct servers that execute a replay in one view execute the same one, and none
executes two.

A replay is executed on `2f + k + 1` Replay Commits of its view and digest. A correct
server sends one Replay Commit in a view: the flag that says it has is cleared only
when a higher view is entered, or together with the end of the view change, after
which nothing is sent (`Committed`). So two quorums of Commits share a correct
signer, and with it the digest.
-/

namespace Spire.ViewChange

open Spire.Order Spire.Replay Spire.Lib

variable {D : Type} [DecidableEq D] {p : Params D} {me : Nat} {x : Input (Msg D) (Action D)}
  {st st' : Node D} {out : List (Msg D)}

/-! ## What holds of every server -/

/-- An executed replay has its quorum: Commits that match its digest, each stored
under its signer and of the replay's view. -/
structure Backed (p : Params D) (e : Executed D) : Prop where
  quorum : p.config.quorum ≤ tally p.config.numServers (vouching p e.commits e.replay)
  stored : ∀ i m, e.commits i = some m → m.machineId = i ∧ m.body.view = e.replay.content.view

/-- What a server holds about the replay of its view, and about those it executed. -/
structure NodeInv (p : Params D) (st : Node D) : Prop where
  replay : ∀ m, st.vc.replay = some m → m.body.content.view = st.view
  commits : ∀ i m, st.vc.replayCommit i = some m → m.machineId = i ∧ m.body.view = st.view
  backed : ∀ e ∈ st.executed, Backed p e
  past : ∀ e ∈ st.executed, e.replay.content.view ≤ st.view
  closed : ∀ e ∈ st.executed, e.replay.content.view = st.view →
    st.vc.executedReplay = true ∨ st.done = true
  once : st.executed.Pairwise fun e e' => e.replay.content.view ≠ e'.replay.content.view

/-- A move that keeps the view and what the invariant reads of it. -/
private theorem NodeInv.frame (h : NodeInv p st) (hview : st'.view = st.view)
    (hreplay : st'.vc.replay = st.vc.replay) (hcommit : st'.vc.replayCommit = st.vc.replayCommit)
    (hexec : st'.executed = st.executed)
    (hflag : st.vc.executedReplay = true → st'.vc.executedReplay = true)
    (hdone : st.done = true → st'.done = true) : NodeInv p st' where
  replay := by rw [hreplay, hview]; exact h.replay
  commits := by rw [hcommit, hview]; exact h.commits
  backed := by rw [hexec]; exact h.backed
  past := by rw [hexec, hview]; exact h.past
  closed := by
    rw [hexec, hview]
    exact fun e he hv => (h.closed e he hv).imp hflag hdone
  once := by rw [hexec]; exact h.once

/-- A replay is stored that belongs to the view. -/
private theorem NodeInv.storeReplay (h : NodeInv p st) {mess : Signed VcProof}
    (hview : mess.body.content.view = st.view) : NodeInv p (st.storeReplay mess) where
  replay m hm := by
    cases hm
    exact hview
  commits := h.commits
  backed := h.backed
  past := h.past
  closed := h.closed
  once := h.once

private theorem NodeInv.storeReplayCommit (h : NodeInv p st) {mess : Signed (ReplayVouch D)}
    (hview : mess.body.view = st.view) : NodeInv p (st.storeReplayCommit mess) where
  replay := h.replay
  commits i m hm := by
    by_cases hi : i = mess.machineId
    · subst hi
      have heq : mess = m := by simpa [Node.storeReplayCommit, Node.withVc] using hm
      subst heq
      exact ⟨rfl, hview⟩
    · refine h.commits i m ?_
      simpa [Node.storeReplayCommit, Node.withVc, hi] using hm
  backed := h.backed
  past := h.past
  closed := h.closed
  once := h.once

/-- The replay of the view is executed, for the first time. -/
private theorem NodeInv.execute (h : NodeInv p st) {replay : Signed VcProof} (hdone : st.done = false)
    (hnew : st.vc.executedReplay = false) (hreplay : st.vc.replay = some replay)
    (hquorum : p.config.quorum ≤ tally p.config.numServers (vouching p st.vc.replayCommit replay.body)) :
    NodeInv p (st.markReplayExecuted replay.body) := by
  have hview := h.replay replay hreplay
  have hfresh : ∀ e ∈ st.executed, replay.body.content.view ≠ e.replay.content.view := by
    intro e he heq
    rcases h.closed e he (heq.symm.trans hview) with hflag | hflag
    · exact nomatch hnew.symm.trans hflag
    · exact nomatch hdone.symm.trans hflag
  refine ⟨h.replay, h.commits, fun e he => ?_, fun e he => ?_, fun _ _ _ => .inl rfl,
    List.pairwise_cons.mpr ⟨hfresh, h.once⟩⟩
  · rcases List.mem_cons.mp he with rfl | he
    · exact ⟨hquorum, fun i m hm => ⟨(h.commits i m hm).1, (h.commits i m hm).2.trans hview.symm⟩⟩
    · exact h.backed e he
  · rcases List.mem_cons.mp he with rfl | he
    · exact le_of_eq hview
    · exact h.past e he

/-- Another view is entered, or the view change is over and its state cleared. -/
private theorem NodeInv.resetViewChange (h : NodeInv p st) {ord : Order.Node D}
    (hview : st.view < ord.view ∨ st.view ≤ ord.view ∧ ord.viewChangeDone = true) :
    NodeInv p (st.resetViewChange ord) where
  replay _ hm := nomatch hm
  commits _ _ hm := nomatch hm
  backed := h.backed
  past e he := by
    have hle := h.past e he
    show _ ≤ ord.view
    omega
  closed e he heq := by
    have hle := h.past e he
    rcases hview with hlt | ⟨-, hdone⟩
    · have heq : e.replay.content.view = ord.view := heq
      omega
    · exact .inr hdone
  once := h.once

theorem NodeInv.move (h : NodeInv p st) (hm : Move p me x st st' out) : NodeInv p st' := by
  cases hm with
  | edit he =>
    cases he with
    | ordering out hmode => exact h.frame hmode.view rfl rfl rfl id hmode.viewChangeDone.trans
    | replayProposed hx hvalid hview => exact h.storeReplay hview
    | replayStored hx hvalid hview => exact h.storeReplay hview
    | commitStored hx hview => exact h.storeReplayCommit hview
    | executed hdone hnew hreplay hquorum => exact h.execute hdone hnew hreplay hquorum
    | finished => exact h.frame rfl rfl rfl rfl id fun _ => rfl
    | _ => exact h.frame rfl rfl rfl rfl id id
  | entered hx hview => exact h.resetViewChange (.inl hview)
  | announced report hx => exact h.frame rfl rfl rfl rfl id id
  | left hx hview hdone => exact h.resetViewChange (.inr ⟨hview, hdone⟩)

/-! ## One Replay Commit in a view -/

/-- The server sends no more Replay Commits for view `v`. -/
def Committed (st : Node D) (v : Nat) : Prop :=
  v < st.view ∨ v = st.view ∧ (st.vc.sentReplayCommit = true ∨ st.done = true)

omit [DecidableEq D] in
private theorem Committed.frame {v : Nat} (h : Committed st v) (hview : st'.view = st.view)
    (hsent : st.vc.sentReplayCommit = true → st'.vc.sentReplayCommit = true)
    (hdone : st.done = true → st'.done = true) : Committed st' v := by
  unfold Committed
  rw [hview]
  exact h.imp_right fun ⟨hv, hflag⟩ => ⟨hv, hflag.imp hsent hdone⟩

theorem Committed.move {v : Nat} (h : Committed st v) (hm : Move p me x st st' out) : Committed st' v := by
  cases hm with
  | edit he =>
    refine h.frame he.view_eq (fun hs => ?_) he.done_mono
    cases he with
    | commitSent => rfl
    | _ => exact hs
  | entered hx hview =>
    refine .inl (show v < _ from ?_)
    rcases h with hlt | ⟨rfl, -⟩
    · exact hlt.trans hview
    · exact hview
  | announced report hx => exact h.frame rfl id id
  | left hx hview hdone =>
    have hle : v ≤ st.view := by
      rcases h with hlt | ⟨heq, -⟩ <;> omega
    rcases Nat.lt_or_eq_of_le (hle.trans hview) with hlt | heq
    · exact .inl hlt
    · exact .inr ⟨heq, .inr hdone⟩

/-- The only move that sends a Replay Commit. -/
theorem Move.replayCommit_mem {m : Signed (ReplayVouch D)} (h : Move p me x st st' out)
    (hm : .replayCommit m ∈ out) :
    ∃ replay, st.done = false ∧ st.vc.sentReplayCommit = false ∧ st.vc.replay = some replay ∧
      st' = st.markSentReplayCommit ∧ m = constructReplayCommit p me st replay.body := by
  cases h with
  | edit he =>
    cases he with
    | commitSent hdone hsent hreplay =>
      cases List.mem_singleton.mp hm
      exact ⟨_, hdone, hsent, hreplay, rfl, rfl⟩
    | completed _ =>
      unfold sendVcList at hm
      split at hm
      · exact nomatch List.mem_singleton.mp hm
      · exact nomatch hm
    | ordering out _ =>
      obtain ⟨m, -, he⟩ := List.mem_map.mp hm
      exact nomatch he
    | pendingSigned =>
      obtain ⟨list, -, he⟩ := List.mem_map.mp hm
      exact nomatch he
    | listSigned _ _ => exact nomatch List.mem_singleton.mp hm
    | shareCombined _ _ => exact nomatch List.mem_singleton.mp hm
    | replayProposed _ _ _ => exact nomatch List.mem_singleton.mp hm
    | prepareSent _ => exact nomatch List.mem_singleton.mp hm
    | _ => exact nomatch hm
  | announced report _ =>
    rcases List.mem_cons.mp hm with he | hm
    · exact nomatch he
    · obtain ⟨pc, -, he⟩ := List.mem_map.mp hm
      exact nomatch he
  | entered _ _ => exact nomatch hm
  | left _ _ _ => exact nomatch hm

/-- The view a Replay Commit is for. -/
def replayCommitView : Msg D → Option Nat
  | .replayCommit m => some m.body.view
  | _ => none

omit [DecidableEq D] in
theorem replayCommitView_eq_some {m : Msg D} {v : Nat} (h : replayCommitView m = some v) :
    ∃ c, m = .replayCommit c ∧ c.body.view = v := by
  cases m with
  | replayCommit c => exact ⟨c, rfl, Option.some.inj h⟩
  | _ => exact nomatch h

/-- Commits a server stores now, or stored when it executed a replay. -/
def Stored (st : Node D) (m : Msg D) : Prop :=
  ∃ c, m = .replayCommit c ∧
    ((∃ i, st.vc.replayCommit i = some c) ∨ ∃ e ∈ st.executed, ∃ i, e.commits i = some c)

theorem Stored.move {m : Msg D} (hs : Stored st' m) (h : Move p me x st st' out) :
    Stored st m ∨ x = .msg m := by
  obtain ⟨c, rfl, hs⟩ := hs
  cases h with
  | edit he =>
    cases he with
    | commitStored hx hview =>
      rename_i mess
      rcases hs with ⟨i, hi⟩ | hs
      · by_cases heq : i = mess.machineId
        · subst heq
          have hmess : mess = c := by simpa [Node.storeReplayCommit, Node.withVc] using hi
          exact .inr (hmess ▸ hx)
        · refine .inl ⟨c, rfl, .inl ⟨i, ?_⟩⟩
          simpa [Node.storeReplayCommit, Node.withVc, heq] using hi
      · exact .inl ⟨c, rfl, .inr hs⟩
    | executed hdone hnew hreplay hquorum =>
      refine .inl ⟨c, rfl, ?_⟩
      rcases hs with hs | ⟨e, he, hs⟩
      · exact .inl hs
      · rcases List.mem_cons.mp he with rfl | he
        · exact .inl hs
        · exact .inr ⟨e, he, hs⟩
    | _ => exact .inl ⟨c, rfl, hs⟩
  | announced report _ => exact .inl ⟨c, rfl, hs⟩
  | entered _ _ =>
    rcases hs with ⟨i, hi⟩ | hs
    · exact nomatch hi
    · exact .inl ⟨c, rfl, .inr hs⟩
  | left _ _ _ =>
    rcases hs with ⟨i, hi⟩ | hs
    · exact nomatch hi
    · exact .inl ⟨c, rfl, .inr hs⟩

/-! ## The system -/

/-- The adversary sends anything that does not bear a correct server's signature. -/
def env (d : Deployment) : Env (Msg D) where
  correct := d.correct
  forge _ m := !d.correct m.signer

/-- The states from which a run starts: no view change has begun, and the network
is empty. The ordering states are any. -/
structure Start (w : World (Node D) (Msg D)) : Prop where
  vc : ∀ i, (w.node i).vc = VcState.init
  executed : ∀ i, (w.node i).executed = []
  sent : w.sent = []

theorem Start.inv (p : Params D) {w : World (Node D) (Msg D)} (h : Start w) (i : Nat) :
    NodeInv p (w.node i) where
  replay m hm := by rw [h.vc i] at hm; exact nomatch hm
  commits j m hm := by rw [h.vc i] at hm; exact nomatch hm
  backed e he := by rw [h.executed i] at he; exact nomatch he
  past e he := by rw [h.executed i] at he; exact nomatch he
  closed e he := by rw [h.executed i] at he; exact nomatch he
  once := by rw [h.executed i]; exact .nil

variable {w₀ : World (Node D) (Msg D)}

/-- A correct server signs one Replay Commit in a view. -/
theorem replayCommit_once (d : Deployment) (h₀ : Start w₀) (evs : List (Event (Msg D) (Action D)))
    {m m' : Signed (ReplayVouch D)} (hm : .replayCommit m ∈ (w₀.run (env d) (handle p) evs).sent)
    (hm' : .replayCommit m' ∈ (w₀.run (env d) (handle p) evs).sent)
    (hc : d.correct m.machineId = true) (hsame : m.machineId = m'.machineId)
    (hview : m.body.view = m'.body.view) : m = m' := by
  have hone := signed_once_of_edits Msg.signer replayCommitView (E := env d) (H := handle p) (M := Move p)
    (I := fun _ => NodeInv p) (R := fun _ => Committed) (w := w₀)
    (fun i st x _ => handle_moves p i st x) (h₀.inv p) (fun m hm => by rw [h₀.sent] at hm; exact nomatch hm)
    (fun _ _ _ _ _ he h => h.move he) (fun _ _ _ _ _ _ he _ hR => hR.move he) ?_ ?_
    (fun _ _ hf => Bool.not_eq_true' _ |>.mp hf) evs hm hm' hc hsame (k := m.body.view) rfl
    (congrArg some hview.symm)
  · cases hone
    rfl
  · intro i x s t out m v he hI hm hk
    obtain ⟨c, rfl, rfl⟩ := replayCommitView_eq_some hk
    obtain ⟨replay, hdone, hsent, hreplay, rfl, rfl⟩ := he.replayCommit_mem hm
    have hv : replay.body.content.view = s.view := hI.replay replay hreplay
    refine ⟨rfl, ?_, .inr ⟨hv, .inl rfl⟩⟩
    rintro (hlt | ⟨-, hflag | hflag⟩)
    · exact absurd hv (Nat.ne_of_lt hlt)
    · exact nomatch hsent.symm.trans hflag
    · exact nomatch hdone.symm.trans hflag
  · intro i x s t out m m' v he hm hm' hk hk'
    obtain ⟨c, rfl, -⟩ := replayCommitView_eq_some hk
    obtain ⟨c', rfl, -⟩ := replayCommitView_eq_some hk'
    obtain ⟨replay, -, -, hreplay, -, rfl⟩ := he.replayCommit_mem hm
    obtain ⟨replay', -, -, hreplay', -, rfl⟩ := he.replayCommit_mem hm'
    cases hreplay.symm.trans hreplay'
    rfl

/-- Every server meets the invariant, and every Commit it holds was sent. -/
theorem node_stored (d : Deployment) (h₀ : Start w₀) (evs : List (Event (Msg D) (Action D))) (i : Nat) :
    NodeInv p ((w₀.run (env d) (handle p) evs).node i) ∧
      ∀ m, Stored ((w₀.run (env d) (handle p) evs).node i) m →
        m ∈ (w₀.run (env d) (handle p) evs).sent := by
  have hinv := node_inv (E := env d) (H := handle p) (w := w₀) (I := fun _ => NodeInv p) (h₀.inv p)
    (fun i s x h => (handle_moves p i s x).inv (fun _ _ _ he h => h.move he) h) evs i
  have hstored := stored_sent_of_edits (E := env d) (H := handle p) (M := Move p) (w := w₀)
    (I := fun _ => NodeInv p) (S := Stored) (fun i st x _ => handle_moves p i st x) (h₀.inv p) ?_
    (fun _ _ _ _ _ he h => h.move he) (fun _ _ _ _ _ _ he hs => hs.move he) evs i
  · exact ⟨hinv, hstored⟩
  · rintro i m ⟨c, rfl, ⟨j, hj⟩ | ⟨e, he, -⟩⟩
    · rw [h₀.vc i] at hj
      exact nomatch hj
    · rw [h₀.executed i] at he
      exact nomatch he

/-- **Executed means committed.** For a replay a server executed there is a quorum of
servers whose Replay Commits for its view and digest were sent. -/
theorem replay_committed (d : Deployment) (hd : d.toConfig = p.config) (h₀ : Start w₀)
    (evs : List (Event (Msg D) (Action D))) {i : Nat} {e : Executed D}
    (he : e ∈ ((w₀.run (env d) (handle p) evs).node i).executed) :
    ∃ A ⊆ d.servers, d.quorum ≤ A.card ∧ ∀ j ∈ A, ∃ m : Signed (ReplayVouch D),
      .replayCommit m ∈ (w₀.run (env d) (handle p) evs).sent ∧ m.machineId = j ∧
        m.body.view = e.replay.content.view ∧ m.body.digest = p.replayDigest e.replay := by
  obtain ⟨hinv, hstored⟩ := node_stored (p := p) d h₀ evs i
  obtain ⟨hquorum, hcommits⟩ := hinv.backed e he
  rw [← hd] at hquorum
  refine ⟨accepted d.numServers (vouching p e.commits e.replay), accepted_subset _ _, ?_, fun j hj => ?_⟩
  · rw [card_accepted]
    exact hquorum
  · obtain ⟨-, hv⟩ := mem_accepted.mp hj
    unfold vouching at hv
    split at hv
    · rename_i m hm
      obtain ⟨hsigner, hview⟩ := hcommits j m hm
      exact ⟨m, hstored _ ⟨m, rfl, .inr ⟨e, he, j, hm⟩⟩, hsigner, hview, of_decide_eq_true hv⟩
    · exact nomatch hv

/-- What a server has executed stays on record. -/
theorem executed_subset_run (d : Deployment) (w : World (Node D) (Msg D))
    (evs : List (Event (Msg D) (Action D))) (i : Nat) :
    (w.node i).executed ⊆ ((w.run (env d) (handle p) evs).node i).executed := by
  have hmove : ∀ {i x} {s t : Node D} {out}, Move p i x s t out → s.executed ⊆ t.executed := by
    intro i x s t out h
    cases h with
    | edit he =>
      cases he with
      | executed _ _ _ _ => exact List.subset_cons_self ..
      | _ => exact List.Subset.refl _
    | _ => exact List.Subset.refl _
  exact node_inv (E := env d) (H := handle p) (w := w)
    (I := fun i st => (w.node i).executed ⊆ st.executed) (fun _ => List.Subset.refl _)
    (fun i s x h => (handle_moves p i s x).inv
      (I := fun t => (w.node i).executed ⊆ t.executed) (fun _ _ _ he h => List.Subset.trans h (hmove he)) h)
    evs i

/-- Of a list whose members differ under `f`, at most one has a given value. -/
private theorem length_filter_le_one {α : Type} {f : α → Nat} {l : List α}
    (h : l.Pairwise fun a b => f a ≠ f b) (n : Nat) : (l.filter fun a => f a = n).length ≤ 1 := by
  induction h with
  | nil => exact Nat.zero_le 1
  | cons hne _ ih =>
    rename_i a l _
    by_cases ha : f a = n
    · have hnone : l.filter (fun a => f a = n) = [] :=
        List.filter_eq_nil_iff.mpr fun b hb => by simpa [← ha] using (hne b hb).symm
      simp [ha, hnone]
    · simpa [List.filter_cons, ha] using ih

/-- **Replay agreement.** In one run, two servers that at whatever times have executed
a replay of one view executed the same list and `startSeq`, under the same digest,
and no server has executed two replays of one view. (Controlled servers do not run
the handler, so theirs are not among them.) -/
theorem replay_agree (d : Deployment) (hd : d.toConfig = p.config)
    (hdigest : Function.Injective p.replayDigest) (h₀ : Start w₀)
    {evs evs₁ evs₂ : List (Event (Msg D) (Action D))} (h₁ : evs₁ <+: evs) (h₂ : evs₂ <+: evs) :
    (∀ i j e e', e ∈ ((w₀.run (env d) (handle p) evs₁).node i).executed →
      e' ∈ ((w₀.run (env d) (handle p) evs₂).node j).executed →
      e.replay.content.view = e'.replay.content.view →
      e.replay.content.list = e'.replay.content.list ∧
        e.replay.content.startSeq = e'.replay.content.startSeq ∧
        p.replayDigest e.replay = p.replayDigest e'.replay) ∧
    ∀ i v, (((w₀.run (env d) (handle p) evs).node i).executed.filter
      fun e => e.replay.content.view = v).length ≤ 1 := by
  have hlast : ∀ {evs'}, evs' <+: evs → ∀ i, ((w₀.run (env d) (handle p) evs').node i).executed ⊆
      ((w₀.run (env d) (handle p) evs).node i).executed := by
    rintro evs' ⟨rest, rfl⟩ i
    rw [run_append]
    exact executed_subset_run d _ rest i
  refine ⟨fun i j e e' he he' hview => ?_, fun i v => ?_⟩
  · obtain ⟨A, hA, hqA, hcommitA⟩ := replay_committed d hd h₀ evs (hlast h₁ i he)
    obtain ⟨B, hB, hqB, hcommitB⟩ := replay_committed d hd h₀ evs (hlast h₂ j he')
    obtain ⟨s, hsA, hsB, hs⟩ := d.committee.exists_correct_inter hA hB hqA hqB
    obtain ⟨m, hm, hms, hmv, hmd⟩ := hcommitA s hsA
    obtain ⟨m', hm', hms', hmv', hmd'⟩ := hcommitB s hsB
    have hcorrect : d.correct m.machineId = true := d.correct_iff.mpr ⟨hms ▸ hA hsA, hms ▸ hs⟩
    have hone := replayCommit_once d h₀ evs hm hm' hcorrect (hms.trans hms'.symm)
      (hmv.trans (hview.trans hmv'.symm))
    have hsame : p.replayDigest e.replay = p.replayDigest e'.replay := hmd.symm.trans (hone ▸ hmd')
    have heq := hdigest hsame
    exact ⟨by rw [heq], by rw [heq], hsame⟩
  · exact length_filter_le_one (node_stored (p := p) d h₀ evs i).1.once v

/-! ### A view change of three servers -/

/-- The digests of the runs below: the replay or the proposal itself. -/
abbrev RunDigest := VcProof ⊕ CompletePrePrepare

/-- Parameters for runs: a threshold signature is a list of shares, and verifies when
there are enough. -/
def listedShares (c : Config) : Params RunDigest :=
  { config := c, proposalDigest := .inr, replayDigest := .inl
    tc :=
      { generateSigShare := fun i _ => [UInt8.ofNat i]
        combineShares := fun shares _ => shares.flatMap Prod.snd
        verifySignature := fun _ sig => decide (c.quorum ≤ sig.length) } }

/-- A header of server `i`, unsigned. -/
def plainHeader (i : Nat) (type : PacketType) : Header :=
  { sig := [], mtNum := 0, mtIndex := 0, siteId := 0, machineId := i, len := 0, type := type.code,
    incarnation := 0, monotonicCounter := 0 }

/-- Servers in view 1, at the start. -/
def firstView (c : Config) : World (Node RunDigest) (Msg RunDigest) :=
  { node := fun _ => Node.boot c 1 100 (List.replicate c.numServers 1) [], sent := [] }

/-- Two of three servers enter view 2 and handle whatever is sent. -/
def secondViewRun : List (Event (Msg RunDigest) (Action RunDigest)) :=
  let enter := [1, 2].map fun i => .handle i (.act (.enterView 2))
  let E := env threeServers
  let H := handle (listedShares threeServers.toConfig)
  enter ++ World.rounds E H [1, 2] 7 0 ((firstView threeServers.toConfig).run E H enter)

/-- The replays a server has executed after `secondViewRun`. -/
def secondViewLog (i : Nat) : List (Executed RunDigest) :=
  (((firstView threeServers.toConfig).run (env threeServers) (handle (listedShares threeServers.toConfig))
    secondViewRun).node i).executed

theorem replay_agree_threeServers : ∃ e e', secondViewLog 1 = [e] ∧ secondViewLog 2 = [e'] ∧
    e.replay.content.view = 2 ∧ e.replay.content.list = e'.replay.content.list ∧
    e.replay.content.startSeq = e'.replay.content.startSeq := by
  have hviews : ∀ i ∈ [1, 2], (secondViewLog i).map (fun e => e.replay.content.view) = [2] := by
    decide +kernel
  have hlog : ∀ i ∈ [1, 2], ∃ e, secondViewLog i = [e] ∧ e.replay.content.view = 2 := by
    intro i hi
    obtain ⟨e, he, hv⟩ := List.map_eq_singleton_iff.mp (hviews i hi)
    exact ⟨e, he, hv⟩
  obtain ⟨e, he, hv⟩ := hlog 1 (by simp)
  obtain ⟨e', he', hv'⟩ := hlog 2 (by simp)
  have hstart : Start (firstView threeServers.toConfig) := ⟨fun _ => rfl, fun _ => rfl, rfl⟩
  have hagree := (replay_agree (p := listedShares threeServers.toConfig) threeServers rfl
    Sum.inl_injective hstart (List.prefix_refl secondViewRun) (List.prefix_refl secondViewRun)).1 1 2 e e'
    (show e ∈ secondViewLog 1 by rw [he]; exact List.mem_singleton_self e)
    (show e' ∈ secondViewLog 2 by rw [he']; exact List.mem_singleton_self e') (hv.trans hv'.symm)
  exact ⟨e, e', he, he', hv, hagree.1, hagree.2.1⟩

end Spire.ViewChange
