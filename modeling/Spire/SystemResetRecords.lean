import Spire.SystemResetNewView

/-!
# What the servers of a reset have on record

A run, taken apart: every step is a chain of pieces, each an edit, a proposal or the entry
of a view, and `run_pieces` is the rule for invariants that every piece keeps. With it,
what a correct server signed is on its record wherever it turns up in the network
(`Sound`), and a server accepts one proposal and commits to one in a view (`Logged`).
-/

namespace Spire.Reset

open Spire.Lib Spire.Replay

variable {D : Type} [DecidableEq D]

/-! ## Pieces of a step -/

section Pieces

variable {p : Params D} {me : Nat} {x : Input (Msg D) Action} {st₀ st st' : Node D} {out : List (Msg D)}

/-- What is still as it was when a server began to handle `x`. -/
structure Since (x : Input (Msg D) Action) (st₀ st : Node D) : Prop where
  view : st.view = st₀.view
  viewChange : st.viewChange = st₀.viewChange ∨
    ∃ m, x = .msg (.viewChange m) ∧ (st.viewChange m.body.tag.machineId).isSome = true

/-- A piece of a step that starts in `st₀`. -/
inductive Piece (p : Params D) (me : Nat) (x : Input (Msg D) Action) (st₀ : Node D) :
    Node D → Node D → List (Msg D) → Prop
  | edit {st st' : Node D} {out : List (Msg D)} (live : st.Live) (tracked : st.Tracked) (since : Since x st₀ st)
      (h : Edit p me x st st' out) : Piece p me x st₀ st st' out
  | proposes {st' : Node D} {out : List (Msg D)} (live : st₀.Live) (tracked : st₀.Tracked)
      (h : Proposes p me x st₀ st' out) : Piece p me x st₀ st₀ st' out
  | enters {st' : Node D} {out : List (Msg D)} (live : st₀.Live) (tracked : st₀.Tracked)
      (h : Enters p me x st₀ st' out) : Piece p me x st₀ st₀ st' out

omit [DecidableEq D] in
theorem since_refl (x : Input (Msg D) Action) (st : Node D) : Since x st st := ⟨rfl, .inl rfl⟩

/-- What a live server keeps while it handles one input. -/
theorem since_edit (h : Edit p me x st st' out) (ht : st.Tracked) (hs : Since x st₀ st) (hlive : st'.Live) :
    Since x st₀ st' := by
  cases h with
  | @viewChangeStored mess hx =>
    refine ⟨hs.view, .inr ⟨mess, hx, ?_⟩⟩
    dsimp only
    rw [Function.update_self]
    rfl
  | executedByCommits hproposal =>
    refine ⟨?_, hs.viewChange⟩
    refine Eq.trans (?_ : max st.view _ = st.view) hs.view
    rw [ht.proposal _ hproposal, max_self]
  | executedByCertificate _ _ hme => exact absurd (status_of_member hme) hlive.resetting
  | crashed => exact nomatch hlive.running
  | _ => exact ⟨hs.view, hs.viewChange⟩

/-- A step of a server is a chain of pieces. -/
theorem handle_pieces (hquiet : st.Quiet) (ht : st.Live → st.Tracked) (x : Input (Msg D) Action) :
    Chain (Piece p me x st) st (handle p me st x).1 (handle p me st x).2 := by
  have hedits : ∀ {t t' out}, Chain (Move p me x) t t' out → (t.Live → t.Tracked ∧ Since x st t) →
      Chain (Piece p me x st) t t' out := by
    intro t t' out h
    induction h with
    | nil t => exact fun _ => .nil t
    | cons he _ ih =>
      intro hinv
      obtain ⟨htracked, hsince⟩ := hinv he.1
      exact .cons (.edit he.1 htracked hsince he.2)
        (ih fun hlive => ⟨tracked_edit he.2 htracked hlive, since_edit he.2 htracked hsince hlive⟩)
  obtain heq | ⟨hlive, hchain | hproposes | henters⟩ := handle_moves p me hquiet x
  · rw [heq]
    exact .nil st
  · exact hedits hchain fun hl => ⟨ht hl, since_refl x st⟩
  · exact .single (.proposes hlive (ht hlive) hproposes)
  · exact .single (.enters hlive (ht hlive) henters)

end Pieces

/-- **The rule for runs of a reset.** What holds at the start, does not depend on the
order of the messages, and is kept by every piece of a step that meets `K` and by every
injection, holds after every run whose steps meet `K`. -/
theorem run_pieces {d : Deployment} {p : Params D} {K : Nat → Node D → Input (Msg D) Action → Prop}
    {P : World (Node D) (Msg D) → Prop} {incarnations : Nat → Nat} (h0 : P (start incarnations))
    (hset : ∀ w w' : World (Node D) (Msg D), w'.node = w.node → (∀ m, m ∈ w'.sent ↔ m ∈ w.sent) → P w → P w')
    (hpiece : ∀ (w : World (Node D) (Msg D)) i x st₀ st' out, P w → d.correct i = true → K i st₀ x →
      (∀ m, x = .msg m → m ∈ w.sent) → Piece p i x st₀ (w.node i) st' out → P (w.move i (st', out)))
    (hinject : ∀ (w : World (Node D) (Msg D)) m, P w → (env d).forge w.sent m = true →
      P { w with sent := m :: w.sent })
    {evs : List (Event (Msg D) Action)}
    (hok : World.Along (env d) (handle p) (fun w i x => K i (w.node i) x) (start incarnations) evs) :
    P ((start incarnations).run (env d) (handle p) evs) := by
  have hall : (∀ i, (((start incarnations).run (env d) (handle p) evs).node i).Quiet ∧ _) ∧ _ :=
    run_inv_along (E := env d) (H := handle p) (w := start incarnations)
      (P := fun w => (∀ i, (w.node i).Quiet ∧ ((w.node i).Live → (w.node i).Tracked)) ∧ P w)
      ⟨fun i => ⟨quiet_boot _, fun _ => tracked_boot _⟩, h0⟩ ?_ ?_ hok
  · exact hall.2
  rotate_left
  · exact fun w m h hf => ⟨h.1, hinject w m h.2 hf⟩
  rintro w i x ⟨hnodes, hP⟩ hK hc ha
  obtain ⟨hquiet, ht⟩ := hnodes i
  refine ⟨World.move_node_inv (I := fun _ (st : Node D) => st.Quiet ∧ (st.Live → st.Tracked)) hnodes
    ⟨quiet_handle hquiet x, tracked_handle hquiet ht x⟩, ?_⟩
  have hsent : ∀ m, x = .msg m → m ∈ w.sent := by
    rintro m rfl
    exact World.available_msg.mp ha
  have hstep := (handle_pieces (p := p) hquiet ht x).move_inv (i := i)
    (P := fun w => (∀ m, x = .msg m → m ∈ w.sent) ∧ P w)
    (fun w w' hn hs h => ⟨fun m hm => (hs m).mpr (h.1 m hm), hset w w' hn hs h.2⟩)
    (fun w t out h hp => ⟨fun m hm => List.mem_append_right _ (h.1 m hm), hpiece w i x _ t out h.2 hc hK h.1 hp⟩)
    rfl ⟨hsent, hP⟩
  exact hstep.2

/-! ## Histories -/

section Records

variable {p : Params D} {me : Nat} {x : Input (Msg D) Action} {st₀ st st' : Node D}
  {sent out : List (Msg D)} {part : Msg D}

/-- The histories of a server have grown. -/
structure Node.Extends (st st' : Node D) : Prop where
  proposed : st.proposed ⊆ st'.proposed
  accepted : st.accepted ⊆ st'.accepted
  committed : st.committed ⊆ st'.committed
  reported : st.reported ⊆ st'.reported
  executed : st.executed ⊆ st'.executed
  completions : st.completions ⊆ st'.completions

omit [DecidableEq D] in
theorem extends_refl (st : Node D) : st.Extends st :=
  ⟨fun _ h => h, fun _ h => h, fun _ h => h, fun _ h => h, fun _ h => h, fun _ h => h⟩

/-- Histories only grow. -/
theorem piece_extends (h : Piece p me x st₀ st st' out) : st.Extends st' := by
  have hsame := extends_refl st
  cases h with
  | edit _ _ _ h =>
    cases h with
    | accepted => exact { hsame with accepted := List.subset_cons_self .. }
    | commitSent => exact { hsame with committed := List.subset_cons_self .. }
    | executedByCommits => exact { hsame with executed := List.subset_cons_self .. }
    | executedByCertificate => exact { hsame with executed := List.subset_cons_self .. }
    | completed => exact { hsame with completions := List.subset_cons_self .. }
    | takenOver => exact { hsame with proposed := List.subset_cons_self .. }
    | _ => exact { hsame with }
  | proposes _ _ h =>
    obtain ⟨status, proposal, -, -, -, -, rfl⟩ := h.result
    exact { hsame with proposed := List.subset_cons_self .. }
  | enters _ _ h =>
    obtain ⟨view, vc, announced, -, -, -, -, -, rfl⟩ := h.result
    exact { hsame with reported := List.subset_cons_self .. }

/-! ## What correct servers signed -/

/-- A signed message is in the network, as it is or inside another. -/
def Known (sent : List (Msg D)) (part : Msg D) : Prop := ∃ m ∈ sent, part ∈ m.parts

omit [DecidableEq D] in
theorem mem_parts (m : Msg D) : m ∈ m.parts := by
  cases m <;> exact List.mem_cons_self ..

omit [DecidableEq D] in
theorem known_of_mem {m : Msg D} (h : m ∈ sent) : Known sent m := ⟨m, h, mem_parts m⟩

omit [DecidableEq D] in
theorem Known.mono {sent' : List (Msg D)} (h : Known sent part) (hsub : ∀ m ∈ sent, m ∈ sent') : Known sent' part := by
  obtain ⟨m, hm, hpart⟩ := h
  exact ⟨m, hsub m hm, hpart⟩

/-- A message a server signed is on its record. -/
def Recorded (p : Params D) (st : Node D) : Msg D → Prop
  | .proposal m => m ∈ st.proposed
  | .prepare m => ∃ proposal ∈ st.accepted, m.body = { view := proposal.view, digest := p.digest proposal }
  | .commit m => m.body ∈ st.committed
  | .viewChange m => m ∈ st.reported
  | _ => True

omit [DecidableEq D] in
theorem Recorded.mono (h : Recorded p st part) (hext : st.Extends st') : Recorded p st' part := by
  cases part with
  | proposal m => exact hext.proposed h
  | prepare m =>
    obtain ⟨proposal, hmem, hbody⟩ := h
    exact ⟨proposal, hext.accepted hmem, hbody⟩
  | commit m => exact hext.committed h
  | viewChange m => exact hext.reported h
  | _ => trivial

omit [DecidableEq D] in
/-- A light message has nothing in it that has to be on record. -/
theorem recorded_of_light {m : Msg D} (h : m.light = true) (hpart : part ∈ m.parts) (st : Node D) :
    Recorded p st part := by
  cases m with
  | newLeaderProof m =>
    obtain rfl | hpart := List.mem_cons.mp hpart
    · trivial
    · obtain ⟨nl, -, rfl⟩ := List.mem_map.mp hpart
      trivial
  | share m => exact List.mem_singleton.mp hpart ▸ trivial
  | newLeader m => exact List.mem_singleton.mp hpart ▸ trivial
  | newView m => exact List.mem_singleton.mp hpart ▸ trivial
  | _ => cases h

/-- What a server that takes part stores it took from the network. -/
structure Node.Held (p : Params D) (sent : List (Msg D)) (st : Node D) : Prop where
  proposal : ∀ m, st.proposal = some m →
    Known sent (.proposal m) ∧ m.machineId = p.config.leaderOfView st.view
  prepare : ∀ i m, st.prepare i = some m →
    Known sent (.prepare m) ∧ m.machineId = i ∧ i ∈ p.config.servers ∧ m.body.view = st.view
  commit : ∀ i m, st.commit i = some m → Known sent (.commit m) ∧ m.machineId = i
  viewChange : ∀ i m, st.viewChange i = some m →
    .viewChange m ∈ sent ∧ validated p (.viewChange m) = true ∧ m.body.tag.machineId = i ∧ m.body.tag.view = st.view

theorem Node.Held.mono {sent' : List (Msg D)} (h : st.Held p sent) (hsub : ∀ m ∈ sent, m ∈ sent') :
    st.Held p sent' where
  proposal m hm := ⟨(h.proposal m hm).1.mono hsub, (h.proposal m hm).2⟩
  prepare i m hm := ⟨(h.prepare i m hm).1.mono hsub, (h.prepare i m hm).2⟩
  commit i m hm := ⟨(h.commit i m hm).1.mono hsub, (h.commit i m hm).2⟩
  viewChange i m hm := ⟨hsub _ (h.viewChange i m hm).1, (h.viewChange i m hm).2⟩

theorem Node.Held.congr (h : st.Held p sent) (hview : st'.view = st.view) (hproposal : st'.proposal = st.proposal)
    (hprepare : st'.prepare = st.prepare) (hcommit : st'.commit = st.commit)
    (hviewChange : st'.viewChange = st.viewChange) : st'.Held p sent := by
  constructor
  · rw [hproposal, hview]
    exact h.proposal
  · rw [hprepare, hview]
    exact h.prepare
  · rw [hcommit]
    exact h.commit
  · rw [hviewChange, hview]
    exact h.viewChange

omit [DecidableEq D] in
/-- What an array holds after one more message is stored. -/
theorem update_some {α : Type} {stored : Nat → Option α} {j i : Nat} {mess m : α}
    (h : Function.update stored j (some mess) i = some m) : stored i = some m ∨ i = j ∧ m = mess := by
  by_cases hi : i = j
  · subst hi
    rw [Function.update_self, Option.some.injEq] at h
    exact .inr ⟨rfl, h.symm⟩
  · rw [Function.update_of_ne hi] at h
    exact .inl h

/-- A piece stores what the server handles, or a proposal of its own. -/
theorem held_piece (h : Piece p me x st₀ st st' out) (hst : st.Held p sent) (hx : ∀ m, x = .msg m → m ∈ sent)
    (hlive : st'.Live) : st'.Held p (out ++ sent) := by
  have hold : st.Held p (out ++ sent) := hst.mono fun m hm => List.mem_append_right _ hm
  have hnew : ∀ m, x = .msg m → m ∈ out ++ sent := fun m hm => List.mem_append_right _ (hx m hm)
  cases h with
  | edit _ tracked _ h =>
    have hview := (since_edit h tracked (since_refl x st) hlive).view
    cases h with
    | proposalStored hmess _ hleader =>
      refine { hold with proposal := fun m hm => ?_ }
      cases hm
      exact ⟨known_of_mem (hnew _ hmess), hleader⟩
    | prepareStored hmess hsender hv =>
      refine { hold with prepare := fun i m hm => ?_ }
      obtain hm | ⟨rfl, rfl⟩ := update_some hm
      · exact hold.prepare i m hm
      · exact ⟨known_of_mem (hnew _ hmess), rfl, hsender, hv⟩
    | commitStored hmess =>
      refine { hold with commit := fun i m hm => ?_ }
      obtain hm | ⟨rfl, rfl⟩ := update_some hm
      · exact hold.commit i m hm
      · exact ⟨known_of_mem (hnew _ hmess), rfl⟩
    | viewChangeStored hmess hvalid hv =>
      refine { hold with viewChange := fun i m hm => ?_ }
      obtain hm | ⟨rfl, rfl⟩ := update_some hm
      · exact hold.viewChange i m hm
      · exact ⟨hnew _ hmess, hvalid, rfl, hv⟩
    | takenOver hme =>
      refine { hold with proposal := fun m hm => ?_ }
      cases hm
      exact ⟨known_of_mem (List.mem_append_left _ (List.mem_singleton.mpr rfl)), hme⟩
    | executedByCertificate _ _ hme => exact absurd (status_of_member hme) hlive.resetting
    | crashed => exact nomatch hlive.running
    | _ => exact hold.congr hview rfl rfl rfl rfl
  | proposes _ _ h =>
    obtain ⟨status, proposal, -, hsigner, -, rfl, rfl⟩ := h.result
    refine { hold with proposal := fun m hm => ?_ }
    cases hm
    exact ⟨known_of_mem (List.mem_append_left _ (List.mem_singleton.mpr rfl)), hsigner.trans h.leader⟩
  | enters _ _ h =>
    obtain ⟨view, vc, announced, -, -, -, -, -, rfl⟩ := h.result
    constructor
    · exact fun _ hm => nomatch hm
    all_goals exact fun _ _ hm => nomatch hm

omit [DecidableEq D] in
/-- The commits in a certificate are stored. -/
theorem mem_of_constructCertificate {proposal : Signed ResetProposal} {cert : Signed (ResetCertificate D)}
    (h : constructCertificate p me st proposal = some cert) :
    cert.body.proposal = proposal ∧ ∀ m ∈ cert.body.commits, ∃ i, st.commit i = some m := by
  unfold constructCertificate at h
  dsimp only at h
  split at h
  · cases h
    refine ⟨rfl, fun m hm => ?_⟩
    obtain ⟨i, -, hi⟩ := List.mem_filterMap.mp (List.mem_of_mem_take hm)
    exact ⟨i, hi⟩
  · cases h

/-- What a server reports of the view it leaves. -/
theorem constructViewChange_spec {view : Nat} {vc : Signed (ViewChange D)}
    (h : constructViewChange p me { st with view, rbSeq := 1 } = some vc) :
    vc.machineId = me ∧ vc.body.tag = { machineId := me, view, seqNum := 1 } ∧
      ((st.sentCommit = false ∧ vc.body.certificate = none) ∨
        st.sentCommit = true ∧ ∃ proposal prepares, st.proposal = some proposal ∧
          vc.body.certificate = some (proposal, prepares) ∧ ∀ m ∈ prepares, ∃ i, st.prepare i = some m) := by
  unfold constructViewChange at h
  dsimp only at h
  split at h
  · rename_i hsent
    cases h
    exact ⟨rfl, rfl, .inl ⟨hsent, rfl⟩⟩
  rename_i hsent
  obtain ⟨proposal, hproposal, h⟩ := Option.bind_eq_some_iff.mp h
  split at h
  · cases h
    refine ⟨rfl, rfl, .inr ⟨Bool.eq_true_of_not_eq_false hsent, proposal, _, hproposal, rfl, fun m hm => ?_⟩⟩
    obtain ⟨i, -, hi⟩ := List.mem_filterMap.mp (List.mem_filter.mp (List.mem_of_mem_take hm)).1
    exact ⟨i, hi⟩
  · cases h

omit [DecidableEq D] in
/-- The parts of a proposal: the proposal and its shares. -/
theorem mem_ofProposal {m : Signed ResetProposal} (h : part ∈ Msg.ofProposal (D := D) m) :
    part = .proposal m ∨ ∀ st, Recorded p st part := by
  obtain rfl | h := List.mem_cons.mp h
  · exact .inl rfl
  · obtain ⟨share, -, rfl⟩ := List.mem_map.mp h
    exact .inr fun _ => trivial

/-- **What a server sends.** Every part of it is in the network already, or is of no
weight, or is the server's own and on its record. -/
theorem piece_sends (h : Piece p me x st₀ st st' out) (hst : st.Held p sent) (hx : ∀ m, x = .msg m → m ∈ sent)
    (hpart : Known out part) :
    Known sent part ∨ (∀ t, Recorded p t part) ∨ part.signer = me ∧ Recorded p st' part := by
  obtain ⟨m, hm, hpart⟩ := hpart
  -- a proposal the server makes
  have hown : ∀ mine : Signed ResetProposal, mine.machineId = me → mine ∈ st'.proposed →
      part ∈ Msg.ofProposal mine → (∀ t, Recorded p t part) ∨ part.signer = me ∧ Recorded p st' part := by
    intro mine hsigner hmem hp
    obtain rfl | hlight := mem_ofProposal (p := p) hp
    · exact .inr ⟨hsigner, hmem⟩
    · exact .inl hlight
  cases h with
  | edit live tracked since h =>
    cases h with
    | scratched _ hout => exact .inr (.inl (recorded_of_light (hout m hm) hpart))
    | accepted hproposal =>
      rw [List.mem_singleton.mp hm] at hpart
      rw [List.mem_singleton.mp hpart]
      refine .inr (.inr ⟨rfl, _, List.mem_cons_self .., ?_⟩)
      rw [tracked.proposal _ hproposal]
      rfl
    | commitSent =>
      rw [List.mem_singleton.mp hm] at hpart
      rw [List.mem_singleton.mp hpart]
      exact .inr (.inr ⟨rfl, List.mem_cons_self ..⟩)
    | executedByCommits hproposal _ hcert =>
      rw [List.mem_singleton.mp hm] at hpart
      obtain ⟨hsame, hcommits⟩ := mem_of_constructCertificate hcert
      obtain rfl | hpart := List.mem_cons.mp hpart
      · exact .inr (.inl fun _ => trivial)
      obtain hpart | hpart := List.mem_append.mp hpart
      · rw [hsame] at hpart
        obtain rfl | hlight := mem_ofProposal (p := p) hpart
        · exact .inl (hst.proposal _ hproposal).1
        · exact .inr (.inl hlight)
      · obtain ⟨commit, hcommit, rfl⟩ := List.mem_map.mp hpart
        obtain ⟨i, hi⟩ := hcommits commit hcommit
        exact .inl (hst.commit i commit hi).1
    | executedByCertificate hmess =>
      rw [List.mem_singleton.mp hm] at hpart
      obtain rfl | hpart := List.mem_cons.mp hpart
      · exact .inr (.inl fun _ => trivial)
      · exact .inl ⟨_, hx _ hmess, List.mem_cons_of_mem _ hpart⟩
    | takenOver =>
      rw [List.mem_singleton.mp hm] at hpart
      exact .inr (hown _ rfl (List.mem_cons_self ..) hpart)
    | _ => cases hm
  | proposes _ _ h =>
    obtain ⟨status, proposal, -, hsigner, -, rfl, rfl⟩ := h.result
    rw [List.mem_singleton.mp hm] at hpart
    exact .inr (hown _ hsigner (List.mem_cons_self ..) hpart)
  | enters _ _ h =>
    obtain ⟨view, vc, announced, -, -, hvc, hlight, rfl, rfl⟩ := h.result
    obtain hm | hm := List.mem_append.mp hm
    · exact .inr (.inl (recorded_of_light (hlight m hm) hpart))
    rw [List.mem_singleton.mp hm] at hpart
    obtain ⟨hsigner, -, hcert⟩ := constructViewChange_spec hvc
    obtain rfl | hpart := List.mem_cons.mp hpart
    · exact .inr (.inr ⟨hsigner, List.mem_cons_self ..⟩)
    obtain ⟨-, hnone⟩ | ⟨-, proposal, prepares, hproposal, hsome, hprepares⟩ := hcert
    · rw [hnone] at hpart
      cases hpart
    · rw [hsome] at hpart
      obtain hpart | hpart := List.mem_append.mp hpart
      · obtain rfl | hlight := mem_ofProposal (p := p) hpart
        · exact .inl (hst.proposal _ hproposal).1
        · exact .inr (.inl hlight)
      · obtain ⟨prepare, hprepare, rfl⟩ := List.mem_map.mp hpart
        obtain ⟨i, hi⟩ := hprepares prepare hprepare
        exact .inl (hst.prepare i prepare hi).1

/-! ## One proposal and one commit in a view -/

/-- What a server has accepted and committed to. -/
structure Node.Logged (p : Params D) (me : Nat) (sent : List (Msg D)) (st : Node D) : Prop where
  acceptedOnce : ∀ proposal ∈ st.accepted, ∀ proposal' ∈ st.accepted, proposal.view = proposal'.view →
    proposal = proposal'
  acceptedFrom : ∀ proposal ∈ st.accepted, me ≠ p.config.leaderOfView proposal.view ∧
    ∃ m, Known sent (.proposal m) ∧ m.machineId = p.config.leaderOfView proposal.view ∧ m.body = proposal
  committedOnce : ∀ vouch ∈ st.committed, ∀ vouch' ∈ st.committed, vouch.view = vouch'.view → vouch = vouch'

/-- What it has accepted and committed to in the view it is in. -/
structure Node.Current (st : Node D) : Prop where
  acceptedPast : ∀ proposal ∈ st.accepted, proposal.view ≤ st.view
  acceptedOpen : st.sentPrepare = false → ∀ proposal ∈ st.accepted, proposal.view ≠ st.view
  committedPast : ∀ vouch ∈ st.committed, vouch.view ≤ st.view
  committedOpen : st.sentCommit = false → ∀ vouch ∈ st.committed, vouch.view ≠ st.view

omit [DecidableEq D] in
theorem Node.Logged.mono {sent' : List (Msg D)} (h : st.Logged p me sent) (hsub : ∀ m ∈ sent, m ∈ sent') :
    st.Logged p me sent' where
  acceptedOnce := h.acceptedOnce
  acceptedFrom proposal hp := by
    obtain ⟨hme, m, hm, hleader, hbody⟩ := h.acceptedFrom proposal hp
    exact ⟨hme, m, hm.mono hsub, hleader, hbody⟩
  committedOnce := h.committedOnce

omit [DecidableEq D] in
theorem Node.Logged.congr (h : st.Logged p me sent) (haccepted : st'.accepted = st.accepted)
    (hcommitted : st'.committed = st.committed) : st'.Logged p me sent := by
  constructor
  · rw [haccepted]
    exact h.acceptedOnce
  · rw [haccepted]
    exact h.acceptedFrom
  · rw [hcommitted]
    exact h.committedOnce

omit [DecidableEq D] in
theorem Node.Current.congr (h : st.Current) (hview : st'.view = st.view) (haccepted : st'.accepted = st.accepted)
    (hcommitted : st'.committed = st.committed) (hprepare : st'.sentPrepare = st.sentPrepare)
    (hcommit : st'.sentCommit = st.sentCommit) : st'.Current := by
  constructor
  · rw [haccepted, hview]
    exact h.acceptedPast
  · rw [haccepted, hview, hprepare]
    exact h.acceptedOpen
  · rw [hcommitted, hview]
    exact h.committedPast
  · rw [hcommitted, hview, hcommit]
    exact h.committedOpen

omit [DecidableEq D] in
/-- A value that is new to its key leaves no two values of one key. -/
theorem once_cons {α β : Type} {key : α → β} {l : List α} {a : α}
    (h : ∀ b ∈ l, ∀ c ∈ l, key b = key c → b = c) (hnew : ∀ b ∈ l, key b ≠ key a) :
    ∀ b ∈ a :: l, ∀ c ∈ a :: l, key b = key c → b = c := by
  simp only [List.forall_mem_cons]
  refine ⟨⟨fun _ => trivial, fun c hc hkey => ?_⟩, fun b hb => ⟨fun hkey => ?_, fun c hc => h b hb c hc⟩⟩
  · exact absurd hkey.symm (hnew c hc)
  · exact absurd hkey (hnew b hb)

theorem logged_piece (h : Piece p me x st₀ st st' out) (hheld : st.Held p sent) (hst : st.Logged p me sent)
    (hcur : st.Current) : st'.Logged p me (out ++ sent) := by
  have hold : st.Logged p me (out ++ sent) := hst.mono fun m hm => List.mem_append_right _ hm
  cases h with
  | edit _ tracked _ h =>
    cases h with
    | accepted hproposal hme hfresh =>
      have hview := tracked.proposal _ hproposal
      refine { hold with acceptedOnce := ?_, acceptedFrom := fun proposal hp => ?_ }
      · refine once_cons hst.acceptedOnce fun proposal hp heq => ?_
        exact hcur.acceptedOpen hfresh proposal hp (heq.trans hview)
      · obtain rfl | hp := List.mem_cons.mp hp
        · obtain ⟨hknown, hleader⟩ := hheld.proposal _ hproposal
          rw [hview]
          exact ⟨hme, _, hknown.mono fun m hm => List.mem_append_right _ hm, hleader, rfl⟩
        · exact hold.acceptedFrom proposal hp
    | commitSent hstored hproposal hfresh =>
      exact { hold with committedOnce := once_cons hst.committedOnce (hcur.committedOpen hfresh) }
    | _ => exact hold.congr rfl rfl
  | proposes _ _ h =>
    obtain ⟨status, proposal, -, -, -, -, rfl⟩ := h.result
    exact hold.congr rfl rfl
  | enters _ _ h =>
    obtain ⟨view, vc, announced, -, -, -, -, -, rfl⟩ := h.result
    exact hold.congr rfl rfl

theorem current_piece (h : Piece p me x st₀ st st' out) (hcur : st.Current) (hlive : st'.Live) : st'.Current := by
  cases h with
  | edit _ tracked _ h =>
    have hview := (since_edit h tracked (since_refl x st) hlive).view
    cases h with
    | accepted hproposal =>
      refine { hcur with acceptedPast := fun proposal hp => ?_, acceptedOpen := fun h => (nomatch h) }
      obtain rfl | hp := List.mem_cons.mp hp
      · exact le_of_eq (tracked.proposal _ hproposal)
      · exact hcur.acceptedPast proposal hp
    | commitSent =>
      refine { hcur with committedPast := fun vouch hv => ?_, committedOpen := fun h => (nomatch h) }
      obtain rfl | hv := List.mem_cons.mp hv
      · exact le_refl _
      · exact hcur.committedPast vouch hv
    | executedByCertificate _ _ hme => exact absurd (status_of_member hme) hlive.resetting
    | crashed => exact nomatch hlive.running
    | _ => exact hcur.congr hview rfl rfl rfl rfl
  | proposes _ _ h =>
    obtain ⟨status, proposal, -, -, -, -, rfl⟩ := h.result
    exact hcur.congr rfl rfl rfl rfl rfl
  | enters _ _ h =>
    obtain ⟨view, vc, announced, -, hlt, -, -, -, rfl⟩ := h.result
    constructor
    · exact fun proposal hp => (hcur.acceptedPast proposal hp).trans (le_of_lt hlt)
    · exact fun _ proposal hp => ne_of_lt (lt_of_le_of_lt (hcur.acceptedPast proposal hp) hlt)
    · exact fun vouch hv => (hcur.committedPast vouch hv).trans (le_of_lt hlt)
    · exact fun _ vouch hv => ne_of_lt (lt_of_le_of_lt (hcur.committedPast vouch hv) hlt)

end Records

/-! ## Worlds -/

section Worlds

variable {d : Deployment} {p : Params D} {w w' : World (Node D) (Msg D)} {i : Nat} {x : Input (Msg D) Action}
  {st₀ st' : Node D} {out : List (Msg D)}

/-- What holds in every world of a run of the reset protocol. -/
structure Sound (d : Deployment) (p : Params D) (w : World (Node D) (Msg D)) : Prop where
  recorded : ∀ part, Known w.sent part → d.correct part.signer = true → Recorded p (w.node part.signer) part
  held : ∀ i, (w.node i).Live → (w.node i).Held p w.sent
  logged : ∀ i, (w.node i).Logged p i w.sent
  current : ∀ i, (w.node i).Live → (w.node i).Current

theorem sound_start (incarnations : Nat → Nat) : Sound d p (start incarnations) where
  recorded _ h := by
    obtain ⟨m, hm, -⟩ := h
    exact absurd hm List.not_mem_nil
  held _ _ := by
    constructor
    · exact fun _ hm => nomatch hm
    all_goals exact fun _ _ hm => nomatch hm
  logged _ := by
    constructor
    all_goals exact fun _ h => absurd h List.not_mem_nil
  current _ _ := by
    constructor
    · exact fun _ h => absurd h List.not_mem_nil
    · exact fun _ _ h => absurd h List.not_mem_nil
    · exact fun _ h => absurd h List.not_mem_nil
    · exact fun _ _ h => absurd h List.not_mem_nil

/-- More messages, of which correct servers signed nothing new. -/
theorem Sound.mono (h : Sound d p w) (hnode : w'.node = w.node) (hsub : ∀ m ∈ w.sent, m ∈ w'.sent)
    (hknown : ∀ part, Known w'.sent part → d.correct part.signer = true → Known w.sent part) : Sound d p w' where
  recorded part hpart hc := by
    rw [hnode]
    exact h.recorded part (hknown part hpart hc) hc
  held i hlive := by
    rw [hnode] at hlive ⊢
    exact (h.held i hlive).mono hsub
  logged i := by
    rw [hnode]
    exact (h.logged i).mono hsub
  current i hlive := by
    rw [hnode] at hlive ⊢
    exact h.current i hlive

/-- What correct servers signed of an injected message is in the network already. -/
theorem known_of_forged {m part : Msg D} (hf : (env d).forge w.sent m = true) (hpart : part ∈ m.parts)
    (hc : d.correct part.signer = true) : Known w.sent part := by
  obtain ⟨-, hall⟩ := Bool.and_eq_true_iff.mp hf
  have hp := List.all_eq_true.mp hall part hpart
  rw [hc] at hp
  obtain ⟨m', hm', hmem⟩ := List.any_eq_true.mp hp
  exact ⟨m', hm', of_decide_eq_true hmem⟩

theorem sound_inject {m : Msg D} (h : Sound d p w) (hf : (env d).forge w.sent m = true) :
    Sound d p { w with sent := m :: w.sent } := by
  refine h.mono rfl (fun m' hm' => List.mem_cons_of_mem _ hm') fun part hpart hc => ?_
  obtain ⟨m', hm', hmem⟩ := hpart
  obtain rfl | hm' := List.mem_cons.mp hm'
  · exact known_of_forged hf hmem hc
  · exact ⟨m', hm', hmem⟩

/-- The record of every server after a piece of a step. -/
theorem extends_move (hp : Piece p i x st₀ (w.node i) st' out) (j : Nat) :
    (w.node j).Extends ((w.move i (st', out)).node j) := by
  by_cases hj : j = i
  · subst hj
    rw [World.move_node_self]
    exact piece_extends hp
  · rw [World.move_node_of_ne w _ hj]
    exact extends_refl _

theorem piece_live (hp : Piece p i x st₀ (w.node i) st' out) : (w.node i).Live := by
  generalize w.node i = st at hp
  cases hp with
  | edit live => exact live
  | proposes live => exact live
  | enters live => exact live

theorem sound_piece (h : Sound d p w) (hx : ∀ m, x = .msg m → m ∈ w.sent)
    (hp : Piece p i x st₀ (w.node i) st' out) : Sound d p (w.move i (st', out)) := by
  have hlive := piece_live hp
  have hheld := h.held i hlive
  refine ⟨fun part hpart hc => ?_, ?_, ?_, ?_⟩
  · have hold : Known w.sent part → Recorded p ((w.move i (st', out)).node part.signer) part :=
      fun hk => (h.recorded part hk hc).mono (extends_move hp _)
    obtain ⟨m, hm, hmem⟩ := hpart
    rw [World.move_sent] at hm
    obtain hm | hm := List.mem_append.mp hm
    · obtain hk | hlight | ⟨hsigner, hrec⟩ := piece_sends hp hheld hx ⟨m, hm, hmem⟩
      · exact hold hk
      · exact hlight _
      · rw [hsigner, World.move_node_self]
        exact hrec
    · exact hold ⟨m, hm, hmem⟩
  · refine World.move_node_inv (I := fun _ (st : Node D) => st.Live → st.Held p (out ++ w.sent)) (fun j hj => ?_) ?_
    · exact (h.held j hj).mono fun m hm => List.mem_append_right _ hm
    · exact held_piece hp hheld hx
  · refine World.move_node_inv (I := fun j (st : Node D) => st.Logged p j (out ++ w.sent)) (fun j => ?_) ?_
    · exact (h.logged j).mono fun m hm => List.mem_append_right _ hm
    · exact logged_piece hp hheld (h.logged i) (h.current i hlive)
  · refine World.move_node_inv (I := fun _ (st : Node D) => st.Live → st.Current) h.current ?_
    exact current_piece hp (h.current i hlive)

end Worlds

end Spire.Reset
