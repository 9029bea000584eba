import Spire.SystemResetCertificates

/-!
# Agreement of a reset

`PR_Start_View_Change` forgets that a server has committed: after a second view change the
server reports no certificate, and a new leader proposes other shares than those a server
has executed (`certificate_forgotten`).

`reset_agree` is what is left: in a run in which a server that has ever committed leaves no
view without a commit of its own, a leader that has committed proposes no more, new views
list as many servers as are needed, view-change messages bear the tag of their signer, and
certificates name no server twice, all executed proposals have the same shares, and so do
the proposals accepted and the certificates carried over in later views.
-/

namespace Spire.Reset

open Spire.Lib Spire.Replay

variable {D : Type} [DecidableEq D]

/-- What a step must not do for a reset to be safe. -/
structure StepsSafely (p : Params D) (me : Nat) (st : Node D) (x : Input (Msg D) Action) : Prop where
  keeps : ∀ view, leavesFor p me st x = some view → st.committed ≠ [] → st.sentCommit = true
  proposes : x = .act .postSharesDelay → me = p.config.leaderOfView st.view → st.sentCommit = false
  listed : ∀ m, x = .msg (.newView m) → m.body.tag.view = st.view → p.config.quorum ≤ m.body.list.numBitsSet p.config
  tagged : ∀ m, x = .msg (.viewChange m) → m.body.tag.view = st.view → m.body.tag.machineId = m.machineId ∧
    ∀ proposal prepares, m.body.certificate = some (proposal, prepares) → (prepares.map Signed.machineId).Nodup
  commits : ∀ m, x = .msg (.certificate m) → (m.body.commits.map Signed.machineId).Nodup

/-! ## What servers know -/

section Nodes

variable {p : Params D} {me : Nat} {x : Input (Msg D) Action} {st₀ st st' : Node D} {sent sent' out : List (Msg D)}
  {vouch : ResetVouch D}

/-- Enough servers have committed. -/
def Chosen (p : Params D) (sent : List (Msg D)) (vouch : ResetVouch D) : Prop :=
  ∃ S ⊆ p.config.servers, p.config.quorum ≤ S.card ∧
    ∀ s ∈ S, ∃ m, Known sent (.commit m) ∧ m.machineId = s ∧ m.body = vouch

/-- A view-change message that tells what its signer has prepared. -/
structure Trusted (p : Params D) (sent : List (Msg D)) (view i : Nat) (m : Signed (ViewChange D)) : Prop where
  sent : Msg.viewChange m ∈ sent
  valid : validated p (.viewChange m) = true
  signer : m.machineId = i
  view : m.body.tag.view = view
  nodup : ∀ proposal prepares, m.body.certificate = some (proposal, prepares) → (prepares.map Signed.machineId).Nodup

/-- What is carried over to a view is the highest that enough servers reported. -/
def Justified (p : Params D) (sent : List (Msg D)) (view : Nat) (carried : Option (Signed ResetProposal)) : Prop :=
  ∃ L ⊆ p.config.servers, p.config.quorum ≤ L.card ∧ ∃ viewChange : Nat → Option (Signed (ViewChange D)),
    (∀ l ∈ L, ∃ m, viewChange l = some m ∧ Trusted p sent view l m) ∧
    Highest {proposal | ∃ l ∈ L, reportedBy viewChange l = some proposal} carried

omit [DecidableEq D] in
theorem Chosen.mono (h : Chosen p sent vouch) (hsub : ∀ m ∈ sent, m ∈ sent') : Chosen p sent' vouch := by
  obtain ⟨S, hS, hcard, hall⟩ := h
  refine ⟨S, hS, hcard, fun s hs => ?_⟩
  obtain ⟨m, hm, hrest⟩ := hall s hs
  exact ⟨m, hm.mono hsub, hrest⟩

theorem Trusted.mono {view i : Nat} {m : Signed (ViewChange D)} (h : Trusted p sent view i m)
    (hsub : ∀ m ∈ sent, m ∈ sent') : Trusted p sent' view i m :=
  { h with sent := hsub _ h.sent }

theorem Justified.mono {view : Nat} {carried : Option (Signed ResetProposal)} (h : Justified p sent view carried)
    (hsub : ∀ m ∈ sent, m ∈ sent') : Justified p sent' view carried := by
  obtain ⟨L, hL, hcard, viewChange, hall, hhigh⟩ := h
  refine ⟨L, hL, hcard, viewChange, fun l hl => ?_, hhigh⟩
  obtain ⟨m, hm, htrusted⟩ := hall l hl
  exact ⟨m, hm, htrusted.mono hsub⟩

/-- What a server knows while it takes part. -/
structure Node.Follows (p : Params D) (st : Node D) : Prop where
  started : 1 ≤ st.view
  signer : ∀ i m, st.viewChange i = some m → m.machineId = i ∧
    ∀ proposal prepares, m.body.certificate = some (proposal, prepares) → (prepares.map Signed.machineId).Nodup
  quorum : ∀ newView, st.newView = some newView → p.config.quorum ≤ newView.body.list.numBitsSet p.config
  collected : st.collected = true → ∃ newView, st.newView = some newView ∧
    (∀ i ∈ listed p newView.body.list, (st.viewChange i).isSome = true) ∧
    Highest {proposal | ∃ i ∈ listed p newView.body.list, reportedBy st.viewChange i = some proposal} st.carryOver
  sentCommit : st.sentCommit = true → ∃ proposal, st.proposal = some proposal ∧
    { view := st.view, digest := p.digest proposal.body } ∈ st.committed
  reported : ∀ m ∈ st.reported, m.body.tag.view ≤ st.view

/-- What is true of the record of a server, from then on. -/
structure Node.Kept (p : Params D) (sent : List (Msg D)) (st : Node D) : Prop where
  prepared : ∀ vouch ∈ st.committed, Prepared p (fun _ => True) sent vouch
  someone : ∀ vouch ∈ st.committed, ∃ m, Known sent (.prepare m) ∧ m.machineId ∈ p.config.servers
  started : ∀ vouch ∈ st.committed, 1 ≤ vouch.view
  covers : ∀ m ∈ st.reported, ∀ vouch ∈ st.committed, vouch.view < m.body.tag.view →
    ∃ proposal prepares, m.body.certificate = some (proposal, prepares) ∧ vouch.view ≤ proposal.body.view ∧
      { view := proposal.body.view, digest := p.digest proposal.body } ∈ st.committed
  accepted : ∀ proposal ∈ st.accepted, 1 < proposal.view → ∃ carried, (proposal.view, carried) ∈ st.completions ∧
    ∀ rp, carried = some rp → rp.body.shares = proposal.shares
  completed : ∀ done ∈ st.completions, Justified p sent done.1 done.2
  executed : ∀ proposal ∈ st.executed, Chosen p sent { view := proposal.view, digest := p.digest proposal }

theorem Node.Kept.mono (h : st.Kept p sent) (hsub : ∀ m ∈ sent, m ∈ sent') : st.Kept p sent' where
  prepared vouch hv := (h.prepared vouch hv).mono hsub
  someone vouch hv := by
    obtain ⟨m, hm, hserver⟩ := h.someone vouch hv
    exact ⟨m, hm.mono hsub, hserver⟩
  started := h.started
  covers := h.covers
  accepted := h.accepted
  completed done hd := (h.completed done hd).mono hsub
  executed proposal hp := (h.executed proposal hp).mono hsub

omit [DecidableEq D] in
theorem mem_listed {list : Bitmap} {i : Nat} : i ∈ listed p list ↔ i ∈ list.named p.config := by
  unfold listed Bitmap.named
  rw [List.mem_filter, List.mem_range'_1, mem_accepted]
  constructor
  · exact fun h => ⟨⟨h.1.1, by omega⟩, h.2⟩
  · exact fun h => ⟨⟨h.1.1, by omega⟩, h.2⟩

omit [DecidableEq D] in
theorem Node.Follows.congr (h : st.Follows p) (hview : st'.view = st.view) (hviewChange : st'.viewChange = st.viewChange)
    (hnewView : st'.newView = st.newView) (hcollected : st'.collected = st.collected)
    (hcarryOver : st'.carryOver = st.carryOver) (hsentCommit : st'.sentCommit = st.sentCommit)
    (hproposal : st'.proposal = st.proposal) (hcommitted : st'.committed = st.committed)
    (hreported : st'.reported = st.reported) : st'.Follows p := by
  constructor
  · rw [hview]
    exact h.started
  · rw [hviewChange]
    exact h.signer
  · rw [hnewView]
    exact h.quorum
  · rw [hcollected, hnewView, hviewChange, hcarryOver]
    exact h.collected
  · rw [hsentCommit, hproposal, hview, hcommitted]
    exact h.sentCommit
  · rw [hreported, hview]
    exact h.reported

theorem follows_piece (h : Piece p me x st₀ st st' out) (hok : StepsSafely p me st₀ x) (hst : st.Follows p)
    (hlive : st'.Live) : st'.Follows p := by
  -- a server that has committed has its proposal
  have hfresh : st.proposal = none → st.sentCommit = false := by
    intro hnone
    by_contra hsent
    obtain ⟨proposal, hproposal, -⟩ := hst.sentCommit (Bool.eq_true_of_not_eq_false hsent)
    rw [hnone] at hproposal
    cases hproposal
  cases h with
  | edit _ tracked since h =>
    have hview := (since_edit h tracked (since_refl x st) hlive).view
    cases h with
    | proposalStored _ hnone =>
      exact { hst with sentCommit := fun hsent => by cases (hfresh hnone).symm.trans hsent }
    | takenOver _ hnone =>
      exact { hst with sentCommit := fun hsent => by cases (hfresh hnone).symm.trans hsent }
    | @commitSent proposal _ hproposal =>
      exact { hst with sentCommit := fun _ => ⟨proposal, hproposal, List.mem_cons_self ..⟩ }
    | @viewChangeStored mess hx _ hv hnew =>
      have htagged := hok.tagged mess hx (hv.trans since.view)
      refine { hst with signer := fun i m hm => ?_, collected := fun hc => ?_ }
      · obtain hm | ⟨rfl, rfl⟩ := update_some hm
        · exact hst.signer i m hm
        · exact ⟨htagged.1.symm, htagged.2⟩
      · obtain ⟨newView, hn, hall, hhigh⟩ := hst.collected hc
        -- the listed reports were there before
        have hkeep : ∀ i ∈ listed p newView.body.list,
            Function.update st.viewChange mess.body.tag.machineId (some mess) i = st.viewChange i := by
          intro i hi
          refine Function.update_of_ne ?_ _ _
          rintro rfl
          have hsome := hall _ hi
          rw [hnew] at hsome
          cases hsome
        refine ⟨newView, hn, fun i hi => ?_, highest_congr (fun rp => ?_) hhigh⟩
        · dsimp only
          rw [hkeep i hi]
          exact hall i hi
        · refine exists_congr fun i => and_congr_right fun hi => ?_
          dsimp only
          rw [reportedBy, reportedBy, hkeep i hi]
    | newViewStored hx hv hnone =>
      refine { hst with quorum := fun newView hn => ?_, collected := fun hc => ?_ }
      · cases hn
        exact hok.listed _ hx (hv.trans since.view)
      · obtain ⟨newView, hn, -⟩ := hst.collected hc
        rw [hnone] at hn
        cases hn
    | @completed newView carried _ hn hcarried =>
      refine { hst with collected := fun _ => ⟨newView, hn, ?_⟩ }
      cases hc : st.collected with
      | false =>
        have hempty : Highest ∅ st.carryOver := by
          rw [(tracked.fresh hc).1]
          exact fun _ hrp => hrp
        obtain ⟨hhigh, hall⟩ := carryOver_highest hempty hcarried
        exact ⟨hall, highest_congr (fun rp => by simp) hhigh⟩
      | true =>
        obtain ⟨newView', hn', hall, hhigh⟩ := hst.collected hc
        cases hn.symm.trans hn'
        obtain ⟨hhigh', -⟩ := carryOver_highest hhigh hcarried
        exact ⟨hall, highest_congr (fun rp => by simp) hhigh'⟩
    | executedByCertificate _ _ hme => exact absurd (status_of_member hme) hlive.resetting
    | crashed => cases hlive.running
    | _ => exact hst.congr hview rfl rfl rfl rfl rfl rfl rfl rfl
  | proposes _ _ h =>
    have hsent := hok.proposes h.action h.leader
    obtain ⟨status, proposal, -, -, -, -, rfl⟩ := h.result
    exact { hst with sentCommit := fun hs => by cases hsent.symm.trans hs }
  | enters _ _ h =>
    obtain ⟨view, vc, announced, -, hlt, hvc, -, -, rfl⟩ := h.result
    refine ⟨hst.started.trans (le_of_lt hlt), fun _ _ hm => (by cases hm), fun _ hn => (by cases hn),
      fun hc => (by cases hc), fun hs => (by cases hs), fun m hm => ?_⟩
    obtain rfl | hm := List.mem_cons.mp hm
    · rw [(constructViewChange_spec hvc).2.1]
    · exact (hst.reported m hm).trans (le_of_lt hlt)

/-- The commits a server counts when it executes a proposal. -/
theorem chosen_of_tally {proposal : ResetProposal} (hst : st.Held p sent)
    (h : p.config.quorum ≤ tally p.config.numServers (vouching p st.commit proposal)) :
    Chosen p sent { view := proposal.view, digest := p.digest proposal } := by
  refine ⟨Lib.accepted p.config.numServers (vouching p st.commit proposal), accepted_subset _ _,
    by rw [card_accepted]; exact h, fun s hs => ?_⟩
  have hvouch := (mem_accepted.mp hs).2
  unfold vouching at hvouch
  cases hm : st.commit s with
  | none =>
    rw [hm] at hvouch
    cases hvouch
  | some m =>
    rw [hm] at hvouch
    obtain ⟨hview, hdigest⟩ := of_decide_eq_true hvouch
    obtain ⟨hknown, hsigner⟩ := hst.commit s m hm
    refine ⟨m, hknown, hsigner, ?_⟩
    rw [← hview, ← hdigest]

/-- The commits in a certificate, when they are of different servers. -/
theorem chosen_of_certificate {m : Signed (ResetCertificate D)} (hm : Msg.certificate m ∈ sent)
    (hvalid : validated p (.certificate m) = true) (hnodup : (m.body.commits.map Signed.machineId).Nodup) :
    Chosen p sent { view := m.body.proposal.body.view, digest := p.digest m.body.proposal.body } := by
  obtain ⟨hlength, hall⟩ := Bool.and_eq_true_iff.mp (Bool.and_eq_true_iff.mp hvalid).2
  have hlength := of_decide_eq_true hlength
  refine ⟨(m.body.commits.map Signed.machineId).toFinset, fun s hs => ?_, ?_, fun s hs => ?_⟩
  · obtain ⟨commit, hcommit, rfl⟩ := List.mem_map.mp (List.mem_toFinset.mp hs)
    exact of_decide_eq_true (Bool.and_eq_true_iff.mp (List.all_eq_true.mp hall commit hcommit)).1
  · rw [List.toFinset_card_of_nodup hnodup, List.length_map, hlength]
  · obtain ⟨commit, hcommit, rfl⟩ := List.mem_map.mp (List.mem_toFinset.mp hs)
    have hbody := of_decide_eq_true (Bool.and_eq_true_iff.mp (List.all_eq_true.mp hall commit hcommit)).2
    refine ⟨commit, ⟨_, hm, ?_⟩, rfl, ?_⟩
    · exact List.mem_cons_of_mem _ (List.mem_append_right _ (List.mem_map.mpr ⟨commit, hcommit, rfl⟩))
    · rw [← hbody.1, ← hbody.2]

/-- A server that has collected a view change carries over what enough servers reported. -/
theorem justified_of_follows (hheld : st.Held p sent) (hst : st.Follows p) (hcollected : st.collected = true) :
    Justified p sent st.view st.carryOver := by
  obtain ⟨newView, hn, hall, hhigh⟩ := hst.collected hcollected
  refine ⟨newView.body.list.named p.config, Bitmap.named_subset _ _, ?_, st.viewChange, fun l hl => ?_, ?_⟩
  · rw [Bitmap.card_named]
    exact hst.quorum newView hn
  · obtain ⟨m, hm⟩ := Option.isSome_iff_exists.mp (hall l (mem_listed.mpr hl))
    obtain ⟨hsent, hvalid, -, hview⟩ := hheld.viewChange l m hm
    obtain ⟨hsigner, hnodup⟩ := hst.signer l m hm
    exact ⟨m, hm, { sent := hsent, valid := hvalid, signer := hsigner, view := hview, nodup := hnodup }⟩
  · exact highest_congr (fun rp => exists_congr fun l => and_congr_left fun _ => mem_listed) hhigh

/-- Only a completed view change adds to what has been carried over. -/
theorem completions_piece (h : Piece p me x st₀ st st' out) (hok : StepsSafely p me st₀ x) (hheld : st.Held p sent)
    (hfollows : st.Follows p) (hx : ∀ m, x = .msg m → m ∈ sent) : st'.completions = st.completions ∨
      ∃ carried, st'.completions = (st.view, carried) :: st.completions ∧ Justified p sent st.view carried := by
  have hpiece := h
  cases h with
  | edit live tracked _ h =>
    cases h with
    | completed =>
      have hjustified := justified_of_follows (held_piece hpiece hheld hx live) (follows_piece hpiece hok hfollows live) rfl
      exact .inr ⟨_, rfl, hjustified⟩
    | _ => exact .inl rfl
  | proposes _ _ h =>
    obtain ⟨status, proposal, -, -, -, -, rfl⟩ := h.result
    exact .inl rfl
  | enters _ _ h =>
    obtain ⟨view, vc, announced, -, -, -, -, -, rfl⟩ := h.result
    exact .inl rfl

theorem Node.Kept.congr (h : st.Kept p sent) (hcommitted : st'.committed = st.committed)
    (hreported : st'.reported = st.reported) (haccepted : st'.accepted = st.accepted)
    (hcompletions : st'.completions = st.completions) (hexecuted : st'.executed = st.executed) : st'.Kept p sent := by
  constructor
  · rw [hcommitted]
    exact h.prepared
  · rw [hcommitted]
    exact h.someone
  · rw [hcommitted]
    exact h.started
  · rw [hreported, hcommitted]
    exact h.covers
  · rw [haccepted, hcompletions]
    exact h.accepted
  · rw [hcompletions]
    exact h.completed
  · rw [hexecuted]
    exact h.executed

theorem kept_piece (h : Piece p me x st₀ st st' out) (hok : StepsSafely p me st₀ x) (hheld : st.Held p sent)
    (hcur : st.Current) (hfollows : st.Follows p) (hst : st.Kept p sent) (hx : ∀ m, x = .msg m → m ∈ sent) :
    st'.Kept p (out ++ sent) := by
  have hsub : ∀ m ∈ sent, m ∈ out ++ sent := fun m hm => List.mem_append_right _ hm
  have hold : st.Kept p (out ++ sent) := hst.mono hsub
  have hcompletions := completions_piece h hok hheld hfollows hx
  cases h with
  | edit live tracked since h =>
    cases h with
    | @accepted proposal hproposal _ _ hcollected hcarry =>
      refine { hold with accepted := fun proposal' hp hlt => ?_ }
      obtain rfl | hp := List.mem_cons.mp hp
      · have hview := tracked.proposal _ hproposal
        rw [hview] at hlt ⊢
        exact ⟨st.carryOver, tracked.finished (hcollected hlt), hcarry⟩
      · exact hold.accepted proposal' hp hlt
    | @commitSent proposal hstored hproposal _ hquorum =>
      have hview := tracked.proposal _ hproposal
      have hprepared := prepared_of_tally hheld (fun _ _ _ => (trivial : (fun _ => True) _)) hquorum
      rw [hview] at hprepared
      constructor
      · intro vouch hv
        obtain rfl | hv := List.mem_cons.mp hv
        · exact hprepared.mono hsub
        · exact hold.prepared vouch hv
      · intro vouch hv
        obtain rfl | hv := List.mem_cons.mp hv
        · obtain ⟨i, m, hm⟩ := hstored
          obtain ⟨hknown, hsigner, hserver, -⟩ := hheld.prepare i m hm
          exact ⟨m, hknown.mono hsub, by rw [hsigner]; exact hserver⟩
        · exact hold.someone vouch hv
      · intro vouch hv
        obtain rfl | hv := List.mem_cons.mp hv
        · exact hfollows.started
        · exact hold.started vouch hv
      · intro m hm vouch hv hlt
        obtain rfl | hv := List.mem_cons.mp hv
        -- every report is of the view the server is in, or an earlier one
        · exact absurd hlt (not_lt_of_ge (hfollows.reported m hm))
        · obtain ⟨rp, prepares, hcert, hle, hmem⟩ := hold.covers m hm vouch hv hlt
          exact ⟨rp, prepares, hcert, hle, List.mem_cons_of_mem _ hmem⟩
      · exact hold.accepted
      · exact hold.completed
      · exact hold.executed
    | completed =>
      refine { hold with accepted := fun proposal hp hlt => ?_, completed := fun c hc => ?_ }
      · obtain ⟨carried, hmem, hshares⟩ := hold.accepted proposal hp hlt
        exact ⟨carried, List.mem_cons_of_mem _ hmem, hshares⟩
      · obtain hsame | ⟨carried, hmore, hjustified⟩ := hcompletions
        · exact hold.completed c (hsame ▸ hc)
        · obtain rfl | hc := List.mem_cons.mp (hmore ▸ hc)
          · exact hjustified.mono hsub
          · exact hold.completed c hc
    | executedByCommits hproposal hquorum =>
      have hchosen := (chosen_of_tally hheld hquorum).mono hsub
      exact { hold with executed := List.forall_mem_cons.mpr ⟨hchosen, hold.executed⟩ }
    | executedByCertificate hmess hvalid =>
      have hchosen := (chosen_of_certificate (hx _ hmess) hvalid (hok.commits _ hmess)).mono hsub
      exact { hold with executed := List.forall_mem_cons.mpr ⟨hchosen, hold.executed⟩ }
    | _ => exact hold.congr rfl rfl rfl rfl rfl
  | proposes _ _ h =>
    obtain ⟨status, proposal, -, -, -, -, rfl⟩ := h.result
    exact hold.congr rfl rfl rfl rfl rfl
  | enters _ tracked h =>
    obtain ⟨view, vc, announced, hleaves, -, hvc, -, -, rfl⟩ := h.result
    refine { hold with covers := fun m hm vouch hv hlt => ?_ }
    obtain rfl | hm := List.mem_cons.mp hm
    · have hsent := hok.keeps view hleaves (List.ne_nil_of_mem hv)
      obtain ⟨-, -, ⟨hnot, -⟩ | ⟨-, proposal, prepares, hproposal, hcert, -⟩⟩ := constructViewChange_spec hvc
      · exact nomatch hsent.symm.trans hnot
      obtain ⟨proposal', hproposal', hmem⟩ := hfollows.sentCommit hsent
      cases hproposal.symm.trans hproposal'
      refine ⟨proposal, prepares, hcert, ?_⟩
      rw [tracked.proposal _ hproposal]
      exact ⟨hcur.committedPast vouch hv, hmem⟩
    · exact hold.covers m hm vouch hv hlt

end Nodes

/-! ## Agreement -/

section Agreement

variable {d : Deployment} {p : Params D} {w w' wf : World (Node D) (Msg D)} {proposal proposal' : ResetProposal}

/-- What holds in every world of a run whose steps are safe. -/
structure Safe (d : Deployment) (p : Params D) (w : World (Node D) (Msg D)) : Prop where
  sound : Sound d p w
  follows : ∀ i, (w.node i).Live → (w.node i).Follows p
  kept : ∀ i, (w.node i).Kept p w.sent

theorem safe_start (incarnations : Nat → Nat) : Safe d p (start incarnations) := by
  refine ⟨sound_start incarnations, fun i _ => ?_, fun i => ?_⟩
  · refine ⟨le_refl 1, fun _ _ hm => (nomatch hm), fun _ hn => (nomatch hn), fun hc => (nomatch hc),
      fun hs => (nomatch hs), fun _ hm => absurd hm List.not_mem_nil⟩
  · constructor
    all_goals exact fun _ h => absurd h List.not_mem_nil

/-- More messages, of which correct servers signed nothing new. -/
theorem Safe.mono (h : Safe d p w) (hs : Sound d p w') (hnode : w'.node = w.node) (hsub : ∀ m ∈ w.sent, m ∈ w'.sent) :
    Safe d p w' := by
  refine ⟨hs, ?_, ?_⟩
  · rw [hnode]
    exact h.follows
  · rw [hnode]
    exact fun i => (h.kept i).mono hsub

theorem safe_piece (h : Safe d p w) {i : Nat} {x : Input (Msg D) Action} {st₀ st' : Node D} {out : List (Msg D)}
    (hok : StepsSafely p i st₀ x) (hx : ∀ m, x = .msg m → m ∈ w.sent)
    (hpiece : Piece p i x st₀ (w.node i) st' out) : Safe d p (w.move i (st', out)) := by
  have hlive := piece_live hpiece
  refine ⟨sound_piece h.sound hx hpiece, ?_, ?_⟩
  · exact World.move_node_inv (I := fun _ (st : Node D) => st.Live → st.Follows p) h.follows
      (follows_piece hpiece hok (h.follows i hlive))
  · refine World.move_node_inv (I := fun _ (st : Node D) => st.Kept p (out ++ w.sent)) (fun j => ?_) ?_
    · exact (h.kept j).mono fun m hm => List.mem_append_right _ hm
    · exact kept_piece hpiece hok (h.sound.held i hlive) (h.sound.current i hlive) (h.follows i hlive) (h.kept i) hx

/-- Where a server has committed, some fault is tolerated: a lone server is the leader and
accepts nothing. -/
theorem Safe.pos (hp : p.config = d.toConfig) (h : Safe d p w) {i : Nat} {vouch : ResetVouch D}
    (hv : vouch ∈ (w.node i).committed) : 0 < d.F + d.K := by
  by_contra hzero
  have hbyz : d.byz = ∅ := Finset.card_eq_zero.mp (by have := d.byz_card; omega)
  obtain ⟨m, hm, hserver⟩ := (h.kept i).someone vouch hv
  rw [hp] at hserver
  have hc : d.correct m.machineId = true := d.correct_iff.mpr ⟨hserver, by rw [hbyz]; exact Finset.notMem_empty _⟩
  obtain ⟨proposal, hmem, -⟩ := accepted_of_prepare h.sound hm hc
  have hne := ((h.sound.logged m.machineId).acceptedFrom proposal hmem).1
  rw [hp] at hne
  exact hzero (pos_of_other hserver hne)

/-- What enough servers committed to, a correct server committed to. -/
theorem Chosen.exists_committed (hp : p.config = d.toConfig) (h : Sound d p w) {vouch : ResetVouch D}
    (hchosen : Chosen p w.sent vouch) : ∃ s, d.correct s = true ∧ vouch ∈ (w.node s).committed := by
  obtain ⟨S, hS, hcard, hall⟩ := hchosen
  rw [hp] at hS hcard
  obtain ⟨s, hs, hc⟩ := exists_correct_of_lt hS (by unfold Config.quorum at hcard; omega)
  obtain ⟨m, hm, rfl, rfl⟩ := hall s hs
  exact ⟨m.machineId, hc, h.recorded _ hm hc⟩

/-- A correct server has accepted what is prepared, and carried its shares over to the
view when that is not the first. -/
theorem Safe.exists_completion (hp : p.config = d.toConfig) (hdigest : Function.Injective p.digest) (h : Safe d p w)
    (hpos : 0 < d.F + d.K) {ok : Signed (ResetVouch D) → Prop} (hlt : 1 < proposal.view)
    (hprepared : Prepared p ok w.sent { view := proposal.view, digest := p.digest proposal }) :
    ∃ s, d.correct s = true ∧ ∃ carried, (proposal.view, carried) ∈ (w.node s).completions ∧
      ∀ rp, carried = some rp → rp.body.shares = proposal.shares := by
  obtain ⟨s, hc, proposal', hmem, hvouch⟩ := exists_accepted hp h.sound hpos hprepared
  cases hdigest (congrArg ResetVouch.digest hvouch)
  obtain ⟨carried, hdone, hshares⟩ := (h.kept s).accepted proposal hmem hlt
  exact ⟨s, hc, carried, hdone, hshares⟩

/-- Later views start from the shares of a proposal. -/
def CarriesOver (d : Deployment) (proposal : ResetProposal) (w : World (Node D) (Msg D)) : Prop :=
  ∀ j, d.correct j = true → ∀ c ∈ (w.node j).completions, proposal.view < c.1 →
    ∃ rp, c.2 = some rp ∧ rp.body.shares = proposal.shares

/-- **The new view.** What is carried over to a later view has the shares of a proposal
that enough servers have committed to by the end of the run: one of them is among those
whose reports count. -/
theorem Safe.justified (hp : p.config = d.toConfig) (hdigest : Function.Injective p.digest) (h : Safe d p w)
    (hf : Safe d p wf) (hsub : ∀ m ∈ w.sent, m ∈ wf.sent)
    (hchosen : Chosen p wf.sent { view := proposal.view, digest := p.digest proposal })
    (hcarries : CarriesOver d proposal w) {view : Nat} (hlt : proposal.view < view)
    {carried : Option (Signed ResetProposal)} (hjust : Justified p w.sent view carried) :
    ∃ rp, carried = some rp ∧ rp.body.shares = proposal.shares := by
  obtain ⟨L, hL, hcardL, viewChange, htrusted, hhigh⟩ := hjust
  obtain ⟨S, hS, hcardS, hcommits⟩ := hchosen
  rw [hp] at hL hcardL hS hcardS
  obtain ⟨k, hkL, hkS, hk⟩ := d.committee.exists_correct_inter hL hS hcardL hcardS
  have hc : d.correct k = true := d.correct_iff.mpr ⟨hL hkL, hk⟩
  -- the commit of the server in common, and its report, which covers the commit
  obtain ⟨commit, hcommit, rfl, hbody⟩ := hcommits k hkS
  have hvouch : commit.body ∈ (wf.node commit.machineId).committed := hf.sound.recorded _ hcommit hc
  rw [hbody] at hvouch
  obtain ⟨m, hm, ht⟩ := htrusted commit.machineId hkL
  have hreported : m ∈ (wf.node m.machineId).reported :=
    hf.sound.recorded (.viewChange m) (known_of_mem (hsub _ ht.sent)) (by rw [Msg.signer, ht.signer]; exact hc)
  rw [ht.signer] at hreported
  obtain ⟨mine, prepares, hcert, hle, hmine⟩ :=
    (hf.kept commit.machineId).covers m hreported _ hvouch (by rw [ht.view]; exact hlt)
  have hreport : reportedBy viewChange commit.machineId = some mine := by
    rw [reportedBy_of_some hm, hcert]
    rfl
  cases carried with
  | none => exact absurd ⟨_, hkL, hreport⟩ (hhigh mine)
  | some rp =>
    refine ⟨rp, rfl, ?_⟩
    obtain ⟨⟨l, hl, hrp⟩, hall⟩ := hhigh
    obtain ⟨hle', heq⟩ := hall mine ⟨_, hkL, hreport⟩
    obtain hview | hview := eq_or_lt_of_le (hle.trans hle')
    · -- the report itself is the highest
      have hmineView : mine.body.view = proposal.view := le_antisymm (hle'.trans (le_of_eq hview.symm)) hle
      rw [← heq (hmineView.trans hview)]
      have hsame := (hf.sound.logged commit.machineId).committedOnce _ hmine _ hvouch hmineView
      rw [hdigest (congrArg ResetVouch.digest hsame)]
    · -- a higher one was accepted by a correct server, in a later view
      obtain ⟨m', prepares', hm', hcert'⟩ := exists_certificate hrp
      obtain ⟨m'', hm'', ht'⟩ := htrusted l hl
      cases hm'.symm.trans hm''
      have hprepared := prepared_of_certificate ht'.sent ht'.valid hcert'
        (ht'.nodup rp prepares' hcert') fun _ _ => trivial
      have hone := (hf.kept commit.machineId).started _ hvouch
      obtain ⟨s, hs, carried, hdone, hshares⟩ :=
        h.exists_completion hp hdigest (hf.pos hp hvouch) (lt_of_le_of_lt hone hview) hprepared
      obtain ⟨rp', rfl, hsame⟩ := hcarries s hs _ hdone hview
      rw [← hshares rp' rfl, hsame]

theorem carriesOver_piece (hp : p.config = d.toConfig) (hdigest : Function.Injective p.digest) (h : Safe d p w)
    (hf : Safe d p wf) (hsub : ∀ m ∈ w.sent, m ∈ wf.sent)
    (hchosen : Chosen p wf.sent { view := proposal.view, digest := p.digest proposal })
    (hcarries : CarriesOver d proposal w) {i : Nat} {x : Input (Msg D) Action} {st₀ st' : Node D} {out : List (Msg D)}
    (hok : StepsSafely p i st₀ x) (hx : ∀ m, x = .msg m → m ∈ w.sent)
    (hpiece : Piece p i x st₀ (w.node i) st' out) : CarriesOver d proposal (w.move i (st', out)) := by
  have hlive := piece_live hpiece
  intro j hc c hmem hlt
  by_cases hj : j = i
  · subst hj
    rw [World.move_node_self] at hmem
    obtain hsame | ⟨carried, hmore, hjust⟩ :=
      completions_piece hpiece hok (h.sound.held j hlive) (h.follows j hlive) hx
    · rw [hsame] at hmem
      exact hcarries j hc c hmem hlt
    · rw [hmore] at hmem
      obtain rfl | hmem := List.mem_cons.mp hmem
      · exact h.justified hp hdigest hf hsub hchosen hcarries hlt hjust
      · exact hcarries j hc c hmem hlt
  · rw [World.move_node_of_ne w _ hj] at hmem
    exact hcarries j hc c hmem hlt

section Runs

variable {incarnations : Nat → Nat} {evs : List (Event (Msg D) Action)}

theorem safe_run
    (hok : World.Along (env d) (handle p) (fun w i x => StepsSafely p i (w.node i) x) (start incarnations) evs) :
    Safe d p ((start incarnations).run (env d) (handle p) evs) := by
  refine run_pieces (K := StepsSafely p) (safe_start incarnations) ?_ ?_ ?_ hok
  · intro w w' hnode hsent h
    refine h.mono (h.sound.mono hnode (fun m => (hsent m).mpr) fun part hpart _ => ?_) hnode fun m => (hsent m).mpr
    exact hpart.mono fun m => (hsent m).mp
  · exact fun w i x st₀ st' out h _ hok hx hpiece => safe_piece h hok hx hpiece
  · exact fun w m h hf => h.mono (sound_inject h.sound hf) rfl fun _ hm => List.mem_cons_of_mem _ hm

/-- What enough servers have committed to by the end of a run has been carried over all
along. -/
theorem carriesOver_run (hp : p.config = d.toConfig) (hdigest : Function.Injective p.digest)
    (hok : World.Along (env d) (handle p) (fun w i x => StepsSafely p i (w.node i) x) (start incarnations) evs)
    (hchosen : Chosen p ((start incarnations).run (env d) (handle p) evs).sent
      { view := proposal.view, digest := p.digest proposal }) :
    CarriesOver d proposal ((start incarnations).run (env d) (handle p) evs) := by
  have hf := safe_run hok
  generalize hwf : (start incarnations).run (env d) (handle p) evs = wf at hf hchosen
  have hrun := run_pieces (K := StepsSafely p)
    (P := fun w => Safe d p w ∧ ((∀ m ∈ w.sent, m ∈ wf.sent) → CarriesOver d proposal w)) ?_ ?_ ?_ ?_ hok
  · rw [hwf] at hrun
    exact hrun.2 fun _ hm => hm
  · exact ⟨safe_start incarnations, fun _ _ _ _ hc => absurd hc List.not_mem_nil⟩
  · rintro w w' hnode hsent ⟨h, hcarries⟩
    have hknown : ∀ part, Known w'.sent part → Known w.sent part := fun part hpart => hpart.mono fun m => (hsent m).mp
    refine ⟨h.mono (h.sound.mono hnode (fun m => (hsent m).mpr) fun part hpart _ => hknown part hpart) hnode
      fun m => (hsent m).mpr, fun hsub => ?_⟩
    unfold CarriesOver
    rw [hnode]
    exact hcarries fun m hm => hsub m ((hsent m).mpr hm)
  · rintro w i x st₀ st' out ⟨h, hcarries⟩ _ hok hx hpiece
    refine ⟨safe_piece h hok hx hpiece, fun hsub => ?_⟩
    have hsub' : ∀ m ∈ w.sent, m ∈ wf.sent := fun m hm => hsub m (List.mem_append_right _ hm)
    exact carriesOver_piece hp hdigest h hf hsub' hchosen (hcarries hsub') hok hx hpiece
  · rintro w m ⟨h, hcarries⟩ hforge
    refine ⟨h.mono (sound_inject h.sound hforge) rfl fun _ hm => List.mem_cons_of_mem _ hm, fun hsub => ?_⟩
    exact hcarries fun m' hm' => hsub m' (List.mem_cons_of_mem _ hm')

/-- A proposal accepted later has the shares that are carried over. -/
theorem CarriesOver.shares (h : Safe d p w) (hcarries : CarriesOver d proposal w) (hone : 1 ≤ proposal.view) {j : Nat}
    (hc : d.correct j = true) (hmem : proposal' ∈ (w.node j).accepted) (hlt : proposal.view < proposal'.view) :
    proposal'.shares = proposal.shares := by
  obtain ⟨carried, hdone, hshares⟩ := (h.kept j).accepted proposal' hmem (lt_of_le_of_lt hone hlt)
  obtain ⟨rp, rfl, hsame⟩ := hcarries j hc _ hdone hlt
  rw [← hshares rp rfl, hsame]

/-- Proposals that enough servers have committed to have the same shares: the later one
was accepted where the other was carried over. -/
theorem chosen_agree (hp : p.config = d.toConfig) (hdigest : Function.Injective p.digest) (h : Safe d p w)
    (hchosen : Chosen p w.sent { view := proposal.view, digest := p.digest proposal })
    (hcarries : CarriesOver d proposal w)
    (hchosen' : Chosen p w.sent { view := proposal'.view, digest := p.digest proposal' })
    (hle : proposal.view ≤ proposal'.view) : proposal'.shares = proposal.shares := by
  obtain hview | hlt := eq_or_lt_of_le hle
  · obtain ⟨S, hS, hcard, hall⟩ := hchosen
    obtain ⟨S', hS', hcard', hall'⟩ := hchosen'
    rw [hp] at hS hcard hS' hcard'
    obtain ⟨s, hs, hs', hnot⟩ := d.committee.exists_correct_inter hS hS' hcard hcard'
    have hc : d.correct s = true := d.correct_iff.mpr ⟨hS hs, hnot⟩
    obtain ⟨m, hm, rfl, hbody⟩ := hall s hs
    obtain ⟨m', hm', hsigner, hbody'⟩ := hall' m.machineId hs'
    have hrec : m.body ∈ (w.node m.machineId).committed := h.sound.recorded _ hm hc
    have hrec' : m'.body ∈ (w.node m'.machineId).committed := h.sound.recorded _ hm' (by rw [Msg.signer, hsigner]; exact hc)
    rw [hsigner] at hrec'
    rw [hbody] at hrec
    rw [hbody'] at hrec'
    have hsame := (h.sound.logged m.machineId).committedOnce _ hrec' _ hrec hview.symm
    rw [hdigest (congrArg ResetVouch.digest hsame)]
  · obtain ⟨s, -, hv⟩ := hchosen.exists_committed hp h.sound
    obtain ⟨s', -, hv'⟩ := hchosen'.exists_committed hp h.sound
    have hone := (h.kept s).started _ hv
    obtain ⟨j, hc, carried, hdone, hshares⟩ := h.exists_completion hp hdigest (h.pos hp hv')
      (lt_of_le_of_lt hone hlt) ((h.kept s').prepared _ hv')
    obtain ⟨rp, rfl, hsame⟩ := hcarries j hc _ hdone hlt
    rw [← hshares rp rfl, hsame]

/-- **Agreement of a reset.** In every run whose steps are safe, once a correct server has
executed a proposal, every correct server that executes one executes the same shares, and
these are the shares of all that correct servers accept and carry over in later views. -/
theorem reset_agree (d : Deployment) (digest : ResetProposal → D) (hdigest : Function.Injective digest)
    (incarnations : Nat → Nat) (evs : List (Event (Msg D) Action)) :
    let p : Params D := { config := d.toConfig, digest }
    let w := (start incarnations).run (env d) (handle p) evs
    World.Along (env d) (handle p) (fun w i x => StepsSafely p i (w.node i) x) (start incarnations) evs →
    ∀ i j, d.correct i = true → d.correct j = true → ∀ proposal ∈ (w.node i).executed,
      (∀ proposal' ∈ (w.node j).executed, proposal'.shares = proposal.shares) ∧
      (∀ proposal' ∈ (w.node j).accepted, proposal.view < proposal'.view → proposal'.shares = proposal.shares) ∧
      ∀ view carried, (view, carried) ∈ (w.node j).completions → proposal.view < view →
        ∃ rp, carried = some rp ∧ rp.body.shares = proposal.shares := by
  intro p w hok i j _ hc proposal hmem
  have h : Safe d p w := safe_run hok
  have hchosen := (h.kept i).executed proposal hmem
  have hcarries : CarriesOver d proposal w := carriesOver_run rfl hdigest hok hchosen
  refine ⟨fun proposal' hmem' => ?_, fun proposal' hmem' hlt => ?_, fun view carried hmem' hlt => ?_⟩
  · have hchosen' := (h.kept j).executed proposal' hmem'
    obtain hle | hle := le_total proposal.view proposal'.view
    · exact chosen_agree rfl hdigest h hchosen hcarries hchosen' hle
    · have hcarries' : CarriesOver d proposal' w := carriesOver_run rfl hdigest hok hchosen'
      exact (chosen_agree rfl hdigest h hchosen' hcarries' hchosen hle).symm
  · obtain ⟨s, -, hv⟩ := hchosen.exists_committed rfl h.sound
    exact hcarries.shares h ((h.kept s).started _ hv) hc hmem' hlt
  · exact hcarries j hc _ hmem' hlt

end Runs

end Agreement

/-! ## Runs -/

section Examples

def isCommit : Msg ResetProposal → Bool
  | .commit _ => true
  | _ => false

/-- Events, and then what has been sent of a kind for each of the given servers. -/
def exchange (servers : List Nat) (kind : Msg ResetProposal → Bool) (evs : List (Event (Msg ResetProposal) Action)) :
    List (Event (Msg ResetProposal) Action) :=
  extend threeServers evs fun w => servers.flatMap fun i => handleAll i kind w

/-- Two of three servers execute what they have prepared. -/
def executedRun : List (Event (Msg ResetProposal) Action) := exchange [1, 2] isCommit preparedRun

/-- A test that a step is safe, for steps with no view change and no certificate. -/
def stepsSafely (st : Node ResetProposal) : Input (Msg ResetProposal) Action → Bool
  | .msg (.share _) | .msg (.proposal _) | .msg (.prepare _) | .msg (.commit _) | .act (.share ..) => true
  | .act .postSharesDelay => !st.sentCommit
  | _ => false

theorem stepsSafely_spec {p : Params ResetProposal} {me : Nat} {st : Node ResetProposal}
    {x : Input (Msg ResetProposal) Action} (h : stepsSafely st x = true) : StepsSafely p me st x := by
  refine ⟨fun view hleaves => ?_, fun hx _ => ?_, fun m hx => ?_, fun m hx => ?_, fun m hx => ?_⟩
  · cases x with
    | msg m => cases m with
      | share | proposal | prepare | commit => cases hleaves
      | _ => cases h
    | act a => cases a with
      | share | postSharesDelay => cases hleaves
      | rotateLeader => cases h
  all_goals subst hx
  · exact Bool.not_eq_true' _ |>.mp h
  all_goals cases h

/-- Both servers execute, and the same shares. -/
theorem reset_agree_executed :
    ((runOf threeServers executedRun).node 1).executed ≠ [] ∧
      ((runOf threeServers executedRun).node 2).executed ≠ [] ∧
      ∀ proposal ∈ ((runOf threeServers executedRun).node 1).executed,
        ∀ proposal' ∈ ((runOf threeServers executedRun).node 2).executed, proposal'.shares = proposal.shares := by
  refine ⟨by decide +kernel, by decide +kernel, ?_⟩
  unfold runOf
  refine fun proposal hmem => (reset_agree threeServers id Function.injective_id (fun _ => 0) executedRun ?_ 1 2
    (by decide) (by decide) proposal hmem).1
  refine World.along_of_check (k := fun w i x => stepsSafely (w.node i) x) (fun _ _ _ => stepsSafely_spec) ?_
  decide +kernel

def isProposal : Msg ResetProposal → Bool
  | .proposal _ => true
  | _ => false

def isPrepare : Msg ResetProposal → Bool
  | .prepare _ => true
  | _ => false

/-- Servers 2 and 3 give up on the view they are in. -/
def rotations (evs : List (Event (Msg ResetProposal) Action)) : List (Event (Msg ResetProposal) Action) :=
  exchange [2, 3] isNewLeader (evs ++ [.handle 2 (.act .rotateLeader), .handle 3 (.act .rotateLeader)])

/-- Server 1 has executed what it and server 2 have committed to. Servers 2 and 3 go on to
the third view, and agree there on what server 3 proposes. -/
def forgetfulRun : List (Event (Msg ResetProposal) Action) :=
  let evs := rotations (rotations (exchange [1] isCommit preparedRun ++ shareEvents [3] [3] [1, 2, 3]))
  let evs := exchange [2, 3] isNewView (exchange [2, 3] isViewChange evs) ++ [.handle 3 (.act .postSharesDelay)]
  exchange [2, 3] isCommit (exchange [2, 3] isPrepare (exchange [2] isProposal evs))

/-- Two correct servers execute proposals with different shares, the one in the first view
and the other in the third. -/
theorem certificate_forgotten :
    ((runOf threeServers forgetfulRun).node 1).executed.map (fun proposal => (proposal.view, proposal.shares)) =
        [(1, [ownShare 1, ownShare 2])] ∧
      ((runOf threeServers forgetfulRun).node 2).executed.map (fun proposal => (proposal.view, proposal.shares)) =
        [(3, [ownShare 1, ownShare 2, ownShare 3])] ∧
      threeServers.correct 1 = true ∧ threeServers.correct 2 = true := by
  refine ⟨?_, ?_, by decide, by decide⟩
  all_goals decide +kernel

end Examples

end Spire.Reset
