import Mathlib.Data.Finset.Card
import Spire.SystemResetRecords

/-!
# Prepare certificates of a reset

`PR_Process_Reset_Prepare` counts every Prepare, that of the leader included, so that a
leader in the adversary's hands gets two proposals prepared in one view
(`leader_votes_twice`). The sibling of the function in `view_change.c` leaves the leader
out, and so do the servers themselves when they send Prepares.

Where no leader's Prepare is counted, no certificate names a server twice, a leader
proposes once, and no two certificates differ in nothing but the header of the proposal,
the certificates of a view agree, and the assertion about them in
`PR_Check_Complete_VC_State` holds (`certificates_unique`).
-/

namespace Spire.Reset

open Spire.Lib Spire.Replay

variable {D : Type} [DecidableEq D]

/-! ## Prepared proposals -/

section Prepared

variable {p : Params D} {ok : Signed (ResetVouch D) → Prop} {sent : List (Msg D)} {vouch : ResetVouch D}

/-- Enough servers sent Prepares, all of a kind. -/
def Prepared (p : Params D) (ok : Signed (ResetVouch D) → Prop) (sent : List (Msg D)) (vouch : ResetVouch D) : Prop :=
  ∃ S ⊆ p.config.servers, 2 * p.config.F + p.config.K ≤ S.card ∧
    ∀ s ∈ S, ∃ m, Known sent (.prepare m) ∧ m.machineId = s ∧ m.body = vouch ∧ ok m

omit [DecidableEq D] in
theorem Prepared.mono {sent' : List (Msg D)} (h : Prepared p ok sent vouch) (hsub : ∀ m ∈ sent, m ∈ sent') :
    Prepared p ok sent' vouch := by
  obtain ⟨S, hS, hcard, hall⟩ := h
  refine ⟨S, hS, hcard, fun s hs => ?_⟩
  obtain ⟨m, hm, hrest⟩ := hall s hs
  exact ⟨m, hm.mono hsub, hrest⟩

/-- The Prepares that a server counts when it sends a Commit. -/
theorem prepared_of_tally {st : Node D} {proposal : ResetProposal} (hst : st.Held p sent)
    (hok : ∀ i m, st.prepare i = some m → ok m)
    (h : 2 * p.config.F + p.config.K ≤ tally p.config.numServers (vouching p st.prepare proposal)) :
    Prepared p ok sent { view := proposal.view, digest := p.digest proposal } := by
  refine ⟨accepted p.config.numServers (vouching p st.prepare proposal), accepted_subset _ _,
    by rw [card_accepted]; exact h, fun s hs => ?_⟩
  have hvouch := (mem_accepted.mp hs).2
  unfold vouching at hvouch
  cases hm : st.prepare s with
  | none =>
    rw [hm] at hvouch
    cases hvouch
  | some m =>
    rw [hm] at hvouch
    obtain ⟨hview, hdigest⟩ := of_decide_eq_true hvouch
    obtain ⟨hknown, hsigner, -⟩ := hst.prepare s m hm
    refine ⟨m, hknown, hsigner, ?_, hok s m hm⟩
    rw [← hview, ← hdigest]

/-- The Prepares in a view-change message, when they are of different servers. -/
theorem prepared_of_certificate {m : Signed (ViewChange D)} {proposal : Signed ResetProposal}
    {prepares : List (Signed (ResetVouch D))} (hm : Msg.viewChange m ∈ sent)
    (hvalid : validated p (.viewChange m) = true) (hcert : m.body.certificate = some (proposal, prepares))
    (hnodup : (prepares.map Signed.machineId).Nodup) (hok : ∀ prepare ∈ prepares, ok prepare) :
    Prepared p ok sent { view := proposal.body.view, digest := p.digest proposal.body } := by
  simp only [validated, hcert] at hvalid
  have hvouches := (Bool.and_eq_true_iff.mp (Bool.and_eq_true_iff.mp hvalid).2).2
  obtain ⟨hlength, hall⟩ := Bool.and_eq_true_iff.mp hvouches
  have hlength := of_decide_eq_true hlength
  refine ⟨(prepares.map Signed.machineId).toFinset, fun s hs => ?_, ?_, fun s hs => ?_⟩
  · obtain ⟨prepare, hprepare, rfl⟩ := List.mem_map.mp (List.mem_toFinset.mp hs)
    exact of_decide_eq_true (Bool.and_eq_true_iff.mp (List.all_eq_true.mp hall prepare hprepare)).1
  · rw [List.toFinset_card_of_nodup hnodup, List.length_map, hlength]
  · obtain ⟨prepare, hprepare, rfl⟩ := List.mem_map.mp (List.mem_toFinset.mp hs)
    have hbody := of_decide_eq_true (Bool.and_eq_true_iff.mp (List.all_eq_true.mp hall prepare hprepare)).2
    refine ⟨prepare, ⟨_, hm, ?_⟩, rfl, ?_, hok prepare hprepare⟩
    · simp only [Msg.parts, hcert]
      exact List.mem_cons_of_mem _ (List.mem_append_right _ (List.mem_map.mpr ⟨prepare, hprepare, rfl⟩))
    · rw [← hbody.1, ← hbody.2]

end Prepared

section Worlds

variable {d : Deployment} {p : Params D} {ok : Signed (ResetVouch D) → Prop} {w : World (Node D) (Msg D)}
  {vouch vouch' : ResetVouch D}

/-- More servers than the adversary has include a correct one. -/
theorem exists_correct_of_lt {S : Finset Nat} (hS : S ⊆ d.servers) (hcard : d.F < S.card) :
    ∃ s ∈ S, d.correct s = true := by
  obtain ⟨s, hs, hnot⟩ := Finset.exists_mem_notMem_of_card_lt_card (lt_of_le_of_lt d.byz_card hcard)
  exact ⟨s, hs, d.correct_iff.mpr ⟨hS hs, hnot⟩⟩

/-- A correct server that sent a Prepare had accepted the proposal. -/
theorem accepted_of_prepare (h : Sound d p w) {m : Signed (ResetVouch D)} (hm : Known w.sent (.prepare m))
    (hc : d.correct m.machineId = true) : ∃ proposal ∈ (w.node m.machineId).accepted,
      m.body = { view := proposal.view, digest := p.digest proposal } :=
  h.recorded _ hm hc

/-- A correct server has accepted what is prepared. -/
theorem exists_accepted (hp : p.config = d.toConfig) (h : Sound d p w) (hpos : 0 < d.F + d.K)
    (hprepared : Prepared p ok w.sent vouch) : ∃ s, d.correct s = true ∧
      ∃ proposal ∈ (w.node s).accepted, vouch = { view := proposal.view, digest := p.digest proposal } := by
  obtain ⟨S, hS, hcard, hall⟩ := hprepared
  rw [hp] at hS hcard
  obtain ⟨s, hs, hc⟩ := exists_correct_of_lt hS (by omega)
  obtain ⟨m, hm, rfl, rfl, -⟩ := hall s hs
  exact ⟨m.machineId, hc, accepted_of_prepare h hm hc⟩

/-! ## The certificates of a view -/

/-- A Prepare that is not the leader's. -/
def NotLeaders (p : Params D) (m : Signed (ResetVouch D)) : Prop :=
  m.machineId ≠ p.config.leaderOfView m.body.view

/-- What a step must not do for certificates to agree: count a Prepare of the leader, take
a view-change message whose certificate names a server twice or the leader, or has for the
content of another certificate another header, or propose again. -/
structure CertifiesSafely (p : Params D) (me : Nat) (st : Node D) (x : Input (Msg D) Action) : Prop where
  prepare : ∀ m, x = .msg (.prepare m) → m.body.view = st.view → NotLeaders p m
  certificate : ∀ m, x = .msg (.viewChange m) → m.body.tag.view = st.view → ∀ proposal prepares,
    m.body.certificate = some (proposal, prepares) →
      (prepares.map Signed.machineId).Nodup ∧ ∀ prepare ∈ prepares, NotLeaders p prepare
  header : ∀ m, x = .msg (.viewChange m) → m.body.tag.view = st.view → ∀ proposal,
    m.body.certificate.map Prod.fst = some proposal → ∀ i proposal', reportedBy st.viewChange i = some proposal' →
      proposal'.body = proposal.body → proposal' = proposal
  proposes : x = .act .postSharesDelay → me = p.config.leaderOfView st.view → st.proposal = none

/-- What holds of a server in such a run, while it takes part. -/
structure Node.Proper (p : Params D) (st : Node D) : Prop where
  prepare : ∀ i m, st.prepare i = some m → NotLeaders p m
  certificate : ∀ i m, st.viewChange i = some m → ∀ proposal prepares,
    m.body.certificate = some (proposal, prepares) →
      (prepares.map Signed.machineId).Nodup ∧ ∀ prepare ∈ prepares, NotLeaders p prepare
  header : ∀ i j proposal proposal', reportedBy st.viewChange i = some proposal →
    reportedBy st.viewChange j = some proposal' → proposal'.body = proposal.body → proposal' = proposal
  carried : ∀ proposal, st.carryOver = some proposal → ∃ i, reportedBy st.viewChange i = some proposal
  proposed : ∀ m ∈ st.proposed, m.body.view ≤ st.view ∧ (m.body.view = st.view → st.proposal.isSome = true)
  committed : st.sentCommit = true → st.committed ≠ []

/-- And of its record, from then on. -/
structure Node.Certified (p : Params D) (sent : List (Msg D)) (st : Node D) : Prop where
  proposedOnce : ∀ m ∈ st.proposed, ∀ m' ∈ st.proposed, m.body.view = m'.body.view → m = m'
  prepared : ∀ vouch ∈ st.committed, Prepared p (NotLeaders p) sent vouch
  someone : ∀ vouch ∈ st.committed, ∃ s ∈ p.config.servers, s ≠ p.config.leaderOfView vouch.view
  reported : ∀ m ∈ st.reported, m.body.certificate.isSome = true → st.committed ≠ []

omit [DecidableEq D] in
theorem Node.Certified.mono {sent sent' : List (Msg D)} {st : Node D} (h : st.Certified p sent)
    (hsub : ∀ m ∈ sent, m ∈ sent') : st.Certified p sent' :=
  { h with prepared := fun vouch hv => (h.prepared vouch hv).mono hsub }

omit [DecidableEq D] in
theorem Node.Certified.congr {sent : List (Msg D)} {st st' : Node D} (h : st.Certified p sent)
    (hproposed : st'.proposed = st.proposed) (hcommitted : st'.committed = st.committed)
    (hreported : st'.reported = st.reported) : st'.Certified p sent := by
  constructor
  · rw [hproposed]
    exact h.proposedOnce
  · rw [hcommitted]
    exact h.prepared
  · rw [hcommitted]
    exact h.someone
  · rw [hreported, hcommitted]
    exact h.reported

end Worlds

section Pieces

variable {p : Params D} {me : Nat} {x : Input (Msg D) Action} {st₀ st st' : Node D} {sent out : List (Msg D)}

omit [DecidableEq D] in
theorem reportedBy_of_some {viewChange : Nat → Option (Signed (ViewChange D))} {i : Nat} {m : Signed (ViewChange D)}
    (h : viewChange i = some m) : reportedBy viewChange i = m.body.certificate.map Prod.fst := by
  rw [reportedBy, h]
  rfl

omit [DecidableEq D] in
theorem exists_certificate {viewChange : Nat → Option (Signed (ViewChange D))} {i : Nat}
    {proposal : Signed ResetProposal} (h : reportedBy viewChange i = some proposal) :
    ∃ m prepares, viewChange i = some m ∧ m.body.certificate = some (proposal, prepares) := by
  obtain ⟨m, hm, hcert⟩ := Option.bind_eq_some_iff.mp h
  obtain ⟨cert, hsome, rfl⟩ := Option.map_eq_some_iff.mp hcert
  exact ⟨m, cert.2, hm, hsome⟩

omit [DecidableEq D] in
/-- One round of the loop keeps what was carried, or takes the report. -/
theorem carryMore_eq_some {carried carried' : Option (Signed ResetProposal)} {vc : ViewChange D}
    (h : carryMore carried vc = some carried') :
    carried' = carried ∨ carried' = vc.certificate.map Prod.fst := by
  unfold carryMore at h
  split at h
  · exact .inl (Option.some.inj h).symm
  · rename_i hcert
    rw [hcert]
    exact .inr (Option.some.inj h).symm
  · rename_i hcert
    rw [hcert]
    split at h
    · exact .inl (Option.some.inj h).symm
    split at h
    · split at h
      · exact .inl (Option.some.inj h).symm
      · cases h
    · exact .inr (Option.some.inj h).symm

omit [DecidableEq D] in
/-- What is carried over was, or is reported by a listed server. -/
theorem carryOver_mem {viewChange : Nat → Option (Signed (ViewChange D))} {l : List Nat}
    {carried : Option (Signed ResetProposal)} {proposal : Signed ResetProposal}
    (h : carryOver viewChange l carried = .ok (some proposal)) :
    carried = some proposal ∨ ∃ i ∈ l, reportedBy viewChange i = some proposal := by
  induction l generalizing carried with
  | nil =>
    cases h
    exact .inl rfl
  | cons i l ih =>
    unfold carryOver at h
    split at h
    · cases h
    rename_i vc hvc
    split at h
    · cases h
    rename_i more hmore
    obtain hsome | ⟨j, hj, hp⟩ := ih h
    · subst hsome
      obtain heq | heq := carryMore_eq_some hmore
      · exact .inl heq.symm
      · exact .inr ⟨i, List.mem_cons_self .., (reportedBy_of_some hvc).trans heq.symm⟩
    · exact .inr ⟨j, List.mem_cons_of_mem _ hj, hp⟩

omit [DecidableEq D] in
/-- The loop fails on two different proposals of one view. -/
theorem carryOver_mismatch {viewChange : Nat → Option (Signed (ViewChange D))} {l : List Nat}
    {carried : Option (Signed ResetProposal)} (h : carryOver viewChange l carried = .error .certificateMismatch) :
    ∃ proposal proposal', (carried = some proposal ∨ ∃ i ∈ l, reportedBy viewChange i = some proposal) ∧
      (∃ i ∈ l, reportedBy viewChange i = some proposal') ∧ proposal'.body.view = proposal.body.view ∧
      proposal' ≠ proposal := by
  induction l generalizing carried with
  | nil => cases h
  | cons i l ih =>
    unfold carryOver at h
    split at h
    · cases h
    rename_i vc hvc
    have hreport := reportedBy_of_some hvc
    split at h
    · rename_i hfail
      -- the round itself fails
      unfold carryMore at hfail
      split at hfail
      · cases hfail
      · cases hfail
      rename_i rp prepares stored hcert
      rw [hcert] at hreport
      split at hfail
      · cases hfail
      split at hfail
      · rename_i hview
        split at hfail
        · cases hfail
        · rename_i hne
          exact ⟨stored, rp, .inl rfl, ⟨i, List.mem_cons_self .., hreport⟩, hview, hne⟩
      · cases hfail
    · rename_i more hmore
      obtain ⟨proposal, proposal', hfrom, ⟨j, hj, hp'⟩, hview, hne⟩ := ih h
      refine ⟨proposal, proposal', ?_, ⟨j, List.mem_cons_of_mem _ hj, hp'⟩, hview, hne⟩
      obtain hsome | ⟨k, hk, hp⟩ := hfrom
      · subst hsome
        obtain heq | heq := carryMore_eq_some hmore
        · exact .inl heq.symm
        · exact .inr ⟨i, List.mem_cons_self .., hreport.trans heq.symm⟩
      · exact .inr ⟨k, List.mem_cons_of_mem _ hk, hp⟩

omit [DecidableEq D] in
/-- A report, when one more message is stored. -/
theorem reportedBy_update {viewChange : Nat → Option (Signed (ViewChange D))} {j i : Nat}
    {mess : Signed (ViewChange D)} {proposal : Signed ResetProposal}
    (h : reportedBy (Function.update viewChange j (some mess)) i = some proposal) :
    reportedBy viewChange i = some proposal ∨ mess.body.certificate.map Prod.fst = some proposal := by
  by_cases hi : i = j
  · subst hi
    rw [reportedBy_of_some (Function.update_self ..)] at h
    exact .inr h
  · refine .inl (Eq.trans ?_ h)
    rw [reportedBy, reportedBy, Function.update_of_ne hi]

omit [DecidableEq D] in
/-- A report stays where no other message is stored. -/
theorem reportedBy_update_of_some {viewChange : Nat → Option (Signed (ViewChange D))} {j i : Nat}
    {mess : Signed (ViewChange D)} {proposal : Signed ResetProposal} (hnew : viewChange j = none)
    (h : reportedBy viewChange i = some proposal) :
    reportedBy (Function.update viewChange j (some mess)) i = some proposal := by
  have hi : i ≠ j := by
    rintro rfl
    rw [reportedBy, hnew] at h
    cases h
  rwa [reportedBy, Function.update_of_ne hi]

omit [DecidableEq D] in
/-- What was stored when the step began is stored when its message is. -/
theorem Since.viewChange_eq {mess : Signed (ViewChange D)} (h : Since x st₀ st) (hx : x = .msg (.viewChange mess))
    (hnew : st.viewChange mess.body.tag.machineId = none) : st.viewChange = st₀.viewChange := by
  obtain hsame | ⟨m, hm, hsome⟩ := h.viewChange
  · exact hsame
  · cases hx.symm.trans hm
    rw [hnew] at hsome
    cases hsome

theorem proper_piece (h : Piece p me x st₀ st st' out) (hok : CertifiesSafely p me st₀ x) (hst : st.Proper p)
    (hlive : st'.Live) : st'.Proper p := by
  cases h with
  | edit _ tracked since h =>
    have hview := (since_edit h tracked (since_refl x st) hlive).view
    cases h with
    | proposalStored => exact { hst with proposed := fun m hm => ⟨(hst.proposed m hm).1, fun _ => rfl⟩ }
    | prepareStored hx _ hv =>
      refine { hst with prepare := fun i m hm => ?_ }
      obtain hm | ⟨rfl, rfl⟩ := update_some hm
      · exact hst.prepare i m hm
      · exact hok.prepare _ hx (hv.trans since.view)
    | commitSent => exact { hst with committed := fun _ => List.cons_ne_nil _ _ }
    | @viewChangeStored mess hx _ hv hnew =>
      have hsame := since.viewChange_eq hx hnew
      have hv₀ : mess.body.tag.view = st₀.view := hv.trans since.view
      -- the new report against those that are stored
      have hheader : ∀ proposal, mess.body.certificate.map Prod.fst = some proposal → ∀ i proposal',
          reportedBy st.viewChange i = some proposal' → proposal'.body = proposal.body → proposal' = proposal := by
        rw [hsame]
        exact hok.header mess hx hv₀
      refine { hst with certificate := fun i m hm => ?_, header := fun i j proposal proposal' hi hj hbody => ?_,
                        carried := fun proposal hp => ?_ }
      · obtain hm | ⟨rfl, rfl⟩ := update_some hm
        · exact hst.certificate i m hm
        · exact hok.certificate _ hx hv₀
      · obtain hi | hi := reportedBy_update hi <;> obtain hj | hj := reportedBy_update hj
        · exact hst.header i j proposal proposal' hi hj hbody
        · exact (hheader proposal' hj i proposal hi hbody.symm).symm
        · exact hheader proposal hi j proposal' hj hbody
        · exact Option.some.inj (hj.symm.trans hi)
      · obtain ⟨i, hi⟩ := hst.carried proposal hp
        exact ⟨i, reportedBy_update_of_some hnew hi⟩
    | completed hx hn hcarried =>
      refine { hst with carried := fun proposal hp => ?_ }
      cases hp
      obtain hold | ⟨i, -, hi⟩ := carryOver_mem hcarried
      · exact hst.carried proposal hold
      · exact ⟨i, hi⟩
    | takenOver =>
      refine { hst with proposed := fun m hm => ?_ }
      obtain rfl | hm := List.mem_cons.mp hm
      · exact ⟨le_refl _, fun _ => rfl⟩
      · exact ⟨(hst.proposed m hm).1, fun _ => rfl⟩
    | executedByCommits =>
      refine ⟨hst.prepare, hst.certificate, hst.header, hst.carried, fun m hm => ?_, hst.committed⟩
      rw [hview]
      exact hst.proposed m hm
    | executedByCertificate _ _ hme => exact absurd (status_of_member hme) hlive.resetting
    | crashed => exact nomatch hlive.running
    | _ => exact ⟨hst.prepare, hst.certificate, hst.header, hst.carried, hst.proposed, hst.committed⟩
  | proposes _ _ h =>
    obtain ⟨status, proposal, -, -, hv, -, rfl⟩ := h.result
    refine { hst with proposed := fun m hm => ?_ }
    obtain rfl | hm := List.mem_cons.mp hm
    · exact ⟨le_of_eq hv, fun _ => rfl⟩
    · exact ⟨(hst.proposed m hm).1, fun _ => rfl⟩
  | enters _ _ h =>
    obtain ⟨view, vc, announced, -, hlt, -, -, -, rfl⟩ := h.result
    constructor
    · exact fun _ _ hm => nomatch hm
    · exact fun _ _ hm => nomatch hm
    · exact fun _ _ _ _ hp => nomatch hp
    · exact fun _ hp => nomatch hp
    · intro m hm
      have hle := (hst.proposed m hm).1
      exact ⟨hle.trans (le_of_lt hlt), fun heq => absurd heq (ne_of_lt (lt_of_le_of_lt hle hlt))⟩
    · exact fun h => nomatch h

theorem certified_piece (h : Piece p me x st₀ st st' out) (hok : CertifiesSafely p me st₀ x) (hheld : st.Held p sent)
    (hproper : st.Proper p) (hst : st.Certified p sent) : st'.Certified p (out ++ sent) := by
  have hold : st.Certified p (out ++ sent) := hst.mono fun m hm => List.mem_append_right _ hm
  -- a server with no proposal has made none in its view
  have hfresh : st.proposal = none → ∀ m ∈ st.proposed, m.body.view ≠ st.view := by
    intro hnone m hm heq
    have hsome := (hproper.proposed m hm).2 heq
    rw [hnone] at hsome
    cases hsome
  cases h with
  | edit _ tracked since h =>
    cases h with
    | commitSent hstored hproposal _ hquorum =>
      have hview := tracked.proposal _ hproposal
      have hprepared := prepared_of_tally hheld hproper.prepare hquorum
      rw [hview] at hprepared
      refine { hold with prepared := fun vouch hv => ?_, someone := fun vouch hv => ?_,
                         reported := fun m hm hcert => List.cons_ne_nil _ _ }
      · obtain rfl | hv := List.mem_cons.mp hv
        · exact hprepared.mono fun m hm => List.mem_append_right _ hm
        · exact hold.prepared vouch hv
      · obtain rfl | hv := List.mem_cons.mp hv
        · obtain ⟨i, m, hm⟩ := hstored
          obtain ⟨-, hsigner, hserver, hv⟩ := hheld.prepare i m hm
          have hnot := hproper.prepare i m hm
          unfold NotLeaders at hnot
          rw [hsigner, hv] at hnot
          exact ⟨i, hserver, hnot⟩
        · exact hold.someone vouch hv
    | takenOver _ hnone => exact { hold with proposedOnce := once_cons hst.proposedOnce (hfresh hnone) }
    | _ => exact hold.congr rfl rfl rfl
  | proposes _ _ h =>
    have hnone := hok.proposes h.action h.leader
    obtain ⟨status, proposal, -, -, hv, -, rfl⟩ := h.result
    refine { hold with proposedOnce := once_cons hst.proposedOnce fun m hm heq => ?_ }
    exact hfresh hnone m hm (heq.trans hv)
  | enters _ _ h =>
    obtain ⟨view, vc, announced, -, -, hvc, -, -, rfl⟩ := h.result
    refine { hold with reported := fun m hm hcert => ?_ }
    obtain rfl | hm := List.mem_cons.mp hm
    · obtain ⟨-, -, ⟨-, hnone⟩ | ⟨hsent, -⟩⟩ := constructViewChange_spec hvc
      · rw [hnone] at hcert
        cases hcert
      · exact hproper.committed hsent
    · exact hst.reported m hm hcert

end Pieces

/-! ## Agreement -/

section Agreement

variable {d : Deployment} {p : Params D} {w : World (Node D) (Msg D)} {vouch vouch' : ResetVouch D}

/-- What holds in every world of a run whose steps are safe for certificates. -/
structure Agreed (d : Deployment) (p : Params D) (w : World (Node D) (Msg D)) : Prop where
  sound : Sound d p w
  proper : ∀ i, (w.node i).Live → (w.node i).Proper p
  certified : ∀ i, (w.node i).Certified p w.sent
  holds : ∀ i, (w.node i).halted ≠ some .certificateMismatch

omit [DecidableEq D] in
/-- Prepares that are not the leader's are those of other servers. -/
theorem Prepared.servers (h : Prepared p (NotLeaders p) w.sent vouch) :
    ∃ S ⊆ p.config.servers.erase (p.config.leaderOfView vouch.view),
      2 * p.config.F + p.config.K ≤ S.card ∧ ∀ s ∈ S, ∃ m, Known w.sent (.prepare m) ∧ m.machineId = s ∧ m.body = vouch := by
  obtain ⟨S, hS, hcard, hall⟩ := h
  refine ⟨S, fun s hs => ?_, hcard, fun s hs => ?_⟩
  · obtain ⟨m, -, rfl, rfl, hnot⟩ := hall s hs
    exact Finset.mem_erase.mpr ⟨hnot, hS hs⟩
  · obtain ⟨m, hm, hsigner, hbody, -⟩ := hall s hs
    exact ⟨m, hm, hsigner, hbody⟩

omit [DecidableEq D] in
/-- Two sets of Prepares for one view have a correct server in common, when the leader is
not one. -/
theorem exists_correct_inter {view : Nat} (hbad : d.correct (d.leaderOfView view) = false) {S S' : Finset Nat}
    (hS : S ⊆ d.servers.erase (d.leaderOfView view)) (hS' : S' ⊆ d.servers.erase (d.leaderOfView view))
    (hcard : 2 * d.F + d.K ≤ S.card) (hcard' : 2 * d.F + d.K ≤ S'.card) :
    ∃ s ∈ S, s ∈ S' ∧ d.correct s = true := by
  have hleader := d.leaderOfView_mem view
  have hbyz : d.leaderOfView view ∈ d.byz := by
    by_contra hnot
    rw [d.correct_iff.mpr ⟨hleader, hnot⟩] at hbad
    cases hbad
  have hothers : (d.servers.erase (d.leaderOfView view)).card = 3 * d.F + 2 * d.K := by
    rw [Finset.card_erase_of_mem hleader, Config.card_servers]
    rfl
  have hfew : (d.byz.erase (d.leaderOfView view)).card < d.F := by
    have hpos := Finset.card_pos.mpr ⟨_, hbyz⟩
    have hle := d.byz_card
    rw [Finset.card_erase_of_mem hbyz]
    omega
  have hsum := Finset.card_union_add_card_inter S S'
  have hunion := Finset.card_le_card (Finset.union_subset hS hS')
  obtain ⟨s, hs, hnot⟩ := Finset.exists_mem_notMem_of_card_lt_card
    (show (d.byz.erase (d.leaderOfView view)).card < (S ∩ S').card by omega)
  obtain ⟨hsS, hsS'⟩ := Finset.mem_inter.mp hs
  obtain ⟨hne, hserver⟩ := Finset.mem_erase.mp (hS hsS)
  exact ⟨s, hsS, hsS', d.correct_iff.mpr ⟨hserver, fun hb => hnot (Finset.mem_erase.mpr ⟨hne, hb⟩)⟩⟩

/-- **What is prepared in a view is prepared for one proposal.** -/
theorem prepared_agree (hp : p.config = d.toConfig) (h : Sound d p w) (hcert : ∀ i, (w.node i).Certified p w.sent)
    (hpos : 0 < d.F + d.K) (hv : Prepared p (NotLeaders p) w.sent vouch)
    (hv' : Prepared p (NotLeaders p) w.sent vouch') (hview : vouch.view = vouch'.view) : vouch = vouch' := by
  cases hleader : d.correct (d.leaderOfView vouch.view) with
  | true =>
    -- the leader is correct, and made one proposal
    obtain ⟨s, hs, proposal, hmem, rfl⟩ := exists_accepted hp h hpos hv
    obtain ⟨s', hs', proposal', hmem', rfl⟩ := exists_accepted hp h hpos hv'
    obtain ⟨-, m, hm, hsigner, rfl⟩ := (h.logged s).acceptedFrom proposal hmem
    obtain ⟨-, m', hm', hsigner', rfl⟩ := (h.logged s').acceptedFrom proposal' hmem'
    have hl : m.machineId = d.leaderOfView m.body.view := by rw [hsigner, hp]
    have hl' : m'.machineId = m.machineId := by rw [hsigner', hsigner, ← show m.body.view = m'.body.view from hview]
    have hrec := h.recorded _ hm (by rw [← hl] at hleader; exact hleader)
    have hrec' := h.recorded _ hm' (by rw [← hl, ← hl'] at hleader; exact hleader)
    change m' ∈ (w.node m'.machineId).proposed at hrec'
    rw [hl'] at hrec'
    rw [(hcert m.machineId).proposedOnce m hrec m' hrec' hview]
  | false =>
    obtain ⟨S, hS, hcard, hall⟩ := hv.servers
    obtain ⟨S', hS', hcard', hall'⟩ := hv'.servers
    rw [hp] at hS hS' hcard hcard'
    rw [← hview] at hS'
    obtain ⟨s, hsS, hsS', hc⟩ := exists_correct_inter hleader hS hS' hcard hcard'
    obtain ⟨m, hm, hsigner, rfl⟩ := hall s hsS
    obtain ⟨m', hm', hsigner', rfl⟩ := hall' s hsS'
    obtain ⟨proposal, hmem, hbody⟩ := accepted_of_prepare h hm (by rw [hsigner]; exact hc)
    obtain ⟨proposal', hmem', hbody'⟩ := accepted_of_prepare h hm' (by rw [hsigner']; exact hc)
    rw [hsigner] at hmem
    rw [hsigner'] at hmem'
    rw [hbody, hbody'] at hview ⊢
    rw [(h.logged s).acceptedOnce proposal hmem proposal' hmem' hview]

omit [DecidableEq D] in
/-- Where there is a server besides the leader, some fault is tolerated. -/
theorem pos_of_other {s view : Nat} (hs : s ∈ d.servers) (hne : s ≠ d.leaderOfView view) : 0 < d.F + d.K := by
  by_contra hzero
  have hn : d.numServers = 1 := by
    unfold Config.numServers
    omega
  have hs := Finset.mem_Icc.mp hs
  have hleader := Finset.mem_Icc.mp (d.leaderOfView_mem view)
  omega

/-- A certificate in a view-change message tells of a server besides the leader. -/
theorem pos_of_certificate (hp : p.config = d.toConfig) (h : Sound d p w)
    (hcert : ∀ i, (w.node i).Certified p w.sent) {m : Signed (ViewChange D)} (hm : Msg.viewChange m ∈ w.sent)
    (hvalid : validated p (.viewChange m) = true) (hsome : m.body.certificate.isSome = true) : 0 < d.F + d.K := by
  by_contra hzero
  have hbyz : d.byz = ∅ := Finset.card_eq_zero.mp (by have := d.byz_card; omega)
  have hserver : m.machineId ∈ d.servers := by
    have hmem := of_decide_eq_true (Bool.and_eq_true_iff.mp hvalid).1
    rwa [hp] at hmem
  have hc : d.correct m.machineId = true := d.correct_iff.mpr ⟨hserver, by rw [hbyz]; exact Finset.notMem_empty _⟩
  have hrec : m ∈ (w.node m.machineId).reported := h.recorded (.viewChange m) (known_of_mem hm) hc
  obtain ⟨vouch, hv⟩ := List.exists_mem_of_ne_nil _ ((hcert m.machineId).reported m hrec hsome)
  obtain ⟨s, hs, hne⟩ := (hcert m.machineId).someone vouch hv
  rw [hp] at hs hne
  exact hzero (pos_of_other hs hne)

/-- Two reports of one view that a server has stored are the same. -/
theorem reports_agree (hp : p.config = d.toConfig) (hdigest : Function.Injective p.digest) (h : Agreed d p w) {i : Nat}
    (hlive : (w.node i).Live) {j k : Nat} {proposal proposal' : Signed ResetProposal}
    (hj : reportedBy (w.node i).viewChange j = some proposal)
    (hk : reportedBy (w.node i).viewChange k = some proposal') (hview : proposal'.body.view = proposal.body.view) :
    proposal' = proposal := by
  have hheld := h.sound.held i hlive
  have hproper := h.proper i hlive
  -- each of them is prepared
  have hreport : ∀ l r, reportedBy (w.node i).viewChange l = some r → 0 < d.F + d.K ∧
      Prepared p (NotLeaders p) w.sent { view := r.body.view, digest := p.digest r.body } := by
    intro l r hr
    obtain ⟨m, prepares, hm, hcert⟩ := exists_certificate hr
    obtain ⟨hsent, hvalid, -⟩ := hheld.viewChange l m hm
    obtain ⟨hnodup, hothers⟩ := hproper.certificate l m hm r prepares hcert
    exact ⟨pos_of_certificate hp h.sound h.certified hsent hvalid (by rw [hcert]; rfl),
      prepared_of_certificate hsent hvalid hcert hnodup hothers⟩
  obtain ⟨hpos, hprepared⟩ := hreport j proposal hj
  have hagree := prepared_agree hp h.sound h.certified hpos hprepared (hreport k proposal' hk).2 hview.symm
  have hbody := hdigest (congrArg ResetVouch.digest hagree)
  exact hproper.header j k proposal proposal' hj hk hbody.symm

theorem agreed_piece (hp : p.config = d.toConfig) (hdigest : Function.Injective p.digest) (h : Agreed d p w) {i : Nat}
    {x : Input (Msg D) Action} {st₀ st' : Node D} {out : List (Msg D)} (hok : CertifiesSafely p i st₀ x)
    (hx : ∀ m, x = .msg m → m ∈ w.sent) (hpiece : Piece p i x st₀ (w.node i) st' out) :
    Agreed d p (w.move i (st', out)) := by
  have hlive := piece_live hpiece
  refine ⟨sound_piece h.sound hx hpiece, ?_, ?_, ?_⟩
  · exact World.move_node_inv (I := fun _ (st : Node D) => st.Live → st.Proper p) h.proper
      (proper_piece hpiece hok (h.proper i hlive))
  · refine World.move_node_inv (I := fun _ (st : Node D) => st.Certified p (out ++ w.sent)) (fun j => ?_) ?_
    · exact (h.certified j).mono fun m hm => List.mem_append_right _ hm
    · exact certified_piece hpiece hok (h.sound.held i hlive) (h.proper i hlive) (h.certified i)
  · refine World.move_node_inv (I := fun _ (st : Node D) => st.halted ≠ some .certificateMismatch) h.holds ?_
    have hrun : (w.node i).halted ≠ some .certificateMismatch := h.holds i
    have hagree : ∀ j k proposal proposal', reportedBy (w.node i).viewChange j = some proposal →
        reportedBy (w.node i).viewChange k = some proposal' → proposal'.body.view = proposal.body.view →
        proposal' = proposal := fun j k proposal proposal' => reports_agree hp hdigest h hlive
    have hcarried := (h.proper i hlive).carried
    generalize w.node i = st at hpiece hrun hagree hcarried
    cases hpiece with
    | edit _ _ _ h =>
      cases h with
      | crashed _ hmismatch =>
        intro ha
        obtain ⟨listed, herror⟩ := hmismatch (Option.some.inj ha)
        obtain ⟨proposal, proposal', hfrom, ⟨k, -, hk⟩, hview, hne⟩ := carryOver_mismatch herror
        obtain ⟨j, hj⟩ : ∃ j, reportedBy st.viewChange j = some proposal := by
          obtain hsome | ⟨j, -, hj⟩ := hfrom
          · exact hcarried proposal hsome
          · exact ⟨j, hj⟩
        exact hne (hagree j k proposal proposal' hj hk hview)
      | _ => exact hrun
    | proposes _ _ h =>
      obtain ⟨status, proposal, -, -, -, -, rfl⟩ := h.result
      exact hrun
    | enters _ _ h =>
      obtain ⟨view, vc, announced, -, -, -, -, -, rfl⟩ := h.result
      exact hrun

/-- More messages, of which correct servers signed nothing new. -/
theorem Agreed.mono {w' : World (Node D) (Msg D)} (h : Agreed d p w) (hs : Sound d p w') (hnode : w'.node = w.node)
    (hsub : ∀ m ∈ w.sent, m ∈ w'.sent) : Agreed d p w' := by
  refine ⟨hs, ?_, ?_, ?_⟩
  · rw [hnode]
    exact h.proper
  · rw [hnode]
    exact fun i => (h.certified i).mono hsub
  · rw [hnode]
    exact h.holds

theorem agreed_run (hp : p.config = d.toConfig) (hdigest : Function.Injective p.digest) {incarnations : Nat → Nat}
    {evs : List (Event (Msg D) Action)}
    (hok : World.Along (env d) (handle p) (fun w i x => CertifiesSafely p i (w.node i) x) (start incarnations) evs) :
    Agreed d p ((start incarnations).run (env d) (handle p) evs) := by
  refine run_pieces (K := CertifiesSafely p) ?_ ?_ ?_ ?_ hok
  · refine ⟨sound_start incarnations, fun i _ => ?_, fun i => ?_, fun i h => nomatch h⟩
    · constructor
      · exact fun _ _ hm => nomatch hm
      · exact fun _ _ hm => nomatch hm
      · exact fun _ _ _ _ hr => nomatch hr
      · exact fun _ hr => nomatch hr
      · exact fun _ hm => absurd hm List.not_mem_nil
      · exact fun h => nomatch h
    · constructor
      all_goals exact fun _ hm => absurd hm List.not_mem_nil
  · intro w w' hnode hsent h
    refine h.mono (h.sound.mono hnode (fun m => (hsent m).mpr) fun part hpart _ => ?_) hnode fun m => (hsent m).mpr
    exact hpart.mono fun m => (hsent m).mp
  · exact fun w i x st₀ st' out h _ hok hx hpiece => agreed_piece hp hdigest h hok hx hpiece
  · exact fun w m h hf => h.mono (sound_inject h.sound hf) rfl fun _ hm => List.mem_cons_of_mem _ hm

/-- **Certificates agree.** In every run whose steps are safe for certificates, no two
correct servers commit to different digests in one view, and the assertion about the
certificates of a view holds. -/
theorem certificates_unique (d : Deployment) (digest : ResetProposal → D) (hdigest : Function.Injective digest)
    (incarnations : Nat → Nat) (evs : List (Event (Msg D) Action)) :
    let p : Params D := { config := d.toConfig, digest }
    let w := (start incarnations).run (env d) (handle p) evs
    World.Along (env d) (handle p) (fun w i x => CertifiesSafely p i (w.node i) x) (start incarnations) evs →
    (∀ i j, d.correct i = true → d.correct j = true → ∀ vouch ∈ (w.node i).committed,
      ∀ vouch' ∈ (w.node j).committed, vouch.view = vouch'.view → vouch.digest = vouch'.digest) ∧
    ∀ i, d.correct i = true → (w.node i).halted ≠ some .certificateMismatch := by
  intro p w hok
  have h : Agreed d p w := agreed_run rfl hdigest hok
  refine ⟨fun i j _ _ vouch hv vouch' hv' hview => ?_, fun i _ => h.holds i⟩
  obtain ⟨s, hs, hne⟩ := (h.certified i).someone vouch hv
  have hagree := prepared_agree rfl h.sound h.certified (pos_of_other hs hne) ((h.certified i).prepared vouch hv)
    ((h.certified j).prepared vouch' hv') hview
  rw [hagree]

end Agreement

/-! ## Runs -/

section Runs

/-- A run of servers that have just started, with digests that are the proposals. -/
def runOf (d : Deployment) (evs : List (Event (Msg ResetProposal) Action)) : World (Node ResetProposal) (Msg ResetProposal) :=
  (start fun _ => 0).run (env d) (handle { config := d.toConfig, digest := id }) evs

/-- Four servers, the first of which is controlled. -/
def badLeader : Deployment := { F := 1, K := 0, byz := {1}, byz_card := le_of_eq (Finset.card_singleton 1) }

/-- The share that a server signs. -/
def ownShare (i : Nat) : Signed ResetShare := constructShare i (Node.boot 0 : Node ResetProposal) 0 []

/-- The servers sign their shares, and everyone who is named gets the shares of the given
servers and waits for more. -/
def shareEvents (signers holders sharers : List Nat) : List (Event (Msg ResetProposal) Action) :=
  (signers.map fun i => .handle i (.act (.share 0 []))) ++
    holders.flatMap fun i => (sharers.map fun j => .handle i (.msg (.share (ownShare j)))) ++
      [.handle i (.act .postSharesDelay)]

/-- A proposal of the first server. -/
def proposalOf (sharers : List Nat) : Signed ResetProposal :=
  signedBy 1 { view := 1, numShares := sharers.length, shares := sharers.map ownShare }

/-- The Prepare a server sends for a proposal in the first view. -/
def prepareOf (i : Nat) (proposal : Signed ResetProposal) : Msg ResetProposal :=
  .prepare (constructPrepare { config := badLeader.toConfig, digest := id } i (Node.boot 0) proposal)

/-- Server 1 has one proposal prepared by server 2 and itself, and another by server 3 and
itself. -/
def twiceRun : List (Event (Msg ResetProposal) Action) :=
  .inject (.share (ownShare 1)) :: shareEvents [2, 3, 4] [2, 3] [1, 2, 3] ++
    [(2, [1, 2, 3]), (3, [1, 2, 3, 4])].flatMap fun (i, sharers) =>
      [.inject (.proposal (proposalOf sharers)), .handle i (.msg (.proposal (proposalOf sharers))),
        .inject (prepareOf 1 (proposalOf sharers)), .handle i (.msg (prepareOf 1 (proposalOf sharers))),
        .handle i (.msg (prepareOf i (proposalOf sharers)))]

/-- A server hands itself the messages of a kind that have been sent, oldest first. -/
def handleAll (i : Nat) (kind : Msg ResetProposal → Bool) (w : World (Node ResetProposal) (Msg ResetProposal)) :
    List (Event (Msg ResetProposal) Action) :=
  (w.sent.filter kind).reverse.map fun m => .handle i (.msg m)

def isNewLeader : Msg ResetProposal → Bool
  | .newLeader _ => true
  | _ => false

def isViewChange : Msg ResetProposal → Bool
  | .viewChange _ => true
  | _ => false

def isNewView : Msg ResetProposal → Bool
  | .newView _ => true
  | _ => false

/-- Events, and then those that depend on what has been sent by then. -/
def extend (d : Deployment) (evs : List (Event (Msg ResetProposal) Action))
    (more : World (Node ResetProposal) (Msg ResetProposal) → List (Event (Msg ResetProposal) Action)) :
    List (Event (Msg ResetProposal) Action) :=
  evs ++ more (runOf d evs)

/-- Servers 2 and 3 give up on the first view, and server 2, the next leader, gets the
view changes. -/
def mismatchRun : List (Event (Msg ResetProposal) Action) :=
  let evs := extend badLeader twiceRun fun _ =>
    [.handle 2 (.act .rotateLeader), .handle 3 (.act .rotateLeader), .inject (.newLeader (signedBy 1 { newView := 2 })),
      .inject (.viewChange (signedBy 1 { tag := { machineId := 1, view := 2, seqNum := 1 }, certificate := none }))]
  let evs := extend badLeader evs fun w => handleAll 2 isNewLeader w ++ handleAll 3 isNewLeader w
  let evs := extend badLeader evs (handleAll 2 isViewChange)
  extend badLeader evs (handleAll 2 isNewView)

/-- The vote of the leader makes both proposals prepared, and the assertion about the two
certificates fails at the next leader. -/
theorem leader_votes_twice :
    ((runOf badLeader twiceRun).node 2).committed = [{ view := 1, digest := (proposalOf [1, 2, 3]).body }] ∧
      ((runOf badLeader twiceRun).node 3).committed = [{ view := 1, digest := (proposalOf [1, 2, 3, 4]).body }] ∧
      (proposalOf [1, 2, 3]).body ≠ (proposalOf [1, 2, 3, 4]).body ∧
      badLeader.correct 2 = true ∧ badLeader.correct 3 = true ∧
      ((runOf badLeader mismatchRun).node 2).halted = some .certificateMismatch := by
  refine ⟨?_, ?_, ?_, ?_, ?_, ?_⟩
  all_goals decide +kernel

/-- What server 1 proposes when it has the shares of the first two servers. -/
def leaderProposal : Signed ResetProposal :=
  { header := newHeader 1 (Node.boot 0 : Node ResetProposal) .resetProposal (8 + 188 * 2) 1
    body := { view := 1, numShares := 2, shares := [ownShare 1, ownShare 2] } }

/-- Two of three servers prepare what the first of them proposes. -/
def preparedRun : List (Event (Msg ResetProposal) Action) :=
  shareEvents [1, 2] [1, 2] [1, 2] ++ [.handle 2 (.msg (.proposal leaderProposal)),
    .handle 1 (.msg (prepareOf 2 leaderProposal)), .handle 2 (.msg (prepareOf 2 leaderProposal))]

/-- A test that a step is safe for certificates, for steps with no view change. -/
def certifiesSafely (p : Params ResetProposal) (st : Node ResetProposal) :
    Input (Msg ResetProposal) Action → Bool
  | .msg (.prepare m) => decide (m.machineId ≠ p.config.leaderOfView m.body.view)
  | .msg (.viewChange _) => false
  | .act .postSharesDelay => st.proposal.isNone
  | _ => true

theorem certifiesSafely_spec {p : Params ResetProposal} {me : Nat} {st : Node ResetProposal}
    {x : Input (Msg ResetProposal) Action} (h : certifiesSafely p st x = true) : CertifiesSafely p me st x := by
  refine ⟨fun m hx _ => ?_, fun m hx => ?_, fun m hx => ?_, fun hx _ => ?_⟩
  all_goals subst hx
  · change m.machineId ≠ p.config.leaderOfView m.body.view
    exact of_decide_eq_true h
  · cases h
  · cases h
  · exact Option.isNone_iff_eq_none.mp h

/-- Both servers commit, and to the same proposal. -/
theorem certificates_unique_prepared :
    ((runOf threeServers preparedRun).node 1).committed ≠ [] ∧
      ((runOf threeServers preparedRun).node 2).committed ≠ [] ∧
      ∀ vouch ∈ ((runOf threeServers preparedRun).node 1).committed,
        ∀ vouch' ∈ ((runOf threeServers preparedRun).node 2).committed,
          vouch.view = vouch'.view → vouch.digest = vouch'.digest := by
  refine ⟨by decide +kernel, by decide +kernel, ?_⟩
  unfold runOf
  refine (certificates_unique threeServers id Function.injective_id (fun _ => 0) preparedRun ?_).1 1 2
    (by decide) (by decide)
  refine World.along_of_check (k := fun w i x => certifiesSafely _ (w.node i) x) (fun _ _ _ => certifiesSafely_spec) ?_
  decide +kernel

end Runs

end Spire.Reset
