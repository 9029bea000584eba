import Spire.Incarnations

/-!
# The number of servers that are starting

`DATA.PR.num_startup` counts the servers whose `recovery_status` is `PR_STARTUP`. Where the
status is set, the counter follows. The one exception is the first request of an incarnation,
at execution and in a jump: the counter goes down whenever the server was starting, but its
status only changes if no later incarnation has been preinstalled for it.
-/

namespace Spire.Incarnations

open Spire.PreOrder
open Spire.Lib (Always Steps)

variable {E D : Type} {c : Site} {makeDigest : PoRequest E → D}

/-- `num_startup` is the number of servers that are starting. -/
def Pr.Counted (c : Site) (pr : Pr) : Prop := pr.numStartup = UInt32.ofNat (pr.startups c)

/-- A message is from one of the servers, and about them. -/
def Input.FromServers (c : Site) : Input E D → Prop
  | .newIncarnation sender _ _ _ => sender ∈ c.all
  | .incarnationCert sender _ => sender ∈ c.all
  | .resetVote sender _ _ => sender ∈ c.all
  | .lockMembers members => ∀ i ∈ members, i ∈ c.all
  | .executeResetProposal shares _ => ∀ share ∈ shares, share.1 ∈ c.all
  | _ => True

theorem Site.mem_all {i : Nat} : i ∈ c.all ↔ 1 ≤ i ∧ i ≤ c.numServers := by
  rw [Site.all, List.mem_range'_1]
  omega

theorem Site.nodup_all : c.all.Nodup := List.nodup_range'

theorem Site.me_mem_all : c.me ∈ c.all := Site.mem_all.mpr c.me_mem

/-! ## One status -/

/-- One change of a status: the count of the others stays. -/
theorem startups_update (pr : Pr) {i : Nat} (hi : i ∈ c.all) (status : RecoveryStatus) :
    Pr.startups c { pr with recoveryStatus := Function.update pr.recoveryStatus i status } +
        (if pr.recoveryStatus i = .startup then 1 else 0) =
      pr.startups c + (if status = .startup then 1 else 0) := by
  have hcount : ∀ l : List Nat, l.Nodup → i ∈ l →
      l.countP (fun j => decide (Function.update pr.recoveryStatus i status j = .startup)) +
          (if pr.recoveryStatus i = .startup then 1 else 0) =
        l.countP (fun j => decide (pr.recoveryStatus j = .startup)) + (if status = .startup then 1 else 0) := by
    intro l hl hmem
    induction l with
    | nil => cases hmem
    | cons j l ih =>
      obtain ⟨hj, hl⟩ := List.nodup_cons.mp hl
      rw [List.countP_cons, List.countP_cons]
      by_cases hji : j = i
      · subst hji
        have hrest : l.countP (fun k => decide (Function.update pr.recoveryStatus j status k = .startup)) =
            l.countP (fun k => decide (pr.recoveryStatus k = .startup)) := by
          apply List.countP_congr
          intro k hk
          have hkj : k ≠ j := by
            intro hkj
            exact hj (hkj ▸ hk)
          rw [Function.update_of_ne hkj]
        rw [hrest, Function.update_self]
        simp only [decide_eq_true_eq]
        omega
      · have hmem : i ∈ l := (List.mem_cons.mp hmem).resolve_left (Ne.symm hji)
        have := ih hl hmem
        rw [Function.update_of_ne hji]
        omega
  exact hcount c.all Site.nodup_all hi

theorem Pr.Counted.leaveStartup {pr : Pr} (h : pr.Counted c) {i : Nat} (hi : i ∈ c.all) {status : RecoveryStatus}
    (hstatus : status ≠ .startup) : (pr.leaveStartup i status).Counted c := by
  have hcount : (pr.leaveStartup i status).startups c + (if pr.recoveryStatus i = .startup then 1 else 0) =
      pr.startups c + (if status = .startup then 1 else 0) := startups_update pr hi status
  rw [if_neg hstatus] at hcount
  show (if pr.recoveryStatus i = .startup then pr.numStartup - 1 else pr.numStartup) =
    UInt32.ofNat ((pr.leaveStartup i status).startups c)
  generalize (pr.leaveStartup i status).startups c = n at hcount ⊢
  split_ifs at hcount ⊢ with hstart
  · have hcount : pr.startups c = n + 1 := by omega
    rw [h, hcount, UInt32.ofNat_add]
    exact UInt32.add_sub_cancel _ _
  · have hcount : pr.startups c = n := by omega
    rw [h, hcount]

theorem Pr.Counted.enterStartup {pr : Pr} (h : pr.Counted c) {i : Nat} (hi : i ∈ c.all)
    (hstatus : pr.recoveryStatus i ≠ .startup) : (pr.enterStartup i).Counted c := by
  have hcount : (pr.enterStartup i).startups c + (if pr.recoveryStatus i = .startup then 1 else 0) =
      pr.startups c + (if RecoveryStatus.startup = .startup then 1 else 0) := startups_update pr hi .startup
  rw [if_neg hstatus, if_pos rfl, Nat.add_zero] at hcount
  show pr.numStartup + 1 = UInt32.ofNat ((pr.enterStartup i).startups c)
  rw [hcount, h, UInt32.ofNat_add]
  rfl

/-- Where the incarnation that starts is not behind the one preinstalled, the server leaves
`PR_STARTUP` like anywhere else. -/
theorem Pr.Counted.noteStartup {pr : Pr} (h : pr.Counted c) {i : Nat} (hi : i ∈ c.all) {ps : PoSeqPair}
    (htied : pr.recoveryStatus i = .startup → pr.preinstalledIncarnations i ≤ ps.incarnation) :
    (pr.noteStartup i ps).Counted c := by
  by_cases hle : pr.preinstalledIncarnations i ≤ ps.incarnation
  · have hleave : (pr.leaveStartup i .normal).Counted c := h.leaveStartup hi (by decide)
    unfold Pr.Counted Pr.noteStartup
    simp only [if_pos hle]
    exact hleave
  · have hnot : pr.recoveryStatus i ≠ .startup := fun hstart => hle (htied hstart)
    unfold Pr.Counted Pr.noteStartup
    simp only [if_neg hle, if_neg hnot]
    exact h

/-! ## One step -/

/-- If the server is starting, no incarnation later than the one that starts is preinstalled for it. -/
def Node.Tied (nd : Node E D) (i inc : Nat) : Prop :=
  nd.pr.recoveryStatus i = .startup → nd.pr.preinstalledIncarnations i ≤ inc

/-- The first request of an incarnation is among those that an ordinal executes for a server. -/
def Node.executeStarts (nd : Node E D) (slot : Slot) (i : Nat) : Prop :=
  ⟨(slot.cur i).incarnation, 1⟩ ∈ Node.requestsOf (slot.prev i) (slot.cur i) ∧
    (nd.po.lastExecutedPoReqs i).incarnation < (slot.cur i).incarnation

/-- The condition on a step: each incarnation it starts is tied. -/
def Node.TiedAt (c : Site) (nd : Node E D) : Input E D → Prop
  | .execute slot =>
    nd.readyToExecute c slot → ∀ i ∈ c.all, nd.executeStarts slot i → nd.Tied i (slot.cur i).incarnation
  | .jump slot _ => ∀ i ∈ c.all, nd.jumpStarts slot i → nd.Tied i (slot.cur i).incarnation
  | _ => True

/-- What the condition looks at is the same for a server. -/
structure Node.SameAt (i : Nat) (nd nd' : Node E D) : Prop where
  recoveryStatus : nd'.pr.recoveryStatus i = nd.pr.recoveryStatus i
  preinstalled : nd'.pr.preinstalledIncarnations i = nd.pr.preinstalledIncarnations i
  lastExecuted : nd'.po.lastExecutedPoReqs i = nd.po.lastExecutedPoReqs i

theorem Node.SameAt.trans {i : Nat} {nd nd' nd'' : Node E D} (h : nd.SameAt i nd') (h' : nd'.SameAt i nd'') :
    nd.SameAt i nd'' :=
  { recoveryStatus := h'.recoveryStatus.trans h.recoveryStatus
    preinstalled := h'.preinstalled.trans h.preinstalled
    lastExecuted := h'.lastExecuted.trans h.lastExecuted }

theorem Node.Tied.of_same {i inc : Nat} {nd nd' : Node E D} (h : nd.Tied i inc) (hsame : nd.SameAt i nd') :
    nd'.Tied i inc := by
  unfold Node.Tied
  rw [hsame.recoveryStatus, hsame.preinstalled]
  exact h

namespace Node

variable {nd nd' : Node E D} {slot : Slot} {i j : Nat}

theorem noteStartup_same {ps : PoSeqPair} (h : nd.noteStartup c makeDigest i ps = .ok nd') (hne : j ≠ i) :
    nd.SameAt j nd' := by
  obtain ⟨po, hpo, rfl⟩ := noteStartup_ok h
  refine { recoveryStatus := ?_, preinstalled := ?_, lastExecuted := ?_ }
  · show (if _ then Function.update nd.pr.recoveryStatus i .normal else nd.pr.recoveryStatus) j = _
    split_ifs
    · exact Function.update_of_ne hne _ _
    · rfl
  · show (if _ then Function.update nd.pr.preinstalledIncarnations i ps.incarnation
      else nd.pr.preinstalledIncarnations) j = _
    split_ifs
    · exact Function.update_of_ne hne _ _
    · rfl
  · rcases hpo with rfl | hpo
    · rfl
    · exact congrFun hpo.lastExecutedPoReqs j

theorem executeRequest_same {seqNum : Nat} {ps : PoSeqPair}
    (h : executeRequest c makeDigest seqNum i nd ps = .ok nd') (hne : j ≠ i) : nd.SameAt j nd' := by
  obtain ⟨-, nd₁, hstart, rfl⟩ := executeRequest_ok h
  have hlast : nd₁.SameAt j { nd₁ with po := { nd₁.po with
      lastExecutedPoReqs := Function.update nd₁.po.lastExecutedPoReqs i ps
      slotLists := Function.update nd₁.po.slotLists seqNum (nd₁.po.slotLists seqNum ++ [⟨i, ps⟩]) } } :=
    ⟨rfl, rfl, Function.update_of_ne hne _ _⟩
  rcases hstart with ⟨-, -, hstart⟩ | ⟨-, rfl⟩
  · exact (noteStartup_same hstart hne).trans hlast
  · exact hlast

theorem executeServer_same (h : executeServer c makeDigest slot nd i = .ok nd') (hne : j ≠ i) : nd.SameAt j nd' := by
  obtain ⟨po, hpo, h⟩ := executeServer_ok h
  have hlast : po.lastExecutedPoReqs = nd.po.lastExecutedPoReqs := by
    rcases hpo with ⟨-, hpo⟩ | ⟨-, rfl⟩
    · exact (foldlM_collected hpo).lastExecutedPoReqs
    · rfl
  have hdropped : nd.SameAt j { nd with po := po } := ⟨rfl, rfl, congrFun hlast j⟩
  exact Lib.foldlM_inv (I := nd.SameAt j)
    (fun ps _ s t hround hs => hs.trans (executeRequest_same hround hne)) h hdropped

theorem jumpServer_same (h : jumpServer c makeDigest slot nd i = .ok nd') (hne : j ≠ i) : nd.SameAt j nd' := by
  obtain ⟨nd₁, po, hstart, hpo, rfl⟩ := jumpServer_ok h
  have haru : nd.SameAt j { nd with po := jumpAru slot i nd.po } := ⟨rfl, rfl, rfl⟩
  have hnote : nd.SameAt j nd₁ := by
    rcases hstart with ⟨-, hstart⟩ | ⟨-, rfl⟩
    · exact haru.trans (noteStartup_same hstart hne)
    · exact haru
  refine hnote.trans ⟨rfl, rfl, ?_⟩
  show po.lastExecutedPoReqs j = _
  rw [(foldlM_collected hpo).lastExecutedPoReqs]
  exact Function.update_of_ne hne _ _

/-- The requests of an ordinal are all of the incarnation that it made eligible. -/
theorem incarnation_of_mem {prev cur ps : PoSeqPair} (h : ps ∈ requestsOf prev cur) :
    ps.incarnation = cur.incarnation := by
  obtain ⟨seq, -, rfl⟩ := List.mem_map.mp h
  rfl

theorem noteStartup_counted {ps : PoSeqPair} (h : nd.noteStartup c makeDigest i ps = .ok nd') (hi : i ∈ c.all)
    (htied : nd.Tied i ps.incarnation) (hcount : nd.pr.Counted c) : nd'.pr.Counted c := by
  obtain ⟨po, -, rfl⟩ := noteStartup_ok h
  exact hcount.noteStartup hi htied

/-- After the first of its requests a server has the incarnation of the ordinal executed. -/
theorem executeServer_counted (h : executeServer c makeDigest slot nd i = .ok nd') (hi : i ∈ c.all)
    (htied : nd.executeStarts slot i → nd.Tied i (slot.cur i).incarnation) (hcount : nd.pr.Counted c) :
    nd'.pr.Counted c := by
  obtain ⟨po, hpo, h⟩ := executeServer_ok h
  have hlast : po.lastExecutedPoReqs = nd.po.lastExecutedPoReqs := by
    rcases hpo with ⟨-, hpo⟩ | ⟨-, rfl⟩
    · exact (foldlM_collected hpo).lastExecutedPoReqs
    · rfl
  refine (Lib.foldlM_inv (I := fun nd' => nd'.pr.Counted c ∧
    (nd'.executeStarts slot i → nd'.Tied i (slot.cur i).incarnation)) ?_ h ⟨hcount, ?_⟩).1
  · rintro ps hps s t hround ⟨hcounted, hstarts⟩
    have hinc := incarnation_of_mem hps
    obtain ⟨-, nd₁, hstart, rfl⟩ := executeRequest_ok hround
    constructor
    · rcases hstart with ⟨hnew, hfirst, hstart⟩ | ⟨-, rfl⟩
      · have hps1 : ps = ⟨(slot.cur i).incarnation, 1⟩ := by
          rw [← hinc, ← hfirst]
        have htied : s.Tied i ps.incarnation := hinc ▸ hstarts ⟨hps1 ▸ hps, hinc ▸ hnew⟩
        have hnote : nd₁.pr.Counted c := noteStartup_counted hstart hi htied hcounted
        exact hnote
      · exact hcounted
    · rintro ⟨-, hlt⟩
      have hlt : (Function.update nd₁.po.lastExecutedPoReqs i ps i).incarnation < (slot.cur i).incarnation := hlt
      rw [Function.update_self, hinc] at hlt
      exact absurd hlt (Nat.lt_irrefl _)
  · rintro ⟨hmem, hlt⟩
    exact htied ⟨hmem, hlast ▸ hlt⟩

theorem jumpServer_counted (h : jumpServer c makeDigest slot nd i = .ok nd') (hi : i ∈ c.all)
    (htied : nd.jumpStarts slot i → nd.Tied i (slot.cur i).incarnation) (hcount : nd.pr.Counted c) :
    nd'.pr.Counted c := by
  obtain ⟨nd₁, po, hstart, -, rfl⟩ := jumpServer_ok h
  rcases hstart with ⟨hstarts, hstart⟩ | ⟨-, rfl⟩
  · have hnote : nd₁.pr.Counted c := noteStartup_counted hstart hi (htied hstarts) hcount
    exact hnote
  · exact hcount

theorem executeCommit_counted (h : nd.executeCommit c makeDigest slot = .ok nd')
    (htied : nd.TiedAt (E := E) (D := D) c (.execute slot)) (hcount : nd.pr.Counted c) : nd'.pr.Counted c := by
  unfold executeCommit at h
  split_ifs at h with hready
  · refine Lib.foldlM_inv_of (I := fun nd : Node E D => nd.pr.Counted c)
      (K := fun nd i => nd.executeStarts slot i → nd.Tied i (slot.cur i).incarnation) ?_ ?_ Site.nodup_all
      (htied hready) h hcount
    · intro i hi s t hround hs hK
      exact executeServer_counted hround hi hK hs
    · intro s i t j hround hne hK hstarts
      have hsame := executeServer_same hround hne
      exact (hK ⟨hstarts.1, hsame.lastExecuted ▸ hstarts.2⟩).of_same hsame
  · cases h
    exact hcount

theorem jumpAhead_counted {collected : List Nat} (h : nd.jumpAhead c makeDigest slot collected = .ok nd')
    (htied : nd.TiedAt c (.jump slot collected)) (hcount : nd.pr.Counted c) : nd'.pr.Counted c := by
  obtain ⟨po, hpo, h⟩ := Lib.bind_eq_ok.mp h
  have hlast : po.lastExecutedPoReqs = nd.po.lastExecutedPoReqs := by
    refine Lib.foldlM_inv (I := fun po' => po'.lastExecutedPoReqs = nd.po.lastExecutedPoReqs) ?_ hpo rfl
    intro seq _ s t hround hs
    obtain ⟨po', hcollect, ht⟩ := Lib.bind_eq_ok.mp hround
    cases ht
    exact (foldlM_collected hcollect).lastExecutedPoReqs.trans hs
  refine Lib.foldlM_inv_of (I := fun nd : Node E D => nd.pr.Counted c)
    (K := fun nd i => nd.jumpStarts slot i → nd.Tied i (slot.cur i).incarnation) ?_ ?_ Site.nodup_all ?_ h hcount
  · intro i hi s t hround hs hK
    exact jumpServer_counted hround hi hK hs
  · intro s i t j hround hne hK hstarts
    have hsame := jumpServer_same hround hne
    exact (hK (by unfold jumpStarts at hstarts ⊢; rwa [hsame.lastExecuted] at hstarts)).of_same hsame
  · intro i hi hstarts
    exact htied i hi (by unfold jumpStarts at hstarts ⊢; rwa [hlast] at hstarts)

theorem start_counted (ni : NewIncarnation) : (Pr.start c.me ni).Counted c := by
  have hall : Pr.startups c { Pr.start c.me ni with recoveryStatus := fun _ => .normal } = 0 :=
    List.countP_eq_zero.mpr fun i _ => by simp
  have hcount : (Pr.start c.me ni).startups c + (if RecoveryStatus.normal = .startup then 1 else 0) =
      Pr.startups c { Pr.start c.me ni with recoveryStatus := fun _ => .normal } +
        (if RecoveryStatus.startup = .startup then 1 else 0) :=
    startups_update { Pr.start c.me ni with recoveryStatus := fun _ => .normal } Site.me_mem_all .startup
  rw [hall] at hcount
  show (1 : UInt32) = UInt32.ofNat ((Pr.start c.me ni).startups c)
  have hone : (Pr.start c.me ni).startups c = 1 := by simpa using hcount
  rw [hone]
  rfl

theorem counted_ite {p : Prop} [Decidable p] {a b : Pr} (ha : a.Counted c) (hb : b.Counted c) :
    (if p then a else b).Counted c := by
  split_ifs
  · exact ha
  · exact hb

theorem newIncarnation_counted {sender now : Nat} {ni fresh : NewIncarnation} (hsender : sender ∈ c.all)
    (hcount : nd.pr.Counted c) : (nd.newIncarnation c sender ni now fresh).pr.Counted c := by
  unfold newIncarnation
  dsimp only
  iterate 5
    rw [apply_ite Node.pr]
    refine counted_ite hcount ?_
  generalize hstarts : decide (nd.pr.newIncarnationVal sender < ni.incarnation ∧
    nd.pr.recoveryStatus sender ≠ .startup ∧ nd.pr.recoveryStatus c.me ≠ .startup) = starts
  have hpr : (if starts = true then nd.pr.enterStartup sender else nd.pr).Counted c := by
    split_ifs with h
    · rw [h] at hstarts
      exact hcount.enterStartup hsender (of_decide_eq_true hstarts).2.1
    · exact hcount
  rw [apply_ite Node.pr]
  exact counted_ite (start_counted fresh) hpr

theorem acceptIncarnation_counted {replica inc ts : Nat} (hreplica : replica ∈ c.all)
    (h : nd.acceptIncarnation c makeDigest replica inc ts = .ok nd') (hcount : nd.pr.Counted c) :
    nd'.pr.Counted c := by
  unfold acceptIncarnation at h
  dsimp only at h
  have hleave : (nd.pr.leaveStartup replica .recovery).Counted c := hcount.leaveStartup hreplica (by decide)
  split_ifs at h
  · cases h
    exact hleave
  · cases h
    exact hleave
  · obtain ⟨po, -, rfl⟩ := withPo_ok h
    exact hleave

theorem resetVote_counted {sender ackedIncarnation ackedNonce : Nat} (hsender : sender ∈ c.all)
    (hcount : nd.pr.Counted c) : (nd.resetVote c sender ackedIncarnation ackedNonce).pr.Counted c := by
  unfold resetVote
  split_ifs with _ _ hstarts
  · exact hcount
  · exact hcount
  · exact hcount.enterStartup hsender hstarts.2
  · exact hcount

theorem lockMembers_counted {members : List Nat} (hmembers : ∀ i ∈ members, i ∈ c.all)
    (hcount : nd.pr.Counted c) : (nd.lockMembers members).pr.Counted c :=
  Lib.foldl_inv_of (I := fun pr : Pr => pr.Counted c)
    (fun _ _ hi hpr => hpr.leaveStartup hi (by decide)) hmembers hcount

theorem installShare_counted {pr : Pr} {share : Nat × Nat} (hshare : share.1 ∈ c.all) (hcount : pr.Counted c) :
    (installShare c pr share).Counted c := by
  unfold installShare
  dsimp only
  split_ifs
  · exact hcount
  · exact hcount.leaveStartup hshare (by decide)

theorem executeResetProposal_counted {shares : List (Nat × Nat)} (hshares : ∀ share ∈ shares, share.1 ∈ c.all)
    (hcount : nd.pr.Counted c) : (nd.executeResetProposal c shares).pr.Counted c :=
  Lib.foldl_inv_of (I := fun pr : Pr => pr.Counted c) (fun _ _ hi hpr => installShare_counted hi hpr) hshares hcount

theorem processPoCertificate_counted [DecidableEq D] {cert : PoCert E D}
    (h : nd.processPoCertificate c makeDigest cert = .ok nd') (hcount : nd.pr.Counted c) : nd'.pr.Counted c := by
  have hcertified : ∀ {nd nd' : Node E D}, nd.processCertified c makeDigest cert = .ok nd' → nd'.pr = nd.pr := by
    intro nd nd' h
    obtain ⟨_, -, h⟩ := Lib.bind_eq_ok.mp h
    obtain ⟨_, -, h⟩ := Lib.bind_eq_ok.mp h
    cases h
    rfl
  unfold processPoCertificate at h
  dsimp only at h
  split_ifs at h
  · cases h
    exact hcount
  · cases h
    exact hcount
  · cases h
    exact hcount
  · rw [hcertified h]
    exact hcount
  · rw [hcertified h]
    exact hcount

theorem handle_counted [DecidableEq D] {x : Input E D} (hx : x.FromServers c) (htied : nd.TiedAt c x)
    (h : nd.handle c makeDigest x = .ok nd') (hcount : nd.pr.Counted c) : nd'.pr.Counted c := by
  cases x with
  | newIncarnation sender ni now fresh =>
    cases h
    exact newIncarnation_counted hx hcount
  | incarnationCert sender ni =>
    unfold handle incarnationCert at h
    dsimp only at h
    split_ifs at h
    · cases h
      exact hcount
    · cases h
      exact hcount
    · exact acceptIncarnation_counted hx h hcount
  | incarnationAcked =>
    unfold handle incarnationAcked at h
    dsimp only at h
    split at h
    · cases h
      exact hcount
    · exact acceptIncarnation_counted Site.me_mem_all h hcount
  | resetVote sender ackedIncarnation ackedNonce =>
    cases h
    exact resetVote_counted hx hcount
  | lockMembers members =>
    cases h
    exact lockMembers_counted hx hcount
  | executeResetProposal shares resumes =>
    have hinstalled : (nd.executeResetProposal c shares).pr.Counted c := executeResetProposal_counted hx hcount
    unfold handle at h
    dsimp only at h
    split_ifs at h
    · obtain ⟨po, -, rfl⟩ := resume_ok h
      exact hinstalled
    · cases h
      exact hinstalled
  | resetPrime fresh =>
    cases h
    exact start_counted fresh
  | poRequest r =>
    obtain ⟨po, -, rfl⟩ := withPo_ok h
    exact hcount
  | poAck ack =>
    obtain ⟨po, -, rfl⟩ := withPo_ok h
    exact hcount
  | poCertificate cert => exact processPoCertificate_counted h hcount
  | periodicRetrans =>
    obtain ⟨po, -, rfl⟩ := resume_ok h
    exact hcount
  | execute slot => exact executeCommit_counted h htied hcount
  | collect seq =>
    obtain ⟨po, -, rfl⟩ := withPo_ok h
    exact hcount
  | jump slot collected => exact jumpAhead_counted h htied hcount

theorem step_counted [DecidableEq D] {x : Input E D} (hx : x.FromServers c) (htied : nd.TiedAt c x)
    (hcount : nd.pr.Counted c) : (nd.step c makeDigest x).pr.Counted c := by
  unfold step
  split_ifs
  · exact hcount
  · split
    · rename_i nd' h
      exact handle_counted hx htied h hcount
    · exact hcount

end Node

/-! ## Runs -/

/-- **The counter.** Where every incarnation that starts is tied, `num_startup` is the number of
servers that are starting in every state of a run. -/
theorem num_startup_counted [DecidableEq D] (c : Site) (makeDigest : PoRequest E → D) (ni : NewIncarnation)
    (xs : List (Input E D)) (hfrom : ∀ x ∈ xs, x.FromServers c)
    (htied : Steps (Node.step c makeDigest) (Node.TiedAt c) (Node.start c ni) xs) :
    Always (Node.step c makeDigest) (fun nd => nd.pr.Counted c) (Node.start c ni) xs :=
  Lib.always_of_steps (fun _ _ hx hcount hK => Node.step_counted hx hK hcount) hfrom htied
    (Node.start_counted ni)

/-! ### An incarnation that starts late -/

/-- Server 1 of four. -/
def firstSite : Site := { F := 1, K := 0, me := 1, me_mem := by decide, maxAckParts := 4 }

def walkInOrder : Walk := { order := id, perm := fun _ => .refl _ }

def digestOf (r : PoRequest Nat) : List Nat := r.events

/-- The message the server starts with. -/
def ownIncarnation : NewIncarnation := { incarnation := 1, nonce := 0, timestamp := 10, key := 0 }

/-- Server 2 in its fifth incarnation. -/
def fifthIncarnation : NewIncarnation := { incarnation := 5, nonce := 0, timestamp := 20, key := 0 }

def firstRequest : PoRequest Nat := { machineId := 2, incarnation := 5, seq := ⟨5, 1⟩, events := [7] }

def firstAck (i : Nat) : PoAck (List Nat) :=
  { machineId := i, incarnation := 0, preinstalledIncarnations := [1, 5, 0, 0], parts := [⟨2, ⟨5, 1⟩, [7]⟩] }

/-- An ordinal that makes the first request of the fifth incarnation eligible. -/
def firstSlot : Slot :=
  { seqNum := 1
    prev := fun _ => .zero
    cur := Function.update (fun _ => .zero) 2 ⟨5, 1⟩
    walk := fun _ => walkInOrder }

/-- Server 2 is starting when the server jumps past its first request. -/
def tiedRun : List (Input Nat (List Nat)) :=
  [.incarnationAcked, .newIncarnation 2 fifthIncarnation 20 ownIncarnation, .jump firstSlot []]

/-- Server 2 restarts twice before the first request of its fifth incarnation is executed. -/
def strandedRun : List (Input Nat (List Nat)) :=
  [.incarnationAcked, .incarnationCert 2 fifthIncarnation, .poRequest firstRequest, .poAck (firstAck 2),
    .poAck (firstAck 3), .poAck (firstAck 4), .incarnationCert 2 { fifthIncarnation with incarnation := 6, timestamp := 40 },
    .newIncarnation 2 { fifthIncarnation with incarnation := 7, timestamp := 60 } 60 ownIncarnation, .execute firstSlot]

theorem num_startup_counted_tied :
    (∀ x ∈ tiedRun, x.FromServers firstSite) ∧
      Steps (Node.step firstSite digestOf) (Node.TiedAt firstSite) (Node.start firstSite ownIncarnation) tiedRun ∧
      Always (Node.step firstSite digestOf) (fun nd => nd.pr.Counted firstSite)
        (Node.start firstSite ownIncarnation) tiedRun := by
  have hfrom : ∀ x ∈ tiedRun, x.FromServers firstSite := by
    simp [tiedRun, Input.FromServers, Site.mem_all, firstSite, Config.numServers]
  have htied : Steps (Node.step firstSite digestOf) (Node.TiedAt firstSite)
      (Node.start firstSite ownIncarnation) tiedRun := by
    refine ⟨trivial, trivial, ?_, trivial⟩
    intro i hi hstarts _
    have hlater : ∀ i ∈ firstSite.all, 0 < (firstSlot.cur i).seqNum →
        (([.incarnationAcked, .newIncarnation 2 fifthIncarnation 20 ownIncarnation].foldl
          (Node.step firstSite digestOf) (Node.start firstSite ownIncarnation)).pr.preinstalledIncarnations i ≤
        (firstSlot.cur i).incarnation) := by decide
    exact hlater i hi hstarts.2.2
  exact ⟨hfrom, htied, num_startup_counted firstSite digestOf ownIncarnation tiedRun hfrom htied⟩

/-- The counter is zero, and server 2 is starting. -/
theorem startup_stranded :
    (∀ x ∈ strandedRun, x.FromServers firstSite) ∧
      ¬Always (Node.step firstSite digestOf) (fun nd => nd.pr.Counted firstSite)
        (Node.start firstSite ownIncarnation) strandedRun := by
  constructor
  · simp [strandedRun, Input.FromServers, Site.mem_all, firstSite, Config.numServers]
  · intro h
    have hlast := h.of_prefix (List.prefix_refl strandedRun)
    have hcount : (0 : UInt32) = UInt32.ofNat 1 := hlast
    exact absurd hcount (by decide)

end Spire.Incarnations
