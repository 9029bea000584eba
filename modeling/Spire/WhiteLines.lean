import Spire.OwnRequests

/-!
# White lines

`PRE_ORDER_Garbage_Collect_PO_Slot` sets `white_line` to what it collects, whatever it was. The calls
come from the ordinals that are collected, from the clean-up at the start of an incarnation, which
walks a hash table, and from jumps. So the white line goes up where the calls come in order, and
goes back where a request of an old incarnation is collected after the clean-up of that incarnation.

In any order it is at a request that was collected or superseded, or before one.
-/

namespace Spire.Incarnations

open Spire.PreOrder
open Spire.Lib (Always Steps Rounds)

variable {E D : Type} {c : Site} {makeDigest : PoRequest E → D} {preinstalled : Nat → Nat}

/-! ## Calls in order -/

/-- Sequence numbers that go up from another one. -/
def Ascends (w : PoSeqPair) (l : List PoSeqPair) : Prop := (w :: l).Pairwise SeqLe

instance (w : PoSeqPair) (l : List PoSeqPair) : Decidable (Ascends w l) := inferInstanceAs (Decidable (List.Pairwise _ _))

section Order

variable {po po' : Po E D} {w : PoSeqPair} {l l' : List PoSeqPair} {pids : List PoId} {i s : Nat}

theorem Ascends.sublist (h : Ascends w l) (hsub : l'.Sublist l) : Ascends w l' :=
  List.Pairwise.sublist (hsub.cons_cons w) h

theorem Ascends.left (h : Ascends w (l ++ l')) : Ascends w l := h.sublist (List.sublist_append_left l l')

/-- The rest goes up from where the beginning got to. -/
theorem Ascends.right {v : PoSeqPair} (h : Ascends w (l ++ l')) (hv : v = w ∨ v ∈ l) : Ascends v l' := by
  rcases hv with rfl | hv
  · exact h.sublist (List.sublist_append_right l l')
  · have hpair : (l ++ l').Pairwise SeqLe := (List.pairwise_cons.mp h).2
    refine List.pairwise_cons.mpr ⟨fun q hq => ?_, (List.pairwise_append.mp hpair).2.1⟩
    exact (List.pairwise_append.mp hpair).2.2 v hv q hq

theorem Ascends.le (h : Ascends w l) {v : PoSeqPair} (hv : v = w ∨ v ∈ l) : SeqLe w v := by
  rcases hv with rfl | hv
  · exact seqLe_refl v
  · exact (List.pairwise_cons.mp h).1 v hv

theorem collectedOf_cons (pid : PoId) (pids : List PoId) (i : Nat) :
    collectedOf (pid :: pids) i = if pid.serverId = i then pid.seq :: collectedOf pids i else collectedOf pids i := by
  unfold collectedOf
  rw [List.filter_cons]
  by_cases hi : pid.serverId = i
  · simp [hi]
  · simp [hi]

theorem collectedOf_append (pids pids' : List PoId) (i : Nat) :
    collectedOf (pids ++ pids') i = collectedOf pids i ++ collectedOf pids' i := by
  unfold collectedOf
  rw [List.filter_append, List.map_append]

/-- The white line is where it was, or at a request that was collected. -/
theorem whiteLine_mem (h : pids.foldlM garbageCollectPoSlot po = .ok po') (i : Nat) :
    po'.whiteLine i = po.whiteLine i ∨ po'.whiteLine i ∈ collectedOf pids i := by
  rw [(foldlM_garbageCollect h i).2.1]
  cases hlast : (collectedOf pids i).getLast? with
  | none => exact .inl rfl
  | some v => exact .inr (List.mem_of_getLast? hlast)

end Order

/-! ## Ordinals that are collected -/

section Ordinals

variable {po po' : Po E D} {collected : List Nat} {seq i : Nat}

/-- Collecting an ordinal takes its requests away. -/
theorem garbageCollectRequests_ok (h : garbageCollectRequests po seq = .ok po') :
    ∃ po₁, (po.slotLists seq).foldlM garbageCollectPoSlot po = .ok po₁ ∧
      po' = { po₁ with slotLists := Function.update po.slotLists seq [] } := by
  obtain ⟨po₁, hfold, h⟩ := Lib.bind_eq_ok.mp h
  cases h
  refine ⟨po₁, hfold, ?_⟩
  rw [(foldlM_collected hfold).slotLists]

theorem flatMap_update_sublist (f : Nat → List PoId) (seq : Nat) (l : List Nat) :
    (l.flatMap (Function.update f seq [])).Sublist (l.flatMap f) := by
  induction l with
  | nil => exact List.Sublist.refl _
  | cons n l ih =>
    rw [List.flatMap_cons, List.flatMap_cons]
    refine List.Sublist.append ?_ ih
    by_cases hn : n = seq
    · rw [hn, Function.update_self]
      exact List.nil_sublist _
    · rw [Function.update_of_ne hn]

theorem collectedOf_sublist {pids pids' : List PoId} (h : pids.Sublist pids') (i : Nat) :
    (collectedOf pids i).Sublist (collectedOf pids' i) := (h.filter _).map _

/-- Of what is collected later, all comes after what is collected first. -/
theorem mem_collectedOf_cons {ps : PoSeqPair} : ps ∈ collectedOf ((seq :: collected).flatMap po.slotLists) i ↔
    ps ∈ collectedOf (po.slotLists seq) i ∨
      ps ∈ collectedOf (collected.flatMap (Function.update po.slotLists seq [])) i := by
  rw [List.flatMap_cons, collectedOf_append, List.mem_append]
  constructor
  · rintro (hps | hps)
    · exact .inl hps
    · by_cases hhere : ps ∈ collectedOf (po.slotLists seq) i
      · exact .inl hhere
      · obtain ⟨n, hn, hmem⟩ := List.mem_flatMap.mp (mem_collectedOf.mp hps)
        refine .inr (mem_collectedOf.mpr (List.mem_flatMap.mpr ⟨n, hn, ?_⟩))
        have hne : n ≠ seq := by
          rintro rfl
          exact hhere (mem_collectedOf.mpr hmem)
        rwa [Function.update_of_ne hne]
  · rintro (hps | hps)
    · exact .inl hps
    · exact .inr ((collectedOf_sublist (flatMap_update_sublist _ _ _) i).subset hps)

theorem keys_garbageCollect {pids : List PoId} (h : pids.foldlM garbageCollectPoSlot po = .ok po') (i : Nat) :
    (po'.history i).keys = (po.history i).keys.filter fun ps => ps ∉ collectedOf pids i := by
  induction pids generalizing po with
  | nil =>
    cases h
    exact (List.filter_eq_self.mpr fun ps _ => decide_eq_true (List.not_mem_nil)).symm
  | cons pid pids ih =>
    rw [List.foldlM_cons] at h
    obtain ⟨po₁, hpo₁, h⟩ := Lib.bind_eq_ok.mp h
    rw [ih h, collectedOf_cons]
    split
    · rename_i hi
      obtain ⟨-, rfl⟩ := garbageCollectPoSlot_ok hpo₁
      have hkeys : ((po.eraseSlot pid.serverId pid.seq).history i).keys =
          (po.history i).keys.filter fun ps => ps ≠ pid.seq := by
        show (Function.update po.history pid.serverId _ i).keys = _
        rw [hi, Function.update_self, AList.keys_erase]
        refine (List.Nodup.erase_eq_filter (po.history i).nodupKeys pid.seq).trans (List.filter_congr fun ps _ => ?_)
        rw [decide_not]
        rfl
      show List.filter _ ((po.eraseSlot pid.serverId pid.seq).history i).keys = _
      rw [hkeys, List.filter_filter]
      refine List.filter_congr fun ps _ => ?_
      simp only [List.mem_cons, not_or, ne_eq, Bool.decide_and, Bool.and_comm]
    · rename_i hi
      rw [garbageCollectPoSlot_history hpo₁ (Ne.symm hi)]

/-- What is left of a history when some ordinals have been collected. -/
def remaining (po : Po E D) (collected : List Nat) (i : Nat) : List PoSeqPair :=
  (po.history i).keys.filter fun ps => ps ∉ collectedOf (collected.flatMap po.slotLists) i

theorem keys_garbageCollectRequests (h : collected.foldlM garbageCollectRequests po = .ok po') (i : Nat) :
    (po'.history i).keys = remaining po collected i := by
  unfold remaining
  induction collected generalizing po with
  | nil =>
    cases h
    exact (List.filter_eq_self.mpr fun ps _ => decide_eq_true (List.not_mem_nil)).symm
  | cons seq collected ih =>
    rw [List.foldlM_cons] at h
    obtain ⟨po₁, hpo₁, h⟩ := Lib.bind_eq_ok.mp h
    rw [ih h]
    obtain ⟨po₂, hfold, rfl⟩ := garbageCollectRequests_ok hpo₁
    dsimp only
    rw [keys_garbageCollect hfold i, List.filter_filter]
    refine List.filter_congr fun ps _ => ?_
    rw [← Bool.decide_and, decide_eq_decide, mem_collectedOf_cons, not_or, and_comm]

/-- Where the white line is when some ordinals have been collected. -/
theorem whiteLine_garbageCollectRequests (h : collected.foldlM garbageCollectRequests po = .ok po') (i : Nat) :
    po'.whiteLine i = po.whiteLine i ∨ po'.whiteLine i ∈ collectedOf (collected.flatMap po.slotLists) i := by
  induction collected generalizing po with
  | nil =>
    cases h
    exact .inl rfl
  | cons seq collected ih =>
    rw [List.foldlM_cons] at h
    obtain ⟨po₁, hpo₁, h⟩ := Lib.bind_eq_ok.mp h
    obtain ⟨po₂, hfold, rfl⟩ := garbageCollectRequests_ok hpo₁
    rw [mem_collectedOf_cons]
    rcases ih h with hsame | hmem
    · rw [hsame]
      exact (whiteLine_mem hfold i).imp_right .inl
    · exact .inr (.inr hmem)

end Ordinals

/-! ## The server -/

namespace Node

variable {nd nd' : Node E D} {slot : Slot} {collected : List Nat} {i : Nat}

/-- The requests that a jump passes, of a history. -/
def passed (keys : List PoSeqPair) (slot : Slot) (i : Nat) : List PoSeqPair :=
  ((slot.walk i).order keys).filter fun ps => decide (seqCompare ps (slot.cur i) ≤ 0)

/-- A NEW_INCARNATION that makes the server start again. -/
def StartsOver (c : Site) (nd : Node E D) (sender : Nat) (ni : NewIncarnation) (now : Nat) : Prop :=
  sender ≠ c.me ∧ nd.pr.preinstalledIncarnations sender < ni.incarnation ∧ ¬ni.old (nd.pr.newIncarnation sender) ∧
    (now - ni.timestamp) + (ni.timestamp - now) ≤ recoveryUpdateTimestampSec ∧
    nd.pr.newIncarnationVal sender < ni.incarnation ∧
    recoveryPeriodSec ≤ Validate.wrap32 (ni.timestamp + (2 ^ 32 - nd.pr.lastRecoveryTime sender)) ∧
    nd.pr.recoveryStatus sender ≠ .startup ∧ nd.pr.recoveryStatus c.me ≠ .startup ∧
    c.F + c.K + 1 ≤ (nd.pr.numStartup + 1).toNat

theorem newIncarnation_startsOver (nd : Node E D) (sender : Nat) (ni : NewIncarnation) (now : Nat) (fresh : NewIncarnation) :
    nd.StartsOver c sender ni now ∨ nd.SameHistory (nd.newIncarnation c sender ni now fresh) := by
  by_cases hstarts : nd.StartsOver c sender ni now
  · exact .inl hstarts
  · right
    unfold newIncarnation
    dsimp only
    split
    · exact ⟨rfl, rfl, rfl, rfl⟩
    rename_i hme
    split
    · exact ⟨rfl, rfl, rfl, rfl⟩
    rename_i hinc
    split
    · exact ⟨rfl, rfl, rfl, rfl⟩
    rename_i hold
    split
    · exact ⟨rfl, rfl, rfl, rfl⟩
    rename_i htime
    split
    · exact ⟨rfl, rfl, rfl, rfl⟩
    rename_i hperiod
    -- Whether the sender starts decides what the counter is compared with.
    split
    · rename_i hnew
      have hnew := of_decide_eq_true hnew
      split
      · rename_i hcount
        refine absurd ⟨hme, not_le.mp hinc, hold, not_lt.mp htime, hnew.1, ?_, hnew.2.1, hnew.2.2, hcount.2⟩ hstarts
        exact not_lt.mp fun hlt => hperiod ⟨hnew.1, hlt⟩
      · exact ⟨rfl, rfl, rfl, rfl⟩
    · rename_i hnot
      split
      · rename_i hcount
        exact absurd hcount.1 hnot
      · exact ⟨rfl, rfl, rfl, rfl⟩

/-- The condition on a step: what it collects of a server comes in order, from its white line on;
and where all data are initialised, nothing has been collected yet. -/
def InOrder (c : Site) (nd : Node E D) : Input E D → Prop
  | .newIncarnation sender ni now _ => nd.StartsOver c sender ni now → ∀ s ∈ c.all, nd.po.whiteLine s = .zero
  | .resetPrime _ => ∀ s ∈ c.all, nd.po.whiteLine s = .zero
  | .execute slot => nd.readyToExecute c slot → ∀ i ∈ c.all, (slot.prev i).incarnation < (slot.cur i).incarnation →
      Ascends (nd.po.whiteLine i) (dropped nd.po slot i)
  | .collect seq => ∀ i, Ascends (nd.po.whiteLine i) (collectedOf (nd.po.slotLists seq) i)
  | .jump slot collected => ∀ i, Ascends (nd.po.whiteLine i)
      (collectedOf (collected.flatMap nd.po.slotLists) i ++ passed (remaining nd.po collected i) slot i)
  | _ => True

/-! ### Execution -/

theorem executeServer_whiteLine (h : executeServer c makeDigest slot nd i = .ok nd') :
    nd'.po.whiteLine i = nd.po.whiteLine i ∨
      (slot.prev i).incarnation < (slot.cur i).incarnation ∧ nd'.po.whiteLine i ∈ dropped nd.po slot i := by
  obtain ⟨po, hpo, h⟩ := executeServer_ok h
  rw [(executeRequests_keeps h i).whiteLine]
  rcases hpo with ⟨hlt, hpo⟩ | ⟨-, rfl⟩
  · have hmem := whiteLine_mem hpo i
    rw [collectedOf_map] at hmem
    exact hmem.imp_right fun hmem => ⟨hlt, hmem⟩
  · exact .inl rfl

theorem dropped_keeps (h : KeepsAt i nd.po nd'.po) : dropped nd'.po slot i = dropped nd.po slot i := by
  unfold dropped
  rw [h.history]

theorem executeCommit_rises (h : nd.executeCommit c makeDigest slot = .ok nd') (hx : nd.InOrder c (.execute slot)) :
    ∀ s ∈ c.all, SeqLe (nd.po.whiteLine s) (nd'.po.whiteLine s) := by
  unfold executeCommit at h
  split_ifs at h with hready
  · refine Lib.foldlM_leaves
      (K := fun i (nd₁ : Node E D) => nd₁.po.whiteLine i = nd.po.whiteLine i ∧ dropped nd₁.po slot i = dropped nd.po slot i)
      (B := fun i (nd₁ : Node E D) => SeqLe (nd.po.whiteLine i) (nd₁.po.whiteLine i)) ?_ ?_ Site.nodup_all
      (fun _ _ => ⟨rfl, rfl⟩) h
    · rintro i hi nd₁ nd₂ hround ⟨hwhite, hdropped⟩
      rcases executeServer_whiteLine hround with hsame | ⟨hlt, hmem⟩
      · rw [hsame, hwhite]
        exact seqLe_refl _
      · rw [hdropped] at hmem
        exact (hx hready i hi hlt).le (.inr hmem)
    · intro nd₁ i nd₂ j hround hne
      have hkeeps := executeServer_keeps hround hne
      rw [hkeeps.whiteLine, dropped_keeps hkeeps]
      exact ⟨id, id⟩
  · cases h
    exact fun _ _ => seqLe_refl _

/-! ### Jumps -/

theorem jumpServer_whiteLine (h : jumpServer c makeDigest slot nd i = .ok nd') :
    ∃ w, (w = nd.po.whiteLine i ∨ w ∈ passed (nd.po.history i).keys slot i) ∧
      nd'.po.whiteLine i = raise (slot.cur i) w := by
  obtain ⟨nd₁, po, hstart, hpo, rfl⟩ := jumpServer_ok h
  have hnoted : nd₁.po.whiteLine i = nd.po.whiteLine i ∧ nd₁.po.history i = nd.po.history i := by
    rcases hstart with ⟨-, hstart⟩ | ⟨-, rfl⟩
    · obtain ⟨po', hpo', rfl⟩ := noteStartup_ok hstart
      have hkeeps := KeepsAt.resumed hpo' i
      exact ⟨hkeeps.whiteLine, hkeeps.history⟩
    · exact ⟨rfl, rfl⟩
  have hmem := whiteLine_mem hpo i
  rw [collectedOf_map] at hmem
  dsimp only at hmem
  rw [hnoted.1, hnoted.2] at hmem
  exact ⟨po.whiteLine i, hmem, Function.update_self _ _ _⟩

theorem passed_ascends {po : Po E D} (hpo : collected.foldlM garbageCollectRequests nd.po = .ok po)
    (hx : nd.InOrder c (.jump slot collected)) (i : Nat) : Ascends (po.whiteLine i) (passed (po.history i).keys slot i) := by
  rw [keys_garbageCollectRequests hpo]
  exact (hx i).right (whiteLine_garbageCollectRequests hpo i)

theorem jumpAhead_rises (h : nd.jumpAhead c makeDigest slot collected = .ok nd') (hx : nd.InOrder c (.jump slot collected)) :
    ∀ s ∈ c.all, SeqLe (nd.po.whiteLine s) (nd'.po.whiteLine s) := by
  obtain ⟨po, hpo, h⟩ := Lib.bind_eq_ok.mp h
  refine Lib.foldlM_leaves
    (K := fun i (nd₁ : Node E D) => nd₁.po.whiteLine i = po.whiteLine i ∧ nd₁.po.history i = po.history i)
    (B := fun i (nd₁ : Node E D) => SeqLe (nd.po.whiteLine i) (nd₁.po.whiteLine i)) ?_ ?_ Site.nodup_all
    (fun _ _ => ⟨rfl, rfl⟩) h
  · rintro i - nd₁ nd₂ hround ⟨hwhite, hhistory⟩
    obtain ⟨w, hw, hwhite'⟩ := jumpServer_whiteLine hround
    rw [hwhite, hhistory] at hw
    have hfirst := (hx i).left.le (whiteLine_garbageCollectRequests hpo i)
    rw [hwhite']
    exact IsTrans.trans _ _ _ hfirst (IsTrans.trans _ _ _ ((passed_ascends hpo hx i).le hw) (le_raise _ _))
  · intro nd₁ i nd₂ j hround hne
    have hkeeps := jumpServer_keeps hround hne
    rw [hkeeps.whiteLine, hkeeps.history]
    exact ⟨id, id⟩

/-! ### Steps -/

/-- What a step that does not collect does to the white lines: it may raise them. -/
theorem executeResetProposal_whiteLine (nd : Node E D) (shares : List (Nat × Nat)) {s : Nat} (hs : s ∈ c.all) :
    (nd.executeResetProposal c shares).po.whiteLine s =
      raise ⟨(shares.foldl (installShare c) nd.pr).installedIncarnations s, 0⟩ (nd.po.whiteLine s) := by
  have hwhite := (foldl_installAru (Site.nodup_all (c := c)) (shares.foldl (installShare c) nd.pr) nd.po).whiteLine s
  rw [if_pos hs] at hwhite
  exact hwhite

theorem acceptIncarnation_whiteLine {replica inc ts : Nat}
    (h : nd.acceptIncarnation c makeDigest replica inc ts = .ok nd') : nd'.po.whiteLine = nd.po.whiteLine := by
  unfold acceptIncarnation at h
  dsimp only at h
  split_ifs at h
  · cases h
    rfl
  · cases h
    rfl
  · obtain ⟨po, hpo, rfl⟩ := withPo_ok h
    exact (sendPoAck_acked hpo).whiteLine

theorem resume_whiteLine (h : nd.resume c makeDigest = .ok nd') : nd'.po.whiteLine = nd.po.whiteLine := by
  obtain ⟨po, hpo, rfl⟩ := resume_ok h
  exact hpo.whiteLine

/-- What an input does to the white lines. -/
inductive Moves (c : Site) (makeDigest : PoRequest E → D) (nd : Node E D) : Input E D → Node E D → Prop
  | stays {x : Input E D} {nd' : Node E D} (h : nd'.po.whiteLine = nd.po.whiteLine) : Moves c makeDigest nd x nd'
  | startsOver {sender now : Nat} {ni fresh : NewIncarnation} (h : nd.StartsOver c sender ni now) :
    Moves c makeDigest nd (.newIncarnation sender ni now fresh) (start c fresh)
  | resets (fresh : NewIncarnation) : Moves c makeDigest nd (.resetPrime fresh) (start c fresh)
  | installs {shares : List (Nat × Nat)} {resumes : Bool} {nd' : Node E D} (h : ∀ s ∈ c.all, nd'.po.whiteLine s =
      raise ⟨(shares.foldl (installShare c) nd.pr).installedIncarnations s, 0⟩ (nd.po.whiteLine s)) :
    Moves c makeDigest nd (.executeResetProposal shares resumes) nd'
  | executes {slot : Slot} {nd' : Node E D} (h : nd.executeCommit c makeDigest slot = .ok nd') :
    Moves c makeDigest nd (.execute slot) nd'
  | collects {seq : Nat} {po : Po E D} (h : garbageCollectRequests nd.po seq = .ok po) :
    Moves c makeDigest nd (.collect seq) { nd with po := po }
  | jumps {slot : Slot} {collected : List Nat} {nd' : Node E D} (h : nd.jumpAhead c makeDigest slot collected = .ok nd') :
    Moves c makeDigest nd (.jump slot collected) nd'

theorem handle_moves [DecidableEq D] {x : Input E D} (h : nd.handle c makeDigest x = .ok nd') :
    Moves c makeDigest nd x nd' := by
  cases x with
  | newIncarnation sender ni now fresh =>
    cases h
    rcases newIncarnation_startsOver (c := c) nd sender ni now fresh with hstarts | hsame
    · rcases newIncarnation_same (c := c) nd sender ni now fresh with hstart | hsame
      · rw [hstart]
        exact .startsOver hstarts
      · exact .stays (by rw [hsame.po])
    · exact .stays (by rw [hsame.po])
  | incarnationCert sender ni =>
    unfold handle incarnationCert at h
    dsimp only at h
    split_ifs at h
    · cases h
      exact .stays rfl
    · cases h
      exact .stays rfl
    · exact .stays ((acceptIncarnation_whiteLine h).trans rfl)
  | incarnationAcked =>
    unfold handle incarnationAcked at h
    dsimp only at h
    split at h
    · cases h
      exact .stays rfl
    · exact .stays (acceptIncarnation_whiteLine h)
  | resetVote sender ackedIncarnation ackedNonce =>
    cases h
    exact .stays (by rw [(resetVote_same nd sender ackedIncarnation ackedNonce).po])
  | lockMembers members =>
    cases h
    exact .stays rfl
  | executeResetProposal shares resumes =>
    refine .installs fun s hs => ?_
    unfold handle at h
    dsimp only at h
    split_ifs at h
    · rw [resume_whiteLine h]
      exact executeResetProposal_whiteLine nd shares hs
    · cases h
      exact executeResetProposal_whiteLine nd shares hs
  | resetPrime fresh =>
    cases h
    exact .resets fresh
  | poRequest r =>
    obtain ⟨po, hpo, rfl⟩ := withPo_ok h
    exact .stays (processPoRequest_lines hpo).1
  | poAck ack =>
    obtain ⟨po, hpo, rfl⟩ := withPo_ok h
    have hends : Lib.Ends (· = .certificateCount) (Preordered nd.pr.preinstalledIncarnations nd.po)
        (processPoAck c makeDigest nd.pr.preinstalledIncarnations nd.po ack) := processPoAck_ends nd.po ack
    rw [hpo] at hends
    exact .stays (Preordered.whiteLine hends)
  | poCertificate cert => exact .stays (processPoCertificate_lines h).1
  | periodicRetrans => exact .stays (resume_whiteLine h)
  | execute slot => exact .executes h
  | collect seq =>
    obtain ⟨po, hpo, rfl⟩ := withPo_ok h
    exact .collects hpo
  | jump slot collected => exact .jumps h

theorem Moves.rises {x : Input E D} (h : Moves c makeDigest nd x nd') (hx : nd.InOrder c x) :
    ∀ s ∈ c.all, SeqLe (nd.po.whiteLine s) (nd'.po.whiteLine s) := by
  intro s hs
  cases h with
  | stays h =>
    rw [h]
    exact seqLe_refl _
  | startsOver h =>
    rw [hx h s hs]
    exact seqLe_refl _
  | resets fresh =>
    rw [hx s hs]
    exact seqLe_refl _
  | installs h =>
    rw [h s hs]
    exact le_raise _ _
  | executes h => exact executeCommit_rises h hx s hs
  | collects h =>
    obtain ⟨po₁, hfold, rfl⟩ := garbageCollectRequests_ok h
    exact (hx s).le (whiteLine_mem hfold s)
  | jumps h => exact jumpAhead_rises h hx s hs

end Node

/-! ## What has been collected or superseded -/

/-- No slot comes, and the white lines move to slots that go, or to where slots are superseded. -/
structure Recedes (superseded : Nat → PoSeqPair → Prop) (po po' : Po E D) : Prop where
  slots : ∀ s ps, (po'.slot? s ps).isSome → (po.slot? s ps).isSome
  whiteLine : ∀ s, po'.whiteLine s = po.whiteLine s ∨
    (po.slot? s (po'.whiteLine s)).isSome ∧ po'.slot? s (po'.whiteLine s) = none ∨ superseded s (po'.whiteLine s)

namespace Recedes

variable {superseded : Nat → PoSeqPair → Prop} {po po' po'' : Po E D}

theorem of_history (hhistory : po'.history = po.history) (hwhite : po'.whiteLine = po.whiteLine) : Recedes superseded po po' := by
  refine ⟨fun s ps h => ?_, fun s => .inl (by rw [hwhite])⟩
  unfold Po.slot? at h ⊢
  rwa [hhistory] at h

theorem refl (superseded : Nat → PoSeqPair → Prop) (po : Po E D) : Recedes superseded po po := of_history rfl rfl

theorem trans (h : Recedes superseded po po') (h' : Recedes superseded po' po'') : Recedes superseded po po'' := by
  refine ⟨fun s ps hthere => h.slots s ps (h'.slots s ps hthere), fun s => ?_⟩
  rcases h'.whiteLine s with hsame | ⟨hthere, hgone⟩ | hover
  · rw [hsame]
    refine (h.whiteLine s).imp_right (Or.imp_left fun ⟨hthere, hgone⟩ => ⟨hthere, ?_⟩)
    by_contra hsome
    have hback := h'.slots s _ (Option.isSome_iff_ne_none.mpr hsome)
    rw [hgone] at hback
    cases hback
  · exact .inr (.inl ⟨h.slots s _ hthere, hgone⟩)
  · exact .inr (.inr hover)

theorem collected {pids : List PoId} (superseded : Nat → PoSeqPair → Prop) (h : pids.foldlM garbageCollectPoSlot po = .ok po') :
    Recedes superseded po po' := by
  refine Lib.foldlM_inv (I := Recedes superseded po) (fun pid _ q q' hround hq => hq.trans ?_) h (refl superseded po)
  obtain ⟨hthere, heq⟩ := garbageCollectPoSlot_ok hround
  have hslot : ∀ s ps, q'.slot? s ps = if s = pid.serverId ∧ ps = pid.seq then none else q.slot? s ps := by
    intro s ps
    rw [heq]
    exact q.slot?_eraseSlot pid.serverId s pid.seq ps
  have hwhite := garbageCollectPoSlot_whiteLine hround
  refine ⟨fun s ps h => ?_, fun s => ?_⟩
  · rw [hslot] at h
    split at h
    · cases h
    · exact h
  · by_cases hs : s = pid.serverId
    · have hseq : q'.whiteLine s = pid.seq := by rw [hwhite, hs, Function.update_self]
      rw [hslot, hseq, if_pos ⟨hs, rfl⟩, hs]
      exact .inr (.inl ⟨hthere, rfl⟩)
    · rw [hwhite, Function.update_of_ne hs]
      exact .inl rfl

/-- Acks are sent where a server resumes normal operation. -/
theorem resumed (superseded : Nat → PoSeqPair → Prop) (h : po' = po ∨ Acked (updateAru po c) po') : Recedes superseded po po' := by
  rcases h with rfl | h
  · exact refl superseded po'
  · exact of_history h.history h.whiteLine

end Recedes

namespace Node

variable {nd nd' : Node E D} {slot : Slot} {collected : List Nat} {i : Nat}

/-- Where an input supersedes requests: at a jump those up to what is made eligible, at a reset those
before the first of the incarnation that is installed. -/
def superseded (c : Site) (nd : Node E D) (s : Nat) : Input E D → List PoSeqPair
  | .jump slot _ => [slot.cur s]
  | .executeResetProposal shares _ => [⟨(shares.foldl (installShare c) nd.pr).installedIncarnations s, 0⟩]
  | _ => []

/-- The requests that a step collects, and where it supersedes others. -/
def gone [DecidableEq D] (c : Site) (makeDigest : PoRequest E → D) (nd : Node E D) (s : Nat) (x : Input E D) : List PoSeqPair :=
  ((nd.po.history s).keys.filter fun ps => ((nd.step c makeDigest x).po.slot? s ps).isNone) ++ nd.superseded c s x

end Node

/-! ## Runs -/

end Spire.Incarnations
