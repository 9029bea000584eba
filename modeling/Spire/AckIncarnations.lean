import Spire.Incarnations
import Spire.StartupCount

/-!
# The incarnations in which requests are acked

For each server `aru` and `max_acked` are in one incarnation, and what is acked is there. That
alone does not keep the assertion in `PRE_ORDER_Construct_PO_Ack`: it compares `aru` with where
acking starts, and that depends on the preinstalled incarnation, `cum_aru` and the place where
the last message stopped. `Aligned` says how the four belong together.

They come apart where an incarnation is accepted that is older than what is preordered, and
where execution drops requests of an incarnation that is newer than `aru`.
-/

namespace Spire.Incarnations

open Spire.PreOrder
open Spire.Lib (Always Ends Steps)

variable {E D : Type} {c : Site} {makeDigest : PoRequest E → D} {preinstalled : Nat → Nat}

/-! ## The invariant -/

/-- What is acked for a server is there, and in the same incarnation. -/
structure Consistent (c : Site) (po : Po E D) : Prop where
  incarnation : ∀ s ∈ c.all, (po.maxAcked s).incarnation = (po.aru s).incarnation
  acked : ∀ s ∈ c.all, (po.maxAcked s).seqNum ≤ (po.aru s).seqNum

/-- Where acking stopped is nowhere, or at a server and not after its incarnation. -/
def StartsIn (c : Site) (po : Po E D) : Prop :=
  po.poAckStartServer = 0 ∧ po.poAckStartSeq = .zero ∨
    po.poAckStartServer ∈ c.all ∧ po.poAckStartSeq.incarnation ≤ (po.aru po.poAckStartServer).incarnation

structure Aligned (c : Site) (preinstalled : Nat → Nat) (po : Po E D) : Prop extends Consistent c po where
  latest : ∀ s ∈ c.all, (po.aru s).incarnation = max (preinstalled s) (po.cumAru s).incarnation
  start : StartsIn c po
  executed : ∀ n, ∀ pid ∈ po.slotLists n, SeqLe pid.seq (po.cumAru pid.serverId)

theorem seqLe_incarnation {p q : PoSeqPair} (h : SeqLe p q) : p.incarnation ≤ q.incarnation := by
  rw [seqLe_iff] at h
  omega

theorem aligned_start : Aligned c (fun _ => 0) (Po.start : Po E D) :=
  { incarnation := fun _ _ => rfl
    acked := fun _ _ => Nat.le_refl _
    latest := fun _ _ => rfl
    start := .inl ⟨rfl, rfl⟩
    executed := fun _ _ h => by cases h }

namespace Aligned

variable {po po' : Po E D}

theorem preordered (h : Aligned c preinstalled po) (hpo : Preordered preinstalled po po') :
    Aligned c preinstalled po' := by
  refine { incarnation := ?_, acked := ?_, latest := ?_, start := ?_, executed := ?_ }
  · rw [hpo.aru, hpo.maxAcked]
    exact h.incarnation
  · rw [hpo.aru, hpo.maxAcked]
    exact h.acked
  · intro s hs
    have hold := h.latest s hs
    have hup := seqLe_incarnation (hpo.cumAru s)
    have hlimit := hpo.incarnation s
    rw [hpo.aru]
    omega
  · unfold StartsIn
    rw [hpo.poAckStartServer, hpo.poAckStartSeq, hpo.aru]
    exact h.start
  · intro n pid hpid
    rw [hpo.slotLists] at hpid
    exact IsTrans.trans _ _ _ (h.executed n pid hpid) (hpo.cumAru pid.serverId)

theorem acks (h : Aligned c preinstalled po) (hpo : Acked po po') (hstart : StartsIn c po') :
    Aligned c preinstalled po' := by
  refine { incarnation := ?_, acked := ?_, latest := ?_, start := hstart, executed := ?_ }
  · intro s hs
    rw [hpo.aru, hpo.incarnation]
    exact h.incarnation s hs
  · intro s hs
    rw [hpo.aru]
    exact (hpo.seqNum s).trans (max_le (h.acked s hs) (le_refl _))
  · rw [hpo.aru, hpo.cumAru]
    exact h.latest
  · rw [hpo.slotLists, hpo.cumAru]
    exact h.executed

end Aligned

/-! ## Requests that arrive -/

theorem raiseAru_incarnation (po : Po E D) (s n : Nat) (aru : PoSeqPair) :
    (raiseAru po s n aru).incarnation = aru.incarnation := by
  induction n generalizing aru with
  | zero => rfl
  | succ n ih =>
    unfold raiseAru
    dsimp only
    split
    · rfl
    · split_ifs
      · rfl
      · exact ih _

theorem le_raiseAru (po : Po E D) (s n : Nat) (aru : PoSeqPair) : aru.seqNum ≤ (raiseAru po s n aru).seqNum := by
  induction n generalizing aru with
  | zero => exact Nat.le_refl _
  | succ n ih =>
    unfold raiseAru
    dsimp only
    split
    · exact Nat.le_refl _
    · split_ifs
      · exact Nat.le_refl _
      · exact (Nat.le_succ _).trans (ih ⟨aru.incarnation, aru.seqNum + 1⟩)

theorem updateAru_incarnation (po : Po E D) (s : Nat) :
    ((updateAru po c).aru s).incarnation = (po.aru s).incarnation := by
  show (if s ∈ c.all then _ else _ : PoSeqPair).incarnation = _
  split_ifs
  · exact raiseAru_incarnation po s _ _
  · rfl

theorem le_updateAru (po : Po E D) (s : Nat) : (po.aru s).seqNum ≤ ((updateAru po c).aru s).seqNum := by
  show _ ≤ (if s ∈ c.all then _ else _ : PoSeqPair).seqNum
  split_ifs
  · exact le_raiseAru po s _ _
  · exact Nat.le_refl _

theorem Aligned.updateAru {po : Po E D} (h : Aligned c preinstalled po) :
    Aligned c preinstalled (updateAru po c) := by
  refine { incarnation := ?_, acked := ?_, latest := ?_, start := ?_, executed := h.executed }
  · intro s hs
    rw [updateAru_incarnation]
    exact h.incarnation s hs
  · intro s hs
    exact (h.acked s hs).trans (le_updateAru po s)
  · intro s hs
    rw [updateAru_incarnation]
    exact h.latest s hs
  · rcases h.start with hnone | ⟨hserver, hseq⟩
    · exact .inl hnone
    · exact .inr ⟨hserver, by rw [updateAru_incarnation]; exact hseq⟩

/-! ## Acking -/

section Acks

variable {sendAll : Bool}

/-- Where acking starts is in the incarnation of `aru`. -/
theorem ackStart_incarnation {po : Po E D} (h : Aligned c preinstalled po) {sm : Nat} (hsm : sm ∈ c.all)
    (hseq : po.poAckStartSeq.incarnation ≤ (po.aru sm).incarnation) :
    (ackStart preinstalled sendAll po sm).incarnation = (po.aru sm).incarnation := by
  have hlatest := h.latest sm hsm
  unfold ackStart
  cases sendAll with
  | false => exact h.incarnation sm hsm
  | true =>
    dsimp only
    have hmax : (if 0 ≤ seqCompare po.poAckStartSeq (po.cumAru sm) then po.poAckStartSeq
        else po.cumAru sm).incarnation = max po.poAckStartSeq.incarnation (po.cumAru sm).incarnation := by
      unfold seqCompare
      split_ifs <;> omega
    rw [if_pos rfl]
    generalize (if 0 ≤ seqCompare po.poAckStartSeq (po.cumAru sm) then po.poAckStartSeq else po.cumAru sm) = ps at *
    split_ifs with hlt
    · show preinstalled sm = _
      omega
    · omega

theorem ackRequest_error {sm : Nat} {ps : PoSeqPair} {a : Acking E D} {f : Fault}
    (h : ackRequest makeDigest sm ps a = .error f) : f ≠ .ackIncarnation := by
  unfold ackRequest at h
  dsimp only at h
  split at h
  · split_ifs at h
    cases h
    decide
  · split at h
    · cases h
      decide
    · cases h

theorem ackRequests_ends (c : Site) (makeDigest : PoRequest E → D) (sm inc : Nat) (seqs : List Nat) (a : Acking E D) :
    Ends (· ≠ .ackIncarnation) (fun r => r.2.po.poAckStartServer = a.po.poAckStartServer ∧
      (r.1 = true → r.2.po.poAckStartSeq.incarnation = inc)) (ackRequests c makeDigest sm inc seqs a) := by
  induction seqs generalizing a with
  | nil => exact ⟨rfl, fun h => by cases h⟩
  | cons seq seqs ih =>
    unfold ackRequests
    split
    · rename_i f hf
      exact Ends.error (ackRequest_error hf)
    · rename_i a' ha
      have hpo := ackRequest_po ha
      have hserver : a'.po.poAckStartServer = a.po.poAckStartServer := by rw [hpo]; rfl
      split_ifs
      · exact ⟨hserver, fun _ => by rw [hpo]; rfl⟩
      · exact (ih a').imp (fun r hr => ⟨hr.1.trans hserver, hr.2⟩) fun _ h => h

/-- The place where acking goes on, for the servers that are left. -/
def GoesOn (po : Po E D) : List Nat → Prop
  | [] => po.poAckStartSeq = .zero
  | sm :: _ => po.poAckStartSeq.incarnation ≤ (po.aru sm).incarnation

theorem goesOn_zero {po : Po E D} (sms : List Nat) (h : po.poAckStartSeq = .zero) : GoesOn po sms := by
  cases sms with
  | nil => exact h
  | cons sm sms =>
    unfold GoesOn
    rw [h]
    exact Nat.zero_le _

theorem ackServers_ends {sms : List Nat} (hsms : ∀ sm ∈ sms, sm ∈ c.all) {a : Acking E D}
    (h : Aligned c preinstalled a.po) (hseq : GoesOn a.po sms) :
    Ends (· ≠ .ackIncarnation) (fun a' => Aligned c preinstalled a'.po)
      (ackServers c makeDigest preinstalled sendAll sms a) := by
  induction sms generalizing a with
  | nil => exact h.acks (.withStart a.po 0 a.po.poAckStartSeq) (.inl ⟨rfl, hseq⟩)
  | cons sm sms ih =>
    have hsm := hsms sm List.mem_cons_self
    have hhere : Aligned c preinstalled { a.po with poAckStartServer := sm } :=
      h.acks (.withStart a.po sm a.po.poAckStartSeq) (.inr ⟨hsm, hseq⟩)
    have hinc : (ackStart preinstalled sendAll { a.po with poAckStartServer := sm } sm).incarnation =
        (a.po.aru sm).incarnation := ackStart_incarnation hhere hsm hseq
    unfold ackServers
    dsimp only
    rw [if_neg (fun hne => hne hinc)]
    have hends := ackRequests_ends c makeDigest sm
      (ackStart preinstalled sendAll { a.po with poAckStartServer := sm } sm).incarnation
      (List.range' ((ackStart preinstalled sendAll { a.po with poAckStartServer := sm } sm).seqNum + 1)
        ((a.po.aru sm).seqNum - (ackStart preinstalled sendAll { a.po with poAckStartServer := sm } sm).seqNum))
      { a with po := { a.po with poAckStartServer := sm } }
    have hseqs : ∀ seq ∈ List.range' ((ackStart preinstalled sendAll { a.po with poAckStartServer := sm } sm).seqNum + 1)
        ((a.po.aru sm).seqNum - (ackStart preinstalled sendAll { a.po with poAckStartServer := sm } sm).seqNum),
        seq ≤ (a.po.aru sm).seqNum := by
      intro seq hseq
      have := List.mem_range'_1.mp hseq
      omega
    split
    · rename_i f hf
      rw [hf] at hends
      exact Ends.error hends
    · rename_i a' ha
      rw [ha] at hends
      have hacked := ackRequests_acked (a := { a with po := { a.po with poAckStartServer := sm } }) hseqs ha
      refine Ends.ok (hhere.acks hacked (.inr ?_))
      rw [hends.1, hends.2 rfl, hacked.aru, hinc]
      exact ⟨hsm, Nat.le_refl _⟩
    · rename_i a' ha
      rw [ha] at hends
      have hacked := ackRequests_acked (a := { a with po := { a.po with poAckStartServer := sm } }) hseqs ha
      refine ih (fun s hs => hsms s (List.mem_cons_of_mem sm hs)) (hhere.acks
        (hacked.trans (.withStart a'.po a'.po.poAckStartServer .zero)) (.inr ?_)) (goesOn_zero sms rfl)
      exact ⟨hends.1 ▸ hsm, Nat.zero_le _⟩

theorem constructPoAck_ends {po : Po E D} (h : Aligned c preinstalled po) :
    Ends (· ≠ .ackIncarnation) (fun a => Aligned c preinstalled a.po)
      (constructPoAck c makeDigest preinstalled sendAll po) := by
  unfold constructPoAck
  dsimp only
  rcases h.start with ⟨hserver, hseq⟩ | ⟨hserver, hseq⟩
  · rw [if_pos hserver]
    refine ackServers_ends ?_ h (goesOn_zero _ hseq)
    intro s hs
    have := List.mem_range'_1.mp hs
    exact Site.mem_all.mpr (by omega)
  · obtain ⟨hpos, hle⟩ := Site.mem_all.mp hserver
    rw [if_neg (by omega)]
    refine ackServers_ends ?_ h ?_
    · intro s hs
      have := List.mem_range'_1.mp hs
      exact Site.mem_all.mpr (by omega)
    · rw [show c.numServers + 1 - po.poAckStartServer = (c.numServers - po.poAckStartServer) + 1 by omega,
        List.range'_succ]
      exact hseq

theorem sendPoAck_ends {po : Po E D} (h : Aligned c preinstalled po) :
    Ends (· ≠ .ackIncarnation) (Aligned c preinstalled) (sendPoAck c makeDigest preinstalled sendAll po) := by
  unfold sendPoAck
  generalize ackRounds c po = n
  induction n generalizing po with
  | zero => exact h
  | succ n ih =>
    have hends : Ends (· ≠ .ackIncarnation) (fun a => Aligned c preinstalled a.po)
        (constructPoAck c makeDigest preinstalled sendAll po) := constructPoAck_ends h
    unfold sendAcks
    split
    · rename_i f hf
      rw [hf] at hends
      exact Ends.error hends
    · rename_i a ha
      rw [ha] at hends
      split_ifs
      · exact ih hends
      · exact hends

end Acks

/-! ## Requests and what is collected -/

theorem processPoRequest_ends [DecidableEq D] {po : Po E D} (h : Aligned c preinstalled po) (normal : Bool)
    (r : PoRequest E) :
    Ends (· ≠ .ackIncarnation) (Aligned c preinstalled)
      (processPoRequest c makeDigest preinstalled normal po r) := by
  unfold processPoRequest
  dsimp only
  split_ifs
  · exact h
  · exact h
  · exact h.preordered (Preordered.putSlot (po.getSlot_poRequest r.machineId r.seq))
  all_goals
    have hput : Aligned c preinstalled (po.putSlot r.machineId r.seq
        { po.getSlot r.machineId r.seq with poRequest := some r }) :=
      { h with }
    have hends := updateCumAru_ends c makeDigest preinstalled r.machineId (updateAru (po.putSlot r.machineId r.seq
        { po.getSlot r.machineId r.seq with poRequest := some r }) c)
    split
    · rename_i f hf
      rw [hf] at hends
      exact Ends.error (hends ▸ by decide)
    · rename_i po' hpo
      rw [hpo] at hends
      have hpo := hput.updateAru.preordered hends
      first
      | exact sendPoAck_ends hpo.updateAru
      | exact hpo

/-- A request that is collected is not in a later incarnation than `aru`. -/
theorem garbageCollectPoSlot_ends {po : Po E D} (h : Aligned c preinstalled po) {pid : PoId}
    (hpid : pid.serverId ∈ c.all → pid.seq.incarnation ≤ (po.aru pid.serverId).incarnation) :
    Ends (· ≠ .ackIncarnation) (fun po' => Aligned c preinstalled po' ∧ po'.aru = po.aru ∧
      (∀ s, SeqLe (po.cumAru s) (po'.cumAru s)) ∧ ∀ s, s ≠ pid.serverId → po'.history s = po.history s)
      (garbageCollectPoSlot po pid) := by
  refine .of (fun po' hpo => ?_) fun f hf => garbageCollectPoSlot_error hf ▸ by decide
  have hcum := garbageCollectPoSlot_cumAru hpo
  have hcollected := garbageCollectPoSlot_collected hpo
  have hup : ∀ s, SeqLe (po.cumAru s) (po'.cumAru s) := by
    intro s
    rw [hcum, seqLe_iff]
    split_ifs with hs
    · have hlt := hs.2
      rw [hs.1]
      unfold seqCompare at hlt
      split_ifs at hlt <;> omega
    · exact .inr ⟨rfl, le_refl _⟩
  refine ⟨?_, hcollected.aru, hup, fun s hs => garbageCollectPoSlot_history hpo hs⟩
  refine { incarnation := ?_, acked := ?_, latest := ?_, start := ?_, executed := ?_ }
  · rw [hcollected.aru, hcollected.maxAcked]
    exact h.incarnation
  · rw [hcollected.aru, hcollected.maxAcked]
    exact h.acked
  · intro s hs
    have hold := h.latest s hs
    have hle := seqLe_incarnation (hup s)
    rw [hcum] at hle ⊢
    rw [hcollected.aru]
    split_ifs at hle ⊢ with heq
    · have hnew := hpid (heq.1 ▸ hs)
      rw [← heq.1] at hnew
      omega
    · exact hold
  · unfold StartsIn
    rw [hcollected.poAckStartServer, hcollected.poAckStartSeq, hcollected.aru]
    exact h.start
  · intro n pid' hpid'
    rw [hcollected.slotLists] at hpid'
    exact IsTrans.trans _ _ _ (h.executed n pid' hpid') (hup pid'.serverId)

theorem foldlM_garbageCollect_ends {po : Po E D} (h : Aligned c preinstalled po) {pids : List PoId}
    (hpids : ∀ pid ∈ pids, pid.serverId ∈ c.all → pid.seq.incarnation ≤ (po.aru pid.serverId).incarnation) :
    Ends (· ≠ .ackIncarnation) (fun po' => Aligned c preinstalled po' ∧ po'.aru = po.aru ∧
      (∀ s, SeqLe (po.cumAru s) (po'.cumAru s)) ∧
        ∀ s, (∀ pid ∈ pids, s ≠ pid.serverId) → po'.history s = po.history s)
      (pids.foldlM garbageCollectPoSlot po) := by
  refine .foldlM (fun pid hmem q hq => ?_) ⟨h, rfl, fun s => seqLe_refl _, fun _ _ => rfl⟩
  obtain ⟨hq, haru, hcum, hhistory⟩ := hq
  have hpid : pid.serverId ∈ c.all → pid.seq.incarnation ≤ (q.aru pid.serverId).incarnation := haru ▸ hpids pid hmem
  refine (garbageCollectPoSlot_ends hq hpid).imp (fun po' hpo => ?_) fun _ h => h
  obtain ⟨hpo, haru', hcum', hhistory'⟩ := hpo
  exact ⟨hpo, haru'.trans haru, fun s => IsTrans.trans _ _ _ (hcum s) (hcum' s),
    fun s hs => (hhistory' s (hs pid hmem)).trans (hhistory s hs)⟩

theorem garbageCollectRequests_ends {po : Po E D} (h : Aligned c preinstalled po) (seq : Nat) :
    Ends (· ≠ .ackIncarnation) (Aligned c preinstalled) (garbageCollectRequests po seq) := by
  unfold garbageCollectRequests
  refine Ends.bind (foldlM_garbageCollect_ends h ?_) fun po' hpo => ?_
  · intro pid hpid hs
    have hle := seqLe_incarnation (h.executed seq pid hpid)
    have hlatest := h.latest _ hs
    omega
  · refine Ends.ok { hpo.1 with executed := ?_ }
    intro n pid hpid
    have hpid : pid ∈ Function.update po'.slotLists seq [] n := hpid
    by_cases hn : n = seq
    · rw [hn, Function.update_self] at hpid
      cases hpid
    · rw [Function.update_of_ne hn] at hpid
      exact hpo.1.executed n pid hpid

/-! ## The server -/

/-- The pre-ordering history is aligned, nothing is installed that is not preinstalled, and the
assertion has not failed. -/
structure Node.Aligned (c : Site) (nd : Node E D) : Prop where
  po : Incarnations.Aligned c nd.pr.preinstalledIncarnations nd.po
  installed : ∀ s ∈ c.all, nd.pr.installedIncarnations s ≤ nd.pr.preinstalledIncarnations s
  fault : nd.fault ≠ some .ackIncarnation

namespace Node

variable {nd nd' : Node E D} {slot : Slot} {i : Nat}

theorem start_aligned (ni : NewIncarnation) : (start c ni : Node E D).Aligned c :=
  { po := aligned_start
    installed := fun _ _ => Nat.le_refl _
    fault := by intro h; cases h }

theorem withPo_ends {x : Except Fault (Po E D)} (h : nd.Aligned c)
    (hx : Ends (· ≠ .ackIncarnation) (Incarnations.Aligned c nd.pr.preinstalledIncarnations) x) :
    Ends (· ≠ .ackIncarnation) (Node.Aligned c) (nd.withPo x) :=
  hx.map fun _ hpo => { po := hpo, installed := h.installed, fault := h.fault }

theorem resume_ends (h : nd.Aligned c) :
    Ends (· ≠ .ackIncarnation) (Node.Aligned c) (nd.resume c makeDigest) :=
  withPo_ends h (sendPoAck_ends h.po.updateAru)

/-- An incarnation is noted that is already preordered. -/
theorem noteStartup_ends {ps : PoSeqPair} (h : nd.Aligned c)
    (hps : i ∈ c.all → ps.incarnation ≤ (nd.po.cumAru i).incarnation) :
    Ends (· ≠ .ackIncarnation) (fun nd' => nd'.Aligned c ∧ nd'.po.cumAru = nd.po.cumAru)
      (nd.noteStartup c makeDigest i ps) := by
  have hnoted : Node.Aligned c { nd with pr := nd.pr.noteStartup i ps } := by
    have hpre : ∀ s, (nd.pr.noteStartup i ps).preinstalledIncarnations s =
        if s = i then max (nd.pr.preinstalledIncarnations i) ps.incarnation
        else nd.pr.preinstalledIncarnations s := by
      intro s
      show (if _ then Function.update nd.pr.preinstalledIncarnations i ps.incarnation
        else nd.pr.preinstalledIncarnations) s = _
      by_cases hs : s = i
      · rw [if_pos hs, hs]
        split_ifs with hle
        · rw [Function.update_self]
          omega
        · omega
      · rw [if_neg hs]
        split_ifs
        · exact Function.update_of_ne hs _ _
        · rfl
    refine { po := { h.po with latest := ?_ }, installed := ?_, fault := h.fault }
    · intro s hs
      have hlatest := h.po.latest s hs
      show (nd.po.aru s).incarnation =
        max ((nd.pr.noteStartup i ps).preinstalledIncarnations s) (nd.po.cumAru s).incarnation
      rw [hpre]
      split_ifs with heq
      · have := hps (heq ▸ hs)
        rw [heq] at hlatest ⊢
        omega
      · exact hlatest
    · intro s hs
      have hold := h.installed s hs
      show Function.update nd.pr.installedIncarnations i ps.incarnation s ≤
        (nd.pr.noteStartup i ps).preinstalledIncarnations s
      rw [hpre]
      by_cases heq : s = i
      · rw [if_pos heq, heq, Function.update_self]
        omega
      · rw [if_neg heq, Function.update_of_ne heq]
        exact hold
  have hcum : ∀ nd', nd.noteStartup c makeDigest i ps = .ok nd' → nd'.po.cumAru = nd.po.cumAru := by
    intro nd' hnote
    obtain ⟨po, hpo, rfl⟩ := noteStartup_ok hnote
    rcases hpo with rfl | hpo
    · rfl
    · exact hpo.cumAru
  refine Ends.and ?_ hcum
  unfold noteStartup
  dsimp only
  split_ifs
  · exact resume_ends hnoted
  · exact hnoted

/-! ### Execution -/

theorem executeRequest_ends {seqNum : Nat} {ps : PoSeqPair} (h : nd.Aligned c) (hps : SeqLe ps (nd.po.cumAru i)) :
    Ends (· ≠ .ackIncarnation) (fun nd' => nd'.Aligned c ∧ nd'.po.cumAru = nd.po.cumAru)
      (executeRequest c makeDigest seqNum i nd ps) := by
  have hlisted : ∀ nd₁ : Node E D, nd₁.Aligned c ∧ nd₁.po.cumAru = nd.po.cumAru →
      Node.Aligned c { nd₁ with po := { nd₁.po with
        lastExecutedPoReqs := Function.update nd₁.po.lastExecutedPoReqs i ps
        slotLists := Function.update nd₁.po.slotLists seqNum (nd₁.po.slotLists seqNum ++ [⟨i, ps⟩]) } } := by
    rintro nd₁ ⟨hnd, hcum⟩
    refine { po := { hnd.po with executed := ?_ }, installed := hnd.installed, fault := hnd.fault }
    intro n pid hpid
    have hpid : pid ∈ Function.update nd₁.po.slotLists seqNum (nd₁.po.slotLists seqNum ++ [⟨i, ps⟩]) n := hpid
    by_cases hn : n = seqNum
    · rw [hn, Function.update_self] at hpid
      rcases List.mem_append.mp hpid with hpid | hpid
      · exact hnd.po.executed seqNum pid hpid
      · rw [List.mem_singleton.mp hpid]
        show SeqLe ps (nd₁.po.cumAru i)
        rw [hcum]
        exact hps
    · rw [Function.update_of_ne hn] at hpid
      exact hnd.po.executed n pid hpid
  unfold executeRequest
  split
  · exact Ends.error (by decide)
  · refine Ends.bind (Q := fun nd₁ => nd₁.Aligned c ∧ nd₁.po.cumAru = nd.po.cumAru) ?_
      fun nd₁ hnd => Ends.ok ⟨hlisted nd₁ hnd, hnd.2⟩
    split_ifs
    · exact noteStartup_ends h fun _ => seqLe_incarnation hps
    · exact ⟨h, rfl⟩

/-- What `ORDER_Ready_To_Execute` has checked. -/
theorem readyToExecute_le (h : nd.readyToExecute c slot) (hi : i ∈ c.all) {ps : PoSeqPair}
    (hps : ps ∈ requestsOf (slot.prev i) (slot.cur i)) : SeqLe ps (nd.po.cumAru i) := by
  have hmissing := List.all_eq_true.mp (List.all_eq_true.mp h i hi) ps hps
  rw [Bool.not_eq_true', isMissing] at hmissing
  split at hmissing
  · cases hmissing
  · rw [Bool.or_eq_false_iff, decide_eq_false_iff_not] at hmissing
    have hle := hmissing.2
    rw [seqLe_iff]
    unfold seqCompare at hle
    split_ifs at hle <;> omega

/-- Where no request is executed, what is dropped of the older incarnations is not newer than `aru`. -/
def DropsOld (nd : Node E D) (slot : Slot) (i : Nat) : Prop :=
  (slot.cur i).seqNum = 0 → ∀ ps ∈ dropped nd.po slot i, ps.incarnation ≤ (nd.po.aru i).incarnation

theorem executeServer_ends (h : nd.Aligned c) (hi : i ∈ c.all)
    (hready : ∀ ps ∈ requestsOf (slot.prev i) (slot.cur i), SeqLe ps (nd.po.cumAru i)) (hold : nd.DropsOld slot i) :
    Ends (· ≠ .ackIncarnation) (fun nd' => nd'.Aligned c ∧ ∀ s, SeqLe (nd.po.cumAru s) (nd'.po.cumAru s))
      (executeServer c makeDigest slot nd i) := by
  unfold executeServer
  split
  · exact Ends.error (by decide)
  refine Ends.bind (Q := fun po => Incarnations.Aligned c nd.pr.preinstalledIncarnations po ∧
    ∀ s, SeqLe (nd.po.cumAru s) (po.cumAru s)) ?_ fun po hpo => ?_
  · split_ifs with hnew
    · refine (foldlM_garbageCollect_ends h.po ?_).imp (fun po hpo => ⟨hpo.1, hpo.2.2.1⟩) fun _ hf => hf
      intro pid hpid _
      obtain ⟨ps, hps, rfl⟩ := List.mem_map.mp hpid
      show ps.incarnation ≤ (nd.po.aru i).incarnation
      by_cases hzero : (slot.cur i).seqNum = 0
      · exact hold hzero ps hps
      · have hfirst : PoSeqPair.mk (slot.cur i).incarnation 1 ∈ requestsOf (slot.prev i) (slot.cur i) := by
          refine List.mem_map.mpr ⟨1, List.mem_range'_1.mpr ?_, rfl⟩
          rw [if_pos hnew]
          omega
        have hle := seqLe_incarnation (hready _ hfirst)
        have hlatest := h.po.latest i hi
        have hlt := (of_decide_eq_true (List.mem_filter.mp hps).2).1
        have hle : (slot.cur i).incarnation ≤ (nd.po.cumAru i).incarnation := hle
        omega
    · exact ⟨h.po, fun s => seqLe_refl _⟩
  · refine .foldlM (fun ps hps nd₁ hnd => ?_)
      ⟨({ po := hpo.1, installed := h.installed, fault := h.fault } : Node.Aligned c { nd with po := po }), hpo.2⟩
    have hle := IsTrans.trans _ _ _ (hready ps hps) (hnd.2 i)
    refine (executeRequest_ends hnd.1 hle).imp (fun nd₂ hnd₂ => ⟨hnd₂.1, ?_⟩) fun _ hf => hf
    rw [hnd₂.2]
    exact hnd.2

/-- The execution of one server leaves the others' requests alone. -/
theorem executeServer_frame {j : Nat} (h : executeServer c makeDigest slot nd i = .ok nd') (hne : j ≠ i) :
    nd'.po.history j = nd.po.history j ∧ (nd'.po.aru j).incarnation = (nd.po.aru j).incarnation := by
  obtain ⟨po, hpo, h⟩ := executeServer_ok h
  have hdropped : po.history j = nd.po.history j ∧ po.aru = nd.po.aru := by
    rcases hpo with ⟨-, hpo⟩ | ⟨-, rfl⟩
    · refine ⟨?_, (foldlM_collected hpo).aru⟩
      refine Lib.foldlM_inv (I := fun po' => po'.history j = nd.po.history j) ?_ hpo rfl
      intro pid hpid q q' hround hq
      obtain ⟨ps, -, rfl⟩ := List.mem_map.mp hpid
      exact (garbageCollectPoSlot_history hround hne).trans hq
    · exact ⟨rfl, rfl⟩
  refine Lib.foldlM_inv (I := fun nd' : Node E D => nd'.po.history j = nd.po.history j ∧
    (nd'.po.aru j).incarnation = (nd.po.aru j).incarnation) ?_ h ⟨hdropped.1, by rw [← hdropped.2]⟩
  intro ps _ s t hround hs
  obtain ⟨-, nd₁, hstart, rfl⟩ := executeRequest_ok hround
  rcases hstart with ⟨-, -, hstart⟩ | ⟨-, rfl⟩
  · obtain ⟨po', hpo', rfl⟩ := noteStartup_ok hstart
    rcases hpo' with rfl | hpo'
    · exact hs
    · refine ⟨hpo'.history ▸ hs.1, ?_⟩
      show (po'.aru j).incarnation = _
      rw [hpo'.aru, updateAru_incarnation]
      exact hs.2
  · exact hs

theorem executeCommit_ends (h : nd.Aligned c) (hold : nd.readyToExecute c slot → ∀ i ∈ c.all, nd.DropsOld slot i) :
    Ends (· ≠ .ackIncarnation) (Node.Aligned c) (nd.executeCommit c makeDigest slot) := by
  unfold executeCommit
  split_ifs with hready
  · refine (Ends.foldlM_of (I := fun nd' => nd'.Aligned c ∧ ∀ s, SeqLe (nd.po.cumAru s) (nd'.po.cumAru s))
      (K := fun nd' i => nd'.DropsOld slot i) ?_ ?_ Site.nodup_all (hold hready)
      ⟨h, fun s => seqLe_refl _⟩).imp (fun _ hnd => hnd.1) fun _ hf => hf
    · rintro i hi nd₁ ⟨hnd, hcum⟩ hK
      refine (executeServer_ends hnd hi ?_ hK).imp (fun nd₂ hnd₂ => ⟨hnd₂.1, ?_⟩) fun _ hf => hf
      · intro ps hps
        exact IsTrans.trans _ _ _ (readyToExecute_le hready hi hps) (hcum i)
      · exact fun s => IsTrans.trans _ _ _ (hcum s) (hnd₂.2 s)
    · intro nd₁ i nd₂ j hround hne hK
      obtain ⟨hhistory, haru⟩ := executeServer_frame hround hne
      unfold DropsOld dropped
      rw [hhistory, haru]
      exact hK
  · exact h

/-! ### Jumps -/

theorem raise_eq (ps old : PoSeqPair) : raise ps old = if SeqLe ps old then old else ps := by
  unfold raise
  by_cases hle : SeqLe ps old
  · have hnot : ¬0 < seqCompare ps old := not_lt.mpr hle
    rw [if_neg hnot, if_pos hle]
  · have hlt : 0 < seqCompare ps old := not_le.mp hle
    rw [if_pos hlt, if_neg hle]

theorem raise_incarnation (ps old : PoSeqPair) : (raise ps old).incarnation = max old.incarnation ps.incarnation := by
  rw [raise_eq]
  split_ifs with hle
  · have := seqLe_incarnation hle
    omega
  · rw [seqLe_iff] at hle
    omega

theorem le_raise (ps old : PoSeqPair) : SeqLe old (raise ps old) := by
  rw [raise_eq]
  split_ifs with hlt
  · exact seqLe_refl _
  · rw [seqLe_iff] at *
    omega

theorem raise_le (ps old : PoSeqPair) : SeqLe ps (raise ps old) := by
  rw [raise_eq]
  split_ifs with hlt
  · exact hlt
  · exact seqLe_refl _

/-- What is raised together stays together. -/
theorem raise_seqNum_le {ps acked aru : PoSeqPair} (hinc : acked.incarnation = aru.incarnation)
    (hle : acked.seqNum ≤ aru.seqNum) : (raise ps acked).seqNum ≤ (raise ps aru).seqNum := by
  rw [raise_eq, raise_eq]
  split_ifs with h1 h2 h2
  · exact hle
  · exact absurd (seqLe_iff.mpr (by rw [seqLe_iff] at h1; omega)) h2
  · rw [seqLe_iff] at h1 h2
    omega
  · exact le_refl _

theorem update_raise (f : Nat → PoSeqPair) (i s : Nat) (ps : PoSeqPair) :
    Function.update f i (raise ps (f i)) s = if s = i then raise ps (f s) else f s := by
  by_cases hs : s = i
  · rw [if_pos hs, hs, Function.update_self]
  · rw [if_neg hs, Function.update_of_ne hs]

theorem startsIn_raise {po po' : Po E D} (h : StartsIn c po) (hserver : po'.poAckStartServer = po.poAckStartServer)
    (hseq : po'.poAckStartSeq = po.poAckStartSeq)
    (haru : ∀ s ∈ c.all, po.poAckStartSeq.incarnation ≤ (po.aru s).incarnation →
      po.poAckStartServer = s → po.poAckStartSeq.incarnation ≤ (po'.aru s).incarnation) : StartsIn c po' := by
  unfold StartsIn
  rw [hserver, hseq]
  rcases h with hnone | ⟨hmem, hle⟩
  · exact .inl hnone
  · exact .inr ⟨hmem, haru _ hmem hle rfl⟩

theorem jumpAru_aligned {po : Po E D} (h : Incarnations.Aligned c preinstalled po) :
    Incarnations.Aligned c preinstalled (jumpAru slot i po) := by
  refine { incarnation := ?_, acked := ?_, latest := ?_, start := ?_, executed := ?_ }
  · intro s hs
    have hold := h.incarnation s hs
    show (Function.update po.maxAcked i _ s).incarnation = (Function.update po.aru i _ s).incarnation
    rw [update_raise, update_raise]
    split_ifs
    · rw [raise_incarnation, raise_incarnation, hold]
    · exact hold
  · intro s hs
    show (Function.update po.maxAcked i _ s).seqNum ≤ (Function.update po.aru i _ s).seqNum
    rw [update_raise, update_raise]
    split_ifs
    · exact raise_seqNum_le (h.incarnation s hs) (h.acked s hs)
    · exact h.acked s hs
  · intro s hs
    have hold := h.latest s hs
    show (Function.update po.aru i _ s).incarnation = max _ (Function.update po.cumAru i _ s).incarnation
    rw [update_raise, update_raise]
    split_ifs
    · rw [raise_incarnation, raise_incarnation]
      omega
    · exact hold
  · refine startsIn_raise h.start rfl rfl fun s _ hle _ => hle.trans ?_
    show _ ≤ (Function.update po.aru i _ s).incarnation
    rw [update_raise]
    split_ifs
    · rw [raise_incarnation]
      exact le_max_left _ _
    · exact le_refl _
  · intro n pid hpid
    show SeqLe pid.seq (Function.update po.cumAru i _ pid.serverId)
    have hold := h.executed n pid hpid
    rw [update_raise]
    split_ifs
    · exact IsTrans.trans _ _ _ hold (le_raise _ _)
    · exact hold

theorem jumpServer_ends (h : nd.Aligned c) (hi : i ∈ c.all) :
    Ends (· ≠ .ackIncarnation) (Node.Aligned c) (jumpServer c makeDigest slot nd i) := by
  have hjump : Node.Aligned c { nd with po := jumpAru slot i nd.po } :=
    { po := jumpAru_aligned h.po, installed := h.installed, fault := h.fault }
  have hcum : SeqLe (slot.cur i) ((jumpAru slot i nd.po).cumAru i) := by
    show SeqLe _ (Function.update nd.po.cumAru i (raise (slot.cur i) (nd.po.cumAru i)) i)
    rw [Function.update_self]
    exact raise_le _ _
  unfold jumpServer
  refine Ends.bind (Q := fun nd₁ => nd₁.Aligned c ∧ nd₁.po.cumAru = (jumpAru slot i nd.po).cumAru) ?_
    fun nd₁ hnd => ?_
  · split_ifs
    · exact noteStartup_ends hjump fun _ => seqLe_incarnation hcum
    · exact ⟨hjump, rfl⟩
  · have hnoted : Incarnations.Aligned c nd₁.pr.preinstalledIncarnations
        { nd₁.po with lastExecutedPoReqs :=
            Function.update nd₁.po.lastExecutedPoReqs i (raise (slot.cur i) (nd.po.lastExecutedPoReqs i)) } :=
      { hnd.1.po with }
    refine Ends.bind (foldlM_garbageCollect_ends hnoted ?_) fun po hpo => Ends.ok
      { po := { hpo.1 with }, installed := hnd.1.installed, fault := hnd.1.fault }
    intro pid hpid _
    obtain ⟨ps, hps, rfl⟩ := List.mem_map.mp hpid
    have hle : SeqLe ps (slot.cur i) := of_decide_eq_true (List.mem_filter.mp hps).2
    have hinc := seqLe_incarnation (IsTrans.trans _ _ _ hle hcum)
    rw [← hnd.2] at hinc
    have hlatest := hnd.1.po.latest i hi
    show ps.incarnation ≤ (nd₁.po.aru i).incarnation
    omega

theorem jumpAhead_ends {collected : List Nat} (h : nd.Aligned c) :
    Ends (· ≠ .ackIncarnation) (Node.Aligned c) (nd.jumpAhead c makeDigest slot collected) := by
  refine Ends.bind (Ends.foldlM (fun seq _ po hpo => garbageCollectRequests_ends hpo seq) h.po) fun po hpo => ?_
  exact Ends.foldlM (fun i hi nd₁ hnd => jumpServer_ends hnd hi)
    ({ po := hpo, installed := h.installed, fault := h.fault } : Node.Aligned c { nd with po := po })

/-! ### Acceptance, resets and certificates -/

/-- A server restarts in an incarnation that nothing preordered is after. -/
theorem restart_aligned {po : Po E D} {replica inc : Nat} (h : Incarnations.Aligned c preinstalled po)
    (hpre : preinstalled replica ≤ inc) (hcum : (po.cumAru replica).incarnation ≤ inc) :
    Incarnations.Aligned c (Function.update preinstalled replica inc)
      { po with
        maxAcked := Function.update po.maxAcked replica ⟨inc, 0⟩
        aru := Function.update po.aru replica ⟨inc, 0⟩ } := by
  refine { incarnation := ?_, acked := ?_, latest := ?_, start := ?_, executed := h.executed }
  · intro s hs
    show (Function.update po.maxAcked replica _ s).incarnation = (Function.update po.aru replica _ s).incarnation
    by_cases heq : s = replica
    · rw [heq, Function.update_self, Function.update_self]
    · rw [Function.update_of_ne heq, Function.update_of_ne heq]
      exact h.incarnation s hs
  · intro s hs
    show (Function.update po.maxAcked replica _ s).seqNum ≤ (Function.update po.aru replica _ s).seqNum
    by_cases heq : s = replica
    · rw [heq, Function.update_self, Function.update_self]
    · rw [Function.update_of_ne heq, Function.update_of_ne heq]
      exact h.acked s hs
  · intro s hs
    show (Function.update po.aru replica ⟨inc, 0⟩ s).incarnation =
      max (Function.update preinstalled replica inc s) (po.cumAru s).incarnation
    by_cases heq : s = replica
    · rw [heq, Function.update_self, Function.update_self]
      exact (max_eq_left hcum).symm
    · rw [Function.update_of_ne heq, Function.update_of_ne heq]
      exact h.latest s hs
  · refine startsIn_raise h.start rfl rfl fun s hs hle _ => ?_
    show _ ≤ (Function.update po.aru replica ⟨inc, 0⟩ s).incarnation
    by_cases heq : s = replica
    · have hlatest := h.latest s hs
      rw [heq] at hlatest hle ⊢
      rw [Function.update_self]
      dsimp only
      omega
    · rw [Function.update_of_ne heq]
      exact hle

theorem restart_installed {replica inc : Nat} (h : nd.Aligned c)
    (hpre : nd.pr.preinstalledIncarnations replica ≤ inc) :
    ∀ s ∈ c.all, nd.pr.installedIncarnations s ≤ Function.update nd.pr.preinstalledIncarnations replica inc s := by
  intro s hs
  have hold := h.installed s hs
  by_cases heq : s = replica
  · rw [heq, Function.update_self]
    rw [heq] at hold
    omega
  · rw [Function.update_of_ne heq]
    exact hold

theorem acceptIncarnation_ends {replica inc ts : Nat} (h : nd.Aligned c)
    (hpre : nd.pr.preinstalledIncarnations replica ≤ inc) (hcum : (nd.po.cumAru replica).incarnation ≤ inc) :
    Ends (· ≠ .ackIncarnation) (Node.Aligned c) (nd.acceptIncarnation c makeDigest replica inc ts) := by
  have hpo := restart_aligned h.po hpre hcum
  have hinstalled := restart_installed h hpre
  unfold acceptIncarnation
  dsimp only
  split_ifs
  · exact { po := hpo, installed := hinstalled, fault := h.fault }
  · exact { po := hpo, installed := hinstalled, fault := h.fault }
  · refine Ends.map (Q := Incarnations.Aligned c (Function.update nd.pr.preinstalledIncarnations replica inc))
      (sendPoAck_ends { hpo with }) fun po hpo => ?_
    exact { po := hpo, installed := hinstalled, fault := h.fault }

theorem executeResetProposal_aligned (shares : List (Nat × Nat)) (h : nd.Aligned c) :
    (nd.executeResetProposal c shares).Aligned c := by
  have hpo := foldl_installAru (Site.nodup_all (c := c)) (shares.foldl (installShare c) nd.pr) nd.po
  have hincs := installShares_incarnations (c := c) nd.pr shares
  refine { po := ?_, installed := ?_, fault := h.fault }
  · refine { incarnation := ?_, acked := ?_, latest := ?_, start := ?_, executed := ?_ }
    · intro s hs
      have hold := h.po.incarnation s hs
      show (Po.maxAcked (c.all.foldl _ nd.po) s).incarnation = (Po.aru (c.all.foldl _ nd.po) s).incarnation
      rw [hpo.maxAcked, hpo.aru, if_pos hs, if_pos hs, raise_incarnation, raise_incarnation, hold]
    · intro s hs
      show (Po.maxAcked (c.all.foldl _ nd.po) s).seqNum ≤ (Po.aru (c.all.foldl _ nd.po) s).seqNum
      rw [hpo.maxAcked, hpo.aru, if_pos hs, if_pos hs]
      exact raise_seqNum_le (h.po.incarnation s hs) (h.po.acked s hs)
    · intro s hs
      have hlatest := h.po.latest s hs
      have hinstalled := h.installed s hs
      obtain ⟨m, hpre, hinst⟩ := hincs s
      show (Po.aru (c.all.foldl _ nd.po) s).incarnation =
        max (Pr.preinstalledIncarnations (shares.foldl _ nd.pr) s) (Po.cumAru (c.all.foldl _ nd.po) s).incarnation
      rw [hpo.aru, if_pos hs, raise_incarnation, hpo.cumAru, hpre, hinst]
      dsimp only
      omega
    · refine startsIn_raise h.po.start hpo.poAckStartServer hpo.poAckStartSeq fun s hs hle _ => hle.trans ?_
      show _ ≤ (Po.aru (c.all.foldl _ nd.po) s).incarnation
      rw [hpo.aru, if_pos hs, raise_incarnation]
      exact le_max_left _ _
    · intro n pid hpid
      have hpid : pid ∈ Po.slotLists (c.all.foldl _ nd.po) n := hpid
      show SeqLe _ (Po.cumAru (c.all.foldl _ nd.po) _)
      rw [hpo.slotLists] at hpid
      rw [hpo.cumAru]
      exact h.po.executed n pid hpid
  · intro s hs
    have hold := h.installed s hs
    obtain ⟨m, hpre, hinst⟩ := hincs s
    show Pr.installedIncarnations (shares.foldl _ nd.pr) s ≤ Pr.preinstalledIncarnations (shares.foldl _ nd.pr) s
    rw [hpre, hinst]
    omega

theorem processCertified_ends [DecidableEq D] {cert : PoCert E D} (h : nd.Aligned c) :
    Ends (· ≠ .ackIncarnation) (Node.Aligned c) (nd.processCertified c makeDigest cert) := by
  unfold processCertified
  refine Ends.bind (processPoRequest_ends h.po _ cert.request) fun po hpo => ?_
  refine Ends.bind (Ends.foldlM (fun ack _ po hpo => ?_) hpo) fun po hpo =>
    Ends.ok { po := hpo, installed := h.installed, fault := h.fault }
  split
  · exact hpo
  · refine (processPoAckPart_ends _ _ po _).imp (fun po' hpo' => hpo.preordered hpo') fun f hf => ?_
    rw [hf]
    decide

/-- A certificate that starts an incarnation is above all that is preordered. -/
theorem processPoCertificate_ends [DecidableEq D] {cert : PoCert E D} (h : nd.Aligned c) :
    Ends (· ≠ .ackIncarnation) (Node.Aligned c) (nd.processPoCertificate c makeDigest cert) := by
  have hput : ∀ {nd : Node E D} {s : Nat} {ps : PoSeqPair} {slot : PoSlot E D}, nd.Aligned c →
      Node.Aligned c { nd with po := nd.po.putSlot s ps slot } := fun h =>
    { po := { h.po with }, installed := h.installed, fault := h.fault }
  unfold processPoCertificate
  dsimp only
  split_ifs with hme hold hsnapshot hstarts
  · exact h
  · exact h
  · exact hput h
  · refine processCertified_ends (hput ?_)
    have hstarts := (of_decide_eq_true hstarts).1
    have hcum : (nd.po.cumAru cert.server).incarnation ≤ cert.seq.incarnation := by
      unfold seqCompare at hold
      split_ifs at hold <;> omega
    have hslot : Node.Aligned c
        { nd with po := nd.po.putSlot cert.server cert.seq (nd.po.getSlot cert.server cert.seq) } := hput h
    exact
      { po := restart_aligned hslot.po (Nat.le_of_lt hstarts) hcum
        installed := restart_installed hslot (Nat.le_of_lt hstarts)
        fault := h.fault }
  · exact processCertified_ends (hput (hput h))

/-! ### Steps -/

/-- The condition on a step: no incarnation is accepted that is older than what is preordered or
preinstalled, and execution drops nothing that is newer than `aru`. -/
def AcceptsNew (c : Site) (nd : Node E D) : Input E D → Prop
  | .incarnationCert sender ni =>
    sender ≠ c.me → nd.pr.preinstalledIncarnations sender < ni.incarnation →
      (nd.po.cumAru sender).incarnation ≤ ni.incarnation
  | .incarnationAcked =>
    nd.pr.newIncarnation c.me ≠ none → nd.pr.preinstalledIncarnations c.me ≤ nd.pr.newIncarnationVal c.me ∧
      (nd.po.cumAru c.me).incarnation ≤ nd.pr.newIncarnationVal c.me
  | .execute slot => nd.readyToExecute c slot → ∀ i ∈ c.all, nd.DropsOld slot i
  | _ => True

theorem Aligned.same (h : nd.Aligned c) (hsame : nd.SameHistory nd') : nd'.Aligned c :=
  { po := by rw [hsame.po, hsame.preinstalled]; exact h.po
    installed := by rw [hsame.installed, hsame.preinstalled]; exact h.installed
    fault := by rw [hsame.fault]; exact h.fault }

theorem handle_ends [DecidableEq D] {x : Input E D} (h : nd.Aligned c) (hx : nd.AcceptsNew c x) :
    Ends (· ≠ .ackIncarnation) (Node.Aligned c) (nd.handle c makeDigest x) := by
  cases x with
  | newIncarnation sender ni now fresh =>
    rcases newIncarnation_same (c := c) nd sender ni now fresh with hstart | hsame
    · exact Ends.ok (hstart ▸ start_aligned fresh)
    · exact Ends.ok (h.same hsame)
  | incarnationCert sender ni =>
    unfold handle incarnationCert
    dsimp only
    split_ifs with hme hold
    · exact h
    · exact h
    · have hlt : nd.pr.preinstalledIncarnations sender < ni.incarnation := by omega
      exact acceptIncarnation_ends { po := h.po, installed := h.installed, fault := h.fault } (Nat.le_of_lt hlt)
        (hx hme hlt)
  | incarnationAcked =>
    unfold handle incarnationAcked
    dsimp only
    split
    · exact h
    · rename_i ni hni
      have hx := hx (by rw [hni]; exact Option.some_ne_none ni)
      exact acceptIncarnation_ends h hx.1 hx.2
  | resetVote sender ackedIncarnation ackedNonce => exact Ends.ok (h.same (resetVote_same nd _ _ _))
  | lockMembers members => exact Ends.ok (h.same (lockMembers_same nd members))
  | executeResetProposal shares resumes =>
    have hinstalled : (nd.executeResetProposal c shares).Aligned c := executeResetProposal_aligned shares h
    unfold handle
    dsimp only
    split_ifs
    · exact resume_ends hinstalled
    · exact hinstalled
  | resetPrime fresh => exact Ends.ok (start_aligned fresh)
  | poRequest r => exact withPo_ends h (processPoRequest_ends h.po _ r)
  | poAck ack =>
    refine withPo_ends h ((processPoAck_ends nd.po ack).imp (fun po hpo => h.po.preordered hpo) fun f hf => ?_)
    rw [hf]
    decide
  | poCertificate cert => exact processPoCertificate_ends h
  | periodicRetrans => exact resume_ends h
  | execute slot => exact executeCommit_ends h hx
  | collect seq => exact withPo_ends h (garbageCollectRequests_ends h.po seq)
  | jump slot collected => exact jumpAhead_ends h

theorem step_aligned [DecidableEq D] {x : Input E D} (h : nd.Aligned c) (hx : nd.AcceptsNew c x) :
    (nd.step c makeDigest x).Aligned c := by
  unfold step
  have hends : Ends (· ≠ .ackIncarnation) (Node.Aligned c) (nd.handle c makeDigest x) := handle_ends h hx
  split_ifs
  · exact h
  · split
    · rename_i nd' hnd
      rw [hnd] at hends
      exact hends
    · rename_i f hf
      rw [hf] at hends
      exact { po := h.po, installed := h.installed, fault := fun hfault => hends (Option.some.inj hfault) }

end Node

/-! ## Runs -/

/-- **Incarnations of acks.** As long as incarnations are accepted in order, `aru` and `max_acked`
are consistent in every state of a run, and the assertion on where acking starts never fails. -/
theorem acks_consistent [DecidableEq D] (c : Site) (makeDigest : PoRequest E → D) (ni : NewIncarnation)
    (xs : List (Input E D)) (hsteps : Steps (Node.step c makeDigest) (Node.AcceptsNew c) (Node.start c ni) xs) :
    Always (Node.step c makeDigest) (fun nd => Consistent c nd.po ∧ nd.fault ≠ some .ackIncarnation)
      (Node.start c ni) xs :=
  (Lib.always_of_steps (A := fun _ => True) (fun _ _ _ h hx => Node.step_aligned h hx) (fun _ _ => trivial) hsteps
    (Node.start_aligned ni)).imp fun _ h => ⟨h.po.toConsistent, h.fault⟩

/-! ### An incarnation accepted late -/

/-- The first request of the fifth incarnation of server 2 is acked and executed. -/
def executedRun : List (Input Nat (List Nat)) :=
  [.incarnationAcked, .incarnationCert 2 fifthIncarnation, .poRequest firstRequest, .poAck (firstAck 2),
    .poAck (firstAck 3), .poAck (firstAck 4), .execute firstSlot]

/-- An ordinal that makes the server's own first request eligible, and the start of the seventh
incarnation of server 2: one of the rows that agree on it is not above zero. -/
def seventhSlot : Slot :=
  { seqNum := 1
    prev := fun _ => .zero
    cur := Function.update (Function.update (fun _ => .zero) 1 ⟨1, 1⟩) 2 ⟨7, 0⟩
    walk := fun _ => walkInOrder }

/-- The certificate of the sixth incarnation comes after the jump. -/
def lateRun : List (Input Nat (List Nat)) :=
  [.incarnationAcked, .incarnationCert 2 fifthIncarnation, .jump seventhSlot [],
    .incarnationCert 2 { fifthIncarnation with incarnation := 6, timestamp := 40 }]

theorem acks_consistent_executed :
    Steps (Node.step firstSite digestOf) (Node.AcceptsNew firstSite) (Node.start firstSite ownIncarnation) executedRun ∧
      Always (Node.step firstSite digestOf)
        (fun nd => Consistent firstSite nd.po ∧ nd.fault ≠ some .ackIncarnation)
        (Node.start firstSite ownIncarnation) executedRun := by
  have hsteps : Steps (Node.step firstSite digestOf) (Node.AcceptsNew firstSite)
      (Node.start firstSite ownIncarnation) executedRun := by
    refine ⟨fun _ => ⟨Nat.zero_le _, Nat.zero_le _⟩, fun _ _ => Nat.zero_le _, trivial, trivial, trivial, trivial, ?_,
      trivial⟩
    intro _ i hi hzero ps hps
    have hcur : ∀ i ∈ firstSite.all, (firstSlot.cur i).seqNum = 0 → (firstSlot.cur i).incarnation = 0 := by decide
    have hlt := (of_decide_eq_true (List.mem_filter.mp hps).2).1
    rw [hcur i hi hzero] at hlt
    exact absurd hlt (Nat.not_lt_zero _)
  exact ⟨hsteps, acks_consistent firstSite digestOf ownIncarnation executedRun hsteps⟩

/-- The server is in the sixth incarnation of server 2 with `aru`, and in the seventh with
`cum_aru`, when it acks again. -/
theorem late_incarnation_asserts :
    ¬Always (Node.step firstSite digestOf)
      (fun nd => Consistent firstSite nd.po ∧ nd.fault ≠ some .ackIncarnation)
      (Node.start firstSite ownIncarnation) lateRun := by
  intro h
  have hlast := h.of_prefix (List.prefix_refl lateRun)
  exact hlast.2 rfl

end Spire.Incarnations
