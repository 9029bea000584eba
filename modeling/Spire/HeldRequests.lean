import Spire.AckIncarnations

/-!
# Requests that are held

Between the white line of a server and `aru` every request is in the history: that is what
acking and execution take for granted when they dereference it. Requests arrive one by one and
`aru` follows them, so what can break this is that a request goes: a certificate that replaces
it by one of another server, or a white line that moves back below what has been collected.
-/

namespace Spire.Incarnations

open Spire.PreOrder
open Spire.Lib (Always Steps)

variable {E D : Type} {c : Site} {makeDigest : PoRequest E → D} {preinstalled : Nat → Nat}

/-! ## The window -/

namespace Po

/-- The requests up to `aru` that are after `w` are held. -/
def HeldAbove (po : Po E D) (i : Nat) (w : PoSeqPair) : Prop :=
  ∀ seq, 0 < seq → seq ≤ (po.aru i).seqNum → ¬SeqLe ⟨(po.aru i).incarnation, seq⟩ w →
    (po.request? i ⟨(po.aru i).incarnation, seq⟩).isSome

/-- Those after the white line: from the one with the next number on or, where the white line is
still in an older incarnation, from the first. -/
def HeldAt (po : Po E D) (i : Nat) : Prop := po.HeldAbove i (po.whiteLine i)

def Held (c : Site) (po : Po E D) : Prop := ∀ i ∈ c.all, po.HeldAt i

/-- The white line can move to `w` when some requests are collected: those of the current
incarnation are not after `w`, and what is after it is held. -/
def MovesTo (po : Po E D) (i : Nat) (w : PoSeqPair) (gone : List PoSeqPair) : Prop :=
  (∀ ps ∈ gone, ps.incarnation = (po.aru i).incarnation → SeqLe ps w) ∧ po.HeldAbove i w

variable {po po' : Po E D} {i : Nat} {w w' : PoSeqPair}

theorem HeldAbove.mono (h : po.HeldAbove i w) (hle : SeqLe w w') : po.HeldAbove i w' :=
  fun seq hpos hseq hw => h seq hpos hseq fun hle' => hw (IsTrans.trans _ _ _ hle' hle)

/-- The same requests up to the same `aru`. -/
theorem HeldAbove.congr (h : po.HeldAbove i w) (haru : po'.aru i = po.aru i)
    (hrequest : ∀ ps, po'.request? i ps = po.request? i ps) : po'.HeldAbove i w := by
  intro seq hpos hseq hw
  rw [haru] at hseq hw ⊢
  rw [hrequest]
  exact h seq hpos hseq hw

/-- Requests that come to what is held. -/
theorem HeldAbove.more (h : po.HeldAbove i w) (haru : po'.aru i = po.aru i)
    (hrequest : ∀ ps, (po.request? i ps).isSome → (po'.request? i ps).isSome) : po'.HeldAbove i w := by
  intro seq hpos hseq hw
  rw [haru] at hseq hw ⊢
  exact hrequest _ (h seq hpos hseq hw)

end Po

/-! ## Requests that arrive -/

/-- `aru` moves over requests that are there. -/
theorem raiseAru_held (po : Po E D) (s n : Nat) (aru : PoSeqPair) (seq : Nat) (hlt : aru.seqNum < seq)
    (hle : seq ≤ (raiseAru po s n aru).seqNum) : (po.request? s ⟨aru.incarnation, seq⟩).isSome := by
  induction n generalizing aru with
  | zero =>
    have hle : seq ≤ aru.seqNum := hle
    omega
  | succ n ih =>
    unfold raiseAru at hle
    dsimp only at hle
    split at hle
    · omega
    · rename_i slot hslot
      split_ifs at hle with hnone
      · omega
      · by_cases heq : seq = aru.seqNum + 1
        · rw [heq, Po.request?, hslot]
          exact Option.isSome_iff_ne_none.mpr fun hr => hnone (by
            rw [show slot.poRequest = none from hr]
            rfl)
        · exact ih ⟨aru.incarnation, aru.seqNum + 1⟩ (by dsimp only; omega) hle

theorem updateAru_aru (po : Po E D) (s : Nat) :
    (updateAru po c).aru s = po.aru s ∨
      (updateAru po c).aru s = raiseAru po s (po.history s).keys.length (po.aru s) := by
  show (if s ∈ c.all then _ else _) = _ ∨ (if s ∈ c.all then _ else _) = _
  split_ifs
  · exact .inr rfl
  · exact .inl rfl

theorem updateAru_heldAbove {po : Po E D} {i : Nat} {w : PoSeqPair} (h : po.HeldAbove i w) :
    (updateAru po c).HeldAbove i w := by
  intro seq hpos hseq hw
  rw [updateAru_incarnation] at hw ⊢
  show (po.request? i _).isSome
  by_cases hold : seq ≤ (po.aru i).seqNum
  · exact h seq hpos hold hw
  · rcases updateAru_aru (c := c) po i with haru | haru
    · rw [haru] at hseq
      exact absurd hseq hold
    · rw [haru] at hseq
      exact raiseAru_held po i _ _ seq (by omega) hseq

theorem Preordered.heldAbove {po po' : Po E D} (hpo : Preordered preinstalled po po') {i : Nat} {w : PoSeqPair}
    (h : po.HeldAbove i w) : po'.HeldAbove i w :=
  h.congr (congrFun hpo.aru i) (hpo.request i)

theorem Preordered.held {po po' : Po E D} (hpo : Preordered preinstalled po po') (h : po.Held c) : po'.Held c := by
  intro i hi
  unfold Po.HeldAt
  rw [hpo.whiteLine]
  exact hpo.heldAbove (h i hi)

theorem Acked.request? {po po' : Po E D} (hpo : Acked po po') (i : Nat) (ps : PoSeqPair) :
    po'.request? i ps = po.request? i ps := by
  unfold Po.request? Po.slot?
  rw [hpo.history]

theorem Acked.heldAbove {po po' : Po E D} (hpo : Acked po po') {i : Nat} {w : PoSeqPair}
    (h : po.HeldAbove i w) : po'.HeldAbove i w :=
  h.congr (congrFun hpo.aru i) (hpo.request? i)

theorem Acked.held {po po' : Po E D} (hpo : Acked po po') (h : po.Held c) : po'.Held c := by
  intro i hi
  unfold Po.HeldAt
  rw [hpo.whiteLine]
  exact hpo.heldAbove (h i hi)

/-- Those of one server. -/
def collectedOf (pids : List PoId) (i : Nat) : List PoSeqPair :=
  (pids.filter fun pid => pid.serverId = i).map PoId.seq

theorem mem_collectedOf {pids : List PoId} {i : Nat} {ps : PoSeqPair} : ps ∈ collectedOf pids i ↔ ⟨i, ps⟩ ∈ pids := by
  simp only [collectedOf, List.mem_map, List.mem_filter, decide_eq_true_eq]
  constructor
  · rintro ⟨pid, ⟨hmem, rfl⟩, rfl⟩
    exact hmem
  · intro hmem
    exact ⟨⟨i, ps⟩, ⟨hmem, rfl⟩, rfl⟩

theorem collectedOf_map (l : List PoSeqPair) (i : Nat) : collectedOf (l.map (PoId.mk i)) i = l := by
  simp [collectedOf, List.filter_map, Function.comp_def]

theorem collectedOf_eq_nil {pids : List PoId} {i : Nat} (h : ∀ pid ∈ pids, pid.serverId ≠ i) :
    collectedOf pids i = [] :=
  List.eq_nil_iff_forall_not_mem.mpr fun _ hps => h _ (mem_collectedOf.mp hps) rfl

theorem garbageCollectPoSlot_request {po po' : Po E D} {pid : PoId} (h : garbageCollectPoSlot po pid = .ok po')
    (i : Nat) (ps : PoSeqPair) (hne : ⟨i, ps⟩ ≠ pid) : po'.request? i ps = po.request? i ps := by
  obtain ⟨-, rfl⟩ := garbageCollectPoSlot_ok h
  show (po.eraseSlot pid.serverId pid.seq).request? i ps = _
  rw [Po.request?_eraseSlot, if_neg]
  rintro ⟨rfl, rfl⟩
  exact hne rfl

theorem garbageCollectPoSlot_whiteLine {po po' : Po E D} {pid : PoId} (h : garbageCollectPoSlot po pid = .ok po') :
    po'.whiteLine = Function.update po.whiteLine pid.serverId pid.seq := by
  obtain ⟨-, rfl⟩ := garbageCollectPoSlot_ok h
  rfl

/-- What is collected goes, and the white line is at the last of it. -/
theorem foldlM_garbageCollect {po po' : Po E D} {pids : List PoId}
    (h : pids.foldlM garbageCollectPoSlot po = .ok po') (i : Nat) :
    (∀ ps, ps ∉ collectedOf pids i → po'.request? i ps = po.request? i ps) ∧
      po'.whiteLine i = (collectedOf pids i).getLast?.getD (po.whiteLine i) ∧
      (collectedOf pids i = [] → po'.history i = po.history i) := by
  induction pids generalizing po with
  | nil =>
    cases h
    exact ⟨fun _ _ => rfl, rfl, fun _ => rfl⟩
  | cons pid pids ih =>
    rw [List.foldlM_cons] at h
    obtain ⟨po₁, hpo₁, h⟩ := Lib.bind_eq_ok.mp h
    obtain ⟨hrequest, hwhite, hhistory⟩ := ih h
    have hcons : collectedOf (pid :: pids) i =
        if pid.serverId = i then pid.seq :: collectedOf pids i else collectedOf pids i := by
      unfold collectedOf
      rw [List.filter_cons]
      by_cases hi : pid.serverId = i
      · simp [hi]
      · simp [hi]
    refine ⟨fun ps hps => ?_, ?_, fun hnil => ?_⟩
    · have hpid : PoId.mk i ps ≠ pid := by
        intro heq
        exact hps (mem_collectedOf.mpr (heq ▸ List.mem_cons_self))
      have hlater : ps ∉ collectedOf pids i := fun hmem =>
        hps (mem_collectedOf.mpr (List.mem_cons_of_mem pid (mem_collectedOf.mp hmem)))
      rw [hrequest ps hlater, garbageCollectPoSlot_request hpo₁ i ps hpid]
    · rw [hwhite, garbageCollectPoSlot_whiteLine hpo₁, hcons]
      split_ifs with hi
      · rw [List.getLast?_cons, hi, Function.update_self]
        rfl
      · rw [Function.update_of_ne (Ne.symm hi)]
    · rw [hcons] at hnil
      split_ifs at hnil with hi
      rw [hhistory hnil, garbageCollectPoSlot_history hpo₁ (Ne.symm hi)]

/-- The condition on the collection of an ordinal. -/
def Po.Collects (c : Site) (po : Po E D) (seq : Nat) : Prop :=
  ∀ i ∈ c.all, ∀ w ∈ (collectedOf (po.slotLists seq) i).getLast?, po.MovesTo i w (collectedOf (po.slotLists seq) i)

/-- For a server nothing changes but that `aru` may have moved over requests that are there. -/
structure KeepsAt (i : Nat) (po po' : Po E D) : Prop where
  history : po'.history i = po.history i
  whiteLine : po'.whiteLine i = po.whiteLine i
  incarnation : (po'.aru i).incarnation = (po.aru i).incarnation
  held : ∀ w, po.HeldAbove i w → po'.HeldAbove i w

namespace KeepsAt

variable {i : Nat} {po po' po'' : Po E D}

theorem refl (i : Nat) (po : Po E D) : KeepsAt i po po := ⟨rfl, rfl, rfl, fun _ h => h⟩

theorem trans (h : KeepsAt i po po') (h' : KeepsAt i po' po'') : KeepsAt i po po'' :=
  { history := h'.history.trans h.history
    whiteLine := h'.whiteLine.trans h.whiteLine
    incarnation := h'.incarnation.trans h.incarnation
    held := fun w hw => h'.held w (h.held w hw) }

/-- Acks are sent where a server resumes normal operation. -/
theorem resumed (h : po' = po ∨ Acked (updateAru po c) po') (i : Nat) : KeepsAt i po po' := by
  rcases h with rfl | h
  · exact refl i po'
  · exact
      { history := congrFun h.history i
        whiteLine := congrFun h.whiteLine i
        incarnation := by rw [h.aru, updateAru_incarnation]
        held := fun w hw => h.heldAbove (updateAru_heldAbove hw) }

/-- Requests of another server are collected. -/
theorem collected {j : Nat} {l : List PoSeqPair} (h : (l.map (PoId.mk j)).foldlM garbageCollectPoSlot po = .ok po')
    (hne : i ≠ j) : KeepsAt i po po' := by
  have hnil : collectedOf (l.map (PoId.mk j)) i = [] := by
    refine collectedOf_eq_nil fun pid hpid => ?_
    obtain ⟨ps, -, rfl⟩ := List.mem_map.mp hpid
    exact Ne.symm hne
  obtain ⟨hrequest, hwhite, hhistory⟩ := foldlM_garbageCollect h i
  rw [hnil] at hrequest hwhite
  have haru := congrFun (foldlM_collected h).aru i
  exact
    { history := hhistory hnil
      whiteLine := hwhite
      incarnation := by rw [haru]
      held := fun w hw => hw.congr haru fun ps => hrequest ps List.not_mem_nil }

end KeepsAt

/-! ## The server -/

namespace Node

variable {nd nd' : Node E D} {slot : Slot} {i j : Nat}

/-- The white line can move to the last request that an ordinal drops. -/
def Drops (nd : Node E D) (slot : Slot) (i : Nat) : Prop :=
  ∀ w ∈ (dropped nd.po slot i).getLast?, nd.po.MovesTo i w (dropped nd.po slot i)

theorem executeRequest_keeps {seqNum : Nat} {ps : PoSeqPair}
    (h : executeRequest c makeDigest seqNum i nd ps = .ok nd') (j : Nat) : KeepsAt j nd.po nd'.po := by
  obtain ⟨-, nd₁, hstart, rfl⟩ := executeRequest_ok h
  have hlisted : KeepsAt j nd₁.po { nd₁.po with
      lastExecutedPoReqs := Function.update nd₁.po.lastExecutedPoReqs i ps
      slotLists := Function.update nd₁.po.slotLists seqNum (nd₁.po.slotLists seqNum ++ [⟨i, ps⟩]) } :=
    ⟨rfl, rfl, rfl, fun _ hw => hw⟩
  rcases hstart with ⟨-, -, hstart⟩ | ⟨-, rfl⟩
  · obtain ⟨po, hpo, rfl⟩ := noteStartup_ok hstart
    exact (KeepsAt.resumed hpo j).trans hlisted
  · exact hlisted

theorem executeRequests_keeps {seqNum : Nat} {requests : List PoSeqPair}
    (h : requests.foldlM (executeRequest c makeDigest seqNum i) nd = .ok nd') (j : Nat) : KeepsAt j nd.po nd'.po :=
  Lib.foldlM_inv (I := fun nd' : Node E D => KeepsAt j nd.po nd'.po)
    (fun _ _ _ _ hround hs => hs.trans (executeRequest_keeps hround j)) h (KeepsAt.refl j nd.po)

theorem executeServer_keeps (h : executeServer c makeDigest slot nd i = .ok nd') (hne : j ≠ i) :
    KeepsAt j nd.po nd'.po := by
  obtain ⟨po, hpo, h⟩ := executeServer_ok h
  have hdropped : KeepsAt j nd.po po := by
    rcases hpo with ⟨-, hpo⟩ | ⟨-, rfl⟩
    · exact KeepsAt.collected hpo hne
    · exact KeepsAt.refl j nd.po
  exact hdropped.trans (executeRequests_keeps h j)

theorem jumpServer_keeps (h : jumpServer c makeDigest slot nd i = .ok nd') (hne : j ≠ i) :
    KeepsAt j nd.po nd'.po := by
  obtain ⟨nd₁, po, hstart, hpo, rfl⟩ := jumpServer_ok h
  have hjump : KeepsAt j nd.po (jumpAru slot i nd.po) :=
    { history := rfl
      whiteLine := rfl
      incarnation := by
        show (Function.update nd.po.aru i _ j).incarnation = _
        rw [Function.update_of_ne hne]
      held := fun w hw => hw.congr (Function.update_of_ne hne _ _) fun _ => rfl }
  have hnoted : KeepsAt j nd.po nd₁.po := by
    rcases hstart with ⟨-, hstart⟩ | ⟨-, rfl⟩
    · obtain ⟨po', hpo', rfl⟩ := noteStartup_ok hstart
      exact hjump.trans (KeepsAt.resumed hpo' j)
    · exact hjump
  have hlast : KeepsAt j nd₁.po { nd₁.po with
      lastExecutedPoReqs :=
        Function.update nd₁.po.lastExecutedPoReqs i (raise (slot.cur i) (nd.po.lastExecutedPoReqs i)) } :=
    ⟨rfl, rfl, rfl, fun _ hw => hw⟩
  have hwhite : KeepsAt j po { po with
      whiteLine := Function.update po.whiteLine i (raise (slot.cur i) (po.whiteLine i)) } :=
    ⟨rfl, Function.update_of_ne hne _ _, rfl, fun _ hw => hw⟩
  exact ((hnoted.trans hlast).trans (KeepsAt.collected hpo hne)).trans hwhite

/-- The slot of a certificate, its request replaced or not. -/
theorem processPoCertificate_ok [DecidableEq D] {cert : PoCert E D}
    (h : nd.processPoCertificate c makeDigest cert = .ok nd') :
    nd' = nd ∨ (nd.po.getSlot cert.server cert.seq).snapshot.isSome ∧
        nd' = { nd with po := nd.po.putSlot cert.server cert.seq (nd.po.getSlot cert.server cert.seq) } ∨
      cert.sender ≠ c.me ∧ 0 < seqCompare cert.seq (nd.po.cumAru cert.server) ∧
      (nd.po.getSlot cert.server cert.seq).snapshot = none ∧
      ∃ nd₁ : Node E D, processCertified c makeDigest { nd₁ with
          po := nd₁.po.putSlot cert.server cert.seq
            (certifiedSlot makeDigest cert (nd.po.getSlot cert.server cert.seq)) } cert = .ok nd' ∧
        (nd.pr.preinstalledIncarnations cert.server < cert.seq.incarnation ∧ cert.seq.seqNum = 1 ∧
          nd₁ = { nd with
            pr := { nd.pr with
              preinstalledIncarnations :=
                Function.update nd.pr.preinstalledIncarnations cert.server cert.seq.incarnation }
            po := { nd.po.putSlot cert.server cert.seq (nd.po.getSlot cert.server cert.seq) with
              maxAcked := Function.update nd.po.maxAcked cert.server ⟨cert.seq.incarnation, 0⟩
              aru := Function.update nd.po.aru cert.server ⟨cert.seq.incarnation, 0⟩ } } ∨
        ¬(nd.pr.preinstalledIncarnations cert.server < cert.seq.incarnation ∧ cert.seq.seqNum = 1) ∧
          nd₁ = { nd with po := nd.po.putSlot cert.server cert.seq (nd.po.getSlot cert.server cert.seq) }) := by
  unfold processPoCertificate at h
  dsimp only at h
  split_ifs at h with hme hold hsnapshot hstarts
  · cases h
    exact .inl rfl
  · cases h
    exact .inl rfl
  · cases h
    exact .inr (.inl ⟨hsnapshot, rfl⟩)
  · have hstarts := of_decide_eq_true hstarts
    exact .inr (.inr ⟨hme, not_le.mp hold, Option.not_isSome_iff_eq_none.mp hsnapshot, _, h,
      .inl ⟨hstarts.1, hstarts.2, rfl⟩⟩)
  · refine .inr (.inr ⟨hme, not_le.mp hold, Option.not_isSome_iff_eq_none.mp hsnapshot, _, h, .inr ⟨?_, rfl⟩⟩)
    exact fun hlt => hstarts (decide_eq_true hlt)

end Node

/-! ## Runs -/

/-- The first request of a server in its first incarnation. -/
def requestOf (server event : Nat) : PoRequest Nat :=
  { machineId := server, incarnation := 1, seq := ⟨1, 1⟩, events := [event] }

end Spire.Incarnations
