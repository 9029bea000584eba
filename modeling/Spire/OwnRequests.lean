import Spire.HeldRequests

/-!
# Requests that are sent again

`PRE_ORDER_Periodic_Retrans` walks the server's own history and broadcasts `po_request` of every
slot after the last request that was executed. It takes for granted that a slot in that history is
that of a request the server sent. A PO_ACK that passes validation can be for any number, though,
and brings a slot without a request with it; and a PO_CERT can clear the request of a slot.
-/

namespace Spire.Incarnations

open Spire.PreOrder
open Spire.Lib (Always Steps)

variable {E D : Type} {c : Site} {makeDigest : PoRequest E → D} {preinstalled : Nat → Nat}

/-- What the loop in `PRE_ORDER_Periodic_Retrans` broadcasts. -/
def Node.retransmitted (c : Site) (nd : Node E D) : List (Option (PoRequest E)) :=
  ((nd.po.history c.me).entries.filter fun e => decide (0 < seqCompare e.1 (nd.po.lastExecutedPoReqs c.me))).map
    fun e => e.2.poRequest

/-! ## Slots without a request -/

namespace Po

/-- There is a slot, and no request in it. -/
def Empty (po : Po E D) (s : Nat) (ps : PoSeqPair) : Prop := (po.slot? s ps).isSome ∧ po.request? s ps = none

/-- The slots without a request are not after the last request that was executed. -/
def Populated (po : Po E D) (s : Nat) : Prop := ∀ ps, po.Empty s ps → SeqLe ps (po.lastExecutedPoReqs s)

variable {po po' : Po E D} {s t : Nat} {ps qs : PoSeqPair} {slot : PoSlot E D}

theorem empty_putSlot : (po.putSlot s ps slot).Empty t qs ↔
    if t = s ∧ qs = ps then slot.poRequest = none else po.Empty t qs := by
  unfold Empty
  rw [slot?_putSlot, request?_putSlot]
  split
  · exact and_iff_right rfl
  · exact Iff.rfl

/-- A slot that is written again with its request. -/
theorem empty_putSlot_same (hthere : (po.slot? s ps).isSome) (h : slot.poRequest = po.request? s ps) :
    (po.putSlot s ps slot).Empty t qs ↔ po.Empty t qs := by
  rw [empty_putSlot]
  split
  · rename_i heq
    rw [heq.1, heq.2, h]
    exact (and_iff_right hthere).symm
  · exact Iff.rfl

theorem Empty.congr (h : po'.Empty s ps) (hhistory : po'.history = po.history) : po.Empty s ps := by
  unfold Empty request? slot? at h ⊢
  rwa [hhistory] at h

end Po

/-- What is broadcast are requests. -/
theorem Node.retransmitted_iff {nd : Node E D} : (∀ r ∈ nd.retransmitted c, r.isSome) ↔ nd.po.Populated c.me := by
  have hslot : ∀ ps slot, (⟨ps, slot⟩ : Sigma fun _ : PoSeqPair => PoSlot E D) ∈ (nd.po.history c.me).entries ↔
      nd.po.slot? c.me ps = some slot := fun ps slot => AList.mem_lookup_iff.symm
  constructor
  · intro h ps hempty
    obtain ⟨slot, hps⟩ := Option.isSome_iff_exists.mp hempty.1
    by_contra hafter
    have hmem : slot.poRequest ∈ nd.retransmitted c :=
      List.mem_map.mpr ⟨⟨ps, slot⟩, List.mem_filter.mpr ⟨(hslot ps slot).mpr hps, decide_eq_true (not_le.mp hafter)⟩, rfl⟩
    have hnone : slot.poRequest = none := by
      have := hempty.2
      rwa [Po.request?, hps] at this
    have hsome := h _ hmem
    rw [hnone] at hsome
    cases hsome
  · intro h r hr
    obtain ⟨⟨ps, slot⟩, hmem, rfl⟩ := List.mem_map.mp hr
    obtain ⟨hmem, hafter⟩ := List.mem_filter.mp hmem
    have hps := (hslot ps slot).mp hmem
    refine Option.isSome_iff_ne_none.mpr fun hnone => ?_
    refine not_le.mpr (of_decide_eq_true hafter) (h ps ⟨by rw [hps]; rfl, ?_⟩)
    rw [Po.request?, hps]
    exact hnone

/-! ## Requests and acks -/

section Certified

variable [DecidableEq D] {po po' : Po E D} {s t : Nat} {ps qs : PoSeqPair}

/-- Where there is no request, nothing changes but that there may be a slot now. -/
structure Unfilled (po po' : Po E D) : Prop where
  empty : ∀ s ps, po'.Empty s ps → po.Empty s ps
  snapshot : ∀ s ps, po.request? s ps = none → (po'.slot? s ps).bind PoSlot.snapshot = (po.slot? s ps).bind PoSlot.snapshot

theorem raiseCumAru_unfilled {n : Nat} (h : raiseCumAru c makeDigest preinstalled s n ps po = .ok po') :
    Unfilled po po' := by
  induction n generalizing ps po with
  | zero =>
    cases h
    exact ⟨fun _ _ h => h, fun _ _ _ => rfl⟩
  | succ n ih =>
    unfold raiseCumAru at h
    split at h
    · cases h
      exact ⟨fun _ _ h => h, fun _ _ _ => rfl⟩
    rename_i slot hslot
    split at h
    · cases h
      exact ⟨fun _ _ h => h, fun _ _ _ => rfl⟩
    rename_i r hr
    dsimp only at h
    split_ifs at h
    · cases h
      exact ⟨fun _ _ h => h, fun _ _ _ => rfl⟩
    · obtain ⟨hempty, hsnapshot⟩ := ih h
      have hrequest : po.request? s ps = some r := by
        rw [Po.request?, hslot]
        exact hr
      refine ⟨fun t qs he => ?_, fun t qs hnone => ?_⟩
      · have hput : (po.putSlot s ps
            { slot with snapshot := some (slot.snapshot.getD (vectorOf c preinstalled)) }).Empty t qs := (hempty t qs he).congr rfl
        refine (Po.empty_putSlot_same ?_ ?_).mp hput
        · rw [hslot]
          rfl
        · exact hr.trans hrequest.symm
      · have hne : ¬(t = s ∧ qs = ps) := by
          rintro ⟨rfl, rfl⟩
          rw [hrequest] at hnone
          cases hnone
        have hput : (po.putSlot s ps
            { slot with snapshot := some (slot.snapshot.getD (vectorOf c preinstalled)) }).request? t qs = none := by
          rw [Po.request?_putSlot, if_neg hne]
          exact hnone
        refine (hsnapshot t qs hput).trans ?_
        show ((po.putSlot s ps _).slot? t qs).bind PoSlot.snapshot = _
        rw [Po.slot?_putSlot, if_neg hne]

theorem updateCumAru_unfilled (h : updateCumAru c makeDigest preinstalled po s = .ok po') : Unfilled po po' :=
  raiseCumAru_unfilled h

/-- A part of a PO_ACK is for a slot that can be acked. -/
def Po.Accepts (c : Site) (preinstalled : Nat → Nat) (po : Po E D) (vector : List Nat) (part : AckPart D) : Prop :=
  vector = ((po.slot? part.originator part.seq).bind PoSlot.snapshot).getD (vectorOf c preinstalled) ∧
    ¬SeqLe part.seq (po.whiteLine part.originator)

/-- The only slot without a request that a part can bring is its own. -/
theorem processPoAckPart_empty {sender : Nat} {vector : List Nat} {part : AckPart D}
    (h : processPoAckPart c makeDigest preinstalled sender vector po part = .ok po') (hempty : po'.Empty s ps) :
    po.Empty s ps ∨ s = part.originator ∧ ps = part.seq ∧ po.Accepts c preinstalled vector part ∧ po.request? s ps = none := by
  have hput : ∀ ack, (po.putSlot part.originator part.seq { po.getSlot part.originator part.seq with ack := ack }).Empty s ps →
      po.Empty s ps ∨ s = part.originator ∧ ps = part.seq ∧ po.request? s ps = none := by
    intro ack he
    rw [Po.empty_putSlot] at he
    split at he
    · rename_i heq
      rw [po.getSlot_poRequest] at he
      exact .inr ⟨heq.1, heq.2, by rw [heq.1, heq.2]; exact he⟩
    · exact .inl he
  unfold processPoAckPart at h
  dsimp only at h
  split_ifs at h with hvector hwhite hacked
  · cases h
    exact .inl hempty
  · cases h
    exact .inl hempty
  · cases h
    exact (hput _ hempty).imp_right fun ⟨hs, hps, hnone⟩ => ⟨hs, hps, ⟨not_not.mp hvector, hwhite⟩, hnone⟩
  · exact (hput _ ((updateCumAru_unfilled h).empty s ps hempty)).imp_right
      fun ⟨hs, hps, hnone⟩ => ⟨hs, hps, ⟨not_not.mp hvector, hwhite⟩, hnone⟩

theorem processPoAckPart_snapshot {sender : Nat} {vector : List Nat} {part : AckPart D}
    (h : processPoAckPart c makeDigest preinstalled sender vector po part = .ok po') (hnone : po.request? s ps = none) :
    (po'.slot? s ps).bind PoSlot.snapshot = (po.slot? s ps).bind PoSlot.snapshot := by
  have hput : ∀ ack, ((po.putSlot part.originator part.seq
      { po.getSlot part.originator part.seq with ack := ack }).slot? s ps).bind PoSlot.snapshot =
      (po.slot? s ps).bind PoSlot.snapshot := by
    intro ack
    rw [Po.slot?_putSlot]
    split
    · rename_i heq
      rw [heq.1, heq.2]
      show (po.getSlot part.originator part.seq).snapshot = _
      unfold Po.getSlot
      cases po.slot? part.originator part.seq with
      | none => rfl
      | some slot => rfl
    · rfl
  unfold processPoAckPart at h
  dsimp only at h
  split_ifs at h
  · cases h
    rfl
  · cases h
    rfl
  · cases h
    exact hput _
  · refine ((updateCumAru_unfilled h).snapshot s ps ?_).trans (hput _)
    refine (po.request?_putSlot_same ?_ s ps).trans hnone
    exact po.getSlot_poRequest part.originator part.seq

/-- **A PO_ACK.** The slots without a request that it brings are those of parts that are accepted. -/
theorem foldlM_ackPart_empty {sender : Nat} {vector : List Nat} {parts : List (AckPart D)}
    (h : parts.foldlM (processPoAckPart c makeDigest preinstalled sender vector) po = .ok po') (hempty : po'.Empty s ps) :
    po.Empty s ps ∨ ∃ part ∈ parts, s = part.originator ∧ ps = part.seq ∧ po.Accepts c preinstalled vector part ∧
      po.request? s ps = none := by
  induction parts generalizing po with
  | nil =>
    cases h
    exact .inl hempty
  | cons part parts ih =>
    rw [List.foldlM_cons] at h
    obtain ⟨po₁, hpo₁, h⟩ := Lib.bind_eq_ok.mp h
    have hpre : Preordered preinstalled po po₁ := processPoAckPart_preordered hpo₁
    rcases ih h with he | ⟨part', hmem, rfl, rfl, ⟨hvector, hwhite⟩, hnone⟩
    · refine (processPoAckPart_empty hpo₁ he).imp_right fun ⟨hs, hps, haccepts⟩ => ?_
      exact ⟨part, List.mem_cons_self, hs, hps, haccepts⟩
    · rw [hpre.request] at hnone
      rw [hpre.whiteLine] at hwhite
      rw [processPoAckPart_snapshot hpo₁ hnone] at hvector
      exact .inr ⟨part', List.mem_cons_of_mem part hmem, rfl, rfl, ⟨hvector, hwhite⟩, hnone⟩

/-- A request that is taken. -/
def Po.Takes (preinstalled : Nat → Nat) (po : Po E D) (r : PoRequest E) : Prop :=
  ¬SeqLe r.seq (po.whiteLine r.machineId) ∧ r.incarnation ≤ preinstalled r.machineId

/-- A request brings no slot without one, and is there if it is taken. -/
theorem processPoRequest_fills {normal : Bool} {r : PoRequest E}
    (h : processPoRequest c makeDigest preinstalled normal po r = .ok po') :
    (po'.Empty s ps → po.Empty s ps) ∧
      (po'.request? s ps = none → po.request? s ps = none ∧ (s = r.machineId → ps = r.seq → ¬po.Takes preinstalled r)) := by
  unfold processPoRequest at h
  dsimp only at h
  split at h
  · rename_i hwhite
    cases h
    exact ⟨id, fun hnone => ⟨hnone, fun _ _ htakes => htakes.1 hwhite⟩⟩
  split at h
  · rename_i hinc
    cases h
    exact ⟨id, fun hnone => ⟨hnone, fun _ _ htakes => absurd htakes.2 (by omega)⟩⟩
  split at h
  · rename_i hthere
    cases h
    have hrequest := po.getSlot_poRequest r.machineId r.seq
    refine ⟨fun he => ?_, fun hnone => ?_⟩
    · rw [Po.empty_putSlot] at he
      split at he
      · rw [he] at hthere
        cases hthere
      · exact he
    · rw [Po.request?_putSlot_same po hrequest] at hnone
      refine ⟨hnone, fun hs hps => ?_⟩
      rw [hrequest, ← hs, ← hps, hnone] at hthere
      cases hthere
  split at h
  · cases h
  · rename_i po₁ hcum
    have hpre : Preordered preinstalled _ po₁ := updateCumAru_preordered hcum
    have hempty := (updateCumAru_unfilled hcum).empty s ps
    have hfilled : ∀ po₂ : Po E D, po₂.history = po₁.history → (po₂.Empty s ps → po.Empty s ps) ∧
        (po₂.request? s ps = none → po.request? s ps = none ∧ (s = r.machineId → ps = r.seq → ¬po.Takes preinstalled r)) := by
      intro po₂ hpo₂
      refine ⟨fun he => ?_, fun hnone => ?_⟩
      · have he : (po.putSlot r.machineId r.seq { po.getSlot r.machineId r.seq with poRequest := some r }).Empty s ps :=
          (hempty (he.congr hpo₂)).congr rfl
        rw [Po.empty_putSlot] at he
        split at he
        · cases he
        · exact he
      · have hnone : (po.putSlot r.machineId r.seq
            { po.getSlot r.machineId r.seq with poRequest := some r }).request? s ps = none := by
          rw [Po.request?, Po.slot?, hpo₂] at hnone
          exact (hpre.request s ps).symm.trans hnone
        rw [Po.request?_putSlot] at hnone
        split at hnone
        · cases hnone
        · rename_i hne
          exact ⟨hnone, fun hs hps => absurd ⟨hs, hps⟩ hne⟩
    split at h
    · exact hfilled po' (sendPoAck_acked h).history
    · cases h
      exact hfilled _ rfl

theorem processPoRequest_lines {normal : Bool} {r : PoRequest E}
    (h : processPoRequest c makeDigest preinstalled normal po r = .ok po') :
    po'.whiteLine = po.whiteLine ∧ po'.lastExecutedPoReqs = po.lastExecutedPoReqs := by
  unfold processPoRequest at h
  dsimp only at h
  split at h
  · cases h
    exact ⟨rfl, rfl⟩
  split at h
  · cases h
    exact ⟨rfl, rfl⟩
  split at h
  · cases h
    exact ⟨rfl, rfl⟩
  split at h
  · cases h
  · rename_i po₁ hcum
    have hpre : Preordered preinstalled _ po₁ := updateCumAru_preordered hcum
    have hlines : po₁.whiteLine = po.whiteLine ∧ po₁.lastExecutedPoReqs = po.lastExecutedPoReqs :=
      ⟨hpre.whiteLine, hpre.lastExecutedPoReqs⟩
    split at h
    · have hacked := sendPoAck_acked h
      exact ⟨hacked.whiteLine.trans hlines.1, hacked.lastExecutedPoReqs.trans hlines.2⟩
    · cases h
      exact hlines

theorem foldlM_certifiedAck_preordered {r : PoRequest E} {acks : List (PoAck D)}
    (h : acks.foldlM (fun po ack =>
      match ack.parts.find? fun part => part.originator = r.machineId ∧ part.seq = r.seq with
      | none => (.ok po : Except Fault (Po E D))
      | some part => processPoAckPart c makeDigest preinstalled ack.machineId ack.preinstalledIncarnations po part) po =
        .ok po') : Preordered preinstalled po po' := by
  refine Lib.foldlM_inv (I := Preordered preinstalled po) (fun ack _ q q' hround hq => ?_) h (Preordered.refl po)
  split at hround
  · cases hround
    exact hq
  · exact hq.trans (processPoAckPart_preordered hround)

/-- The acks of a certificate bring no slot but that of its request. -/
theorem foldlM_certifiedAck_empty {r : PoRequest E} {acks : List (PoAck D)}
    (h : acks.foldlM (fun po ack =>
      match ack.parts.find? fun part => part.originator = r.machineId ∧ part.seq = r.seq with
      | none => (.ok po : Except Fault (Po E D))
      | some part => processPoAckPart c makeDigest preinstalled ack.machineId ack.preinstalledIncarnations po part) po =
        .ok po') (hempty : po'.Empty s ps) :
    po.Empty s ps ∨ s = r.machineId ∧ ps = r.seq ∧ ¬SeqLe ps (po.whiteLine s) ∧ po.request? s ps = none := by
  have hall : Preordered preinstalled po po' ∧ ∀ s ps, po'.Empty s ps →
      po.Empty s ps ∨ s = r.machineId ∧ ps = r.seq ∧ ¬SeqLe ps (po.whiteLine s) ∧ po.request? s ps = none := by
    refine Lib.foldlM_inv (I := fun q : Po E D => Preordered preinstalled po q ∧ ∀ s ps, q.Empty s ps →
      po.Empty s ps ∨ s = r.machineId ∧ ps = r.seq ∧ ¬SeqLe ps (po.whiteLine s) ∧ po.request? s ps = none)
      (fun ack _ q q' hround hq => ?_) h ⟨Preordered.refl po, fun _ _ he => .inl he⟩
    split at hround
    · cases hround
      exact hq
    · rename_i part hfind
      obtain ⟨horiginator, hseq⟩ : part.originator = r.machineId ∧ part.seq = r.seq := by
        simpa using List.find?_some hfind
      refine ⟨hq.1.trans (processPoAckPart_preordered hround), fun s ps he => ?_⟩
      rcases processPoAckPart_empty hround he with he | ⟨hs, hps, haccepts, hnone⟩
      · exact hq.2 s ps he
      · refine .inr ⟨hs.trans horiginator, hps.trans hseq, ?_, ?_⟩
        · rw [hs, hps, ← hq.1.whiteLine]
          exact haccepts.2
        · rw [← hq.1.request]
          exact hnone
  exact hall.2 s ps hempty

end Certified

/-! ## The server -/

/-- What is collected leaves no slot. -/
theorem collected_empty {po po' : Po E D} {pids : List PoId} {s : Nat} {ps : PoSeqPair}
    (h : pids.foldlM garbageCollectPoSlot po = .ok po') (hempty : po'.Empty s ps) : po.Empty s ps := by
  have hall : ∀ qs, po'.Empty s qs → po.Empty s qs := by
    refine Lib.foldlM_inv (I := fun q : Po E D => ∀ qs, q.Empty s qs → po.Empty s qs)
      (fun pid _ q q' hround hq qs he => hq qs ?_) h fun _ he => he
    obtain ⟨-, rfl⟩ := garbageCollectPoSlot_ok hround
    have he : (q.eraseSlot pid.serverId pid.seq).Empty s qs := he.congr rfl
    unfold Po.Empty at he ⊢
    rw [Po.slot?_eraseSlot, Po.request?_eraseSlot] at he
    split at he
    · cases he.1
    · exact he
  exact hall ps hempty

/-- Slots without a request come up to the last request executed only, and it does not go back. -/
structure Settled (s : Nat) (po po' : Po E D) : Prop where
  empty : ∀ ps, po'.Empty s ps → po.Empty s ps ∨ SeqLe ps (po'.lastExecutedPoReqs s)
  executed : SeqLe (po.lastExecutedPoReqs s) (po'.lastExecutedPoReqs s)

namespace Settled

variable {s : Nat} {po po' po'' : Po E D}

theorem of_history (hhistory : po'.history = po.history)
    (hlast : SeqLe (po.lastExecutedPoReqs s) (po'.lastExecutedPoReqs s)) : Settled s po po' :=
  ⟨fun _ h => .inl (h.congr hhistory), hlast⟩

theorem refl (s : Nat) (po : Po E D) : Settled s po po := of_history rfl (seqLe_refl _)

theorem trans (h : Settled s po po') (h' : Settled s po' po'') : Settled s po po'' := by
  refine ⟨fun ps he => ?_, IsTrans.trans _ _ _ h.executed h'.executed⟩
  rcases h'.empty ps he with he | hle
  · exact (h.empty ps he).imp_right fun hle => IsTrans.trans _ _ _ hle h'.executed
  · exact .inr hle

theorem populated (h : Settled s po po') (hpo : po.Populated s) : po'.Populated s := by
  intro ps he
  rcases h.empty ps he with he | hle
  · exact IsTrans.trans _ _ _ (hpo ps he) h.executed
  · exact hle

/-- Acks are sent where a server resumes normal operation. -/
theorem resumed (h : po' = po ∨ Acked (updateAru po c) po') (s : Nat) : Settled s po po' := by
  rcases h with rfl | h
  · exact refl s po'
  · refine of_history h.history ?_
    rw [h.lastExecutedPoReqs]
    exact seqLe_refl _

theorem collected {pids : List PoId} (h : pids.foldlM garbageCollectPoSlot po = .ok po') (s : Nat) : Settled s po po' := by
  refine ⟨fun ps he => .inl (collected_empty h he), ?_⟩
  rw [(foldlM_collected h).lastExecutedPoReqs]
  exact seqLe_refl _

end Settled

theorem garbageCollectRequests_settled {po po' : Po E D} {seq : Nat} (h : garbageCollectRequests po seq = .ok po')
    (s : Nat) : Settled s po po' := by
  obtain ⟨po₁, hfold, h⟩ := Lib.bind_eq_ok.mp h
  cases h
  exact (Settled.collected hfold s).trans (Settled.of_history rfl (seqLe_refl _))

namespace Node

variable {nd nd' : Node E D} {slot : Slot} {i : Nat}

theorem resume_settled (h : nd.resume c makeDigest = .ok nd') (s : Nat) : Settled s nd.po nd'.po := by
  obtain ⟨po, hpo, rfl⟩ := resume_ok h
  exact Settled.resumed (.inr hpo) s

theorem noteStartup_settled {ps : PoSeqPair} (h : nd.noteStartup c makeDigest i ps = .ok nd') (s : Nat) :
    Settled s nd.po nd'.po := by
  obtain ⟨po, hpo, rfl⟩ := noteStartup_ok h
  exact Settled.resumed hpo s

theorem noteStartup_lastExecuted {ps : PoSeqPair} (h : nd.noteStartup c makeDigest i ps = .ok nd') :
    nd'.po.lastExecutedPoReqs = nd.po.lastExecutedPoReqs := by
  obtain ⟨po, rfl | hpo, rfl⟩ := noteStartup_ok h
  · rfl
  · exact hpo.lastExecutedPoReqs

/-! ### Execution -/

/-- The server's own requests that an ordinal executes are not before the last one executed. -/
def ExecutesOn (c : Site) (nd : Node E D) (slot : Slot) : Prop :=
  ∀ ps ∈ requestsOf (slot.prev c.me) (slot.cur c.me), SeqLe (nd.po.lastExecutedPoReqs c.me) ps

/-- What execution keeps: the history loses slots only, and nothing is executed again. -/
structure Onward (s : Nat) (po po' : Po E D) : Prop where
  empty : ∀ ps, po'.Empty s ps → po.Empty s ps
  executed : SeqLe (po.lastExecutedPoReqs s) (po'.lastExecutedPoReqs s)

theorem executeRequest_onward {seqNum s : Nat} {ps : PoSeqPair} {po : Po E D} (hnd : Onward s po nd.po)
    (h : executeRequest c makeDigest seqNum i nd ps = .ok nd')
    (hps : i = s → SeqLe (po.lastExecutedPoReqs s) ps) : Onward s po nd'.po := by
  obtain ⟨-, nd₁, hstart, rfl⟩ := executeRequest_ok h
  have hnd₁ : nd₁.po.history = nd.po.history ∧ nd₁.po.lastExecutedPoReqs = nd.po.lastExecutedPoReqs := by
    rcases hstart with ⟨-, -, hstart⟩ | ⟨-, rfl⟩
    · refine ⟨?_, noteStartup_lastExecuted hstart⟩
      obtain ⟨po, rfl | hpo, rfl⟩ := noteStartup_ok hstart
      · rfl
      · exact hpo.history
    · exact ⟨rfl, rfl⟩
  refine ⟨fun qs he => hnd.empty qs (he.congr hnd₁.1), ?_⟩
  show SeqLe _ (Function.update nd₁.po.lastExecutedPoReqs i ps s)
  by_cases hi : s = i
  · rw [hi, Function.update_self, ← hi]
    exact hps hi.symm
  · rw [Function.update_of_ne hi, hnd₁.2]
    exact hnd.executed

theorem executeServer_onward {po : Po E D} (hnd : Onward c.me po nd.po)
    (h : executeServer c makeDigest slot nd i = .ok nd')
    (hon : ∀ ps ∈ requestsOf (slot.prev c.me) (slot.cur c.me), SeqLe (po.lastExecutedPoReqs c.me) ps) :
    Onward c.me po nd'.po := by
  obtain ⟨po₁, hpo₁, h⟩ := executeServer_ok h
  have hdropped : Onward c.me po po₁ := by
    rcases hpo₁ with ⟨-, hpo₁⟩ | ⟨-, rfl⟩
    · refine ⟨fun ps he => hnd.empty ps (collected_empty hpo₁ he), ?_⟩
      rw [(foldlM_collected hpo₁).lastExecutedPoReqs]
      exact hnd.executed
    · exact hnd
  refine Lib.foldlM_inv (I := fun nd : Node E D => Onward c.me po nd.po) (fun ps hps s t hround hs => ?_) h hdropped
  refine executeRequest_onward hs hround fun hi => hon ps ?_
  rw [← hi]
  exact hps

theorem executeCommit_settled (h : nd.executeCommit c makeDigest slot = .ok nd')
    (hon : nd.readyToExecute c slot → nd.ExecutesOn c slot) : Settled c.me nd.po nd'.po := by
  unfold executeCommit at h
  split_ifs at h with hready
  · have hend : Onward c.me nd.po nd'.po :=
      Lib.foldlM_inv (I := fun nd' : Node E D => Onward c.me nd.po nd'.po)
        (fun i _ s t hround hs => executeServer_onward hs hround (hon hready)) h ⟨fun _ he => he, seqLe_refl _⟩
    exact ⟨fun ps he => .inl (hend.empty ps he), hend.executed⟩
  · cases h
    exact Settled.refl _ _

/-! ### Jumps -/

theorem jumpServer_settled (h : jumpServer c makeDigest slot nd i = .ok nd') (s : Nat) : Settled s nd.po nd'.po := by
  obtain ⟨nd₁, po, hstart, hpo, rfl⟩ := jumpServer_ok h
  have hjump : Settled s nd.po (jumpAru slot i nd.po) := Settled.of_history rfl (seqLe_refl _)
  have hlast : nd₁.po.lastExecutedPoReqs = nd.po.lastExecutedPoReqs ∧ Settled s nd.po nd₁.po := by
    rcases hstart with ⟨-, hstart⟩ | ⟨-, rfl⟩
    · exact ⟨(noteStartup_lastExecuted hstart).trans rfl, hjump.trans (noteStartup_settled hstart s)⟩
    · exact ⟨rfl, hjump⟩
  have hraise : Settled s nd₁.po { nd₁.po with
      lastExecutedPoReqs :=
        Function.update nd₁.po.lastExecutedPoReqs i (raise (slot.cur i) (nd.po.lastExecutedPoReqs i)) } := by
    refine Settled.of_history rfl ?_
    dsimp only
    by_cases hs : s = i
    · rw [hs, Function.update_self, hlast.1]
      exact le_raise _ _
    · rw [Function.update_of_ne hs]
      exact seqLe_refl _
  refine ((hlast.2.trans hraise).trans (Settled.collected hpo s)).trans ?_
  exact Settled.of_history rfl (seqLe_refl _)

theorem jumpAhead_settled {collected : List Nat} (h : nd.jumpAhead c makeDigest slot collected = .ok nd') (s : Nat) :
    Settled s nd.po nd'.po := by
  obtain ⟨po, hpo, h⟩ := Lib.bind_eq_ok.mp h
  have hcollected : Settled s nd.po po := by
    refine Lib.foldlM_inv (I := Settled s nd.po) (fun seq _ q q' hround hq => hq.trans ?_) hpo (Settled.refl s nd.po)
    exact garbageCollectRequests_settled hround s
  exact Lib.foldlM_inv (I := fun nd' : Node E D => Settled s nd.po nd'.po)
    (fun i _ nd₁ nd₂ hround hnd₁ => hnd₁.trans (jumpServer_settled hround s)) h hcollected

/-! ### Certificates -/

/-- `preinstalled_incarnations` when the request of a certificate is processed. -/
def certifiedIncarnations (nd : Node E D) (cert : PoCert E D) : Nat → Nat :=
  if nd.pr.preinstalledIncarnations cert.server < cert.seq.incarnation ∧ cert.seq.seqNum = 1 then
    Function.update nd.pr.preinstalledIncarnations cert.server cert.seq.incarnation
  else nd.pr.preinstalledIncarnations

/-- The condition on a certificate that is processed. One for the server itself leaves a request in
its slot, and the server's own request is there when the acks for it are. -/
def RestoresOwn (c : Site) (makeDigest : PoRequest E → D) (nd : Node E D) (cert : PoCert E D) : Prop :=
  cert.sender ≠ c.me → 0 < seqCompare cert.seq (nd.po.cumAru cert.server) →
    (nd.po.getSlot cert.server cert.seq).snapshot = none →
    (cert.server = c.me → SeqLe cert.seq (nd.po.lastExecutedPoReqs c.me) ∨
      (∃ r, nd.po.request? c.me cert.seq = some r ∧ makeDigest r = makeDigest cert.request) ∨
      cert.request.machineId = c.me ∧ cert.request.seq = cert.seq ∧
        nd.po.Takes (nd.certifiedIncarnations cert) cert.request) ∧
    (cert.request.machineId = c.me → SeqLe cert.request.seq (nd.po.lastExecutedPoReqs c.me) ∨
      SeqLe cert.request.seq (nd.po.whiteLine c.me) ∨ (nd.po.request? c.me cert.request.seq).isSome ∨
      cert.request.incarnation ≤ nd.certifiedIncarnations cert c.me)

theorem processPoCertificate_lines [DecidableEq D] {cert : PoCert E D}
    (h : nd.processPoCertificate c makeDigest cert = .ok nd') :
    nd'.po.whiteLine = nd.po.whiteLine ∧ nd'.po.lastExecutedPoReqs = nd.po.lastExecutedPoReqs := by
  rcases processPoCertificate_ok h with rfl | ⟨-, rfl⟩ | ⟨-, -, -, nd₁, h, hnd⟩
  · exact ⟨rfl, rfl⟩
  · exact ⟨rfl, rfl⟩
  have hnd₁ : nd₁.po.whiteLine = nd.po.whiteLine ∧ nd₁.po.lastExecutedPoReqs = nd.po.lastExecutedPoReqs := by
    rcases hnd with ⟨-, -, rfl⟩ | ⟨-, rfl⟩
    all_goals exact ⟨rfl, rfl⟩
  obtain ⟨po, hpo, h⟩ := Lib.bind_eq_ok.mp h
  obtain ⟨po', hacks, h⟩ := Lib.bind_eq_ok.mp h
  cases h
  obtain ⟨hwhite, hlast⟩ := processPoRequest_lines hpo
  have hends : Preordered nd₁.pr.preinstalledIncarnations po po' := foldlM_certifiedAck_preordered hacks
  exact ⟨hends.whiteLine.trans (hwhite.trans hnd₁.1), hends.lastExecutedPoReqs.trans (hlast.trans hnd₁.2)⟩

theorem processPoCertificate_settled [DecidableEq D] {cert : PoCert E D}
    (h : nd.processPoCertificate c makeDigest cert = .ok nd') (hcert : nd.RestoresOwn c makeDigest cert) :
    Settled c.me nd.po nd'.po := by
  have hlast' := (processPoCertificate_lines h).2
  have hput : ∀ {s ps}, (nd.po.slot? cert.server cert.seq).isSome →
      ((nd.po.putSlot cert.server cert.seq (nd.po.getSlot cert.server cert.seq)).Empty s ps ↔ nd.po.Empty s ps) :=
    fun hthere => Po.empty_putSlot_same hthere (nd.po.getSlot_poRequest cert.server cert.seq)
  rcases processPoCertificate_ok h with rfl | ⟨hsnapshot, rfl⟩ | ⟨hme, hold, hsnapshot, nd₁, h, hnd⟩
  · exact Settled.refl _ _
  · have hthere : (nd.po.slot? cert.server cert.seq).isSome := by
      unfold Po.getSlot at hsnapshot
      cases hslot : nd.po.slot? cert.server cert.seq with
      | none =>
        rw [hslot] at hsnapshot
        cases hsnapshot
      | some slot => rfl
    exact ⟨fun ps he => .inl ((hput hthere).mp he), seqLe_refl _⟩
  obtain ⟨hserver, hown⟩ := hcert hme hold hsnapshot
  -- What is processed is the old state, but for the slot of the certificate.
  obtain ⟨hpre, hwhite, hrequest, hempty⟩ : nd₁.pr.preinstalledIncarnations = nd.certifiedIncarnations cert ∧
      nd₁.po.whiteLine = nd.po.whiteLine ∧
      (∀ s ps, nd₁.po.request? s ps = nd.po.request? s ps) ∧
      ∀ s ps, ¬(s = cert.server ∧ ps = cert.seq) → nd₁.po.Empty s ps → nd.po.Empty s ps := by
    have hsame := nd.po.request?_putSlot_same (nd.po.getSlot_poRequest cert.server cert.seq)
    have hother : ∀ s ps, ¬(s = cert.server ∧ ps = cert.seq) →
        (nd.po.putSlot cert.server cert.seq (nd.po.getSlot cert.server cert.seq)).Empty s ps → nd.po.Empty s ps := by
      intro s ps hne he
      rwa [Po.empty_putSlot, if_neg hne] at he
    unfold certifiedIncarnations
    rcases hnd with ⟨hlt, hone, rfl⟩ | ⟨hnot, rfl⟩
    · rw [if_pos ⟨hlt, hone⟩]
      exact ⟨rfl, rfl, hsame, hother⟩
    · rw [if_neg hnot]
      exact ⟨rfl, rfl, hsame, hother⟩
  obtain ⟨po, hpo, h⟩ := Lib.bind_eq_ok.mp h
  obtain ⟨po', hacks, h⟩ := Lib.bind_eq_ok.mp h
  cases h
  have hwhite₁ : po.whiteLine = nd.po.whiteLine := (processPoRequest_lines hpo).1.trans hwhite
  dsimp only at hlast'
  refine ⟨fun ps he => ?_, by rw [hlast']; exact seqLe_refl _⟩
  rw [hlast', or_iff_not_imp_right]
  intro hafter
  -- A request that the certificate restores is there when the acks for it are.
  have htakes : nd.po.Takes (nd.certifiedIncarnations cert) cert.request → c.me = cert.request.machineId →
      ps = cert.request.seq → po.request? c.me ps ≠ none := by
    intro htakes hme hps hnone
    refine ((processPoRequest_fills hpo).2 hnone).2 hme hps ?_
    unfold Po.Takes at htakes ⊢
    dsimp only
    rw [hpre]
    show ¬SeqLe _ (nd₁.po.whiteLine _) ∧ _
    rw [hwhite]
    exact htakes
  have hcleared : po.request? c.me ps = none → (nd.po.request? c.me ps = none ∨ c.me = cert.server ∧ ps = cert.seq) := by
    intro hnone
    have hnone := ((processPoRequest_fills hpo).2 hnone).1
    dsimp only at hnone
    rw [Po.request?_putSlot] at hnone
    split at hnone
    · rename_i heq
      exact .inr heq
    · rw [hrequest] at hnone
      exact .inl hnone
  have hslot : c.me = cert.server → ps = cert.seq → po.request? c.me ps ≠ none := by
    intro hme hps hnone
    rcases hserver hme.symm with hle | ⟨r, hr, hdigest⟩ | ⟨hmachine, hseq, hthere⟩
    · exact hafter (hps ▸ hle)
    · have hnone := ((processPoRequest_fills hpo).2 hnone).1
      dsimp only at hnone
      rw [Po.request?_putSlot, if_pos ⟨hme, hps⟩] at hnone
      rw [certifiedSlot] at hnone
      dsimp only at hnone
      rw [nd.po.getSlot_poRequest, ← hme, hr, Option.filter_some, if_pos (decide_eq_true hdigest)] at hnone
      cases hnone
    · exact htakes hthere hmachine.symm (hps.trans hseq.symm) hnone
  rcases foldlM_certifiedAck_empty hacks he with he | ⟨hme, hps, habove, hnone⟩
  · have hthere := (processPoRequest_fills hpo).1 he
    dsimp only at hthere
    rw [Po.empty_putSlot] at hthere
    split at hthere
    · rename_i heq
      exact absurd he.2 (hslot heq.1 heq.2)
    · rename_i hne
      exact hempty _ _ hne hthere
  · rw [hwhite₁] at habove
    rcases hown hme.symm with hle | hle | hthere | hinc
    · exact absurd (hps ▸ hle) hafter
    · exact absurd (hps ▸ hle) habove
    · rcases hcleared hnone with hnone' | heq
      · rw [← hps, hnone'] at hthere
        cases hthere
      · exact absurd hnone (hslot heq.1 heq.2)
    · refine absurd hnone (htakes ⟨?_, ?_⟩ hme hps)
      · rw [← hps, ← hme]
        exact habove
      · rw [← hme]
        exact hinc

/-! ### Steps -/

theorem acceptIncarnation_settled {replica inc ts : Nat} (h : nd.acceptIncarnation c makeDigest replica inc ts = .ok nd')
    (s : Nat) : Settled s nd.po nd'.po := by
  unfold acceptIncarnation at h
  dsimp only at h
  split_ifs at h
  · cases h
    exact Settled.of_history rfl (seqLe_refl _)
  · cases h
    exact Settled.of_history rfl (seqLe_refl _)
  · obtain ⟨po, hpo, rfl⟩ := withPo_ok h
    have hacked := sendPoAck_acked hpo
    refine ⟨fun ps he => .inl ?_, by rw [hacked.lastExecutedPoReqs]; exact seqLe_refl _⟩
    -- The acks of a slot are cleared, its request stays.
    unfold Po.Empty Po.request? Po.slot? at he ⊢
    rw [hacked.history] at he
    dsimp only at he
    split at he
    · rw [lookup_mapHistory] at he
      cases hslot : (nd.po.history s).lookup ps with
      | none =>
        rw [hslot] at he
        cases he.1
      | some slot =>
        rw [hslot] at he
        refine ⟨rfl, Eq.trans ?_ he.2⟩
        show slot.poRequest = (clearAcks _ s ps slot).poRequest
        unfold clearAcks
        split_ifs
        · rfl
        · rfl
    · exact he

theorem executeResetProposal_settled (nd : Node E D) (shares : List (Nat × Nat)) (s : Nat) :
    Settled s nd.po (nd.executeResetProposal c shares).po := by
  have hall : Settled s nd.po (c.all.foldl (installAru (shares.foldl (installShare c) nd.pr)) nd.po) := by
    refine Lib.foldl_inv (I := Settled s nd.po) (fun po i hpo => hpo.trans ?_) (Settled.refl s nd.po)
    unfold installAru
    split
    · exact Settled.refl s po
    · refine Settled.of_history rfl ?_
      dsimp only
      by_cases hs : s = i
      · rw [hs, Function.update_self]
        exact le_raise _ _
      · rw [Function.update_of_ne hs]
        exact seqLe_refl _
  exact hall

theorem start_populated (ni : NewIncarnation) (s : Nat) : (start c ni : Node E D).po.Populated s := by
  intro ps he
  cases he.1

/-- The condition on a step. -/
def KeepsOwn (c : Site) (makeDigest : PoRequest E → D) (nd : Node E D) : Input E D → Prop
  | .poAck ack => ack.incarnation ≤ nd.pr.preinstalledIncarnations ack.machineId → ∀ part ∈ ack.parts,
      part.originator = c.me → nd.po.Accepts c nd.pr.preinstalledIncarnations ack.preinstalledIncarnations part →
      SeqLe part.seq (nd.po.lastExecutedPoReqs c.me) ∨ (nd.po.request? c.me part.seq).isSome
  | .poCertificate cert => nd.RestoresOwn c makeDigest cert
  | .execute slot => nd.readyToExecute c slot → nd.ExecutesOn c slot
  | _ => True

theorem poAck_settled [DecidableEq D] {ack : PoAck D} {po : Po E D}
    (h : processPoAck c makeDigest nd.pr.preinstalledIncarnations nd.po ack = .ok po)
    (hx : nd.KeepsOwn c makeDigest (.poAck ack)) : Settled c.me nd.po po := by
  have hends : Lib.Ends (· = .certificateCount) (Preordered nd.pr.preinstalledIncarnations nd.po)
      (processPoAck c makeDigest nd.pr.preinstalledIncarnations nd.po ack) := processPoAck_ends nd.po ack
  rw [h] at hends
  have hends : Preordered nd.pr.preinstalledIncarnations nd.po po := hends
  have hlast := congrFun hends.lastExecutedPoReqs c.me
  refine ⟨fun ps he => ?_, by rw [hlast]; exact seqLe_refl _⟩
  rw [hlast]
  unfold processPoAck at h
  split_ifs at h with hinc
  · cases h
    exact .inl he
  · rcases foldlM_ackPart_empty h he with he | ⟨part, hmem, hme, rfl, haccepts, hnone⟩
    · exact .inl he
    · rcases hx (not_lt.mp hinc) part hmem hme.symm haccepts with hle | hthere
      · exact .inr hle
      · rw [hnone] at hthere
        cases hthere

theorem handle_populated [DecidableEq D] {x : Input E D} (hnd : nd.po.Populated c.me) (hx : nd.KeepsOwn c makeDigest x)
    (h : nd.handle c makeDigest x = .ok nd') : nd'.po.Populated c.me := by
  cases x with
  | newIncarnation sender ni now fresh =>
    cases h
    rcases newIncarnation_same (c := c) nd sender ni now fresh with hstart | hsame
    · rw [hstart]
      exact start_populated fresh c.me
    · rw [hsame.po]
      exact hnd
  | incarnationCert sender ni =>
    unfold handle incarnationCert at h
    dsimp only at h
    split_ifs at h
    · cases h
      exact hnd
    · cases h
      exact hnd
    · exact (acceptIncarnation_settled h c.me).populated hnd
  | incarnationAcked =>
    unfold handle incarnationAcked at h
    dsimp only at h
    split at h
    · cases h
      exact hnd
    · exact (acceptIncarnation_settled h c.me).populated hnd
  | resetVote sender ackedIncarnation ackedNonce =>
    cases h
    rw [(resetVote_same nd sender ackedIncarnation ackedNonce).po]
    exact hnd
  | lockMembers members =>
    cases h
    exact hnd
  | executeResetProposal shares resumes =>
    have hinstalled : (nd.executeResetProposal c shares).po.Populated c.me :=
      (executeResetProposal_settled nd shares c.me).populated hnd
    unfold handle at h
    dsimp only at h
    split_ifs at h
    · exact (resume_settled h c.me).populated hinstalled
    · cases h
      exact hinstalled
  | resetPrime fresh =>
    cases h
    exact start_populated fresh c.me
  | poRequest r =>
    obtain ⟨po, hpo, rfl⟩ := withPo_ok h
    have hsettled : Settled c.me nd.po po :=
      ⟨fun ps he => .inl ((processPoRequest_fills hpo).1 he), by rw [(processPoRequest_lines hpo).2]; exact seqLe_refl _⟩
    exact hsettled.populated hnd
  | poAck ack =>
    obtain ⟨po, hpo, rfl⟩ := withPo_ok h
    exact (poAck_settled hpo hx).populated hnd
  | poCertificate cert => exact (processPoCertificate_settled h hx).populated hnd
  | periodicRetrans => exact (resume_settled h c.me).populated hnd
  | execute slot => exact (executeCommit_settled h hx).populated hnd
  | collect seq =>
    obtain ⟨po, hpo, rfl⟩ := withPo_ok h
    exact (garbageCollectRequests_settled hpo c.me).populated hnd
  | jump slot collected => exact (jumpAhead_settled h c.me).populated hnd

theorem step_populated [DecidableEq D] {x : Input E D} (hnd : nd.po.Populated c.me) (hx : nd.KeepsOwn c makeDigest x) :
    (nd.step c makeDigest x).po.Populated c.me := by
  unfold step
  split_ifs
  · exact hnd
  · split
    · rename_i nd' h
      exact handle_populated hnd hx h
    · exact hnd

end Node

/-! ## Runs -/

/-- **Requests that are sent again.** As long as acks and certificates for the server's own requests
are for requests it has, what `PRE_ORDER_Periodic_Retrans` broadcasts is there in every state of a
run. -/
theorem retransmitted_there [DecidableEq D] (c : Site) (makeDigest : PoRequest E → D) (ni : NewIncarnation)
    (xs : List (Input E D))
    (hsteps : Steps (Node.step c makeDigest) (Node.KeepsOwn c makeDigest) (Node.start c ni) xs) :
    Always (Node.step c makeDigest) (fun nd => ∀ r ∈ nd.retransmitted c, r.isSome) (Node.start c ni) xs := by
  have hall : Always (Node.step c makeDigest) (fun nd => nd.po.Populated c.me) (Node.start c ni) xs :=
    Lib.always_of_steps (A := fun _ => True) (fun _ _ _ hnd hx => Node.step_populated hnd hx) (fun _ _ => trivial) hsteps
      (Node.start_populated ni c.me)
  exact hall.imp fun _ hnd => Node.retransmitted_iff.mpr hnd

/-! ### Acks for a request of the server -/

/-- What `VAL_Validate_PO_Ack` checks of the parts. -/
def PoAck.Valid (c : Site) (ack : PoAck D) : Prop :=
  ∀ part ∈ ack.parts, part.seq.seqNum ≠ 0 ∧ 1 ≤ part.originator ∧ part.originator ≤ c.numServers

/-- Server 2 acks a request of server 1. -/
def ownAck (seq : Nat) : PoAck (List Nat) :=
  { machineId := 2, incarnation := 1, preinstalledIncarnations := [1, 1, 1, 1], parts := [⟨1, ⟨1, seq⟩, [7]⟩] }

/-- All servers start, server 1 sends its first request, and server 2 acks one. -/
def ackedRun (seq : Nat) : List (Input Nat (List Nat)) :=
  [.incarnationAcked, .incarnationCert 2 { ownIncarnation with timestamp := 20 },
    .incarnationCert 3 { ownIncarnation with timestamp := 20 }, .incarnationCert 4 { ownIncarnation with timestamp := 20 },
    .poRequest (requestOf 1 7), .poAck (ownAck seq)]

theorem retransmitted_there_acked :
    Steps (Node.step firstSite digestOf) (Node.KeepsOwn firstSite digestOf)
        (Node.start firstSite ownIncarnation) (ackedRun 1) ∧
      Always (Node.step firstSite digestOf) (fun nd => ∀ r ∈ nd.retransmitted firstSite, r.isSome)
        (Node.start firstSite ownIncarnation) (ackedRun 1) := by
  have hsteps : Steps (Node.step firstSite digestOf) (Node.KeepsOwn firstSite digestOf)
      (Node.start firstSite ownIncarnation) (ackedRun 1) := by
    refine ⟨trivial, trivial, trivial, trivial, trivial, fun _ part hpart _ _ => .inr ?_, trivial⟩
    obtain rfl := List.mem_singleton.mp hpart
    decide
  exact ⟨hsteps, retransmitted_there firstSite digestOf ownIncarnation _ hsteps⟩

/-- The ack is for a request that the server has not sent: the next broadcast is of a null pointer. -/
theorem unsent_retransmitted : (ownAck 5).Valid firstSite ∧
    ¬Always (Node.step firstSite digestOf) (fun nd => ∀ r ∈ nd.retransmitted firstSite, r.isSome)
      (Node.start firstSite ownIncarnation) (ackedRun 5) := by
  constructor
  · intro part hpart
    obtain rfl := List.mem_singleton.mp hpart
    decide
  · intro h
    have hlast := h.of_prefix (List.prefix_refl _)
    revert hlast
    decide

end Spire.Incarnations
