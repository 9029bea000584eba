import Spire.BroadcastSlots

/-!
# Agreement, integrity and totality of reliable broadcast

A correct server is ready for one payload of a tag, so that two payloads handed on for
one tag, which both have the Readys of a quorum, are the same (`deliveries_agree`).

Nothing ties the tag of a payload to its signer: a controlled server can sign a Report
in the name of another (`misattributed_report`). Where the payloads processed are tagged
by their signers, what is handed on in the name of a correct server is its own
(`delivered_authentic`).

A slot keeps the first payload it hears of, whoever sent it, and never counts another:
a server that heard of another payload first never hands on what the rest do
(`firstHeard_blocks`), and that is the only way for it to miss a payload
(`totality_iff`).
-/

namespace Spire.Broadcast

open Spire.Lib Spire.Replay

variable {C D : Type}

/-! ## One Ready for a tag -/

section Once

variable {c : Config} {p : Params C D} {me : Nat} {st : Node C} {mess msg : Msg C}
  {x : Input (Msg C) (Action C)}

/-- The tag of a Ready. -/
def readyKey (msg : Msg C) : Option RbTag := if msg.kind = .ready then some msg.payload.tag else none

theorem readyKey_eq {t : RbTag} : readyKey msg = some t ↔ msg.kind = .ready ∧ msg.payload.tag = t := by
  unfold readyKey
  split <;> simp_all

/-- A server has said that it is ready for a payload, in an earlier view or in this one. -/
def SaidReady (st : Node C) (msg : Msg C) : Prop :=
  msg.payload.tag.view < st.view ∨
    msg.payload.tag.view = st.view ∧ (st.slot msg.payload.tag).state = .sentReady ∧
      (st.slot msg.payload.tag).rbMsg = some msg.payload

variable [DecidableEq D]

theorem saidReady_handle (x : Input (Msg C) (Action C)) (h : SaidReady st msg) :
    SaidReady (handle c p me st x).1 msg := by
  cases x with
  | msg mess =>
    obtain heq | ⟨-, -, -, heq⟩ | ⟨rbMsg, slot, -, hview, hh, heq⟩ := handle_msg_cases c p me st mess
    · rwa [heq]
    · rwa [heq]
    · rw [heq]
      obtain hlt | ⟨hv, hstate, hrb⟩ := h
      · exact .inl hlt
      · refine .inr ⟨hv, ?_⟩
        by_cases htag : msg.payload.tag = mess.payload.tag
        · rw [htag] at hstate hrb ⊢
          obtain ⟨hslot, -, ⟨hnone, -⟩ | ⟨hsome, rfl⟩⟩ := hear_spec hh
          · rw [hnone] at hrb
            cases hrb
          · rw [Node.slot_apply_self, outcome_rbMsg]
            exact ⟨(outcome_state c me mess rbMsg _).1 hstate, hrb⟩
        · rw [Node.slot_apply_of_ne _ (hv.trans hview.symm) htag]
          exact ⟨hstate, hrb⟩
  | act a =>
    cases a with
    | enterView view =>
      simp only [handle, perform]
      split
      · rename_i hlt
        obtain hold | ⟨hv, -⟩ := h
        · exact .inl (hold.trans hlt)
        · exact .inl (hv ▸ hlt)
      · exact h
    | broadcast type content => exact h

/-- A Ready that is sent was not said before, and is said then. -/
theorem ready_sent (hst : st.Heard c p) (hm : msg ∈ (handle c p me st x).2) (hk : msg.kind = .ready) :
    msg.machineId = me ∧ SaidReady (handle c p me st x).1 msg ∧ msg.payload.tag.view = st.view ∧
      (st.slot msg.payload.tag).state ≠ .sentReady ∧
      ∃ rbMsg, msg = constructMessage me .ready rbMsg ∧
        ∀ msg' ∈ (handle c p me st x).2, msg'.kind = .ready → msg' = constructMessage me .ready rbMsg := by
  cases x with
  | msg mess =>
    obtain heq | ⟨-, -, -, heq⟩ | ⟨rbMsg, slot, hv, hview, hh, heq⟩ := handle_msg_cases c p me st mess
    · rw [heq] at hm
      cases hm
    · rw [heq] at hm
      cases hm
    · rw [heq] at hm ⊢
      have hafter := hst.apply me (validated_sender hv) hview hh
      obtain ⟨hslot, -, hcase⟩ := hear_spec hh
      have hrb : (((st.record mess).apply mess.payload.tag rbMsg (outcome c me mess rbMsg slot)).slot
          mess.payload.tag).rbMsg = some rbMsg := by
        rw [Node.slot_apply_self, outcome_rbMsg, hslot]
      have htag := (Node.mem_of_firstHeard ((hafter.stored _ hview).symm.trans hrb)).1
      have hstate : slot.state = (st.slot mess.payload.tag).state := by
        obtain ⟨-, -, rfl⟩ | ⟨-, rfl⟩ := hcase <;> rfl
      obtain rfl | ⟨rfl, hne, hready⟩ := mem_outcome hm
      · cases hk
      · refine ⟨rfl, .inr ⟨?_, ?_, ?_⟩, ?_, ?_, rbMsg, rfl, fun msg' hm' hk' => ?_⟩
        · change rbMsg.tag.view = st.view
          rw [htag, hview]
        · change Slot.state (Node.slot _ rbMsg.tag) = _
          rw [htag, Node.slot_apply_self, hready]
        · change Slot.rbMsg (Node.slot _ rbMsg.tag) = _
          rw [htag, hrb]
          rfl
        · change rbMsg.tag.view = st.view
          rw [htag, hview]
        · change Slot.state (Node.slot _ rbMsg.tag) ≠ _
          rwa [htag, ← hstate]
        · obtain rfl | ⟨rfl, -⟩ := mem_outcome hm'
          · cases hk'
          · rfl
  | act a =>
    cases a with
    | enterView view =>
      simp only [handle, perform] at hm
      split at hm <;> cases hm
    | broadcast type content =>
      simp only [handle, perform, List.mem_singleton] at hm
      rw [hm] at hk
      cases hk

/-- **A correct server is ready for one payload of a tag.** -/
theorem ready_once [DecidableEq C] {d : Deployment} {views incarnations : Nat → Nat} (evs : List (Event (Msg C) (Action C)))
    {msg msg' : Msg C}
    (hm : msg ∈ ((start views incarnations).run (env d) (handle d.toConfig p) evs).sent)
    (hm' : msg' ∈ ((start views incarnations).run (env d) (handle d.toConfig p) evs).sent)
    (hc : d.correct msg.machineId = true) (hs : msg.machineId = msg'.machineId)
    (hk : msg.kind = .ready) (hk' : msg'.kind = .ready) (htag : msg.payload.tag = msg'.payload.tag) :
    msg = msg' := by
  refine signed_once (E := env d) (H := handle d.toConfig p) (w := start views incarnations)
    Msg.machineId readyKey (I := fun _ st => st.Heard d.toConfig p) (R := fun _ => SaidReady)
    (fun i => heard_start) (fun m hm => (List.not_mem_nil hm).elim)
    (fun i s x h => heard_handle _ p i s x h) (fun i s x m _ _ h => saidReady_handle x h)
    (fun i s x m h hm hk => ?_) (fun i s x m m' k h hm hk hk' hs' hR => ?_)
    (fun i s x m m' k h hm hm' hk hk' => ?_) (fun l m hf => ?_) evs hm hm' hc hs
    (readyKey_eq.mpr ⟨hk, rfl⟩) (readyKey_eq.mpr ⟨hk', htag.symm⟩)
  · obtain ⟨t, ht⟩ := Option.isSome_iff_exists.mp hk
    obtain ⟨hsigner, hsaid, -⟩ := ready_sent h hm (readyKey_eq.mp ht).1
    exact ⟨hsigner, hsaid⟩
  · obtain ⟨hkind, rfl⟩ := readyKey_eq.mp hk
    obtain ⟨-, htag⟩ := readyKey_eq.mp hk'
    obtain ⟨-, -, hview, hne, -⟩ := ready_sent h hm hkind
    obtain hlt | ⟨-, hstate, -⟩ := hR
    · rw [htag] at hlt
      omega
    · rw [htag] at hstate
      exact hne hstate
  · obtain ⟨-, -, -, -, rbMsg, rfl, hall⟩ := ready_sent h hm (readyKey_eq.mp hk).1
    exact (hall m' hm' (readyKey_eq.mp hk').1).symm
  · simp only [env, Bool.and_eq_true, Bool.not_eq_true'] at hf
    exact hf.1

end Once

/-! ## Agreement -/

section Agreement

variable [DecidableEq D] {d : Deployment} {p : Params C D} {views incarnations : Nat → Nat}

/-- What a server processed it was handed, in the view of its tag. -/
theorem processed_handle {c : Config} {p : Params C D} {me : Nat} {st : Node C} {x : Input (Msg C) (Action C)}
    {m : Msg C} (h : m ∈ (handle c p me st x).1.processed) :
    m ∈ st.processed ∨ x = .msg m ∧ m.payload.tag.view = st.view := by
  cases x with
  | msg mess =>
    obtain heq | ⟨-, hview, -, heq⟩ | ⟨rbMsg, slot, -, hview, -, heq⟩ := handle_msg_cases c p me st mess
    · rw [heq] at h
      exact .inl h
    · rw [heq] at h
      obtain rfl | h := List.mem_cons.mp h
      · exact .inr ⟨rfl, hview⟩
      · exact .inl h
    · rw [heq] at h
      obtain rfl | h := List.mem_cons.mp h
      · exact .inr ⟨rfl, hview⟩
      · exact .inl h
  | act a =>
    cases a with
    | enterView view =>
      simp only [handle, perform] at h
      split at h <;> exact .inl h
    | broadcast type content => exact .inl h

variable [DecidableEq C]

theorem heard_run (evs : List (Event (Msg C) (Action C))) :
    ∀ i, (((start views incarnations).run (env d) (handle d.toConfig p) evs).node i).Heard d.toConfig p :=
  node_inv (I := fun _ st => st.Heard d.toConfig p) (fun _ => heard_start)
    (fun i s x h => heard_handle _ p i s x h) evs

theorem handed_run (evs : List (Event (Msg C) (Action C))) :
    ∀ i, (((start views incarnations).run (env d) (handle d.toConfig p) evs).node i).Handed d.toConfig p := by
  intro i
  refine (node_inv (E := env d) (H := handle d.toConfig p) (w := start views incarnations)
    (I := fun _ st => st.Heard d.toConfig p ∧ st.Handed d.toConfig p)
    (fun _ => ⟨heard_start, handed_start⟩) (fun i s x h => ?_) evs i).2
  exact ⟨heard_handle _ p i s x h.1, handed_handle _ p i s x h.1 h.2⟩

theorem processed_sent (evs : List (Event (Msg C) (Action C))) :
    ∀ i, ∀ m ∈ (((start views incarnations).run (env d) (handle d.toConfig p) evs).node i).processed,
      m ∈ ((start views incarnations).run (env d) (handle d.toConfig p) evs).sent := by
  refine stored_sent (E := env d) (H := handle d.toConfig p) (w := start views incarnations)
    (I := fun _ _ => True) (S := fun st m => m ∈ st.processed) (fun _ => trivial)
    (fun i m hm => (List.not_mem_nil hm).elim) (fun _ _ _ _ => trivial) (fun i s x m _ hm => ?_) evs
  obtain hold | hnew := processed_handle hm
  · exact .inl hold
  · exact .inr (.inl hnew.1)

/-- What is handed on has the Readys of a quorum. -/
theorem ready_quorum (hdigest : Function.Injective p.digest) (evs : List (Event (Msg C) (Action C))) {i : Nat}
    {m : Payload C}
    (hm : m ∈ (((start views incarnations).run (env d) (handle d.toConfig p) evs).node i).delivered) :
    ∃ S : Finset Nat, S ⊆ d.servers ∧ d.quorum ≤ S.card ∧ ∀ k ∈ S,
      constructMessage k .ready m ∈
          (((start views incarnations).run (env d) (handle d.toConfig p) evs).node i).processed ∧
        constructMessage k .ready m ∈
          ((start views incarnations).run (env d) (handle d.toConfig p) evs).sent := by
  obtain ⟨S, hcard, hS⟩ := (handed_run evs i).backed m hm
  refine ⟨S, fun k hk => (hS k hk).1, hcard, fun k hk => ?_⟩
  obtain ⟨mess, hmess, hkind, hk', -, hdig⟩ := (hS k hk).2
  have heq : mess = constructMessage k .ready m := by
    have hpayload := hdigest hdig
    obtain ⟨kind, sender, payload⟩ := mess
    simp only at hkind hk' hpayload
    rw [hkind, hk', hpayload, constructMessage]
  rw [← heq]
  exact ⟨hmess, processed_sent evs i mess hmess⟩

/-- **Agreement and no duplication.** Correct servers hand on the same payload of a tag,
and each of them once. -/
theorem deliveries_agree (d : Deployment) (p : Params C D) (hdigest : Function.Injective p.digest)
    (views incarnations : Nat → Nat) (evs : List (Event (Msg C) (Action C))) :
    let w := (start views incarnations).run (env d) (handle d.toConfig p) evs
    (∀ i j, d.correct i = true → d.correct j = true → ∀ m ∈ (w.node i).delivered, ∀ m' ∈ (w.node j).delivered,
      m.tag = m'.tag → m = m') ∧
    ∀ i, d.correct i = true → ∀ t, (w.node i).delivered.countP (fun m => decide (m.tag = t)) ≤ 1 := by
  refine ⟨fun i j _ _ m hm m' hm' htag => ?_, fun i _ t => (handed_run evs i).once t⟩
  obtain ⟨S, hS, hcard, hready⟩ := ready_quorum hdigest evs hm
  obtain ⟨S', hS', hcard', hready'⟩ := ready_quorum hdigest evs hm'
  obtain ⟨k, hk, hk', hcorrect⟩ := d.committee.exists_correct_inter hS hS' hcard hcard'
  have hc : d.correct k = true := d.correct_iff.mpr ⟨hS hk, hcorrect⟩
  have hsame := ready_once evs (hready k hk).2 (hready' k hk').2 hc rfl rfl rfl htag
  exact congrArg Msg.payload hsame

end Agreement

/-! ## Integrity -/

section Integrity

variable [DecidableEq D] {d : Deployment} {p : Params C D} {views incarnations : Nat → Nat}

/-- A Report or certificate set is tagged by its signer. -/
def TaggedBySigner (x : Input (Msg C) (Action C)) : Prop :=
  ∀ mess, x = .msg mess → mess.payload.type ∈ [PacketType.report, .pcSet] →
    mess.payload.tag.machineId = mess.payload.machineId

/-- A server signed a payload and broadcast it in the view of its tag. -/
def Broadcasts (w : World (Node C) (Msg C)) (k : Nat) (m : Payload C) : Prop :=
  (m.tag.view, m) ∈ (w.node k).broadcasts ∧ constructMessage k .init m ∈ w.sent

theorem broadcasts_handle {c : Config} {p : Params C D} {me : Nat} {st : Node C} (x : Input (Msg C) (Action C))
    {r : Nat × Payload C} (h : r ∈ st.broadcasts) : r ∈ (handle c p me st x).1.broadcasts := by
  cases x with
  | msg mess =>
    obtain heq | ⟨-, -, -, heq⟩ | ⟨rbMsg, slot, -, -, -, heq⟩ := handle_msg_cases c p me st mess <;>
      rwa [heq]
  | act a =>
    cases a with
    | enterView view =>
      simp only [handle, perform]
      split <;> exact h
    | broadcast type content => exact List.mem_cons_of_mem _ h

/-- What is sent carries a payload of a message processed, or is a broadcast of the
server's own. -/
theorem sends_origin {c : Config} {p : Params C D} {me : Nat} {st : Node C} {x : Input (Msg C) (Action C)}
    {msg : Msg C} (hst : st.Heard c p) (h : msg ∈ (handle c p me st x).2) :
    (∃ mess, (mess ∈ st.processed ∨ x = .msg mess) ∧ mess.payload = msg.payload) ∨
    msg = constructMessage me .init msg.payload ∧ msg.payload.machineId = me ∧
      (msg.payload.tag.view, msg.payload) ∈ (handle c p me st x).1.broadcasts := by
  cases x with
  | msg mess =>
    left
    obtain heq | ⟨-, -, -, heq⟩ | ⟨rbMsg, slot, hv, hview, hh, heq⟩ := handle_msg_cases c p me st mess
    · rw [heq] at h
      cases h
    · rw [heq] at h
      cases h
    · rw [heq] at h
      have hpayload : msg.payload = rbMsg := by
        obtain rfl | ⟨rfl, -⟩ := mem_outcome h <;> rfl
      obtain ⟨-, -, ⟨-, hm, -⟩ | ⟨hsome, -⟩⟩ := hear_spec hh
      · exact ⟨mess, .inr rfl, by rw [hpayload, hm]⟩
      · obtain ⟨-, m, hmem, hm⟩ := Node.mem_of_firstHeard ((hst.stored _ hview).symm.trans hsome)
        exact ⟨m, .inl hmem, by rw [hpayload, hm]⟩
  | act a =>
    right
    cases a with
    | enterView view =>
      simp only [handle, perform] at h
      split at h <;> cases h
    | broadcast type content =>
      simp only [handle, perform, List.mem_singleton] at h
      subst h
      exact ⟨rfl, rfl, List.mem_cons_self ..⟩

variable [DecidableEq C]

/-- A payload a correct server signed is in the network because it broadcast it. -/
theorem signed_broadcast (evs : List (Event (Msg C) (Action C))) :
    let w := (start views incarnations).run (env d) (handle d.toConfig p) evs
    ∀ msg ∈ w.sent, d.correct msg.payload.machineId = true → Broadcasts w msg.payload.machineId msg.payload := by
  have hall := run_inv (E := env d) (H := handle d.toConfig p) (w := start views incarnations)
    (P := fun w => (∀ i, (w.node i).Heard d.toConfig p) ∧ (∀ i, ∀ m ∈ (w.node i).processed, m ∈ w.sent) ∧
      ∀ msg ∈ w.sent, d.correct msg.payload.machineId = true → Broadcasts w msg.payload.machineId msg.payload)
    ⟨fun _ => heard_start, fun i m hm => (List.not_mem_nil hm).elim, fun m hm => (List.not_mem_nil hm).elim⟩
    ?_ ?_ evs
  · exact hall.2.2
  · rintro w i x ⟨hheard, hproc, hb⟩ - ha
    have hkeep : ∀ k m, Broadcasts w k m → Broadcasts (w.move i (handle d.toConfig p i (w.node i) x)) k m := by
      rintro k m ⟨hlog, hsent⟩
      refine ⟨?_, List.mem_append_right _ hsent⟩
      by_cases hk : k = i
      · subst hk
        rw [World.move_node_self]
        exact broadcasts_handle x hlog
      · rwa [World.move_node_of_ne w _ hk]
    have hgiven : ∀ m, x = .msg m → m ∈ w.sent := by
      rintro m rfl
      exact World.available_msg.mp ha
    have hnext : ∀ j, ((w.move i (handle d.toConfig p i (w.node i) x)).node j).Heard d.toConfig p :=
      World.move_node_inv (I := fun _ (st : Node C) => st.Heard d.toConfig p) hheard (heard_handle _ p i _ x (hheard i))
    refine ⟨hnext, fun k m hm => ?_, fun msg hm hc => ?_⟩
    · rw [World.move_sent]
      refine List.mem_append_right _ ?_
      by_cases hk : k = i
      · subst hk
        rw [World.move_node_self] at hm
        obtain hold | hnew := processed_handle hm
        · exact hproc k m hold
        · exact hgiven m hnew.1
      · rw [World.move_node_of_ne w _ hk] at hm
        exact hproc k m hm
    · rw [World.move_sent] at hm
      obtain hnew | hold := List.mem_append.mp hm
      · obtain ⟨mess, horigin, hpayload⟩ | ⟨hmsg, hself, hlog⟩ := sends_origin (hheard i) hnew
        · have hsent : mess ∈ w.sent := horigin.elim (hproc i mess) (hgiven mess)
          rw [← hpayload] at hc ⊢
          exact hkeep _ _ (hb mess hsent hc)
        · rw [hself]
          refine ⟨?_, List.mem_append_left _ (hmsg ▸ hnew)⟩
          rwa [World.move_node_self]
      · exact hkeep _ _ (hb msg hold hc)
  · rintro w m ⟨hheard, hproc, hb⟩ hf
    refine ⟨hheard, fun i m' hm' => List.mem_cons_of_mem _ (hproc i m' hm'), fun msg hm hc => ?_⟩
    have hkeep : ∀ msg ∈ w.sent, d.correct msg.payload.machineId = true →
        Broadcasts { w with sent := m :: w.sent } msg.payload.machineId msg.payload :=
      fun msg hm hc => ⟨(hb msg hm hc).1, List.mem_cons_of_mem _ (hb msg hm hc).2⟩
    obtain rfl | hm := List.mem_cons.mp hm
    · simp only [env, Bool.and_eq_true, Bool.or_eq_true, Bool.not_eq_true', List.any_eq_true,
        decide_eq_true_eq] at hf
      obtain hbad | ⟨m', hm', heq⟩ := hf.2
      · rw [hc] at hbad
        cases hbad
      · rw [← heq] at hc ⊢
        exact hkeep m' hm' hc
    · exact hkeep msg hm hc

/-- **Integrity.** Where the Reports and certificate sets that correct servers process are
tagged by their signers, one handed on in the name of a correct server was signed and
broadcast by that server, in the view of its tag. -/
theorem delivered_authentic (d : Deployment) (p : Params C D) (views incarnations : Nat → Nat)
    (evs : List (Event (Msg C) (Action C)))
    (hok : ∀ i x, d.correct i = true → .handle i x ∈ evs → TaggedBySigner x) :
    let w := (start views incarnations).run (env d) (handle d.toConfig p) evs
    ∀ i, d.correct i = true → ∀ m ∈ (w.node i).delivered, m.type ∈ [PacketType.report, .pcSet] →
      d.correct m.tag.machineId = true → m.machineId = m.tag.machineId ∧ Broadcasts w m.tag.machineId m := by
  intro w i _ m hm htype hc
  have htagged : ∀ j, ∀ mess ∈ (w.node j).processed, TaggedBySigner (.msg mess : Input (Msg C) (Action C)) := by
    refine run_inv_of (E := env d) (H := handle d.toConfig p) (w := start views incarnations)
      (K := fun _ => TaggedBySigner)
      (P := fun w => ∀ i, ∀ mess ∈ (w.node i).processed, TaggedBySigner (.msg mess : Input (Msg C) (Action C)))
      (fun i m hm => (List.not_mem_nil hm).elim) (fun w i x h hx _ _ => ?_) (fun _ _ h _ => h) hok
    refine World.move_node_inv
      (I := fun _ (st : Node C) => ∀ mess ∈ st.processed, TaggedBySigner (.msg mess : Input (Msg C) (Action C))) h ?_
    intro mess hmess
    obtain hold | ⟨rfl, -⟩ := processed_handle hmess
    · exact h i mess hold
    · exact hx
  obtain ⟨mess, hmess, rfl⟩ := (handed_run evs i).heard m hm
  have hself := htagged i mess hmess mess rfl htype
  rw [hself] at hc ⊢
  exact ⟨rfl, signed_broadcast evs mess (processed_sent evs i mess hmess) hc⟩

end Integrity

/-! ## Totality -/

section Totality

variable {d : Deployment} {p : Params C D} {incarnations : Nat → Nat}

/-- A slot counts at least the servers of a set it has a Ready of. -/
theorem Node.Heard.card_le {c : Config} {st : Node C} (h : st.Heard c p) {t : RbTag} {m : Payload C}
    (ht : t.view = st.view) (hm : (st.slot t).rbMsg = some m) {S : Finset Nat} (hS : S ⊆ c.servers)
    (hready : ∀ k ∈ S, constructMessage k .ready m ∈ st.processed) : S.card ≤ (st.slot t).readyCount := by
  rw [(h.counted t ht).count, ← card_accepted]
  refine Finset.card_le_card fun k hk => mem_accepted.mpr ⟨Finset.mem_Icc.mp (hS hk), ?_⟩
  exact (h.received t k ht).mpr ⟨m, hm, _, hready k hk, rfl, rfl, rfl, rfl⟩

/-- The correct servers of a deployment. -/
theorem card_correct (d : Deployment) : 2 * d.F + 2 * d.K + 1 ≤ (d.servers \ d.byz).card := by
  have hcard := Finset.le_card_sdiff d.byz d.servers
  have hbyz := d.byz_card
  rw [Config.card_servers] at hcard
  unfold Config.numServers at hcard
  omega

variable [DecidableEq D]

/-- No server enters a view. -/
def OneView (evs : List (Event (Msg C) (Action C))) : Prop :=
  ∀ i view, .handle i (.act (.enterView view)) ∉ evs

/-- Every correct server has processed every message of every correct server. -/
def Quiescent (d : Deployment) (w : World (Node C) (Msg C)) : Prop :=
  ∀ msg ∈ w.sent, d.correct msg.machineId = true → ∀ q, d.correct q = true → msg ∈ (w.node q).processed

/-- A server whose slot says that it is ready has said so to the others. -/
def ReadySent (w : World (Node C) (Msg C)) (i : Nat) : Prop :=
  ∀ t m, t.view = (w.node i).view → (w.node i |>.slot t).state = .sentReady →
    (w.node i |>.slot t).rbMsg = some m → constructMessage i .ready m ∈ w.sent

theorem view_handle {c : Config} {me : Nat} {st : Node C} {x : Input (Msg C) (Action C)}
    (hx : ∀ view, x ≠ .act (.enterView view)) : (handle c p me st x).1.view = st.view := by
  cases x with
  | msg mess =>
    obtain heq | ⟨-, -, -, heq⟩ | ⟨rbMsg, slot, -, -, -, heq⟩ := handle_msg_cases c p me st mess <;> rw [heq]
    · rfl
    · rfl
  | act a =>
    cases a with
    | enterView view => exact absurd rfl (hx view)
    | broadcast type content => rfl

/-- The step of `ReadySent`. -/
theorem readySent_handle {c : Config} {me : Nat} {st : Node C} (x : Input (Msg C) (Action C)) {sent : List (Msg C)}
    (hst : st.Heard c p) (h : ∀ t m, t.view = st.view → (st.slot t).state = .sentReady → (st.slot t).rbMsg = some m →
      constructMessage me .ready m ∈ sent) {t : RbTag} {m : Payload C}
    (ht : t.view = (handle c p me st x).1.view) (hstate : ((handle c p me st x).1.slot t).state = .sentReady)
    (hm : ((handle c p me st x).1.slot t).rbMsg = some m) :
    constructMessage me .ready m ∈ (handle c p me st x).2 ++ sent := by
  cases x with
  | msg mess =>
    obtain heq | ⟨-, -, -, heq⟩ | ⟨rbMsg, slot, hv, hview, hh, heq⟩ := handle_msg_cases c p me st mess
    · rw [heq] at ht hstate hm ⊢
      exact h t m ht hstate hm
    · rw [heq] at ht hstate hm ⊢
      exact h t m ht hstate hm
    · rw [heq] at ht hstate hm ⊢
      change t.view = st.view at ht
      by_cases htag : t = mess.payload.tag
      · subst htag
        rw [Node.slot_apply_self] at hstate hm
        obtain ⟨hslot, -, hcase⟩ := hear_spec hh
        rw [outcome_rbMsg, hslot, Option.some.injEq] at hm
        subst hm
        by_cases hold : slot.state = .sentReady
        · obtain ⟨hnone, -, rfl⟩ | ⟨hsome, rfl⟩ := hcase
          · -- an empty slot is not ready
            have hinit := (hst.counted _ hview).held hnone
            change (st.slot mess.payload.tag).state = .sentReady at hold
            rw [hinit] at hold
            cases hold
          · exact List.mem_append_right _ (h _ _ hview hold hsome)
        · exact List.mem_append_left _ ((outcome_state c me mess rbMsg slot).2 hstate hold)
      · rw [Node.slot_apply_of_ne _ (ht.trans hview.symm) htag] at hstate hm
        exact List.mem_append_right _ (h t m ht hstate hm)
  | act a =>
    cases a with
    | enterView view =>
      simp only [handle, perform] at ht hstate hm ⊢
      split at hstate
      · cases hstate
      · rename_i hlt
        rw [if_neg hlt] at ht hm ⊢
        exact h t m ht hstate hm
    | broadcast type content => exact List.mem_append_right _ (h t m ht hstate hm)

variable [DecidableEq C] {v : Nat}

/-- In a run of one view servers stay in it, process messages of it only, and send the
Readys they are counted for. -/
theorem oneView_run {evs : List (Event (Msg C) (Action C))} (hone : OneView evs) :
    let w := (start (fun _ => v) incarnations).run (env d) (handle d.toConfig p) evs
    ∀ i, (w.node i).view = v ∧ ReadySent w i ∧ ∀ m ∈ (w.node i).processed, m.payload.tag.view = v := by
  have hall := run_inv_of (E := env d) (H := handle d.toConfig p) (w := start (fun _ => v) incarnations)
    (K := fun _ x => ∀ view, x ≠ .act (.enterView view))
    (P := fun w => ∀ i, (w.node i).Heard d.toConfig p ∧ (w.node i).view = v ∧ ReadySent w i ∧
      ∀ m ∈ (w.node i).processed, m.payload.tag.view = v)
    (fun i => ⟨heard_start, rfl, fun t m _ hs => (by cases hs), fun m hm => (List.not_mem_nil hm).elim⟩) ?_ ?_
    (fun i x _ hx view heq => hone i view (heq ▸ hx))
  · exact fun i => (hall i).2
  · intro w i x h hx _ _ j
    obtain ⟨hst, hview, hready, hproc⟩ := h j
    by_cases hj : j = i
    · subst hj
      unfold ReadySent
      simp only [World.move_node_self, World.move_sent]
      refine ⟨heard_handle _ p j _ x hst, (view_handle hx).trans hview,
        fun t m ht hs hm => readySent_handle x hst hready ht hs hm, fun m hm => ?_⟩
      obtain hold | ⟨-, hnew⟩ := processed_handle hm
      · exact hproc m hold
      · exact hnew.trans hview
    · unfold ReadySent
      simp only [World.move_node_of_ne w _ hj, World.move_sent]
      exact ⟨hst, hview, fun t m ht hs hm => List.mem_append_right _ (hready t m ht hs hm), hproc⟩
  · intro w m h _ j
    obtain ⟨hst, hview, hready, hproc⟩ := h j
    exact ⟨hst, hview, fun t m ht hs hm => List.mem_cons_of_mem _ (hready t m ht hs hm), hproc⟩

/-- **Totality.** At the end of a run of one view in which the correct servers have
processed all that they sent each other, a payload that one of them handed on was handed
on by all of them exactly when all of them heard of the same payload first. -/
theorem totality_iff (d : Deployment) (p : Params C D) (hdigest : Function.Injective p.digest) (v : Nat)
    (incarnations : Nat → Nat) {evs : List (Event (Msg C) (Action C))} (hone : OneView evs) :
    let w := (start (fun _ => v) incarnations).run (env d) (handle d.toConfig p) evs
    Quiescent d w → ∀ i, d.correct i = true → ∀ m ∈ (w.node i).delivered,
      ((∀ j, d.correct j = true → m ∈ (w.node j).delivered) ↔
        ∀ j k, d.correct j = true → d.correct k = true →
          (w.node j).firstHeard m.tag = (w.node k).firstHeard m.tag) := by
  intro w hquiet i hi m hm
  have hheard : ∀ j, (w.node j).Heard d.toConfig p := heard_run evs
  have hhanded : ∀ j, (w.node j).Handed d.toConfig p := handed_run evs
  have hview : ∀ j, (w.node j).view = v := fun j => (oneView_run hone j).1
  have htag : m.tag.view = v := by
    obtain ⟨mess, hmess, rfl⟩ := (hhanded i).heard m hm
    exact (oneView_run hone i).2.2 mess hmess
  have hslot : ∀ j, m ∈ (w.node j).delivered → (w.node j).firstHeard m.tag = some m := by
    intro j hj
    rw [← (hheard j).stored _ (htag.trans (hview j).symm)]
    exact (hhanded j).stored m hj (htag.trans (hview j).symm)
  constructor
  · intro hall j k hj hk
    rw [hslot j (hall j hj), hslot k (hall k hk)]
  · intro hsame j hj
    -- every correct server holds the payload
    have hstored : ∀ k, d.correct k = true → ((w.node k).slot m.tag).rbMsg = some m := by
      intro k hk
      rw [(hheard k).stored _ (htag.trans (hview k).symm), hsame k i hk hi, hslot i hm]
    obtain ⟨S, hS, hcard, hready⟩ := ready_quorum hdigest evs hm
    -- the Readys of the correct servers in the quorum make every correct server ready
    have hjoined : ∀ k, d.correct k = true → constructMessage k .ready m ∈ w.sent := by
      intro k hk
      have hcount := (hheard k).card_le (S := S \ d.byz) (htag.trans (hview k).symm) (hstored k hk)
        (fun s hs => hS (Finset.mem_sdiff.mp hs).1) fun s hs => by
          obtain ⟨hsS, hbyz⟩ := Finset.mem_sdiff.mp hs
          exact hquiet _ (hready s hsS).2 (d.correct_iff.mpr ⟨hS hsS, hbyz⟩) k hk
      have hsize := Finset.le_card_sdiff d.byz S
      have hbyz := d.byz_card
      have hstate := ((hheard k).counted _ (htag.trans (hview k).symm)).joined (by
        unfold Config.quorum at hcard
        omega)
      exact (oneView_run hone k).2.1 _ m (htag.trans (hview k).symm) hstate (hstored k hk)
    -- so that every correct server counts a quorum
    have hcount := (hheard j).card_le (S := d.servers \ d.byz) (htag.trans (hview j).symm) (hstored j hj)
      Finset.sdiff_subset fun s hs => by
        have hc := d.correct_iff.mpr (Finset.mem_sdiff.mp hs)
        exact hquiet _ (hjoined s hc) hc j hj
    have hcorrect := card_correct d
    have hlt := ((hhanded i).current _ (htag.trans (hview i).symm)).mp ⟨m, hm, rfl⟩
    obtain ⟨m', hm', ht'⟩ := ((hhanded j).current _ (htag.trans (hview j).symm)).mpr
      ⟨by unfold Config.quorum; omega, hlt.2⟩
    have hsame' := (hhanded j).stored m' hm' (by rw [ht', htag, hview j])
    rw [ht', hstored j hj, Option.some.injEq] at hsame'
    rwa [hsame']

end Totality

/-! ## Runs of four servers, the last of which is controlled -/

section Runs

/-- Payloads are their own digests, and any content passes. -/
def plain : Params Bool (Payload Bool) := { digest := id, validContent := fun _ => true }

/-- Servers 1, 2 and 3 process what is sent, after some first events. -/
def settle (evs : List (Event (Msg Bool) (Action Bool))) (n : Nat) : List (Event (Msg Bool) (Action Bool)) :=
  evs ++ World.rounds (env fourServers) (handle fourServers.toConfig plain) [1, 2, 3] n 0
    ((start (fun _ => 1) fun _ => 0).run (env fourServers) (handle fourServers.toConfig plain) evs)

/-- A run from view 1. -/
def runOf (evs : List (Event (Msg Bool) (Action Bool))) : World (Node Bool) (Msg Bool) :=
  (start (fun _ => 1) fun _ => 0).run (env fourServers) (handle fourServers.toConfig plain) evs

theorem correct_fourServers {i : Nat} (h : fourServers.correct i = true) : i = 1 ∨ i = 2 ∨ i = 3 := by
  obtain ⟨hi, hb⟩ := fourServers.correct_iff.mp h
  have hrange := Finset.mem_Icc.mp hi
  have hne : i ≠ 4 := fun h4 => hb (h4 ▸ Finset.mem_singleton_self 4)
  simp only [fourServers, Config.numServers] at hrange
  omega

/-- The Report server 1 signs. -/
def report1 : Payload Bool :=
  { machineId := 1, incarnation := 0, type := .report, tag := { machineId := 1, view := 1, seqNum := 0 }
    content := true }

/-- Server 1 broadcasts its Report, and everybody processes everything. -/
def reportRun : List (Event (Msg Bool) (Action Bool)) :=
  settle [.handle 1 (.act (.broadcast .report true))] 4

/-- Both servers that handed on the Report handed on the same. -/
theorem deliveries_agree_report :
    report1 ∈ ((runOf reportRun).node 2).delivered ∧
      ∀ m ∈ ((runOf reportRun).node 3).delivered, m.tag = report1.tag → m = report1 := by
  have hmem : report1 ∈ ((runOf reportRun).node 2).delivered := by decide +kernel
  refine ⟨hmem, fun m hm htag => ?_⟩
  unfold runOf at hm hmem
  exact (deliveries_agree fourServers plain Function.injective_id (fun _ => 1) (fun _ => 0) reportRun).1
    3 2 (by decide +kernel) (by decide +kernel) m hm report1 hmem htag

/-- The message of an event carries a payload tagged by its signer. -/
def taggedBySigner : Event (Msg Bool) (Action Bool) → Bool
  | .handle _ (.msg mess) => decide (mess.payload.tag.machineId = mess.payload.machineId)
  | _ => true

/-- The Report that server 2 handed on is the one server 1 broadcast. -/
theorem delivered_authentic_report :
    report1 ∈ ((runOf reportRun).node 2).delivered ∧ Broadcasts (runOf reportRun) 1 report1 := by
  have hmem : report1 ∈ ((runOf reportRun).node 2).delivered := by decide +kernel
  have hall : ∀ e ∈ reportRun, taggedBySigner e = true := by decide +kernel
  refine ⟨hmem, ?_⟩
  unfold runOf at hmem ⊢
  refine (delivered_authentic fourServers plain (fun _ => 1) (fun _ => 0) reportRun ?_ 2
    (by decide +kernel) report1 hmem (by decide) (by decide +kernel)).2
  rintro i x - hx mess rfl -
  exact of_decide_eq_true (hall _ hx)

/-- A Report that server 4 signs in the name of server 1. -/
def forgedReport : Payload Bool := { report1 with machineId := 4 }

/-- Server 4 broadcasts it. -/
def forgedRun : List (Event (Msg Bool) (Action Bool)) :=
  settle [.inject ⟨.init, 4, forgedReport⟩] 4

/-- Server 2 hands on, as a Report of server 1, what server 1 never signed. -/
theorem misattributed_report :
    forgedReport ∈ ((runOf forgedRun).node 2).delivered ∧ forgedReport.type = .report ∧
      forgedReport.tag.machineId = 1 ∧ fourServers.correct 1 = true ∧
      ¬ (forgedReport.machineId = 1 ∧ Broadcasts (runOf forgedRun) 1 forgedReport) := by
  refine ⟨by decide +kernel, rfl, rfl, by decide, fun h => absurd h.1 (by decide)⟩

/-- Two certificate sets that server 4 signs under one tag. -/
def twin (content : Bool) : Payload Bool :=
  { machineId := 4, incarnation := 0, type := .pcSet, tag := { machineId := 4, view := 1, seqNum := 1 }, content }

/-- Servers 1 and 2 hear of the one first and server 3 of the other. Server 4 echoes the
one and says that it is ready for it. -/
def splitRun : List (Event (Msg Bool) (Action Bool)) :=
  settle [.inject ⟨.init, 4, twin true⟩, .handle 1 (.msg ⟨.init, 4, twin true⟩),
    .handle 2 (.msg ⟨.init, 4, twin true⟩), .inject ⟨.init, 4, twin false⟩,
    .handle 3 (.msg ⟨.init, 4, twin false⟩), .inject ⟨.echo, 4, twin true⟩, .inject ⟨.ready, 4, twin true⟩] 3

/-- An event that leaves every server in its view. -/
def staysInView : Event (Msg Bool) (Action Bool) → Bool
  | .handle _ (.act (.enterView _)) => false
  | _ => true

theorem oneView_of_all {evs : List (Event (Msg Bool) (Action Bool))}
    (h : ∀ e ∈ evs, staysInView e = true) : OneView evs :=
  fun _ _ hmem => absurd (h _ hmem) Bool.false_ne_true

theorem quiescent_of_all {w : World (Node Bool) (Msg Bool)}
    (h : ∀ msg ∈ w.sent, fourServers.correct msg.machineId = true →
      ∀ q ∈ [1, 2, 3], msg ∈ (w.node q).processed) : Quiescent fourServers w := by
  intro msg hm hc q hq
  refine h msg hm hc q ?_
  obtain rfl | rfl | rfl := correct_fourServers hq <;> simp

/-- At rest, servers 1 and 2 have handed on what server 3 never will. -/
theorem firstHeard_blocks :
    OneView splitRun ∧ Quiescent fourServers (runOf splitRun) ∧ fourServers.correct 3 = true ∧
      twin true ∈ ((runOf splitRun).node 1).delivered ∧ twin true ∈ ((runOf splitRun).node 2).delivered ∧
      ((runOf splitRun).node 3).delivered = [] := by
  refine ⟨oneView_of_all ?_, quiescent_of_all ?_, ?_, ?_, ?_, ?_⟩
  all_goals decide +kernel

/-- Where all servers hear of the Report of server 1 first, they all hand it on. -/
theorem totality_report :
    report1 ∈ ((runOf reportRun).node 1).delivered ∧
      ∀ j, fourServers.correct j = true → report1 ∈ ((runOf reportRun).node j).delivered := by
  have hmem : report1 ∈ ((runOf reportRun).node 1).delivered := by decide +kernel
  have hquiet : Quiescent fourServers (runOf reportRun) := quiescent_of_all (by decide +kernel)
  have hfirst : ∀ j, fourServers.correct j = true →
      ((runOf reportRun).node j).firstHeard report1.tag = some report1 := by
    intro j hj
    obtain rfl | rfl | rfl := correct_fourServers hj <;> decide +kernel
  refine ⟨hmem, ?_⟩
  unfold runOf at hmem hquiet hfirst ⊢
  refine (totality_iff fourServers plain Function.injective_id 1 (fun _ => 0) (oneView_of_all (by decide +kernel))
    hquiet 1 (by decide +kernel) report1 hmem).mpr fun j k hj hk => ?_
  exact (hfirst j hj).trans (hfirst k hk).symm

end Runs

end Spire.Broadcast
