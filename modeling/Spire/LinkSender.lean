import Spire.FragmentationSafety

/-!
# The handlers of an end as runs of the sender

What an end of a link does while the link is there moves its outbound data structures by the
actions of `Fragmentation`, whatever its neighbour sends. So the packets that it places carry the
messages that were forwarded (`link_round_trip`).
-/

namespace Spire.ItLink

/-- `o'` comes from `o` by actions, and messages that are forwarded meet `P`. -/
def Moves (c : Conf) (P : Message → Prop) (o o' : Outbound) : Prop :=
  ∃ acts : List Action, (∀ msg ∈ forwarded acts, P msg) ∧ acts.foldl (Outbound.act c) o = o'

variable {c : Conf} {P Q : Message → Prop} {o o' o'' : Outbound} {io : Io} {e e' : LinkEnd} {n seq : Nat}

theorem Moves.refl (o : Outbound) : Moves c P o o := ⟨[], fun msg hmsg => (by cases hmsg), rfl⟩

theorem Moves.trans (h : Moves c P o o') (h' : Moves c P o' o'') : Moves c P o o'' := by
  obtain ⟨acts, hall, rfl⟩ := h
  obtain ⟨acts', hall', rfl⟩ := h'
  refine ⟨acts ++ acts', ?_, List.foldl_append⟩
  rw [forwarded, List.flatMap_append, List.forall_mem_append]
  exact ⟨hall, hall'⟩

theorem Moves.imp (h : Moves c P o o') (hPQ : ∀ msg, P msg → Q msg) : Moves c Q o o' := by
  obtain ⟨acts, hall, hrun⟩ := h
  exact ⟨acts, fun msg hmsg => hPQ msg (hall msg hmsg), hrun⟩

theorem moves_act (a : Action) (h : ∀ msg ∈ a.messages, P msg) : Moves c P o (o.act c a) :=
  ⟨[a], by simpa [forwarded] using h, rfl⟩

theorem moves_note (seq : Nat) (resent nacked : Bool) :
    Moves c P o (o.setCell seq { o.outgoing (slot seq) with resent := resent, nacked := nacked }) :=
  moves_act (.note seq resent nacked) fun msg hmsg => by cases hmsg

theorem moves_foldl {α : Type} {f : LinkEnd → α → LinkEnd} {xs : List α} (h : ∀ e, ∀ x ∈ xs, Moves c P e.out (f e x).out) (e : LinkEnd) :
    Moves c P e.out (xs.foldl f e).out := by
  induction xs generalizing e with
  | nil => exact .refl _
  | cons x xs ih => exact (h e x List.mem_cons_self).trans (ih (fun e y hy => h e y (List.mem_cons_of_mem x hy)) (f e x))

namespace LinkEnd

/-! ## The handlers -/

/-- New packets are sent one after the other. -/
theorem sendNew_out (c : Conf) (io : Io) (stops : Bool) (n : Nat) (e : LinkEnd) :
    ∃ k ≤ n, (sendNew c io stops n e).out = e.out.raiseBy k := by
  induction n generalizing e with
  | zero => exact ⟨0, le_refl 0, rfl⟩
  | succ n ih =>
    unfold sendNew
    dsimp only
    split
    · exact ⟨1, Nat.le_add_left 1 n, sendItDataMsg_out c io _ _⟩
    · obtain ⟨k, hk, hout⟩ := ih (sendItDataMsg c io { e with out := e.out.raise } e.out.tcpHeadSeq).1
      refine ⟨k + 1, Nat.succ_le_succ hk, hout.trans ?_⟩
      rw [sendItDataMsg_out]
      simp only [Outbound.raise, Outbound.raiseBy, Nat.add_assoc, Nat.add_comm 1]

theorem moves_raiseBy (hn : n ≤ o.outHeadSeq - o.tcpHeadSeq) : Moves c P o (o.raiseBy n) := by
  induction n generalizing o with
  | zero => exact .refl _
  | succ n ih =>
    have hsend : o.act c .send = o.raise := if_pos (by omega)
    have hone : Moves c P o o.raise := hsend ▸ moves_act .send fun msg hmsg => by cases hmsg
    refine hone.trans ?_
    have hrest : Moves c P o.raise (o.raise.raiseBy n) := ih (by simp only [Outbound.raise]; omega)
    rwa [show o.raise.raiseBy n = o.raiseBy (n + 1) by
      simp only [Outbound.raise, Outbound.raiseBy, Nat.add_assoc, Nat.add_comm 1]] at hrest

theorem moves_forward (r : Request) : Moves c (· = r.msg) e.out (e.forwardIntruTolData c r).out := by
  unfold forwardIntruTolData
  split
  · exact .refl _
  · rename_i hdrops
    have hup : r.io.up = true := by
      by_contra hdown
      exact hdrops (.inl (by simpa using hdown))
    have hnone : ¬ e.out.outMessage.isSome := fun hsome => hdrops (.inr (.inl hsome))
    rw [Outbound.packFragmentsIntoPackets, if_pos hup]
    dsimp only
    obtain ⟨k, hk, hout⟩ := sendNew_out c r.io true
      (allowed ((accept e.out r.msg).packLoop c r.io maxSendOnLink) r.cwnd)
      { e with out := (accept e.out r.msg).packLoop c r.io maxSendOnLink }
    have hact : e.out.act c (.forward r.msg r.io) = (accept e.out r.msg).packLoop c r.io maxSendOnLink := if_neg hnone
    rw [hout, ← hact]
    refine (moves_act _ fun msg hmsg => List.mem_singleton.mp hmsg).trans (moves_raiseBy ?_)
    rw [hact]
    exact hk.trans (allowed_le _ _)

theorem moves_forwardAll {rs : List Request} (h : ∀ r ∈ rs, P r.msg) (he : e.out = o) :
    Moves c P o (e.forwardAll c rs).out := by
  rw [← he]
  exact moves_foldl (fun e r hr => (moves_forward r).imp fun msg hmsg => hmsg ▸ h r hr) e

variable {t : Turn} {p : Packet} {k : PktTail}

theorem moves_checkAru (hup : t.io.up = true) (h : ∀ r ∈ t.assigned, P r.msg) (heq : e.checkAru c t k = some e') :
    Moves c P e.out e'.out := by
  unfold checkAru at heq
  split at heq
  · rename_i haru
    split at heq
    · cases heq
    · obtain ⟨j, hj, hout⟩ := sendNew_out c t.io false (allowed (e.out.release (k.aru + 1 - e.out.outTailSeq)) t.cwnd)
        { e with out := e.out.release (k.aru + 1 - e.out.outTailSeq) }
      have hle := hj.trans (allowed_le _ _)
      obtain ⟨f, hf⟩ := Outbound.release_eq (k.aru + 1 - e.out.outTailSeq) e.out
      have hact : e.out.act c (.acknowledge (k.aru + 1 - e.out.outTailSeq) j t.io) =
          ((e.out.release (k.aru + 1 - e.out.outTailSeq)).raiseBy j).packLoop c t.io maxSendOnLink := by
        rw [hf] at hle
        exact if_pos ⟨by omega, hle⟩
      dsimp only at heq
      rw [hout, Outbound.packFragmentsIntoPackets, if_pos hup, Option.getD_some, ← hact] at heq
      cases heq
      have hone : Moves c P e.out (e.out.act c (.acknowledge (k.aru + 1 - e.out.outTailSeq) j t.io)) :=
        moves_act _ fun msg hmsg => by cases hmsg
      exact hone.trans (moves_forwardAll h rfl)
  · cases heq
    exact .refl _

theorem moves_mark (o : Outbound) (seqs : List Nat) : Moves c P o (seqs.foldl Outbound.mark o) := by
  induction seqs generalizing o with
  | nil => exact .refl _
  | cons seq seqs ih =>
    refine Moves.trans ?_ (ih (o.mark seq))
    unfold Outbound.mark
    split
    · exact moves_note seq _ true
    · exact .refl _

theorem moves_resend (due : Nat → Bool) (n seq batch : Nat) (he : e.out = o) :
    Moves c P o (resend c io due n seq batch e).out := by
  rw [← he]
  clear he
  induction n generalizing e seq batch with
  | zero => exact .refl _
  | succ n ih =>
    unfold resend
    dsimp only
    split
    · exact .refl _
    · split
      · refine Moves.trans ?_ (ih _ _)
        rw [sendItDataMsg_out]
        exact moves_note seq true false
      · exact ih _ _

theorem moves_checkNacks (heq : e.checkNacks c t k = some e') : Moves c P e.out e'.out := by
  unfold checkNacks at heq
  split at heq
  · cases heq
    exact .refl _
  · split at heq
    · cases heq
    · cases heq
      have hmark : Moves c P e.out (k.nacks.foldl Outbound.mark e.out) := moves_mark e.out k.nacks
      split
      · exact hmark
      · exact hmark.trans (moves_resend _ _ _ _ rfl)

theorem moves_moveAru (h : ∀ seq, ∀ r ∈ t.delivered seq, P r.msg) (n : Nat) (e : LinkEnd) :
    Moves c P e.out (moveAru c t n e).out := by
  induction n generalizing e with
  | zero => exact .refl _
  | succ n ih =>
    unfold moveAru
    split
    · rename_i pkt _
      have hforward : Moves c P e.out (e.passOn c t pkt).out :=
        moves_forwardAll (h e.inb.inTailSeq) rfl
      exact hforward.trans (ih (e.passOn c t pkt))
    · exact .refl _

theorem moves_checkLinkSeq (h : ∀ seq, ∀ r ∈ t.delivered seq, P r.msg) : Moves c P e.out (e.checkLinkSeq c t p).out := by
  unfold checkLinkSeq
  split
  · exact .refl _
  · split
    · exact .refl _
    · rename_i i _
      exact moves_moveAru h maxSendOnLink { e with inb := i }

theorem moves_processIntruTolPacket (hup : t.io.up = true) (hassigned : ∀ r ∈ t.assigned, P r.msg)
    (hdelivered : ∀ seq, ∀ r ∈ t.delivered seq, P r.msg) : Moves c P e.out (e.processIntruTolPacket c t p).out := by
  unfold processIntruTolPacket
  split
  · exact .refl _
  · unfold processItAck
    split
    · exact .refl _
    · rename_i e₁ haru
      have hone : Moves c P e.out e₁.out := moves_checkAru hup hassigned haru
      split
      · exact hone
      · rename_i e₂ hnacks
        exact (hone.trans (moves_checkNacks hnacks)).trans (moves_checkLinkSeq hdelivered)

theorem moves_reliableItTimeout : Moves c P e.out (e.reliableItTimeout c io).out := by
  unfold reliableItTimeout
  split
  · dsimp only
    rw [sendItDataMsg_out]
    exact moves_note _ true _
  · exact .refl _

theorem sendItAck_out (c : Conf) (io : Io) (e : LinkEnd) : (e.sendItAck c io).out = e.out := by
  unfold sendItAck
  split <;> rfl

end LinkEnd

/-! ## Runs of an end -/

/-- What happens at an end over its incarnations. What it receives is any packet. -/
inductive EndEvent
  | event (ev : Event)
  | incarnationChange (io : Io) (newNgbrInc : Nat)

/-- The link is there. -/
def EndEvent.Up : EndEvent → Prop
  | .event (.receive _ t) => t.io.up = true
  | .event _ => True
  | .incarnationChange io _ => io.up = true

/-- The upper layers make a request with the message. -/
def EndEvent.Forwards : EndEvent → Message → Prop
  | .event (.forward r), msg => r.msg = msg
  | .event (.receive _ t), msg => (∃ r ∈ t.assigned, r.msg = msg) ∨ ∃ seq, ∃ r ∈ t.delivered seq, r.msg = msg
  | _, _ => False

def LinkEnd.happens (c : Conf) (e : LinkEnd) : EndEvent → LinkEnd
  | .event (.forward r) => e.forwardIntruTolData c r
  | .event (.receive p t) => e.processIntruTolPacket c t p
  | .event (.ackTimeout io) => e.sendItAck c io
  | .event (.reliableTimeout io) => e.reliableItTimeout c io
  | .event (.retransm io due batch) => e.handleItRetransm c io due batch
  | .incarnationChange io newNgbrInc => e.incarnationChange c true io newNgbrInc

theorem happens_moves (e : LinkEnd) {x : EndEvent} (hup : x.Up) : Moves c x.Forwards e.out (e.happens c x).out := by
  cases x with
  | event ev =>
    cases ev with
    | forward r => exact (LinkEnd.moves_forward r).imp fun msg hmsg => hmsg.symm
    | receive p t =>
      exact LinkEnd.moves_processIntruTolPacket hup (fun r hr => .inl ⟨r, hr, rfl⟩) fun seq r hr => .inr ⟨seq, r, hr, rfl⟩
    | ackTimeout io =>
      rw [LinkEnd.happens, LinkEnd.sendItAck_out]
      exact .refl _
    | reliableTimeout io => exact LinkEnd.moves_reliableItTimeout
    | retransm io due batch => exact LinkEnd.moves_resend _ _ _ _ rfl
  | incarnationChange io newNgbrInc =>
    have hup : io.up = true := hup
    have hout : (e.happens c (.incarnationChange io newNgbrInc)).out = e.out.act c (.incarnationChange e.inb io) := by
      simp only [LinkEnd.happens, LinkEnd.incarnationChange, if_pos hup, if_true, Outbound.packFragmentsIntoPackets,
        Option.getD_some, Outbound.act]
    rw [hout]
    exact moves_act _ fun msg hmsg => by cases hmsg

theorem run_moves {xs : List EndEvent} (hup : ∀ x ∈ xs, x.Up) (h : ∀ x ∈ xs, ∀ msg, x.Forwards msg → P msg) (e : LinkEnd) :
    Moves c P e.out (xs.foldl (LinkEnd.happens c) e).out :=
  moves_foldl (fun e x hx => (happens_moves e (hup x hx)).imp (h x hx)) e

theorem run_out (c : Conf) (acts : List Action) (s : Sender) :
    (acts.foldl (Sender.step c) s).out = acts.foldl (Outbound.act c) s.out := by
  induction acts generalizing s with
  | nil => rfl
  | cons a acts ih => exact ih (s.step c a)

/-- Over all events and incarnation changes of an end, the packets that it placed in the present incarnation carry messages
that were forwarded, all of which but one that is not packed to its end a receiver delivers. -/
theorem link_round_trip (c : Conf) (front : Entry → List UInt8) {xs : List EndEvent} (hup : ∀ x ∈ xs, x.Up)
    (hfit : ∀ x ∈ xs, ∀ msg, x.Forwards msg → Fits c msg ∧ msg.elements ≠ []) (now : Nat) :
    ∃ msgs, RoundTrip c front ⟨(xs.foldl (LinkEnd.happens c) (createLink now)).out, msgs⟩ ∧
      ∀ msg ∈ msgs, ∃ x ∈ xs, x.Forwards msg := by
  have hall : ∀ x ∈ xs, ∀ msg, x.Forwards msg → (Fits c msg ∧ msg.elements ≠ []) ∧ ∃ x ∈ xs, x.Forwards msg :=
    fun x hx msg hmsg => ⟨hfit x hx msg hmsg, x, hx, hmsg⟩
  obtain ⟨acts, hacts, hrun⟩ := run_moves (c := c) hup hall (createLink now)
  have hpacked := packed_foldl (s := .start) acts (packed_start c) (fun msg hmsg => (hacts msg hmsg).1.1)
    (.inr ⟨fun msg hmsg => (hacts msg hmsg).1.2, fun msg hmsg => by cases hmsg⟩)
  refine ⟨(acts.foldl (Sender.step c) .start).messages, ?_, fun msg hmsg => ?_⟩
  · have hout : (acts.foldl (Sender.step c) .start).out = (xs.foldl (LinkEnd.happens c) (createLink now)).out :=
      (run_out c acts .start).trans hrun
    have htrip := hpacked.roundTrip front
    rw [← hout]
    exact htrip
  · exact (hacts msg ((messages_foldl_subset c acts .start msg hmsg).resolve_left (by rintro ⟨⟩))).2

end Spire.ItLink
