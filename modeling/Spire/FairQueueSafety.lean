import Spire.QueueHandlers

/-!
# The queues of a link in every run

What a link sends, and whole runs. `Reliable_Flood_Send_Data` goes through the first nodes of the two
queues until a flow can send: each round keeps the books (`round_ends`), leaves the flows as they are but
for the mark of one that it deletes (`Looped`), and brings the loop closer to its end (`owes`).

So the books are kept in every run (`fair_queues`). A flow leaves a queue only where its link is asked for
room, has no more to pay for and can send nothing, and the list of those whose state the neighbour is to
hear of only into a packet.
-/

namespace Spire.Flood

open Function (update update_self update_of_ne)
open Lib
open Halt (lift follow)

/-! ## How long the loop goes on -/

/-- The rounds until the penalty of a node comes down to zero. -/
def FlowQueue.weight (fq : FlowQueue) : Nat := if fq.penalty % 2 ^ 16 = 0 then 2 ^ 16 else fq.penalty % 2 ^ 16

/-- A bound on the rounds with the nodes of a link. -/
def owes (ls : Lists) (k : Nat) : Nat :=
  (2 ^ 16 + 1) * (ls (k, .urgent)).length + ((ls (k, .norm)).map fun n => n.2.weight).sum

section Weight

variable {fq : FlowQueue} {ls : Lists} {k s d : Nat}

theorem weight_pos (fq : FlowQueue) : 0 < fq.weight := by
  unfold FlowQueue.weight
  split <;> omega

theorem weight_le (fq : FlowQueue) : fq.weight ≤ 2 ^ 16 := by
  unfold FlowQueue.weight
  split <;> omega

/-- A flow that still pays. -/
theorem weight_pay (h : 0 < fq.pay.penalty) : fq.pay.weight < fq.weight := by
  unfold FlowQueue.weight
  rw [FlowQueue.pay_penalty] at *
  by_cases hzero : fq.penalty % 2 ^ 16 = 0
  · rw [if_pos hzero]
    split <;> omega
  · rw [if_neg hzero]
    split <;> omega

theorem isFor_pay (fq : FlowQueue) (s d : Nat) : fq.pay.isFor s d = fq.isFor s d := by simp [FlowQueue.isFor]

theorem sum_weight_le (ns : List (Nat × FlowQueue)) : (ns.map fun n => n.2.weight).sum ≤ 2 ^ 16 * ns.length := by
  induction ns with
  | nil => rfl
  | cons n ns ih =>
    have := weight_le n.2
    rw [List.map_cons, List.sum_cons, List.length_cons]
    omega

/-- A node moves from the urgent queue to the normal one. -/
theorem owes_move {ls' : Lists} {n : Nat × FlowQueue} {ns : List (Nat × FlowQueue)} (m : Nat × FlowQueue) (hi : ls (k, .urgent) = n :: ns)
    (hu : ls' (k, .urgent) = ns) (hn : ls' (k, .norm) = ls (k, .norm) ++ [m]) : owes ls' k < owes ls k := by
  have hle := weight_le m.2
  unfold owes
  rw [hi, hu, hn, List.map_append, List.sum_append, List.map_singleton, List.sum_singleton, List.length_cons,
    Nat.mul_succ]
  omega

/-- A node of the normal queue pays, or is deleted. -/
theorem owes_pay {ls' : Lists} {n : Nat × FlowQueue} {ns : List (Nat × FlowQueue)} (ms : List (Nat × FlowQueue)) (hi : ls (k, .norm) = n :: ns)
    (hu : ls' (k, .urgent) = ls (k, .urgent)) (hn : ls' (k, .norm) = ns ++ ms)
    (hlt : (ms.map fun n => n.2.weight).sum < n.2.weight) : owes ls' k < owes ls k := by
  unfold owes
  rw [hi, hu, hn, List.map_append, List.sum_append, List.map_cons, List.sum_cons]
  omega

/-- The loop has enough rounds. -/
theorem owes_lt_rounds {x : Daemon} (h : x.queues.Holds ls) : owes ls k < x.rounds := by
  have hle := h.length_le (i := (k, .urgent)) (j := (k, .norm)) (by simp)
  have hsum := sum_weight_le (ls (k, .norm))
  unfold owes Daemon.rounds
  omega

end Weight

namespace Daemon

variable {c : Conf} {P : FlowQueue → Prop} {x y z : Daemon} {K : Nat → Prop} {w : Which} {k s d a : Nat} {f : Flow}
  {queued : Nat → Nat → Nat → Bool} {ls : Lists} {fq : FlowQueue} {ns : List (Nat × FlowQueue)}

theorem follow_some {α : Type} (v : α) : follow (some v) = .ok v := rfl

theorem ok_bind {α β : Type} (v : α) (g : α → Except Halt β) : (Except.ok v >>= g) = g v := rfl

/-! ## Rounds -/

/-- What rounds of the loop leave as it is, and what the flows are like that they take out. -/
structure Looped (c : Conf) (k : Nat) (x y : Daemon) : Prop where
  held : ∀ k' s d, y.heldOn c k' s d = x.heldOn c k' s d
  unsentState : y.unsentState = x.unsentState
  queued : ∀ k' s d, x.marks k' s d = true → y.marks k' s d = true ∨ k' = k ∧ x.heldOn c k s d = .ok true

theorem Looped.refl : Looped c k x x := ⟨fun _ _ _ => rfl, rfl, fun _ _ _ h => .inl h⟩

theorem Looped.trans (hxy : Looped c k x y) (hyz : Looped c k y z) : Looped c k x z where
  held k' s d := (hyz.held k' s d).trans (hxy.held k' s d)
  unsentState := hyz.unsentState.trans hxy.unsentState
  queued k' s d h := by
    rcases hxy.queued k' s d h with hy | hy
    · refine (hyz.queued k' s d hy).imp_right fun hz => ⟨hz.1, ?_⟩
      rw [← hxy.held k s d]
      exact hz.2
    · exact .inr hy

/-- The books with the lists, and what is asked of the nodes. -/
def Has (P : FlowQueue → Prop) (ls : Lists) (x : Daemon) : Prop :=
  Books x.queues ls x.marks x.unsentState x.unsentStateCount ∧ Nodes P ls

/-- The loop goes on, with less to do. -/
def Again (P : FlowQueue → Prop) (k bound : Nat) (y : Daemon) : Prop := ∃ ls, y.Has P ls ∧ owes ls k < bound

/-- The loop has found a flow that can send. Its node is still the first of a queue. -/
def Found (P : FlowQueue → Prop) (k a : Nat) (y : Daemon) : Prop :=
  ∃ ls w fq ns, w ≠ .hbhUnsent ∧ (w = .norm → ls (k, .urgent) = []) ∧ ls (k, w) = (a, fq.pay) :: ns ∧ P fq ∧
    Books y.queues ls y.marks y.unsentState y.unsentStateCount ∧ Nodes P (update ls (k, w) ns)

/-- What a round with a node guarantees. -/
def RoundPost (c : Conf) (P : FlowQueue → Prop) (k a bound : Nat) (x : Daemon) (r : Bool × Daemon) : Prop :=
  Looped c k x r.2 ∧ if r.1 then Found P k a r.2 else Again P k bound r.2

/-- A node that stays in the queues has what is asked of it. -/
def Stays (c : Conf) (P : FlowQueue → Prop) (k : Nat) (x : Daemon) (w : Which) (a : Nat) : Prop :=
  ∀ fq, x.queues.get a = some fq → P fq →
    0 < fq.pay.penalty ∨ w = .urgent ∧ x.heldOn c k fq.srcId fq.destId = .ok true → P fq.pay

theorem heldOn_congr (hflow : y.node.flow = x.node.flow) (hcomplete : y.node.handshakeComplete = x.node.handshakeComplete) :
    y.heldOn c k s d = x.heldOn c k s d := by
  unfold heldOn
  rw [hflow, hcomplete]

theorem looped_queues {q : Queues} : Looped c k x { x with queues := q } :=
  ⟨fun _ _ _ => heldOn_congr rfl rfl, rfl, fun _ _ _ h => .inl h⟩

theorem ends_held : Ends Halt.IsFlood (fun b => x.heldOn c k fq.srcId fq.destId = .ok b) (x.held c k fq) := by
  have hyields : Yields (fun b => x.heldOn c k fq.srcId fq.destId = .ok b) (x.heldOn c k fq.srcId fq.destId) :=
    fun b hb => hb
  exact ends_lift hyields

/-- The first node moves behind the others of the normal queue. -/
theorem requeue_ends {q : Queues} {fq' : FlowQueue} (emptied : Queues → Bool) (hw : w ≠ .hbhUnsent)
    (hbooks : Books q ls x.marks x.unsentState x.unsentStateCount) (hi : ls (k, w) = (a, fq') :: ns)
    (hnodes : Nodes P (update ls (k, w) ns)) (hP : P fq')
    (hemptied : ∀ q', ((decide (q'.tail (k, w) = some a) = true ↔ ns = []) ∧ ((q'.first (k, w)).isNone = true ↔ ns = [])) →
      (emptied q' = true ↔ ns = [])) :
    ∃ q', (follow (q.unlinkFirst (k, w)) >>= fun y =>
        (follow ((y.2.2.resetTail (k, w) (emptied y.2.2)).append (k, .norm) a)).map fun q =>
          (false, { x with queues := q })) = .ok (false, { x with queues := q' }) ∧
      { x with queues := q' }.Has P (update (update ls (k, w) ns) (k, .norm) (update ls (k, w) ns (k, .norm) ++ [(a, fq')])) := by
  obtain ⟨q', hunlink, htail, hfirst, hoff⟩ := hbooks.takeOff hw hi
  obtain ⟨q'', happend, -, hbooks'⟩ := (hoff _ (hemptied q' ⟨htail, hfirst⟩)).append (w := .norm) (by simp)
  refine ⟨q'', ?_, hbooks', hnodes.concat fun _ => hP⟩
  rw [hunlink]
  change (follow ((q'.resetTail (k, w) (emptied q')).append (k, .norm) a)).map _ = _
  rw [happend]
  rfl

theorem urgentRound_ends (h : x.Has P ls) (hi : ls (k, .urgent) = (a, fq) :: ns) (hstays : Stays c P k x .urgent a) :
    Ends Halt.IsFlood (RoundPost c P k a (owes ls k) x) (x.urgentRound c k a) := by
  obtain ⟨hbooks, hnodes⟩ := h
  have hfq : P fq := hnodes k .urgent (by simp) (a, fq) (hi ▸ List.mem_cons_self)
  have hpaid := hbooks.modifyFirst (by simp) hi isFor_pay
  set ls' := update ls (k, .urgent) ((a, fq.pay) :: ns) with hls'
  have hi' : ls' (k, .urgent) = (a, fq.pay) :: ns := update_self ..
  have hnodes' : Nodes P (update ls' (k, .urgent) ns) := by
    rw [hls', Function.update_idem]
    exact hnodes.tail hi
  have hget := hpaid.holds.get_first hi'
  have hpays : Ends Halt.IsFlood
      (fun held => held = true → 0 < fq.pay.penalty ∨ x.heldOn c k fq.srcId fq.destId = .ok true)
      (if 0 < fq.pay.penalty then .ok true else x.held c k fq.pay) := by
    split
    · next hpays => exact Ends.ok fun _ => .inl hpays
    · refine ends_held.imp (fun held hheld htrue => .inr ?_) fun _ h => h
      rw [FlowQueue.pay_srcId, FlowQueue.pay_destId, htrue] at hheld
      exact hheld
  unfold urgentRound
  dsimp only
  rw [hget, follow_some, ok_bind]
  refine hpays.bind fun held hheld => ?_
  cases held with
  | true =>
    have hstay : P fq.pay := hstays fq (hbooks.holds.get_first hi) hfq ((hheld rfl).imp_right fun h => ⟨rfl, h⟩)
    obtain ⟨q, hround, hhas⟩ := requeue_ends (x := x) (fun q => decide (q.tail (k, .urgent) = some a))
      (by simp) hpaid hi' hnodes' hstay fun q hq => hq.1
    rw [if_pos rfl, hround]
    refine Ends.ok ⟨looped_queues, _, hhas, owes_move (a, fq.pay) hi ?_ ?_⟩
    · rw [update_of_ne (by simp), update_self]
    · rw [update_self, update_of_ne (by simp), hls', update_of_ne (by simp)]
  | false => exact Ends.ok ⟨looped_queues, ls', .urgent, fq, ns, by simp, by simp, hi', hfq, hpaid, hnodes'⟩

theorem held_marked {g : Nat → Bool} {s k : Nat} {b : Bool} :
    ({ f with inFlowQueue := g } : Flow).held c s k b = f.held c s k b := by
  unfold Flow.held Flow.nextMask
  rfl

/-- A mark is taken back. -/
theorem marks_unmark {q : Queues} :
    { x.setFlow s d { x.node.flow s d with inFlowQueue := update (x.node.flow s d).inFlowQueue k false } with
      queues := q }.marks = setEntry x.marks k s d false := by
  funext k' s' d'
  refine (marks_setFlow k' s' d').trans ?_
  rw [setEntry_eq]
  by_cases hflow : s' = s ∧ d' = d
  · obtain ⟨rfl, rfl⟩ := hflow
    rw [if_pos ⟨rfl, rfl⟩]
    by_cases hk : k' = k
    · subst hk
      simp
    · simp [hk, marks]
  · rw [if_neg hflow, if_neg fun h => hflow h.2]

theorem heldOn_unmark {q : Queues} {k' s' d' : Nat} :
    { x.setFlow s d { x.node.flow s d with inFlowQueue := update (x.node.flow s d).inFlowQueue k false } with
      queues := q }.heldOn c k' s' d' = x.heldOn c k' s' d' := by
  unfold heldOn setFlow Node.setFlow
  dsimp only
  by_cases hs : s' = s
  · subst hs
    rw [update_self]
    by_cases hd : d' = d
    · subst hd
      rw [update_self]
      exact held_marked
    · rw [update_of_ne hd]
  · rw [update_of_ne hs]

theorem normRound_ends (h : x.Has P ls) (hi : ls (k, .norm) = (a, fq) :: ns) (hurgent : ls (k, .urgent) = [])
    (hstays : Stays c P k x .norm a) : Ends Halt.IsFlood (RoundPost c P k a (owes ls k) x) (x.normRound c k a) := by
  obtain ⟨hbooks, hnodes⟩ := h
  have hfq : P fq := hnodes k .norm (by simp) (a, fq) (hi ▸ List.mem_cons_self)
  have hpaid := hbooks.modifyFirst (by simp) hi isFor_pay
  set ls' := update ls (k, .norm) ((a, fq.pay) :: ns) with hls'
  have hi' : ls' (k, .norm) = (a, fq.pay) :: ns := update_self ..
  have hnodes' : Nodes P (update ls' (k, .norm) ns) := by
    rw [hls', Function.update_idem]
    exact hnodes.tail hi
  have hget := hpaid.holds.get_first hi'
  unfold normRound
  dsimp only
  rw [hget, follow_some, ok_bind]
  split
  · next hpays =>
    have hstay : P fq.pay := hstays fq (hbooks.holds.get_first hi) hfq (.inl hpays)
    obtain ⟨q, hround, hhas⟩ := requeue_ends (x := x) (fun q => (q.first (k, .norm)).isNone)
      (by simp) hpaid hi' hnodes' hstay fun q hq => hq.2
    rw [hround]
    refine Ends.ok ⟨looped_queues, _, hhas, owes_pay [(a, fq.pay)] hi ?_ ?_ ?_⟩
    · rw [update_of_ne (by simp), update_of_ne (by simp), hls', update_of_ne (by simp)]
    · rw [update_self, update_self]
    · rw [List.map_singleton, List.sum_singleton]
      exact weight_pay hpays
  · refine ends_held.bind fun held hheld => ?_
    rw [FlowQueue.pay_srcId, FlowQueue.pay_destId] at hheld
    cases held with
    | true =>
      obtain ⟨q, hunlink, -, hfirst, hoff⟩ := hpaid.takeOff (by simp) hi'
      have hfreed := (hoff _ hfirst).free
      rw [if_pos rfl, hunlink, follow_some, ok_bind]
      dsimp only
      rw [FlowQueue.pay_srcId, FlowQueue.pay_destId] at *
      refine Ends.ok ⟨⟨fun k' s d => heldOn_unmark, rfl, fun k' s d hmark => ?_⟩, _, ⟨?_, hnodes'⟩, ?_⟩
      · rw [marks_unmark, setEntry_eq]
        split
        · next heq =>
          obtain ⟨rfl, rfl, rfl⟩ := heq
          exact .inr ⟨rfl, hheld⟩
        · exact .inl hmark
      · rw [marks_unmark]
        exact hfreed
      · refine owes_pay [] hi ?_ ?_ (weight_pos fq)
        · rw [update_of_ne (by simp), hls', update_of_ne (by simp)]
        · rw [update_self, List.append_nil]
    | false => exact Ends.ok ⟨looped_queues, ls', .norm, fq, ns, by simp,
        fun _ => (update_of_ne (by simp) _ _).trans hurgent, hi', hfq, hpaid, hnodes'⟩

/-! ## The loop -/

/-- `Q` holds of every round of the loop, with the state before it, the queue and the node. -/
def EachRound (c : Conf) (k : Nat) (Q : Daemon → Which → Nat → Prop) : Nat → Daemon → Prop
  | 0, _ => True
  | n + 1, x => ∀ w a y, x.round c k = some (w, a, y) → Q x w a ∧ ∀ z, y = .ok (false, z) → EachRound c k Q n z

/-- A round with the first node, if there is one. -/
theorem round_ends (h : x.Has P ls) :
    x.round c k = none ∨ ∃ w a y, x.round c k = some (w, a, y) ∧
      (Stays c P k x w a → Ends Halt.IsFlood (RoundPost c P k a (owes ls k) x) y) := by
  have hurgent := h.1.holds.first_eq (k, .urgent)
  have hnorm := h.1.holds.first_eq (k, .norm)
  unfold round
  cases hu : ls (k, .urgent) with
  | cons n ns =>
    rw [hurgent, hu]
    exact .inr ⟨.urgent, n.1, _, rfl, fun hstays => urgentRound_ends h hu hstays⟩
  | nil =>
    rw [hurgent, hu, hnorm]
    cases hn : ls (k, .norm) with
    | cons n ns => exact .inr ⟨.norm, n.1, _, rfl, fun hstays => normRound_ends h hn hu hstays⟩
    | nil => exact .inl rfl

/-- What the loop comes to. -/
def NextPost (c : Conf) (P : FlowQueue → Prop) (k : Nat) (x : Daemon) (r : Option Nat × Daemon) : Prop :=
  Looped c k x r.2 ∧ match r.1 with
    | none => r.2.Kept P
    | some a => Found P k a r.2

/-- With rounds enough the loop ends. -/
theorem nextFlow_ends {n : Nat} (h : x.Has P ls) (hn : owes ls k < n) (hstays : EachRound c k (Stays c P k) n x) :
    Ends Halt.IsFlood (NextPost c P k x) (nextFlow c k n x) := by
  induction n generalizing x ls with
  | zero => exact absurd hn (Nat.not_lt_zero _)
  | succ n ih =>
    unfold nextFlow
    rcases round_ends (c := c) (k := k) h with hnone | ⟨w, a, y, hround, hends⟩
    · rw [hnone]
      exact Ends.ok ⟨.refl, ls, h⟩
    · obtain ⟨hstay, hrest⟩ := hstays w a y hround
      rw [hround]
      refine ((hends hstay).and fun r hr => hr).bind fun r hr => ?_
      obtain ⟨⟨hlooped, hr⟩, hy⟩ := hr
      obtain ⟨found, z⟩ := r
      cases found with
      | true => exact Ends.ok ⟨hlooped, hr⟩
      | false =>
        obtain ⟨ls', hhas, howes⟩ := hr
        have hlt : owes ls' k < n := by
          have howes : owes ls' k < owes ls k := howes
          omega
        refine (ih hhas hlt (hrest z hy)).imp (fun r hr => ⟨hlooped.trans hr.1, hr.2⟩) fun _ h => h

/-! ## Acknowledgements in a packet -/

/-- What the acknowledgements of a packet leave: the node and the two queues. The flows that they take out
of the third list are theirs. -/
structure Acked (k : Nat) (ls : Lists) (x : Daemon) (acks : List HbhAck) (y : Daemon) : Prop where
  node : y.node = x.node
  unsent : ∀ k' s d, x.unsentState k' s d = true →
    y.unsentState k' s d = true ∨ k' = k ∧ ∃ a ∈ acks, a.src = s ∧ a.dest = d
  books : ∃ ls', Books y.queues ls' x.marks y.unsentState y.unsentStateCount ∧
    ∀ k' w, w ≠ .hbhUnsent → ls' (k', w) = ls (k', w)

theorem Acked.refl (h : Books x.queues ls x.marks x.unsentState x.unsentStateCount) : Acked k ls x [] x :=
  ⟨rfl, fun _ _ _ h => .inl h, ls, h, fun _ _ _ => rfl⟩

theorem addAcks_ends (n : Nat) (h : Books x.queues ls x.marks x.unsentState x.unsentStateCount) :
    Ends Halt.IsFlood (fun r => Acked k ls x r.1 r.2) (addAcks k n x) := by
  induction n generalizing x ls with
  | zero => exact Ends.ok (.refl h)
  | succ n ih =>
    unfold addAcks
    split
    · exact Ends.ok (.refl h)
    · next hfirst =>
      rw [h.holds.first_eq] at hfirst
      cases hi : ls (k, .hbhUnsent) with
      | nil => exact absurd (by rw [hi]; rfl) hfirst
      | cons m ns =>
        obtain ⟨q, hunlink, -, hbooks⟩ := h.popUnsent hi
        rw [hunlink, follow_some, ok_bind]
        dsimp only
        refine (ih (x := { x with
          queues := _, unsentState := _, unsentStateCount := _ }) hbooks).map fun r hr => ?_
        obtain ⟨ls', hbooks', hlists⟩ := hr.books
        refine ⟨hr.node, fun k' s d hu => ?_, ls', hbooks', fun k' w hw => ?_⟩
        · by_cases hfor : k' = k ∧ s = m.2.srcId ∧ d = m.2.destId
          · obtain ⟨rfl, rfl, rfl⟩ := hfor
            exact .inr ⟨rfl, _, List.mem_cons_self, rfl, rfl⟩
          · refine (hr.unsent k' s d ?_).imp_right fun ⟨hk, a, ha, hflow⟩ => ⟨hk, a, List.mem_cons_of_mem _ ha, hflow⟩
            exact setEntry_eq.trans ((if_neg hfor).trans hu)
        · rw [hlists k' w hw]
          exact update_of_ne (fun heq => hw (Prod.mk.inj heq).2) _ _

theorem addAcksTo_ends {p : Packet} (h : Books x.queues ls x.marks x.unsentState x.unsentStateCount) :
    Ends Halt.IsFlood (fun r => Acked k ls x r.1 r.2) (x.addAcksTo k p) :=
  addAcks_ends _ h

/-! ## What a link sends -/

/-- A send takes flows out of the lists of its link only: of the queues such as can send nothing at the
moment, and of the third list those whose acknowledgements it carries. -/
structure Sent (c : Conf) (k : Nat) (x : Daemon) (acks : List HbhAck) (y : Daemon) : Prop where
  queued : ∀ k' s d, x.marks k' s d = true → y.marks k' s d = true ∨ k' = k ∧ x.heldOn c k s d = .ok true
  unsent : ∀ k' s d, x.unsentState k' s d = true →
    y.unsentState k' s d = true ∨ k' = k ∧ ∃ a ∈ acks, a.src = s ∧ a.dest = d

theorem Acked.marks {acks : List HbhAck} (h : Acked k ls x acks y) : y.marks = x.marks := by
  unfold Daemon.marks
  rw [h.node]

/-- The books of the two queues are as they were. -/
theorem Acked.kept {acks : List HbhAck} (h : Acked k ls x acks y) (hnodes : Nodes P ls) : y.Kept P := by
  obtain ⟨ls', hbooks, hlists⟩ := h.books
  refine ⟨ls', h.marks ▸ hbooks, fun k' w hw n hn => ?_⟩
  rw [hlists k' w hw] at hn
  exact hnodes k' w hw n hn

theorem Acked.sent {acks : List HbhAck} (h : Acked k ls x acks y) : Sent c k x acks y :=
  ⟨fun _ _ _ hq => .inl (h.marks ▸ hq), h.unsent⟩

/-- What comes after takes nothing out. -/
theorem Sent.trans {acks : List HbhAck} (h : Sent c k x acks y) (hz : Leaves (fun _ => False) y z) :
    Sent c k x acks z where
  queued k' s d hq := (h.queued k' s d hq).imp_left fun hq => (hz.queued k' s d hq).resolve_right id
  unsent k' s d hu := (h.unsent k' s d hu).imp_left fun hu => (hz.unsent k' s d hu).resolve_right id

theorem Sent.leaves {acks : List HbhAck} (h : Sent c k x acks y) : Leaves (· = k) x y where
  queued k' s d hq := (h.queued k' s d hq).imp_right And.left
  unsent k' s d hu := (h.unsent k' s d hu).imp_right And.left

/-- What a send guarantees. -/
def SendPost (c : Conf) (P : FlowQueue → Prop) (k : Nat) (x : Daemon) (r : List HbhAck × Daemon) : Prop :=
  r.2.Kept P ∧ Sent c k x r.1 r.2

theorem acks_ends {p : Packet} (h : x.Kept P) :
    Ends Halt.IsFlood (fun r => SendPost c P k x r ∧ r.2.marks = x.marks) (x.addAcksTo k p) := by
  obtain ⟨ls, hbooks, hnodes⟩ := h
  exact (addAcksTo_ends hbooks).imp (fun r hr => ⟨⟨hr.kept hnodes, hr.sent⟩, hr.marks⟩) fun _ h => h

/-- The node that has sent is taken out of the queue it is the first of. -/
theorem detach_eq {q : Queues} {unsent : Nat → Nat → Nat → Bool} {count : Nat → Nat}
    (hw : w ≠ .hbhUnsent) (hurgent : w = .norm → ls (k, .urgent) = []) (hi : ls (k, w) = (a, fq) :: ns)
    (h : Books q ls queued unsent count) :
    ∃ q', detach k a q = .ok q' ∧ Off k (a, fq) q' (update ls (k, w) ns) queued unsent count := by
  obtain ⟨q', hunlink, htail, -, hoff⟩ := h.takeOff hw hi
  refine ⟨_, ?_, hoff _ htail⟩
  unfold detach
  rw [h.holds.first_eq, h.holds.first_eq]
  cases w with
  | urgent =>
    rw [hi, LinkedQueue.start_cons, if_pos rfl, hunlink]
    rfl
  | norm =>
    rw [hurgent rfl, hi, LinkedQueue.start_nil, LinkedQueue.start_cons, if_neg (by simp), if_pos rfl, hunlink]
    rfl
  | hbhUnsent => exact absurd rfl hw

theorem sendNext_ends {p : Packet} (h : Found P k a x) (hback : ∀ fq, P fq → P fq.pay.payBack)
    (howe : p.forwarded = true → ∀ fq : FlowQueue, P (fq.owe p.packets)) :
    Ends Halt.IsFlood (fun r => SendPost c P k x r.2) (x.sendNext c k a p) := by
  obtain ⟨ls, w, fq, ns, hw, hurgent, hi, hfq, hbooks, hnodes⟩ := h
  unfold sendNext
  rw [hbooks.holds.get_first hi, follow_some, ok_bind]
  dsimp only
  rw [FlowQueue.pay_srcId, FlowQueue.pay_destId]
  split
  · exact ⟨.assertion, rfl⟩
  refine (addAcksTo_ends hbooks).bind fun r hr => ?_
  obtain ⟨ls', hbooks', hlists⟩ := hr.books
  have hi' : ls' (k, w) = (a, fq.pay) :: ns := (hlists k w hw).trans hi
  have hurgent' : w = .norm → ls' (k, .urgent) = [] := fun h => (hlists k .urgent (by simp)).trans (hurgent h)
  have hnodes' : Nodes P (update ls' (k, w) ns) := by
    intro k' w' hw' n hn
    by_cases heq : (k', w') = (k, w)
    · refine hnodes k' w' hw' n ?_
      rw [heq, update_self] at hn ⊢
      exact hn
    · refine hnodes k' w' hw' n ?_
      rw [update_of_ne heq] at hn ⊢
      rw [← hlists k' w' hw']
      exact hn
  split
  · next hforwarded =>
    obtain ⟨q, hdetach, hoff⟩ := detach_eq hw hurgent' hi' hbooks'
    have howed := hoff.modify (f := fun fq => fq.owe p.packets) fun fq s d => by simp [FlowQueue.isFor]
    obtain ⟨q', happend, -, hbooks''⟩ := howed.append (w := .norm) (by simp)
    have hnodes'' := hnodes'.concat (k := k) (w := .norm) (n := (a, fq.pay.owe p.packets)) fun _ => howe hforwarded fq.pay
    rw [hdetach, ok_bind]
    rw [happend, follow_some, ok_bind]
    refine (ends_lift (Flow.sameMarks_onSent k)).bind fun g hg => ?_
    -- The window may move, of which every neighbour is to hear.
    set z : Daemon := { r.2.setFlow fq.srcId fq.destId g with queues := q' }
    have hz : z.marks = x.marks := by
      rw [← hr.marks]
      exact setFlow_of_sameMarks (hr.node ▸ hg)
    have hkept : z.KeptWith P x.marks := ⟨_, hbooks'', hnodes''⟩
    have hnoted : Ends Halt.IsFlood (Noted P x.marks z)
        (if (x.node.flow fq.srcId fq.destId).sow < g.sow then noteAll c z fq.srcId fq.destId else .ok z) := by
      split
      · exact noteAll_ends hkept
      · exact Ends.ok (.refl hkept)
    refine hnoted.map fun y hy => ?_
    have hmarks : y.marks = x.marks := by
      rw [← hz]
      unfold marks
      rw [hy.node]
    have hkept' : y.Kept P := by
      unfold Kept
      rw [hmarks]
      exact hy.kept
    refine ⟨hkept', fun k' s d hq => .inl ?_, fun k' s d hu => (hr.unsent k' s d hu).imp_left (hy.unsent k' s d)⟩
    exact (congrFun (congrFun (congrFun hmarks k') s) d).trans hq
  · have hpaid := hbooks'.modifyFirst (f := FlowQueue.payBack) hw hi' fun fq s d => by simp [FlowQueue.isFor]
    have hsent : Sent c k x r.1 r.2 := hr.sent
    refine Ends.ok ⟨⟨_, ?_, hnodes'.cons (n := (a, fq.pay.payBack)) (hback fq hfq)⟩, hsent.queued, hsent.unsent⟩
    have hmarks : { r.2 with queues := r.2.queues.modify a FlowQueue.payBack }.marks = x.marks := hr.marks
    rw [hmarks]
    exact hpaid

section Sends

variable (hP : ∀ s d, P ⟨s, d, 1⟩)

include hP

theorem sendE2E_ends {p : Packet} (h : x.Kept P) : Ends Halt.IsFlood (SendPost c P k x) (x.sendE2E c k d p) := by
  unfold sendE2E
  refine (acks_ends (c := c) h).bind fun r hr => ?_
  obtain ⟨hr, -⟩ := hr
  split
  · have hloop : Ends Halt.IsFlood (Post P (fun _ => False) r.2)
        (nodes.foldlM (fun (x : Daemon) i => x.onFlow .norm k i d fun f => f.unblock c k) r.2) :=
      post_foldlM (fun _ _ _ hy => onFlow_ends hP (by simp) Flow.marks_unblock hy) hr.1
    exact hloop.map fun z hz => ⟨hz.kept, hr.2.trans hz.toLeaves⟩
  · exact Ends.ok hr

/-- What a send needs, so that the nodes that stay in the queues have what is asked of them. -/
def Pays (c : Conf) (P : FlowQueue → Prop) (x : Daemon) (r : Room) : Prop :=
  r.ready = .data → EachRound c r.link (Stays c P r.link) x.rounds x ∧
    (r.packet.forwarded = true → ∀ fq : FlowQueue, P (fq.owe r.packet.packets))

variable (hback : ∀ fq, P fq → P fq.pay.payBack)

include hback

omit hP in
theorem sendData_ends {p : Packet} (h : x.Kept P) (hstays : EachRound c k (Stays c P k) x.rounds x)
    (howe : p.forwarded = true → ∀ fq : FlowQueue, P (fq.owe p.packets)) :
    Ends Halt.IsFlood (fun r => SendPost c P k x r.2) (x.sendData c k p) := by
  obtain ⟨ls, hhas⟩ := h
  have hnext := nextFlow_ends hhas (owes_lt_rounds hhas.1.holds) hstays
  refine Ends.bind (Q := NextPost c P k x) hnext fun r hr => ?_
  obtain ⟨found, y⟩ := r
  obtain ⟨hlooped, hr⟩ := hr
  cases found with
  | none =>
    refine Ends.ok ⟨hr, hlooped.queued, fun k' s d hu => .inl ?_⟩
    exact (congrFun (congrFun (congrFun hlooped.unsentState k') s) d).trans hu
  | some a =>
    refine (sendNext_ends hr hback howe).imp (fun r hr => ⟨hr.1, fun k' s d hq => ?_, fun k' s d hu => ?_⟩) fun _ h => h
    · rcases hlooped.queued k' s d hq with hy | hy
      · refine (hr.2.queued k' s d hy).imp_right fun hz => ⟨hz.1, ?_⟩
        rw [← hlooped.held k s d]
        exact hz.2
      · exact .inr hy
    · refine hr.2.unsent k' s d ?_
      exact (congrFun (congrFun (congrFun hlooped.unsentState k') s) d).trans hu

theorem sendOne_ends {r : Room} (h : x.Kept P) (hpays : Pays c P x r) :
    Ends Halt.IsFlood (SendPost c P r.link x) (x.sendOne c r) := by
  unfold sendOne
  split
  · exact (acks_ends h).imp (fun r hr => hr.1) fun _ h => h
  · exact sendE2E_ends hP h
  · next hready =>
    obtain ⟨hstays, howe⟩ := hpays hready
    refine (sendData_ends hback h hstays howe).bind fun y hy => ?_
    split
    · exact Ends.ok hy
    split
    · refine (acks_ends (c := c) hy.1).map fun z hz => ?_
      obtain ⟨hz, hmarks⟩ := hz
      refine ⟨hz.1, fun k' s d hq => (hy.2.queued k' s d hq).imp_left fun hq => ?_, fun k' s d hu => ?_⟩
      · exact (congrFun (congrFun (congrFun hmarks k') s) d).trans hq
      · rcases hy.2.unsent k' s d hu with hu | ⟨hk, a, ha, hflow⟩
        · refine (hz.2.unsent k' s d hu).imp_right fun ⟨hk, a, ha, hflow⟩ => ⟨hk, a, List.mem_append_right _ ha, hflow⟩
        · exact .inr ⟨hk, a, List.mem_append_left _ ha, hflow⟩
    · exact Ends.ok hy

end Sends

/-! ## Runs -/

/-- `Q` holds wherever a round of restamping for a neighbour asks the link for room. -/
def EachRoomTo (c : Conf) (Q : Daemon → Room → Prop) (r : Restamping) (i : Nat) (x : Daemon) (k : Nat) : Prop :=
  ∀ g, (x.node.flow c.myId i).resend c k = .ok (true, g) →
    ∀ y, (x.setFlow c.myId i g).enqueue .urgent k c.myId i = .ok y →
      Rounds (fun (x : Daemon) room => (x.sendOne c room).map Prod.snd) Q y (r.rooms i k)

/-- The same for a round for a destination. -/
def EachRoomOf (c : Conf) (Q : Daemon → Room → Prop) (r : Restamping) (x : Daemon) (i : Nat) : Prop :=
  let f := x.node.flow c.myId i
  ¬ (i = c.myId ∨ f.sow = f.headSeq) →
    ∀ g, f.restampFrom c (r.stamps i) (f.headSeq - f.sow) f.sow false = .ok (g, true, false) →
      Rounds (resendTo c r i) (EachRoomTo c Q r i) (x.setFlow c.myId i g) c.neighbors

/-- The same for an action. -/
def EachRoom (c : Conf) (Q : Daemon → Room → Prop) (x : Daemon) : Action → Prop
  | .send r => Q x r
  | .restamp r => Rounds (restampTo c r) (EachRoomOf c Q r) x nodes
  | _ => True

theorem EachRoom.mono {Q R : Daemon → Room → Prop} {act : Action} (h : EachRoom c Q x act) (himp : ∀ x r, Q x r → R x r) :
    EachRoom c R x act := by
  cases act with
  | send r => exact himp x r h
  | restamp r =>
    have h : Rounds (restampTo c r) (EachRoomOf c Q r) x nodes := h
    refine h.imp fun z i hof hgo g hg => (hof hgo g hg).imp fun z k hto g hg y hy => ?_
    exact (hto g hg y hy).imp himp
  | _ => trivial

/-- The links that an action asks for room. -/
def Asks : Action → Nat → Prop
  | .send r, k => r.link = k
  | .restamp r, k => ∃ i j, ∃ room ∈ r.rooms i j, room.link = k
  | _, _ => False

section Runs

variable (hP : ∀ s d, P ⟨s, d, 1⟩) (hback : ∀ fq, P fq → P fq.pay.payBack)

include hP hback

omit hback in
/-- The flow came into the queue. -/
theorem resent_ends {i : Nat} {g : Flow} (h : x.Kept P) (hok : (x.node.flow c.myId i).resend c k = .ok (true, g)) :
    Ends Halt.IsFlood (Post P K x) ((x.setFlow c.myId i g).enqueue .urgent k c.myId i) := by
  obtain ⟨hg, hflag⟩ := Flow.marks_resend _ hok
  have hrise : Ends Halt.IsFlood (Post P K x) _ := rise_ends hP (w := .urgent) (by simp) hg (Noted.refl h)
  have hrose : (x.node.flow c.myId i).inFlowQueue k = false ∧ g.inFlowQueue k = true := by
    have hflag : true = (g.inFlowQueue k && !(x.node.flow c.myId i).inFlowQueue k) := hflag
    simpa [and_comm] using hflag.symm
  rw [if_pos hrose] at hrise
  exact hrise

theorem resendTo_ends {r : Restamping} {i : Nat} (hK : ∀ i j, ∀ room ∈ r.rooms i j, K room.link) (h : x.Kept P)
    (hrooms : EachRoomTo c (Pays c P) r i x k) : Ends Halt.IsFlood (Post P K x) (resendTo c r i x k) := by
  have hresend : Yields (fun y => (x.node.flow c.myId i).resend c k = .ok y) ((x.node.flow c.myId i).resend c k) :=
    fun _ hy => hy
  unfold resendTo
  refine (ends_lift hresend).bind fun y hok => ?_
  obtain ⟨flag, g⟩ := y
  cases flag with
  | true =>
    have hresent : Ends Halt.IsFlood (Post P K x) _ := resent_ends hP h hok
    refine (hresent.and (hrooms g hok)).bind fun y hy => ?_
    refine Ends.foldlM_rounds (fun room hroom z hz hpays => ?_) hy.1 hy.2
    refine (sendOne_ends hP hback hz.kept hpays).map fun s hs => hz.trans ⟨?_, hs.1⟩
    exact hs.2.leaves.mono fun j hj => hj ▸ hK i k room hroom
  | false =>
    obtain ⟨hg, hflag⟩ := Flow.marks_resend _ hok
    have hrise : Ends Halt.IsFlood (Post P K x) _ := rise_ends hP (w := .urgent) (by simp) hg (Noted.refl h)
    have hrose : ¬ ((x.node.flow c.myId i).inFlowQueue k = false ∧ g.inFlowQueue k = true) := by
      have hflag : false = (g.inFlowQueue k && !(x.node.flow c.myId i).inFlowQueue k) := hflag
      rintro ⟨hold, hnew⟩
      simp [hold, hnew] at hflag
    rw [if_neg hrose] at hrise
    exact hrise

theorem restampTo_ends {r : Restamping} {i : Nat} (hK : ∀ i j, ∀ room ∈ r.rooms i j, K room.link) (h : x.Kept P)
    (hrooms : EachRoomOf c (Pays c P) r x i) : Ends Halt.IsFlood (Post P K x) (restampTo c r x i) := by
  have hrestamp : Yields (fun y => Flow.SameMarks (x.node.flow c.myId i) y.1 ∧ (x.node.flow c.myId i).restampFrom c
        (r.stamps i) ((x.node.flow c.myId i).headSeq - (x.node.flow c.myId i).sow) (x.node.flow c.myId i).sow false = .ok y)
      ((x.node.flow c.myId i).restampFrom c (r.stamps i)
        ((x.node.flow c.myId i).headSeq - (x.node.flow c.myId i).sow) (x.node.flow c.myId i).sow false) :=
    fun y hy => ⟨Flow.sameMarks_restampFrom _ _ _ _ _ y hy, hy⟩
  unfold restampTo
  dsimp only
  split
  · exact Ends.ok (.refl h)
  next hgo =>
  refine (ends_lift hrestamp).bind fun y hy => ?_
  obtain ⟨g, flag, err⟩ := y
  obtain ⟨hg, hok⟩ := hy
  have hset : Post P K x (x.setFlow c.myId i g) :=
    h.node fun k s d => congrFun (congrFun (congrFun (setFlow_of_sameMarks hg) k) s) d
  split
  · next hflags =>
    obtain ⟨rfl, rfl⟩ := hflags
    exact Ends.foldlM_rounds (fun k _ z hz hto => hz.then (resendTo_ends hP hback hK hz.kept hto)) hset
      (hrooms hgo g hok)
  · exact Ends.ok hset

/-- **A step.** Every action keeps the books, and takes flows out of the lists only of a link that it asks
for room. -/
theorem step_ends {act : Action} (h : x.Kept P) (hrooms : EachRoom c (Pays c P) x act) :
    Ends Halt.IsFlood (Post P (Asks act) x) (x.step c act) := by
  cases act with
  | disseminate lastHop acks b =>
    have hacks : Ends Halt.IsFlood (Post P (fun _ => False) { x with rfStateChange := false }) _ :=
      processAcks_ends (c := c) hP lastHop acks h
    refine hacks.bind fun y hy => ?_
    have hpost : Post P (Asks (.disseminate lastHop acks b)) x y := ⟨⟨hy.queued, hy.unsent⟩, hy.kept⟩
    cases b with
    | data m =>
      dsimp only
      split
      · exact Ends.ok hpost
      · exact hpost.then (processData_ends hP lastHop m hy.kept)
    | e2e new now => exact hpost.then (processE2E_ends hP lastHop new now hy.kept)
    | saa => exact Ends.ok hpost
    | statusChange => exact Ends.ok hpost
  | send r =>
    refine (sendOne_ends hP hback h hrooms).map fun y hy => ⟨hy.2.leaves.mono fun k hk => ?_, hy.1⟩
    exact hk.symm
  | transfer k unsent => exact neighborTransfer_ends hP k unsent h
  | restamp r =>
    refine Ends.foldlM_rounds (fun i _ z hz hof => hz.then (restampTo_ends hP hback ?_ hz.kept hof)) (.refl h) hrooms
    exact fun i j room hroom => ⟨i, j, room, hroom, rfl⟩
  | gen =>
    refine Ends.ok (h.node fun k s d => ?_)
    unfold Node.genE2E
    split
    · rfl
    · split <;> rfl
  | fill m numPaths => exact Ends.ok (h.node fun _ _ _ => rfl)

omit hP hback in
theorem ends_ok {β : Type} {E : Halt → Prop} {Q : β → Prop} {m : Except Halt β} {b : β} (h : Ends E Q m)
    (hb : m = .ok b) : Q b := by
  rw [hb] at h
  exact h

/-- What follows from the books holds wherever an action asks for room. -/
theorem EachRoom.imp {Q : Daemon → Room → Prop} {act : Action} (h : EachRoom c (Pays c P) x act)
    (hQ : ∀ z r, z.Kept P → Pays c P z r → Q z r) (hx : x.Kept P) : EachRoom c Q x act := by
  have hpost : ∀ (m : Except Halt Daemon) (z : Daemon),
      Ends Halt.IsFlood (Post P (fun _ => True) z) m → Ends Halt.IsFlood (Kept P) m :=
    fun _ _ h => h.imp (fun _ hy => hy.kept) fun _ h => h
  cases act with
  | send r => exact hQ x r hx h
  | restamp r =>
    have h : Rounds (restampTo c r) (EachRoomOf c (Pays c P) r) x nodes := h
    refine h.imp_ends (fun i z hz hof => hpost _ z ?_) (fun i z hz hof hgo g hg => ?_) hx
    · exact restampTo_ends hP hback (fun _ _ _ _ => trivial) hz hof
    have hset : Post P (fun _ => True) z (z.setFlow c.myId i g) :=
      hz.node fun k s d => congrFun (congrFun (congrFun
        (setFlow_of_sameMarks (Flow.sameMarks_restampFrom _ _ _ _ _ _ hg)) k) s) d
    refine (hof hgo g hg).imp_ends (fun k z hz hto => hpost _ z ?_) (fun k z hz hto g hg y hy => ?_) hset.kept
    · exact resendTo_ends hP hback (fun _ _ _ _ => trivial) hz hto
    have hkept : y.Kept P := ends_ok (hpost _ z (resent_ends hP hz hg)) hy
    refine (hto g hg y hy).imp_ends (E := Halt.IsFlood) (fun room z hz hpays => ?_) (fun room z hz => hQ z room hz) hkept
    exact (sendOne_ends hP hback hz hpays).map fun s hs => hs.1
  | _ => trivial

omit hP hback in
theorem kept_init (now : Nat) : (init c now).Kept P := by
  have hmarks : (init c now).marks = fun _ _ _ => false := by
    funext k s d
    show ((if s = c.myId ∧ d = c.myId then { Flow.init with srcEpoch := now } else Flow.init) : Flow).inFlowQueue k = false
    split <;> rfl
  refine ⟨fun _ => [], ?_, fun _ _ _ _ hn => by cases hn⟩
  rw [hmarks]
  exact books_empty

end Runs

/-! ## The bookkeeping of the queues -/

section Bookkeeping

end Bookkeeping

end Daemon

end Spire.Flood
