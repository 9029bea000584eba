import Mathlib
import Spire.FairQueueSafety

/-!
# The penalties of the queues

`Reliable_Flood_Send_Data` takes the penalty of a node down before it looks whether the flow still pays.
A node comes into a queue with a penalty of one or more, and each of its rounds costs one, so that there is
always one to take (`Charges`). A flow of the urgent queue that has paid and can send nothing goes into the
normal queue with a penalty of zero all the same, where the next round makes 65535 of it
(`blocked_underflows`). Where no such flow comes to the head of an urgent queue the penalties are right
(`penalties_of_unblocked`).
-/

namespace Spire.Flood.Daemon

open Lib

variable {c : Conf} {k a : Nat} {w : Which} {x : Daemon} {ls : Lists}

/-- There is a penalty to take down. -/
def Charges (x : Daemon) (_ : Which) (a : Nat) : Prop := ∀ fq, x.queues.get a = some fq → 1 ≤ fq.penalty

/-- A flow of the urgent queue that pays for the last time can send. -/
def Unblocked (c : Conf) (k : Nat) (x : Daemon) (w : Which) (a : Nat) : Prop :=
  w = .urgent → ∀ fq, x.queues.get a = some fq → fq.penalty = 1 → x.heldOn c k fq.srcId fq.destId ≠ .ok true

/-- `Q` holds of every round of every loop of `Reliable_Flood_Send_Data` in a run. -/
def InRun (c : Conf) (now : Nat) (Q : Nat → Daemon → Which → Nat → Prop) (acts : List Action) : Prop :=
  Rounds (step c) (EachRoom c fun x r => r.ready = .data → EachRound c r.link (Q r.link) x.rounds x) (init c now) acts

/-- What every node of the queues owes. -/
def Owes (fq : FlowQueue) : Prop := 1 ≤ fq.penalty ∧ fq.penalty < 2 ^ 16

theorem owes_new (s d : Nat) : Owes ⟨s, d, 1⟩ := ⟨Nat.le_refl 1, Nat.one_lt_two_pow (by simp)⟩

/-- The packet was not taken, and the round is given back. -/
theorem owes_back (fq : FlowQueue) (h : Owes fq) : Owes fq.pay.payBack := by
  unfold Owes at *
  rw [FlowQueue.payBack_penalty, FlowQueue.pay_penalty]
  omega

theorem owes_sent (p : Packet) (fq : FlowQueue) : Owes (fq.owe p.packets) := by
  have := p.packets_pos
  have := p.packets_lt
  unfold Owes
  rw [FlowQueue.owe_penalty]
  omega

/-- A node that stays in the queues owes something, as long as a flow that has paid can send. -/
theorem stays_of_unblocked (h : Unblocked c k x w a) : Stays c Owes k x w a := by
  intro fq hget hfq hstays
  unfold Owes at *
  rw [FlowQueue.pay_penalty] at *
  rcases hstays with hpays | ⟨rfl, hheld⟩
  · omega
  · have hne : fq.penalty ≠ 1 := fun heq => h rfl fq hget heq hheld
    omega

theorem EachRound.imp {Q R : Daemon → Which → Nat → Prop} {n : Nat} (h : EachRound c k Q n x)
    (himp : ∀ x w a, Q x w a → R x w a) : EachRound c k R n x := by
  induction n generalizing x with
  | zero => trivial
  | succ n ih => exact fun w a y hround => ⟨himp x w a (h w a y hround).1, fun z hz => ih ((h w a y hround).2 z hz)⟩

/-- The node of a round. -/
theorem charges_of_owes {y : Except Halt (Bool × Daemon)} (h : x.Has Owes ls) (hround : x.round c k = some (w, a, y)) :
    Charges x w a := by
  intro fq hget
  have hfirst : ∃ v, v ≠ .hbhUnsent ∧ x.queues.first (k, v) = some a := by
    unfold round at hround
    split at hround
    · next b hb =>
      cases hround
      exact ⟨.urgent, by simp, hb⟩
    · obtain ⟨b, hb, heq⟩ := Option.map_eq_some_iff.mp hround
      cases heq
      exact ⟨.norm, by simp, hb⟩
  obtain ⟨v, hv, hfirst⟩ := hfirst
  rw [h.1.holds.first_eq] at hfirst
  cases hi : ls (k, v) with
  | nil =>
    rw [hi] at hfirst
    cases hfirst
  | cons n ns =>
    rw [hi, LinkedQueue.start_cons] at hfirst
    cases hfirst
    rw [h.1.holds.get_first hi] at hget
    cases hget
    exact (h.2 k v hv n (hi ▸ List.mem_cons_self)).1

/-- **The loop.** -/
theorem eachRound_charges {n : Nat} (h : x.Has Owes ls) (hstays : EachRound c k (Stays c Owes k) n x) :
    EachRound c k Charges n x := by
  induction n generalizing x ls with
  | zero => trivial
  | succ n ih =>
    intro w a y hround
    refine ⟨charges_of_owes h hround, fun z hz => ?_⟩
    obtain ⟨hstay, hrest⟩ := hstays w a y hround
    rcases round_ends (c := c) (k := k) h with hnone | ⟨w', a', y', hround', hends⟩
    · rw [hnone] at hround
      cases hround
    · rw [hround] at hround'
      cases hround'
      obtain ⟨-, ls', hhas, -⟩ := ends_ok (hends hstay) hz
      exact ih hhas (hrest z hz)

/-- In a run in which no flow that has paid is blocked at the head of an urgent queue, no penalty underflows. -/
theorem penalties_of_unblocked (c : Conf) (now : Nat) (acts : List Action) (h : InRun c now (Unblocked c) acts) :
    InRun c now (fun _ => Charges) acts := by
  have hpays : Rounds (step c) (EachRoom c (Pays c Owes)) (init c now) acts :=
    h.imp fun x act hact => hact.mono fun z r hq hready =>
      ⟨(hq hready).imp fun _ _ _ => stays_of_unblocked, fun _ => owes_sent r.packet⟩
  refine hpays.imp_ends (E := Halt.IsFlood) (I := Kept Owes) (fun act x hx hact => ?_) (fun act x hx hact => ?_)
    (kept_init now)
  · exact (step_ends owes_new owes_back hx hact).imp (fun _ hy => hy.kept) fun _ h => h
  · refine EachRoom.imp owes_new owes_back hact (fun z r hz hpays hready => ?_) hx
    obtain ⟨ls, hhas⟩ := hz
    exact eachRound_charges hhas (hpays hready).1

/-! ## A node between two others -/

def betweenConf : Conf :=
  { myId := 1, myId_mem := one_mem_nodes, neighborIds := [2, 3], neighborMask := fun k => k
    hbhAdvance := false, hbhOpt := false, e2eOpt := false, crypto := false }

/-- The destination opens the flow from its source. -/
def openE2E : E2E := { dest := 3, cell := fun i => if i = 2 then ⟨1, 7, 0⟩ else ⟨0, 0, 0⟩ }

def onePacket : Packet := ⟨1, 1000, true, by decide, by decide⟩

/-- The link to the destination is asked for room. -/
def sendOn : Action := .send ⟨2, .data, onePacket, false, onePacket⟩

/-- The acknowledgement comes from one side or the other, and then the first message from its source. -/
def openedFrom (lastHop : Nat) : List Action :=
  [.disseminate lastHop [] (.e2e openE2E 100), .disseminate 1 [] (.data ⟨2, 3, 7, 1, 3⟩)]

/-- The first round finds a flow that can send. -/
def Offers (c : Conf) (k : Nat) (x : Daemon) : Prop :=
  ∃ r ∈ x.round c k, (∃ z ∈ r.2.2.toOption, z.1 = true) ∧
    ∃ fq ∈ x.queues.get r.2.1, (x.heldOn c k fq.srcId fq.destId).toOption = some false

/-- The first round moves the node, and the second one finds it with a penalty of zero. -/
def Underflows (c : Conf) (k : Nat) (x : Daemon) : Prop :=
  0 < x.queues.brk ∧ ∃ r ∈ x.round c k, ∃ z ∈ r.2.2.toOption, z.1 = false ∧ ∃ r' ∈ z.2.round c k,
    (z.2.queues.get r'.2.1).map FlowQueue.penalty = some 0

instance (c : Conf) (k : Nat) (x : Daemon) : Decidable (x.Offers c k) := by
  unfold Offers
  infer_instance

instance (c : Conf) (k : Nat) (x : Daemon) : Decidable (x.Underflows c k) := by
  unfold Underflows
  infer_instance

theorem offers_opened :
    ∃ x ∈ ((openedFrom 2).foldlM (step betweenConf) (init betweenConf 100)).toOption, x.Offers betweenConf 2 := by
  decide +kernel

theorem underflows_opened :
    ∃ x ∈ ((openedFrom 1).foldlM (step betweenConf) (init betweenConf 100)).toOption, x.Underflows betweenConf 2 := by
  decide +kernel

theorem eq_ok_of_mem {α β : Type} {x : Except α β} {b : β} (h : b ∈ x.toOption) : x = .ok b := by
  cases x with
  | ok b' =>
    cases h
    rfl
  | error e => cases h

/-- From the side of the destination the flow is not blocked towards it. -/
theorem unblocked_opened : InRun betweenConf 100 (Unblocked betweenConf) (openedFrom 2 ++ [sendOn]) := by
  obtain ⟨x, hx, r, hr, ⟨z, hz, hsends⟩, fq, hfq, hheld⟩ := offers_opened
  refine rounds_concat.mpr ⟨⟨trivial, fun _ _ => ⟨trivial, fun _ _ => trivial⟩⟩, fun y hy _ => ?_⟩
  have heq : y = x := Except.ok.inj (hy.symm.trans (eq_ok_of_mem hx))
  subst heq
  intro w a m hround
  cases hr.symm.trans hround
  refine ⟨fun _ fq' hfq' _ htrue => ?_, fun z' hz' => ?_⟩
  · cases hfq.symm.trans hfq'
    rw [htrue] at hheld
    cases hheld
  · cases (eq_ok_of_mem hz).symm.trans hz'
    cases hsends

theorem penalties_of_unblocked_opened : InRun betweenConf 100 (fun _ => Charges) (openedFrom 2 ++ [sendOn]) :=
  penalties_of_unblocked betweenConf 100 (openedFrom 2 ++ [sendOn]) unblocked_opened

/-- From the other side it is blocked until the acknowledgement has gone out, and its penalty underflows. -/
theorem blocked_underflows : ¬ ∀ (c : Conf) (now : Nat) (acts : List Action), InRun c now (fun _ => Charges) acts := by
  intro hall
  obtain ⟨x, hx, hbrk, r, hr, z, hz, hmoved, r', hr', hzero⟩ := underflows_opened
  have hlast := (rounds_concat.mp (hall betweenConf 100 (openedFrom 1 ++ [sendOn]))).2 x (eq_ok_of_mem hx) rfl
  obtain ⟨n, hn⟩ : ∃ n, x.rounds = n + 2 := ⟨x.rounds - 2, by unfold rounds; omega⟩
  obtain ⟨w, a, m⟩ := r
  obtain ⟨moved, z⟩ := z
  obtain ⟨w', a', m'⟩ := r'
  cases hmoved
  have hlast : EachRound betweenConf 2 Charges (n + 2) x := hn ▸ hlast
  have hsecond := (hlast w a m hr).2 z (eq_ok_of_mem hz)
  obtain ⟨fq, hfq, hpenalty⟩ := Option.map_eq_some_iff.mp hzero
  have hcharges := (hsecond w' a' m' hr').1 fq hfq
  omega

end Spire.Flood.Daemon
