import Spire.Execution
import Spire.Replay

/-!
# Requests execute exactly once

Each slot executes ranges of requests, one for each server, and in a sequence of executed
slots a range starts where the one before it ended. `Spans` is about the ranges of one
server: they list every sequence number once and in order exactly when no range that lists
something starts behind the end of an earlier one that did.

The vectors are what decides that. `made_eligible` is at least `last_executed` in a slot
whose matrix was evaluated, so ranges can only go back at a NO_OP_PLUS, whose
`made_eligible` is what the next certificate takes for executed (`inOrder_of_noOpPlus`).
Nothing compares the two, and `executed_twice` is a replay that executes a request twice.
-/

namespace Spire.Execution

open Spire.Order Spire.PreOrder

/-! ## The ranges of one server -/

section Spans

theorem seqCompare_neg_iff {p q : PoSeqPair} :
    seqCompare p q < 0 ↔ p.incarnation < q.incarnation ∨ p.incarnation = q.incarnation ∧ p.seqNum < q.seqNum := by
  unfold seqCompare
  split_ifs <;> omega

theorem mem_requestRange {prev cur p : PoSeqPair} :
    p ∈ requestRange prev cur ↔
      p.incarnation = cur.incarnation ∧ firstSeq prev cur ≤ p.seqNum ∧ p.seqNum ≤ cur.seqNum := by
  unfold requestRange
  simp only [List.mem_map, List.mem_range'_1]
  constructor
  · rintro ⟨q, ⟨hlo, hhi⟩, rfl⟩
    exact ⟨rfl, hlo, by show q ≤ cur.seqNum; omega⟩
  · rintro ⟨hinc, hlo, hhi⟩
    refine ⟨p.seqNum, ⟨hlo, by omega⟩, ?_⟩
    rw [← hinc]

/-- A range lists something. -/
def Lists (prev cur : PoSeqPair) : Prop := firstSeq prev cur ≤ cur.seqNum

theorem requestRange_sorted (prev cur : PoSeqPair) :
    (requestRange prev cur).Pairwise fun p q => seqCompare p q < 0 := by
  unfold requestRange
  refine List.pairwise_map.mpr ((List.pairwise_lt_range' (s := firstSeq prev cur)).imp fun hlt => ?_)
  exact seqCompare_neg_iff.mpr (.inr ⟨rfl, hlt⟩)

theorem firstSeq_eq {prev : PoSeqPair} (cur : PoSeqPair) (h : prev.seqNum + 1 < 2 ^ 32) :
    firstSeq prev cur = (if prev.incarnation < cur.incarnation then 0 else prev.seqNum) + 1 := by
  unfold firstSeq Validate.wrap32
  refine Nat.mod_eq_of_lt ?_
  split_ifs
  · decide
  · exact h

/-- The range from `p` to `q` comes after one that ends at `m`. -/
structure After (m p q : PoSeqPair) : Prop where
  start : m.incarnation ≤ p.incarnation
  incarnation : p.incarnation ≤ q.incarnation
  seqNum : p.seqNum + 1 < 2 ^ 32

/-- Of two ranges the later lists only later requests, unless both list something and the
later starts behind the end of the earlier. -/
theorem ranges_lt_iff {l m p q : PoSeqPair} (h : After m p q) :
    (∀ x ∈ requestRange l m, ∀ y ∈ requestRange p q, seqCompare x y < 0) ↔
      (Lists l m → Lists p q → m.incarnation = q.incarnation → SeqLe m p) := by
  have hfirst := firstSeq_eq q h.seqNum
  constructor
  · intro hall hl hp hinc
    have hpinc : p.incarnation = q.incarnation := le_antisymm h.incarnation (hinc ▸ h.start)
    have hend : m ∈ requestRange l m := mem_requestRange.mpr ⟨rfl, hl, le_refl _⟩
    have hbegin : (⟨q.incarnation, firstSeq p q⟩ : PoSeqPair) ∈ requestRange p q :=
      mem_requestRange.mpr ⟨rfl, le_refl _, hp⟩
    have hlt := seqCompare_neg_iff.mp (hall _ hend _ hbegin)
    rw [if_neg (by omega)] at hfirst
    refine seqLe_iff.mpr ?_
    simp only [hfirst] at hlt
    omega
  · intro hle x hx y hy
    obtain ⟨hxinc, hxlo, hxhi⟩ := mem_requestRange.mp hx
    obtain ⟨hyinc, hylo, hyhi⟩ := mem_requestRange.mp hy
    have hstart := h.start
    have hincs := h.incarnation
    refine seqCompare_neg_iff.mpr ?_
    rcases Nat.lt_or_ge m.incarnation q.incarnation with hlt | hge
    · exact .inl (by omega)
    · have hmp := seqLe_iff.mp (hle (hxlo.trans hxhi) (hylo.trans hyhi) (by omega))
      rw [if_neg (by omega)] at hfirst
      exact .inr ⟨by omega, by omega⟩

end Spans

/-! ## Sequences of executed slots -/

section Sequences

variable {D : Type} {c : Config} {es : List (Executed D)} {a b e : Executed D} {i : Nat}

/-- What an executed slot handed on for one server. -/
def Executed.range (e : Executed D) (i : Nat) : List PoSeqPair := requestRange (e.prev i) (e.cur i)

/-- A later ordinal, whose `last_executed` is the `made_eligible` before it. -/
structure Follows (a b : Executed D) : Prop where
  later : a.slot.proposal.seqNum < b.slot.proposal.seqNum
  linked : b.slot.proposal.lastExecuted = a.slot.madeEligible

instance : DecidableRel (Follows (D := D)) := fun a b =>
  decidable_of_iff (a.slot.proposal.seqNum < b.slot.proposal.seqNum ∧ b.slot.proposal.lastExecuted = a.slot.madeEligible)
    ⟨fun h => ⟨h.1, h.2⟩, fun h => ⟨h.later, h.linked⟩⟩

/-- For every server the ranges of a slot come after those of an earlier one. -/
def Later (c : Config) (a b : Executed D) : Prop :=
  ∀ i, 1 ≤ i → i ≤ c.numServers → After (a.cur i) (b.prev i) (b.cur i)

instance : Trans (Later (D := D) c) (Later c) (Later c) where
  trans hab hbd i h1 hi :=
    { start := (((hab i h1 hi).start.trans (hab i h1 hi).incarnation).trans (hbd i h1 hi).start)
      incarnation := (hbd i h1 hi).incarnation
      seqNum := (hbd i h1 hi).seqNum }

/-- The slot after another: its ranges start where those end. -/
structure Next (c : Config) (a b : Executed D) : Prop where
  later : Later c a b
  starts : ∀ i, b.prev i = a.cur i

theorem next_of_follows (ha : a.Faithful c) (hb : b.Faithful c) (h : Follows a b) : Next c a b := by
  have hstarts : ∀ i, b.prev i = a.cur i := by
    intro i
    have hfirst : b.isFirst = false := by
      cases hb' : b.isFirst with
      | false => rfl
      | true =>
        have hone := hb.first hb'
        have hpos := ha.positive
        have hlater := h.later
        omega
    rw [Executed.prev, prevPop, hfirst, h.linked]
    rfl
  refine ⟨fun i h1 hi => ?_, hstarts⟩
  have hends := hb.ends i h1 hi
  exact ⟨le_of_eq (congrArg PoSeqPair.incarnation (hstarts i)).symm, hends.incarnation,
    (hstarts i).symm ▸ (ha.ends i h1 hi).seqNum⟩

theorem mem_requests (h : e.Faithful c) {pid : PoId} :
    pid ∈ e.requests ↔
      (1 ≤ pid.serverId ∧ pid.serverId ≤ c.numServers) ∧ pid.seq ∈ e.range pid.serverId := by
  rw [h.requests]
  simp only [List.mem_flatMap, List.mem_range'_1, List.mem_map]
  constructor
  · rintro ⟨i, ⟨h1, hi⟩, ps, hps, rfl⟩
    exact ⟨⟨h1, by show i ≤ c.numServers; omega⟩, hps⟩
  · rintro ⟨⟨h1, hi⟩, hps⟩
    exact ⟨pid.serverId, ⟨h1, by omega⟩, pid.seq, hps, rfl⟩

/-- One slot hands on each request once, and those of one server in order. -/
theorem requests_sorted (h : e.Faithful c) :
    e.requests.Pairwise fun x y => x.serverId = y.serverId → seqCompare x.seq y.seq < 0 := by
  rw [h.requests, List.pairwise_flatMap]
  constructor
  · intro i _
    rw [List.pairwise_map]
    refine List.Pairwise.imp ?_ (requestRange_sorted (e.prev i) (e.cur i))
    intro p q hlt _
    exact hlt
  · refine (List.pairwise_lt_range' (s := 1)).imp fun hlt x hx y hy hserver => ?_
    obtain ⟨p, -, rfl⟩ := List.mem_map.mp hx
    obtain ⟨q, -, rfl⟩ := List.mem_map.mp hy
    exact absurd hserver (Nat.ne_of_lt hlt)

/-- No range that lists something starts behind the end of an earlier one that did. -/
def InOrder (c : Config) (es : List (Executed D)) : Prop :=
  es.Pairwise fun a b => ∀ i, 1 ≤ i → i ≤ c.numServers → Lists (a.prev i) (a.cur i) →
    Lists (b.prev i) (b.cur i) → (a.cur i).incarnation = (b.cur i).incarnation → SeqLe (a.cur i) (b.prev i)

/-- No request twice, those of a server in the order of incarnation and sequence number,
and within an incarnation none left out. -/
structure ExactlyOnce (ids : List PoId) : Prop where
  nodup : ids.Nodup
  increasing : ids.Pairwise fun x y => x.serverId = y.serverId → seqCompare x.seq y.seq < 0
  complete : ∀ i inc m n q, ⟨i, inc, m⟩ ∈ ids → ⟨i, inc, q⟩ ∈ ids → m < n → n < q → ⟨i, inc, n⟩ ∈ ids

/-- The requests come in order exactly when the ranges do. -/
theorem increasing_iff (hf : ∀ e ∈ es, e.Faithful c) (hlater : es.Pairwise (Later c)) :
    (es.flatMap Executed.requests).Pairwise
        (fun x y => x.serverId = y.serverId → seqCompare x.seq y.seq < 0) ↔ InOrder c es := by
  rw [List.pairwise_flatMap, and_iff_right fun e he => requests_sorted (hf e he)]
  have hpairs : ∀ {a b : Executed D}, a ∈ es → b ∈ es → Later c a b →
      ((∀ x ∈ a.requests, ∀ y ∈ b.requests, x.serverId = y.serverId → seqCompare x.seq y.seq < 0) ↔
        ∀ i, 1 ≤ i → i ≤ c.numServers → Lists (a.prev i) (a.cur i) →
          Lists (b.prev i) (b.cur i) → (a.cur i).incarnation = (b.cur i).incarnation →
            SeqLe (a.cur i) (b.prev i)) := by
    intro a b ha hb hab
    constructor
    · intro h i h1 hi
      refine (ranges_lt_iff (hab i h1 hi)).mp fun x hx y hy => ?_
      exact h ⟨i, x⟩ ((mem_requests (hf a ha)).mpr ⟨⟨h1, hi⟩, hx⟩) ⟨i, y⟩
        ((mem_requests (hf b hb)).mpr ⟨⟨h1, hi⟩, hy⟩) rfl
    · intro h x hx y hy hserver
      obtain ⟨⟨h1, hi⟩, hx⟩ := (mem_requests (hf a ha)).mp hx
      obtain ⟨-, hy⟩ := (mem_requests (hf b hb)).mp hy
      exact (ranges_lt_iff (hab _ h1 hi)).mpr (h _ h1 hi) _ hx _ (hserver ▸ hy)
  constructor
  · intro h
    exact (hlater.and h).imp_of_mem fun ha hb hab => (hpairs ha hb hab.1).mp hab.2
  · intro h
    exact (hlater.and h).imp_of_mem fun ha hb hab => (hpairs ha hb hab.1).mpr hab.2

/-- A request between the end of one slot and one that a later slot hands on is handed on
by some slot between them. -/
theorem exists_range_of_gap {inc n q : Nat} (h1 : 1 ≤ i) (hi : i ≤ c.numServers)
    (hchain : (a :: es).IsChain (Next c)) (hinc : (a.cur i).incarnation = inc) (hn : (a.cur i).seqNum < n)
    (hle : n ≤ q) (hq : ∃ b ∈ es, (⟨inc, q⟩ : PoSeqPair) ∈ b.range i) :
    ∃ e ∈ es, (⟨inc, n⟩ : PoSeqPair) ∈ e.range i := by
  induction es generalizing a with
  | nil =>
    obtain ⟨b, hb, -⟩ := hq
    cases hb
  | cons e es ih =>
    obtain ⟨hnext, hrest⟩ := List.isChain_cons_cons.mp hchain
    have hafter := hnext.later i h1 hi
    have hstart := hnext.starts i
    have hfirst := firstSeq_eq (e.cur i) hafter.seqNum
    obtain ⟨b, hb, hbq⟩ := hq
    rcases Nat.lt_or_ge (e.prev i).incarnation (e.cur i).incarnation with hlt | hge
    · -- the incarnation has ended, and no later slot lists a request of it
      have hbinc : (e.cur i).incarnation ≤ (b.cur i).incarnation := by
        rcases List.mem_cons.mp hb with rfl | hb
        · exact le_refl _
        · have hlater := (List.pairwise_cons.mp (hrest.imp fun a b h => h.later).pairwise).1 b hb i h1 hi
          exact hlater.start.trans hlater.incarnation
      have hbq' := (mem_requestRange.mp hbq).1
      simp only [hstart, hinc] at hlt
      simp only at hbq'
      omega
    · rw [if_neg (by omega), hstart] at hfirst
      have heq : (e.cur i).incarnation = inc := by
        have hle' := hafter.incarnation
        rw [hstart, hinc] at hle' hge
        omega
      by_cases hin : n ≤ (e.cur i).seqNum
      · exact ⟨e, List.mem_cons_self, mem_requestRange.mpr ⟨heq.symm, by show _ ≤ n; rw [hstart, hfirst]; omega, hin⟩⟩
      · have htail : b ∈ es := by
          rcases List.mem_cons.mp hb with rfl | hb
          · have hbq' := (mem_requestRange.mp hbq).2.2
            simp only at hbq'
            omega
          · exact hb
        obtain ⟨e', he', hmem⟩ := ih hrest heq (by omega) ⟨b, htail, hbq⟩
        exact ⟨e', List.mem_cons_of_mem _ he', hmem⟩

/-- In order, the slots leave no request out. -/
theorem exists_range_between {inc m n q : Nat} (h1 : 1 ≤ i) (hi : i ≤ c.numServers)
    (hchain : es.IsChain (Next c))
    (hsorted : es.Pairwise fun a b => ∀ x ∈ a.range i, ∀ y ∈ b.range i, seqCompare x y < 0)
    (hm : ∃ a ∈ es, (⟨inc, m⟩ : PoSeqPair) ∈ a.range i) (hq : ∃ b ∈ es, (⟨inc, q⟩ : PoSeqPair) ∈ b.range i)
    (hmn : m < n) (hnq : n < q) : ∃ e ∈ es, (⟨inc, n⟩ : PoSeqPair) ∈ e.range i := by
  induction es with
  | nil =>
    obtain ⟨a, ha, -⟩ := hm
    cases ha
  | cons e es ih =>
    obtain ⟨hbefore, hsorted⟩ := List.pairwise_cons.mp hsorted
    obtain ⟨a, ha, ham⟩ := hm
    obtain ⟨b, hb, hbq⟩ := hq
    by_cases hhead : (⟨inc, m⟩ : PoSeqPair) ∈ e.range i
    · obtain ⟨hinc, hlo, -⟩ := mem_requestRange.mp hhead
      by_cases hin : n ≤ (e.cur i).seqNum
      · exact ⟨e, List.mem_cons_self, mem_requestRange.mpr ⟨hinc, hlo.trans (Nat.le_of_lt hmn), hin⟩⟩
      · have htail : b ∈ es := by
          rcases List.mem_cons.mp hb with rfl | hb
          · have hbq' := (mem_requestRange.mp hbq).2.2
            simp only at hbq'
            omega
          · exact hb
        obtain ⟨e', he', hmem⟩ :=
          exists_range_of_gap h1 hi hchain hinc.symm (Nat.lt_of_not_le hin) (Nat.le_of_lt hnq) ⟨b, htail, hbq⟩
        exact ⟨e', List.mem_cons_of_mem _ he', hmem⟩
    · have hatail : a ∈ es := (List.mem_cons.mp ha).resolve_left fun h => hhead (h ▸ ham)
      have hbtail : b ∈ es := by
        rcases List.mem_cons.mp hb with rfl | hb
        · have hlt := seqCompare_neg_iff.mp (hbefore a hatail _ hbq _ ham)
          simp only at hlt
          omega
        · exact hb
      obtain ⟨e', he', hmem⟩ := ih hchain.of_cons hsorted ⟨a, hatail, ham⟩ ⟨b, hbtail, hbq⟩
      exact ⟨e', List.mem_cons_of_mem _ he', hmem⟩

/-- The slot starts no earlier than another ends, and goes on from there. -/
def Forward (c : Config) (a b : Executed D) : Prop :=
  ∀ i, 1 ≤ i → i ≤ c.numServers → SeqLe (a.cur i) (b.prev i) ∧ SeqLe (b.prev i) (b.cur i)

instance : Trans (Forward (D := D) c) (Forward c) (Forward c) where
  trans hab hbd i h1 hi := by
    obtain ⟨hab, hb⟩ := hab i h1 hi
    obtain ⟨hbd, hd⟩ := hbd i h1 hi
    exact ⟨IsTrans.trans _ _ _ (IsTrans.trans _ _ _ hab hb) hbd, hd⟩

/-- Where no slot goes back, the ranges are in order. -/
theorem inOrder_of_forward (hf : ∀ e ∈ es, e.Faithful c) (hlinked : es.IsChain Follows)
    (hforward : ∀ e ∈ es, ∀ i, 1 ≤ i → i ≤ c.numServers → SeqLe (e.prev i) (e.cur i)) : InOrder c es := by
  have hchain : es.IsChain (Forward c) := by
    refine List.IsChain.imp_of_mem_imp (fun a b ha hb h i h1 hi => ⟨?_, hforward b hb i h1 hi⟩) hlinked
    rw [(next_of_follows (hf a ha) (hf b hb) h).starts i]
    exact seqLe_refl _
  exact hchain.pairwise.imp fun h i h1 hi _ _ _ => (h i h1 hi).1

theorem eligible_getD (c : Config) (pp : CompletePrePrepare) {i : Nat} (h1 : 1 ≤ i) (hi : i ≤ c.numServers) :
    (eligible c pp).getD (i - 1) PoSeqPair.zero =
      if 0 < seqCompare (proofAru c i pp.cumAcks) (pp.lastExecuted.getD (i - 1) PoSeqPair.zero) then
        proofAru c i pp.cumAcks
      else pp.lastExecuted.getD (i - 1) PoSeqPair.zero := by
  have hlt : i - 1 < c.numServers := by omega
  have hid : i - 1 + 1 = i := Nat.sub_add_cancel h1
  simp [eligible, List.getD_eq_getElem?_getD, hlt, hid]

/-- A matrix makes nothing eligible that lies before `last_executed`. -/
theorem le_eligible (c : Config) (pp : CompletePrePrepare) {i : Nat} (h1 : 1 ≤ i) (hi : i ≤ c.numServers) :
    SeqLe (pp.lastExecuted.getD (i - 1) PoSeqPair.zero) ((eligible c pp).getD (i - 1) PoSeqPair.zero) := by
  rw [eligible_getD c pp h1 hi]
  split_ifs with hcmp
  · refine seqLe_iff.mpr ?_
    unfold seqCompare at hcmp
    split_ifs at hcmp <;> omega
  · exact seqLe_refl _

/-- **What can go back.** When every slot but a NO_OP_PLUS has made eligible what its matrix
says, only a NO_OP_PLUS can put ranges out of order. -/
theorem inOrder_of_noOpPlus (hf : ∀ e ∈ es, e.Faithful c) (hlinked : es.IsChain Follows)
    (hmade : ∀ e ∈ es, e.slot.type ≠ .noOpPlus → e.slot.madeEligible = eligible c e.slot.proposal)
    (hplus : ∀ e ∈ es, e.slot.type = .noOpPlus →
      ∀ i, 1 ≤ i → i ≤ c.numServers → SeqLe (e.prev i) (e.cur i)) : InOrder c es := by
  refine inOrder_of_forward hf hlinked fun e he i h1 hi => ?_
  by_cases htype : e.slot.type = .noOpPlus
  · exact hplus e he htype i h1 hi
  · unfold Executed.prev Executed.cur prevPop curPop
    rw [hmade e he htype]
    split_ifs
    · refine seqLe_iff.mpr ?_
      simp only [PoSeqPair.zero]
      omega
    · exact le_eligible c _ h1 hi

/-- What a linked sequence of executed slots hands on. -/
theorem exactlyOnce_of_linked (hf : ∀ e ∈ es, e.Faithful c) (hlinked : es.IsChain Follows) :
    ExactlyOnce (es.flatMap Executed.requests) ↔ InOrder c es := by
  have hchain : es.IsChain (Next c) :=
    List.IsChain.imp_of_mem_imp (fun a b ha hb h => next_of_follows (hf a ha) (hf b hb) h) hlinked
  have hlater : es.Pairwise (Later c) := (hchain.imp fun a b h => h.later).pairwise
  rw [← increasing_iff hf hlater]
  refine ⟨ExactlyOnce.increasing, fun hinc => ⟨?_, hinc, ?_⟩⟩
  · refine hinc.imp fun hlt heq => ?_
    subst heq
    have hirr := seqCompare_neg_iff.mp (hlt rfl)
    omega
  · intro i inc m n q hm hq hmn hnq
    obtain ⟨a, ha, ham⟩ := List.mem_flatMap.mp hm
    obtain ⟨b, hb, hbq⟩ := List.mem_flatMap.mp hq
    obtain ⟨⟨h1, hi⟩, ham⟩ := (mem_requests (hf a ha)).mp ham
    obtain ⟨-, hbq⟩ := (mem_requests (hf b hb)).mp hbq
    have hsorted : es.Pairwise fun a b => ∀ x ∈ a.range i, ∀ y ∈ b.range i, seqCompare x y < 0 := by
      refine (List.pairwise_flatMap.mp hinc).2.imp_of_mem fun ha hb h x hx y hy => ?_
      exact h ⟨i, x⟩ ((mem_requests (hf _ ha)).mpr ⟨⟨h1, hi⟩, hx⟩) ⟨i, y⟩
        ((mem_requests (hf _ hb)).mpr ⟨⟨h1, hi⟩, hy⟩) rfl
    obtain ⟨e, he, hen⟩ := exists_range_between h1 hi hchain hsorted ⟨a, ha, ham⟩ ⟨b, hb, hbq⟩ hmn hnq
    exact List.mem_flatMap.mpr ⟨e, he, (mem_requests (hf e he)).mpr ⟨⟨h1, hi⟩, hen⟩⟩

end Sequences

/-! ## Runs -/

section Runs

variable {D E : Type}

/-- The requests a run has handed to event processing. -/
def Node.requests (st : Node D E) : List PoId := st.executed.flatMap Executed.requests

/-- **Exactly once.** In every run whose executed slots follow one another, the requests
handed to event processing are without duplicates, in order and complete exactly when no
range that lists something starts behind the end of an earlier one of its incarnation. -/
theorem exactlyOnce_iff (c : Config) (me : Nat) (a : Around D E) (xs : List (Input D E))
    (hlinked : (run c me (Node.start a) xs).executed.IsChain Follows) :
    ExactlyOnce (run c me (Node.start a) xs).requests ↔ InOrder c (run c me (Node.start a) xs).executed :=
  exactlyOnce_of_linked (run_faithful c me a xs) hlinked

end Runs

/-! ## A replay that goes back -/

section GoingBack

/-- A row that has seen two requests of server 1. -/
def rowOf (server : Nat) : PoAruSigned :=
  { header := { (PoAruSigned.null fourServers.toConfig).header with machineId := server }
    body := { num := 1, ackForServer := [⟨1, 2⟩, PoSeqPair.zero, PoSeqPair.zero, PoSeqPair.zero] } }

/-- A certificate for an ordinal, which takes this for executed of server 1. -/
def certificateAt (seqNum view : Nat) (last : PoSeqPair) : Replay.PcSet Unit :=
  { tag := ⟨4, 2, seqNum⟩
    prePrepare :=
      { header := (PoAruSigned.null fourServers.toConfig).header
        body :=
          { seqNum, view, proposalDigest := [], lastExecuted := [last, PoSeqPair.zero, PoSeqPair.zero, PoSeqPair.zero]
            partNum := 1, totalParts := 1, rows := [rowOf 1, rowOf 2, rowOf 3, rowOf 4] } }
    prepares := [] }

/-- Certificates for the ordinals 1 and 3. The second is of an earlier view, in which less
had been executed. -/
def replayed : List (OrdSlot Unit) :=
  Replay.replaySlots fourServers.toConfig (Bitmap.set 0#32 4)
    (fun i => if i = 4 then [certificateAt 1 2 ⟨0, 0⟩, certificateAt 3 1 ⟨1, 1⟩] else []) 0 4
    { prePrepare := CompletePrePrepare.null fourServers.toConfig, part := none,
      madeEligible := List.replicate 4 PoSeqPair.zero }

/-- A server that holds both requests and has executed nothing. -/
def holding : Around Unit Nat where
  aru := 0
  stableCatchup := 0
  history := fun _ => none
  numRemaining := fun _ => 0
  pendingSlots := []
  poHistory := fun i ps => if i = 1 ∧ ps.incarnation = 1 then some { poRequest := some [ps.seqNum] } else none
  cumAru := fun i => if i = 1 then ⟨1, 2⟩ else PoSeqPair.zero
  pendingRequests := []
  lastExecutedPoReqs := fun _ => PoSeqPair.zero
  poSeqExecuted := PoSeqPair.zero
  recoveryStatus := fun _ => .normal
  numStartup := 0
  preinstalledIncarnations := fun _ => 1
  installedIncarnations := fun _ => 1

/-- The first two slots follow one another. -/
theorem exactlyOnce_replayed :
    ExactlyOnce
        (run fourServers.toConfig 2 (Node.start holding) ((replayed.take 2).map Input.execute)).requests ↔
      InOrder fourServers.toConfig
        (run fourServers.toConfig 2 (Node.start holding) ((replayed.take 2).map Input.execute)).executed :=
  exactlyOnce_iff fourServers.toConfig 2 holding ((replayed.take 2).map Input.execute) (by decide +kernel)

/-- The three slots follow one another, and the second request is handed on twice. -/
theorem executed_twice :
    (run fourServers.toConfig 2 (Node.start holding) (replayed.map Input.execute)).executed.IsChain Follows ∧
      (run fourServers.toConfig 2 (Node.start holding) (replayed.map Input.execute)).requests =
        [⟨1, 1, 1⟩, ⟨1, 1, 2⟩, ⟨1, 1, 2⟩] := by
  decide +kernel

end GoingBack

end Spire.Execution
