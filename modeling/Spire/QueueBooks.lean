import Spire.FairQueues

/-!
# The books of the queues

`Books` says that the lists of the links agree with the marks: a flow that is marked as queued on a link
has one node in the urgent and the normal queue together, one whose state the neighbour is to hear of has
one in the third list, whose length is counted, and the others have none. A node that is taken out stays
`Off` the books until it is appended somewhere else or freed.

Each operation of the handlers on the lists has a lemma here that says what it does to the books.
-/

namespace Spire.Flood

open Function (update update_self update_of_ne)
open Lib (LinkedLists Cell)
open Lib.LinkedQueue (start)

/-- What the lists of the links have. -/
abbrev Lists : Type := Nat × Which → List (Nat × FlowQueue)

/-- The node is for this flow. -/
def FlowQueue.isFor (s d : Nat) (fq : FlowQueue) : Bool := decide (s = fq.srcId ∧ d = fq.destId)

/-- The nodes of a list for a flow. -/
def entries (ls : Lists) (i : Nat × Which) (s d : Nat) : Nat := (ls i).countP fun n => n.2.isFor s d

/-- Those in the two queues of a link. -/
def queuedEntries (ls : Lists) (k s d : Nat) : Nat := entries ls (k, .urgent) s d + entries ls (k, .norm) s d

/-- The lists agree with the marks. -/
structure Books (q : Queues) (ls : Lists) (queued unsent : Nat → Nat → Nat → Bool) (count : Nat → Nat) : Prop where
  holds : q.Holds ls
  queued : ∀ k s d, queuedEntries ls k s d = (queued k s d).toNat
  unsent : ∀ k s d, entries ls (k, .hbhUnsent) s d = (unsent k s d).toNat
  count : ∀ k, count k = (ls (k, .hbhUnsent)).length

/-- They would, if the node were in one of the two queues of the link. -/
structure Off (k : Nat) (n : Nat × FlowQueue) (q : Queues) (ls : Lists) (queued unsent : Nat → Nat → Nat → Bool)
    (count : Nat → Nat) : Prop where
  holds : q.Holds ls
  loose : q.Loose ls n
  queued : ∀ k' s d,
    queuedEntries ls k' s d + (if k' = k ∧ n.2.isFor s d then 1 else 0) = (queued k' s d).toNat
  unsent : ∀ k s d, entries ls (k, .hbhUnsent) s d = (unsent k s d).toNat
  count : ∀ k, count k = (ls (k, .hbhUnsent)).length

/-- What is asked of the nodes in the two queues of a link. -/
def Nodes (P : FlowQueue → Prop) (ls : Lists) : Prop := ∀ k w, w ≠ .hbhUnsent → ∀ n ∈ ls (k, w), P n.2

/-! ## Entries -/

section Entries

variable {ls : Lists} {i j : Nat × Which} {s d : Nat} {n : Nat × FlowQueue} {ns : List (Nat × FlowQueue)}

@[simp] theorem FlowQueue.isFor_iff {fq : FlowQueue} : fq.isFor s d = true ↔ s = fq.srcId ∧ d = fq.destId :=
  decide_eq_true_iff

theorem entries_update_of_ne (h : j ≠ i) : entries (update ls i ns) j s d = entries ls j s d := by
  unfold entries
  rw [update_of_ne h]

theorem entries_cons (h : ls i = n :: ns) :
    entries ls i s d = entries (update ls i ns) i s d + (if n.2.isFor s d then 1 else 0) := by
  unfold entries
  rw [update_self, h, List.countP_cons]

theorem entries_concat : entries (update ls i (ls i ++ [n])) i s d = entries ls i s d + (if n.2.isFor s d then 1 else 0) := by
  unfold entries
  rw [update_self, List.countP_append, List.countP_singleton]

theorem queuedEntries_update_unsent {k k' : Nat} :
    queuedEntries (update ls (k, .hbhUnsent) ns) k' s d = queuedEntries ls k' s d := by
  unfold queuedEntries
  rw [entries_update_of_ne (by simp), entries_update_of_ne (by simp)]

/-- A node of the two queues more or less. -/
theorem queuedEntries_update {k : Nat} {w : Which} {ms : List (Nat × FlowQueue)} (hw : w ≠ .hbhUnsent) (e k' : Nat)
    (hentries : entries ls (k, w) s d = entries (update ls (k, w) ms) (k, w) s d + e) :
    queuedEntries ls k' s d = queuedEntries (update ls (k, w) ms) k' s d + (if k' = k then e else 0) := by
  unfold queuedEntries
  by_cases hk : k' = k
  · subst hk
    rw [if_pos rfl]
    cases w with
    | urgent =>
      have hother : entries (update ls (k', .urgent) ms) (k', .norm) s d = entries ls (k', .norm) s d :=
        entries_update_of_ne (by simp)
      omega
    | norm =>
      have hother : entries (update ls (k', .norm) ms) (k', .urgent) s d = entries ls (k', .urgent) s d :=
        entries_update_of_ne (by simp)
      omega
    | hbhUnsent => exact absurd rfl hw
  · have hne : ∀ v : Which, (k', v) ≠ (k, w) := fun v heq => hk (Prod.mk.inj heq).1
    rw [if_neg hk, entries_update_of_ne (hne _), entries_update_of_ne (hne _), Nat.add_zero]

theorem queuedEntries_cons {k : Nat} {w : Which} (hw : w ≠ .hbhUnsent) (hi : ls (k, w) = n :: ns) (k' : Nat) :
    queuedEntries ls k' s d =
      queuedEntries (update ls (k, w) ns) k' s d + (if k' = k ∧ n.2.isFor s d then 1 else 0) := by
  rw [queuedEntries_update hw _ k' (entries_cons hi), ite_and]

theorem queuedEntries_concat {k : Nat} {w : Which} (hw : w ≠ .hbhUnsent) (k' : Nat) :
    queuedEntries (update ls (k, w) (ls (k, w) ++ [n])) k' s d =
      queuedEntries ls k' s d + (if k' = k ∧ n.2.isFor s d then 1 else 0) := by
  have hback : update (update ls (k, w) (ls (k, w) ++ [n])) (k, w) (ls (k, w)) = ls := by
    rw [Function.update_idem, Function.update_eq_self]
  have hentries : entries (update ls (k, w) (ls (k, w) ++ [n])) (k, w) s d =
      entries (update (update ls (k, w) (ls (k, w) ++ [n])) (k, w) (ls (k, w))) (k, w) s d +
        (if n.2.isFor s d then 1 else 0) := by
    rw [hback, entries_concat]
  rw [queuedEntries_update hw _ k' hentries, hback, ite_and]

end Entries

section Nodes

variable {P : FlowQueue → Prop} {ls : Lists} {k : Nat} {w : Which} {n : Nat × FlowQueue} {ns : List (Nat × FlowQueue)}

/-- A list changes, and its nodes are fine. -/
theorem Nodes.update (h : Nodes P ls) (hns : w ≠ .hbhUnsent → ∀ n ∈ ns, P n.2) : Nodes P (update ls (k, w) ns) := by
  intro k' w' hw' n hn
  by_cases heq : (k', w') = (k, w)
  · rw [heq, update_self] at hn
    exact hns ((Prod.mk.inj heq).2 ▸ hw') n hn
  · rw [update_of_ne heq] at hn
    exact h k' w' hw' n hn

theorem Nodes.concat (h : Nodes P ls) (hn : w ≠ .hbhUnsent → P n.2) : Nodes P (Function.update ls (k, w) (ls (k, w) ++ [n])) := by
  refine h.update fun hw m hm => ?_
  rcases List.mem_append.mp hm with hm | hm
  · exact h k w hw m hm
  · rw [List.mem_singleton.mp hm]
    exact hn hw

theorem Nodes.tail (h : Nodes P ls) (hi : ls (k, w) = n :: ns) : Nodes P (Function.update ls (k, w) ns) :=
  h.update fun hw m hm => h k w hw m (hi ▸ List.mem_cons_of_mem n hm)

theorem Nodes.cons (h : Nodes P (Function.update ls (k, w) ns)) (hn : P n.2) : Nodes P (Function.update ls (k, w) (n :: ns)) := by
  have hall : w ≠ .hbhUnsent → ∀ m ∈ n :: ns, P m.2 := by
    intro hw m hm
    rcases List.mem_cons.mp hm with rfl | hm
    · exact hn
    · exact h k w hw m (by rwa [update_self])
  have hupdate := h.update (k := k) hall
  rwa [Function.update_idem] at hupdate

end Nodes

/-! ## Marks -/

section SetEntry

variable {m : Nat → Nat → Nat → Bool} {k s d k' s' d' : Nat} {b : Bool}

theorem setEntry_eq : setEntry m k s d b k' s' d' = if k' = k ∧ s' = s ∧ d' = d then b else m k' s' d' := by
  unfold setEntry
  by_cases hk : k' = k
  · subst hk
    by_cases hs : s' = s
    · subst hs
      by_cases hd : d' = d
      · subst hd
        simp
      · simp [hd]
    · simp [hs]
  · simp [hk]

end SetEntry

/-! ## What the operations do to the books -/

section Operations

variable {q : Queues} {ls : Lists} {queued unsent : Nat → Nat → Nat → Bool} {count : Nat → Nat} {k s d : Nat} {w : Which}
  {n : Nat × FlowQueue} {ns : List (Nat × FlowQueue)}

/-- The books of no node. -/
theorem books_empty : Books (LinkedLists.empty _ _) (fun _ => []) (fun _ _ _ => false) (fun _ _ _ => false) fun _ => 0 where
  holds := LinkedLists.holds_empty
  queued _ _ _ := rfl
  unsent _ _ _ := rfl
  count _ := rfl

/-- The first node of a queue is taken out. Three tests find whether the queue is empty now. -/
theorem Books.takeOff (h : Books q ls queued unsent count) (hw : w ≠ .hbhUnsent) (hi : ls (k, w) = n :: ns) :
    ∃ q', q.unlinkFirst (k, w) = some (n.1, ⟨n.2, start ns⟩, q') ∧
      (decide (q'.tail (k, w) = some n.1) = true ↔ ns = []) ∧ ((q'.first (k, w)).isNone = true ↔ ns = []) ∧
      ∀ emptied : Bool, (emptied = true ↔ ns = []) →
        Off k n (q'.resetTail (k, w) emptied) (update ls (k, w) ns) queued unsent count := by
  obtain ⟨q', hunlink, hfirst, htail, hlast, hholds⟩ := h.holds.unlinkFirst hi
  have hunsent : ∀ k', update ls (k, w) ns (k', .hbhUnsent) = ls (k', .hbhUnsent) :=
    fun k' => update_of_ne (fun heq => hw (Prod.mk.inj heq).2.symm) _ _
  refine ⟨q', hunlink, ?_, ?_, fun emptied hemptied => ?_⟩
  · rw [decide_eq_true_iff, htail]
    exact hlast
  · rw [hfirst]
    cases ns <;> simp
  · obtain ⟨hholds, hloose⟩ := hholds emptied hemptied
    refine ⟨hholds, hloose, fun k' s d => ?_, fun k' s d => ?_, fun k' => ?_⟩
    · rw [← queuedEntries_cons hw hi]
      exact h.queued k' s d
    · rw [entries, hunsent]
      exact h.unsent k' s d
    · rw [hunsent]
      exact h.count k'

/-- The penalty of a node that is off is set. -/
theorem Off.modify (h : Off k n q ls queued unsent count) {f : FlowQueue → FlowQueue}
    (hf : ∀ fq s d, (f fq).isFor s d = fq.isFor s d) : Off k (n.1, f n.2) (q.modify n.1 f) ls queued unsent count := by
  obtain ⟨hholds, hloose⟩ := h.holds.modify_loose h.loose f
  refine ⟨hholds, hloose, fun k' s d => ?_, h.unsent, h.count⟩
  rw [hf]
  exact h.queued k' s d

/-- The node comes to the end of a queue. -/
theorem Off.append (h : Off k n q ls queued unsent count) (hw : w ≠ .hbhUnsent) :
    ∃ q', q.append (k, w) n.1 = some q' ∧ q'.brk = q.brk ∧
      Books q' (update ls (k, w) (ls (k, w) ++ [n])) queued unsent count := by
  obtain ⟨q', happend, hholds, hbrk⟩ := h.holds.append h.loose (k, w)
  have hunsent : ∀ k', update ls (k, w) (ls (k, w) ++ [n]) (k', .hbhUnsent) = ls (k', .hbhUnsent) :=
    fun k' => update_of_ne (fun heq => hw (Prod.mk.inj heq).2.symm) _ _
  refine ⟨q', happend, hbrk, hholds, fun k' s d => ?_, fun k' s d => ?_, fun k' => ?_⟩
  · rw [queuedEntries_concat hw]
    exact h.queued k' s d
  · rw [entries, hunsent]
    exact h.unsent k' s d
  · rw [hunsent]
    exact h.count k'

/-- The node is freed, and the mark of its flow taken back. -/
theorem Off.free (h : Off k n q ls queued unsent count) :
    Books (q.free n.1) ls (setEntry queued k n.2.srcId n.2.destId false) unsent count := by
  refine ⟨h.holds.free h.loose, fun k' s d => ?_, h.unsent, h.count⟩
  have hqueued := h.queued k' s d
  rw [setEntry_eq]
  by_cases hfor : k' = k ∧ s = n.2.srcId ∧ d = n.2.destId
  · obtain ⟨rfl, rfl, rfl⟩ := hfor
    -- This was the only node of the flow.
    have hle := Bool.toNat_le (queued k' n.2.srcId n.2.destId)
    rw [if_pos ⟨rfl, FlowQueue.isFor_iff.mpr ⟨rfl, rfl⟩⟩] at hqueued
    rw [if_pos ⟨rfl, rfl, rfl⟩, Bool.toNat_false]
    omega
  · have hisFor : ¬ (k' = k ∧ n.2.isFor s d = true) := fun h => hfor ⟨h.1, FlowQueue.isFor_iff.mp h.2⟩
    rw [if_neg hisFor] at hqueued
    rw [if_neg hfor]
    exact hqueued

/-- The flow of a node that is off is marked. -/
theorem Off.marked (h : Off k n q ls queued unsent count) : queued k n.2.srcId n.2.destId = true := by
  have hqueued := h.queued k n.2.srcId n.2.destId
  rw [if_pos ⟨rfl, FlowQueue.isFor_iff.mpr ⟨rfl, rfl⟩⟩] at hqueued
  cases hmark : queued k n.2.srcId n.2.destId with
  | true => rfl
  | false =>
    rw [hmark, Bool.toNat_false] at hqueued
    omega

/-- The penalty of a first node is changed. -/
theorem Books.modifyFirst (h : Books q ls queued unsent count) (hw : w ≠ .hbhUnsent) (hi : ls (k, w) = n :: ns)
    {f : FlowQueue → FlowQueue} (hf : ∀ fq s d, (f fq).isFor s d = fq.isFor s d) :
    Books (q.modify n.1 f) (update ls (k, w) ((n.1, f n.2) :: ns)) queued unsent count := by
  have hunsent : ∀ k', update ls (k, w) ((n.1, f n.2) :: ns) (k', .hbhUnsent) = ls (k', .hbhUnsent) :=
    fun k' => update_of_ne (fun heq => hw (Prod.mk.inj heq).2.symm) _ _
  have hentries : ∀ s d,
      entries ls (k, w) s d = entries (update ls (k, w) ((n.1, f n.2) :: ns)) (k, w) s d + 0 := by
    intro s d
    rw [entries, entries, update_self, hi, List.countP_cons, List.countP_cons, hf, Nat.add_zero]
  refine ⟨h.holds.modify_first hi f, fun k' s d => ?_, fun k' s d => ?_, fun k' => ?_⟩
  · have hsame := queuedEntries_update hw 0 k' (hentries s d)
    rw [ite_self, Nat.add_zero] at hsame
    rw [← hsame]
    exact h.queued k' s d
  · rw [entries, hunsent]
    exact h.unsent k' s d
  · rw [hunsent]
    exact h.count k'

/-- A flow that has no node gets one, with its mark. -/
theorem Books.pushQueued (h : Books q ls queued unsent count) (hw : w ≠ .hbhUnsent) (hmark : queued k s d = false)
    (penalty : Nat) :
    ∃ q', q.push (k, w) ⟨s, d, penalty⟩ = some q' ∧
      Books q' (update ls (k, w) (ls (k, w) ++ [(q.brk, ⟨s, d, penalty⟩)])) (setEntry queued k s d true) unsent
        count := by
  obtain ⟨q', hpush, hholds⟩ := h.holds.push (k, w) ⟨s, d, penalty⟩
  set n : Nat × FlowQueue := (q.brk, ⟨s, d, penalty⟩) with hn
  have hunsent : ∀ k', update ls (k, w) (ls (k, w) ++ [n]) (k', .hbhUnsent) = ls (k', .hbhUnsent) :=
    fun k' => update_of_ne (fun heq => hw (Prod.mk.inj heq).2.symm) _ _
  refine ⟨q', hpush, hholds, fun k' s' d' => ?_, fun k' s' d' => ?_, fun k' => ?_⟩
  · rw [queuedEntries_concat hw, h.queued, setEntry_eq]
    by_cases hfor : k' = k ∧ s' = s ∧ d' = d
    · obtain ⟨rfl, rfl, rfl⟩ := hfor
      simp [hn, hmark]
    · have hisFor : ¬ (k' = k ∧ n.2.isFor s' d' = true) := fun h => hfor ⟨h.1, FlowQueue.isFor_iff.mp h.2⟩
      rw [if_neg hfor, if_neg hisFor, Nat.add_zero]
  · rw [entries, hunsent]
    exact h.unsent k' s' d'
  · rw [hunsent]
    exact h.count k'

/-! ### The flows whose state the neighbour is to hear of -/

theorem Books.pushUnsent (h : Books q ls queued unsent count) (hmark : unsent k s d = false) (penalty : Nat) :
    ∃ q', q.push (k, .hbhUnsent) ⟨s, d, penalty⟩ = some q' ∧
      Books q' (update ls (k, .hbhUnsent) (ls (k, .hbhUnsent) ++ [(q.brk, ⟨s, d, penalty⟩)])) queued
        (setEntry unsent k s d true) (update count k (count k + 1)) := by
  obtain ⟨q', hpush, hholds⟩ := h.holds.push (k, .hbhUnsent) ⟨s, d, penalty⟩
  set n : Nat × FlowQueue := (q.brk, ⟨s, d, penalty⟩) with hn
  refine ⟨q', hpush, hholds, fun k' s' d' => ?_, fun k' s' d' => ?_, fun k' => ?_⟩
  · rw [queuedEntries_update_unsent]
    exact h.queued k' s' d'
  · rw [setEntry_eq]
    by_cases hk : k' = k
    · subst hk
      rw [entries_concat, h.unsent]
      by_cases hfor : s' = s ∧ d' = d
      · obtain ⟨rfl, rfl⟩ := hfor
        simp [hn, hmark]
      · have hisFor : ¬ n.2.isFor s' d' = true := fun h => hfor (FlowQueue.isFor_iff.mp h)
        rw [if_neg hisFor, if_neg fun h => hfor h.2, Nat.add_zero]
    · rw [if_neg fun h => hk h.1, entries_update_of_ne (by simp [hk])]
      exact h.unsent k' s' d'
  · by_cases hk : k' = k
    · subst hk
      rw [update_self, update_self, List.length_append, List.length_singleton, h.count]
    · rw [update_of_ne hk, update_of_ne (by simp [hk])]
      exact h.count k'

/-- The first of these nodes is taken out and freed. -/
theorem Books.popUnsent (h : Books q ls queued unsent count) (hi : ls (k, .hbhUnsent) = n :: ns) :
    ∃ q', q.unlinkFirst (k, .hbhUnsent) = some (n.1, ⟨n.2, start ns⟩, q') ∧ unsent k n.2.srcId n.2.destId = true ∧
      Books ((q'.resetTail (k, .hbhUnsent) (start ns).isNone).free n.1) (update ls (k, .hbhUnsent) ns) queued
        (setEntry unsent k n.2.srcId n.2.destId false) (update count k (count k - 1)) := by
  obtain ⟨q', hunlink, -, -, -, hholds⟩ := h.holds.unlinkFirst hi
  have hemptied : (start ns).isNone = true ↔ ns = [] := by cases ns <;> simp
  obtain ⟨hholds, hloose⟩ := hholds _ hemptied
  have hself := entries_cons (s := n.2.srcId) (d := n.2.destId) hi
  rw [if_pos (FlowQueue.isFor_iff.mpr ⟨rfl, rfl⟩), h.unsent] at hself
  have hle := Bool.toNat_le (unsent k n.2.srcId n.2.destId)
  refine ⟨q', hunlink, ?_, hholds.free hloose, fun k' s d => ?_, fun k' s d => ?_, fun k' => ?_⟩
  · cases hmark : unsent k n.2.srcId n.2.destId with
    | true => rfl
    | false =>
      rw [hmark, Bool.toNat_false] at hself
      omega
  · rw [queuedEntries_update_unsent]
    exact h.queued k' s d
  · rw [setEntry_eq]
    by_cases hk : k' = k
    · subst hk
      by_cases hfor : s = n.2.srcId ∧ d = n.2.destId
      · obtain ⟨rfl, rfl⟩ := hfor
        rw [if_pos ⟨rfl, rfl, rfl⟩, Bool.toNat_false]
        omega
      · have hcons := entries_cons (s := s) (d := d) hi
        rw [if_neg fun h => hfor (FlowQueue.isFor_iff.mp h), h.unsent] at hcons
        rw [if_neg fun h => hfor h.2]
        omega
    · rw [if_neg fun h => hk h.1, entries_update_of_ne (by simp [hk])]
      exact h.unsent k' s d
  · by_cases hk : k' = k
    · subst hk
      rw [update_self, update_self, h.count, hi, List.length_cons, Nat.add_sub_cancel]
    · rw [update_of_ne hk, update_of_ne (by simp [hk])]
      exact h.count k'

end Operations

end Spire.Flood
