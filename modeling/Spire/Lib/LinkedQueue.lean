import Mathlib.Data.List.Basic
import Mathlib.Data.List.Nodup
import Mathlib.Logic.Function.Basic

/-!
# Queues of linked cells

A queue in memory: a head that has only a pointer to the first cell, cells with a content and
a pointer to the next one, a pointer to the last cell, and a count. `none` as a place is the
head, and as a pointer the null pointer. An operation that follows a pointer to a cell that is
not there has no result.

`Holds` says which cells, with their contents, a queue has in which order, and each operation
has one lemma that says what it makes of them.
-/

namespace Spire.Lib

/-- A content and the pointer to the next cell. -/
structure Cell (α : Type) where
  val : α
  next : Option Nat

/-- A queue. The cells from `brk` on have never been allocated; a cell that is freed is not
allocated again. -/
structure LinkedQueue (α : Type) where
  first : Option Nat
  cells : Nat → Option (Cell α)
  tail : Option Nat
  size : Nat
  brk : Nat

namespace LinkedQueue

variable {α : Type}

/-- No cell, as after `memset` and `tail = &head`. -/
def empty (brk : Nat) : LinkedQueue α :=
  { first := none, cells := fun _ => none, tail := none, size := 0, brk := brk }

/-! ## Operations -/

section Operations

variable (q : LinkedQueue α)

/-- `p->next`. -/
def next : Option Nat → Option (Option Nat)
  | none => some q.first
  | some a => (q.cells a).map Cell.next

def get (a : Nat) : Option α := (q.cells a).map Cell.val

/-- `p->next = n`. -/
def setNext (p n : Option Nat) : LinkedQueue α :=
  match p with
  | none => { q with first := n }
  | some a => { q with cells := Function.update q.cells a ((q.cells a).map fun c => { c with next := n }) }

/-- A change of a content. -/
def modify (a : Nat) (f : α → α) : LinkedQueue α :=
  { q with cells := Function.update q.cells a ((q.cells a).map fun c => { c with val := f c.val }) }

/-- A new cell behind `p`. The tail moves where `p` is the tail. -/
def insertAfter (p : Option Nat) (v : α) : Option (LinkedQueue α) := do
  let n ← q.next p
  let q' := { q with cells := Function.update q.cells q.brk (some ⟨v, n⟩), brk := q.brk + 1 }.setNext p (some q.brk)
  some { q' with tail := if p = q.tail then some q.brk else q.tail, size := q.size + 1 }

/-- The first cell is taken out and freed. The tail stays. -/
def removeFirst : Option (LinkedQueue α × Nat × α) := do
  let a ← q.first
  let c ← q.cells a
  some ({ q with first := c.next, cells := Function.update q.cells a none, size := q.size - 1 }, a, c.val)

/-- The loop that walks on while the next cell comes before the place that is looked for. -/
def walk (before : α → Bool) : Nat → Option Nat → Option (Option Nat)
  | 0, _ => none
  | fuel + 1, p => do
    match ← q.next p with
    | none => some p
    | some a =>
      let v ← q.get a
      if before v then walk before fuel (some a) else some p

end Operations

/-! ## What a queue holds -/

/-- The pointer to the first of some cells. -/
def start (ns : List (Nat × α)) : Option Nat := ns.head?.map Prod.fst

/-- The place behind some cells. -/
def stop (ns : List (Nat × α)) : Option Nat := ns.getLast?.map Prod.fst

/-- From the pointer `p` the cells are linked in this order, up to the pointer `e`. -/
def Segment (cells : Nat → Option (Cell α)) : Option Nat → List (Nat × α) → Option Nat → Prop
  | p, [], e => p = e
  | p, n :: ns, e => p = some n.1 ∧ ∃ p', cells n.1 = some ⟨n.2, p'⟩ ∧ Segment cells p' ns e

/-- The queue has these cells, each at an address of its own. -/
structure Links (q : LinkedQueue α) (ns : List (Nat × α)) : Prop where
  segment : Segment q.cells q.first ns none
  nodup : (ns.map Prod.fst).Nodup
  fresh : ∀ n ∈ ns, n.1 < q.brk
  size : q.size = ns.length

/-- The queue has these cells, and the tail is at the last one. -/
structure Holds (q : LinkedQueue α) (ns : List (Nat × α)) : Prop extends Links q ns where
  tail : q.tail = stop ns

variable {q : LinkedQueue α} {cells cells' : Nat → Option (Cell α)} {ns pre post : List (Nat × α)} {n : Nat × α}
  {p e : Option Nat} {v : α} {f : α → α}

@[simp] theorem start_cons : start (n :: ns) = some n.1 := rfl

@[simp] theorem start_nil : start ([] : List (Nat × α)) = none := rfl

@[simp] theorem stop_nil : stop ([] : List (Nat × α)) = none := rfl

@[simp] theorem stop_concat : stop (pre ++ [n]) = some n.1 := by
  rw [stop, List.getLast?_concat]
  rfl

@[simp] theorem stop_append_cons : stop (pre ++ n :: post) = stop (n :: post) := by
  rw [stop, stop, List.getLast?_append_of_ne_nil _ (List.cons_ne_nil n post)]

@[simp] theorem stop_cons_cons {m : Nat × α} : stop (m :: n :: ns) = stop (n :: ns) := by
  rw [stop, stop, List.getLast?_cons_cons]

theorem segment_append : Segment cells p (pre ++ post) e ↔ ∃ m, Segment cells p pre m ∧ Segment cells m post e := by
  induction pre generalizing p with
  | nil =>
    constructor
    · exact fun h => ⟨p, rfl, h⟩
    · rintro ⟨m, rfl, h⟩
      exact h
  | cons n pre ih =>
    constructor
    · rintro ⟨hp, p', hcell, hrest⟩
      obtain ⟨m, hpre, hpost⟩ := ih.mp hrest
      exact ⟨m, ⟨hp, p', hcell, hpre⟩, hpost⟩
    · rintro ⟨m, ⟨hp, p', hcell, hpre⟩, hpost⟩
      exact ⟨hp, p', hcell, ih.mpr ⟨m, hpre, hpost⟩⟩

/-- Up to the null pointer the pointer tells where the cells start. -/
theorem Segment.start_eq (h : Segment cells p ns none) : p = start ns := by
  cases ns with
  | nil => exact h
  | cons n ns => exact h.1

/-- What happens to other cells does not matter. -/
theorem Segment.congr (h : Segment cells p ns e) (hcells : ∀ n ∈ ns, cells' n.1 = cells n.1) : Segment cells' p ns e := by
  induction ns generalizing p with
  | nil => exact h
  | cons n ns ih =>
    obtain ⟨hp, p', hcell, hrest⟩ := h
    exact ⟨hp, p', (hcells n List.mem_cons_self).trans hcell,
      ih hrest fun m hm => hcells m (List.mem_cons_of_mem n hm)⟩

theorem holds_empty (brk : Nat) : (empty brk : LinkedQueue α).Holds [] where
  segment := rfl
  nodup := List.nodup_nil
  fresh n hn := by cases hn
  size := rfl
  tail := rfl

/-- The cells before and behind a place. -/
theorem Links.split (h : q.Links (pre ++ post)) :
    Segment q.cells q.first pre (start post) ∧ Segment q.cells (start post) post none := by
  obtain ⟨m, hpre, hpost⟩ := segment_append.mp h.segment
  obtain rfl := hpost.start_eq
  exact ⟨hpre, hpost⟩

/-- The cells of a queue are apart. -/
theorem Links.apart (h : q.Links (pre ++ n :: post)) : (∀ m ∈ pre, m.1 ≠ n.1) ∧ ∀ m ∈ post, m.1 ≠ n.1 := by
  have hnodup := h.nodup
  simp only [List.map_append, List.map_cons, List.nodup_append, List.nodup_cons] at hnodup
  obtain ⟨-, ⟨hpost, -⟩, hpre⟩ := hnodup
  refine ⟨fun m hm => hpre m.1 (List.mem_map_of_mem hm) n.1 List.mem_cons_self, ?_⟩
  rintro m hm heq
  exact hpost (heq ▸ List.mem_map_of_mem hm)

theorem Links.cell (h : q.Links (pre ++ n :: post)) : q.cells n.1 = some ⟨n.2, start post⟩ := by
  obtain ⟨-, -, p', hcell, hrest⟩ := h.split
  rw [hcell, hrest.start_eq]

theorem Links.next (h : q.Links (pre ++ post)) : q.next (stop pre) = some (start post) := by
  rcases List.eq_nil_or_concat' pre with rfl | ⟨pre, n, rfl⟩
  · exact congrArg some h.segment.start_eq
  · rw [List.append_assoc] at h
    rw [stop_concat, LinkedQueue.next, h.cell]
    rfl

theorem Links.get (h : q.Links (pre ++ n :: post)) : q.get n.1 = some n.2 := by
  rw [LinkedQueue.get, h.cell]
  rfl

theorem Links.get_head (h : q.Links (n :: ns)) : q.get n.1 = some n.2 := by
  have hlinks : q.Links ([] ++ n :: ns) := h
  exact hlinks.get

/-- Only the place behind all cells is at the tail. -/
theorem Holds.stop_eq_tail_iff (h : q.Holds (pre ++ post)) : stop pre = q.tail ↔ post = [] := by
  rw [h.tail]
  constructor
  · intro heq
    rcases List.eq_nil_or_concat' post with rfl | ⟨post, m, rfl⟩
    · rfl
    rw [← List.append_assoc, stop_concat] at heq
    rcases List.eq_nil_or_concat' pre with rfl | ⟨pre, n, rfl⟩
    · cases heq
    -- The last cell before the place would be the last one of all.
    rw [stop_concat] at heq
    have hlinks := h.toLinks
    rw [List.append_assoc] at hlinks
    exact absurd (Option.some.inj heq).symm (hlinks.apart.2 m (by simp))
  · rintro rfl
    rw [List.append_nil]

/-! ## What the operations make of it -/

theorem Holds.modify (h : q.Holds (pre ++ n :: post)) : (q.modify n.1 f).Holds (pre ++ (n.1, f n.2) :: post) := by
  obtain ⟨hpre, hpost⟩ := h.apart
  obtain ⟨hbefore, hp, p', hcell, hafter⟩ := h.split
  have hmap : (pre ++ (n.1, f n.2) :: post).map Prod.fst = (pre ++ n :: post).map Prod.fst := by
    simp only [List.map_append, List.map_cons]
  have hother : ∀ m : Nat × α, m.1 ≠ n.1 → (q.modify n.1 f).cells m.1 = q.cells m.1 :=
    fun m hm => Function.update_of_ne hm _ _
  refine ⟨⟨?_, hmap ▸ h.nodup, fun m hm => ?_, ?_⟩, ?_⟩
  · refine segment_append.mpr ⟨some n.1, hbefore.congr fun m hm => hother m (hpre m hm), rfl, p', ?_, ?_⟩
    · simp only [LinkedQueue.modify, Function.update_self, hcell, Option.map_some]
    · exact hafter.congr fun m hm => hother m (hpost m hm)
  · have hfst : m.1 ∈ (pre ++ n :: post).map Prod.fst := hmap ▸ List.mem_map_of_mem hm
    obtain ⟨x, hx, hxm⟩ := List.mem_map.mp hfst
    exact hxm ▸ h.fresh x hx
  · refine h.size.trans ?_
    simp only [List.length_append, List.length_cons]
  · refine h.tail.trans ?_
    rw [stop_append_cons, stop_append_cons]
    cases post with
    | nil => rfl
    | cons m post => rw [stop_cons_cons, stop_cons_cons]

/-- A new cell, in its place. -/
theorem Holds.insertAfter (h : q.Holds (pre ++ post)) (v : α) :
    ∃ q', q.insertAfter (stop pre) v = some q' ∧ q'.Holds (pre ++ (q.brk, v) :: post) := by
  have hnew : ∀ m ∈ pre ++ post, m.1 ≠ q.brk := fun m hm => Nat.ne_of_lt (h.fresh m hm)
  have htail := h.stop_eq_tail_iff
  obtain ⟨hbefore, hafter⟩ := h.split
  have hnodup : ((pre ++ (q.brk, v) :: post).map Prod.fst).Nodup := by
    have hmid : q.brk ∉ (pre ++ post).map Prod.fst := by
      rintro hmem
      obtain ⟨m, hm, hbrk⟩ := List.mem_map.mp hmem
      exact hnew m hm hbrk
    rw [List.map_append, List.map_cons, List.nodup_middle, List.nodup_cons, ← List.map_append]
    exact ⟨hmid, h.nodup⟩
  have hfresh : ∀ m ∈ pre ++ (q.brk, v) :: post, m.1 < q.brk + 1 := by
    intro m hm
    rcases List.mem_append.mp hm with hm | hm
    · exact Nat.lt_succ_of_lt (h.fresh m (List.mem_append_left _ hm))
    · rcases List.mem_cons.mp hm with rfl | hm
      · exact Nat.lt_succ_self _
      · exact Nat.lt_succ_of_lt (h.fresh m (List.mem_append_right _ hm))
  have hsize : q.size + 1 = (pre ++ (q.brk, v) :: post).length := by
    rw [h.size, List.length_append, List.length_append, List.length_cons, Nat.add_assoc]
  have hend : (if stop pre = q.tail then some q.brk else q.tail) = stop (pre ++ (q.brk, v) :: post) := by
    rw [stop_append_cons]
    cases post with
    | nil => rw [if_pos (htail.mpr rfl)]; rfl
    | cons m post =>
      rw [if_neg (mt htail.mp (List.cons_ne_nil m post)), h.tail, stop_append_cons, stop_cons_cons]
  rcases List.eq_nil_or_concat' pre with rfl | ⟨pre, n, rfl⟩
  · refine ⟨_, by rw [LinkedQueue.insertAfter, h.toLinks.next]; rfl, ⟨⟨?_, hnodup, hfresh, hsize⟩, hend⟩⟩
    refine ⟨rfl, start post, Function.update_self .., hafter.congr fun m hm => ?_⟩
    exact Function.update_of_ne (hnew m hm) _ _
  · have hlinks := h.toLinks
    rw [List.append_assoc] at hlinks
    obtain ⟨hpre, hpost⟩ := hlinks.apart
    obtain ⟨hbefore, -⟩ := hlinks.split
    have hn := hnew n (by simp)
    rw [LinkedQueue.insertAfter, h.toLinks.next, Option.bind_eq_bind, Option.bind_some]
    rw [stop_concat] at hend ⊢
    refine ⟨_, rfl, ⟨⟨?_, hnodup, hfresh, hsize⟩, hend⟩⟩
    simp only [setNext]
    rw [List.append_assoc]
    refine segment_append.mpr ⟨some n.1, hbefore.congr fun m hm => ?_, rfl, some q.brk, ?_, rfl, start post, ?_, ?_⟩
    · rw [Function.update_of_ne (hpre m hm), Function.update_of_ne (hnew m (by simp [hm]))]
    · rw [Function.update_self, Function.update_of_ne hn, hlinks.cell]
      rfl
    · rw [Function.update_of_ne hn.symm, Function.update_self]
    · refine hafter.congr fun m hm => ?_
      rw [Function.update_of_ne (hpost m (List.mem_append_right _ hm)), Function.update_of_ne (hnew m (by simp [hm]))]

/-- The first cell is gone. -/
theorem Links.removeFirst (h : q.Links (n :: ns)) :
    ∃ q', q.removeFirst = some (q', n) ∧ q'.Links ns ∧ q'.tail = q.tail := by
  obtain ⟨hp, p', hcell, hrest⟩ := h.segment
  have hlinks : q.Links ([] ++ n :: ns) := h
  have hapart := hlinks.apart.2
  have hnodup := List.nodup_cons.mp h.nodup
  refine ⟨{ q with first := p', cells := Function.update q.cells n.1 none, size := q.size - 1 }, ?_,
    ⟨?_, hnodup.2, fun m hm => h.fresh m (List.mem_cons_of_mem n hm), ?_⟩, rfl⟩
  · rw [LinkedQueue.removeFirst, hp, Option.bind_eq_bind, Option.bind_some, hcell]
    rfl
  · exact hrest.congr fun m hm => Function.update_of_ne (hapart m hm) _ _
  · have := h.size
    rw [List.length_cons] at this
    simp only [this, Nat.add_sub_cancel]

/-- With a tail that is reset once the queue is empty, it holds the rest. -/
theorem Links.holds_of_suffix (h : q.Links ns) (htail : q.tail = stop (pre ++ ns)) :
    ({ q with tail := if q.size = 0 then none else q.tail } : LinkedQueue α).Holds ns where
  segment := h.segment
  nodup := h.nodup
  fresh := h.fresh
  size := h.size
  tail := by
    dsimp only
    rw [h.size]
    cases ns with
    | nil => rfl
    | cons n ns =>
      rw [List.length_cons, if_neg (Nat.succ_ne_zero ns.length), htail]
      exact stop_append_cons

/-- The walk ends where the cells that come before end. -/
theorem Links.walk {before : α → Bool} {seen : List (Nat × α)} (h : q.Links (seen ++ (pre ++ post)))
    (hpre : ∀ m ∈ pre, before m.2 = true) (hpost : ∀ m ∈ post.head?, before m.2 = false) {fuel : Nat}
    (hfuel : pre.length < fuel) : q.walk before fuel (stop seen) = some (stop (seen ++ pre)) := by
  induction pre generalizing seen fuel with
  | nil =>
    obtain ⟨fuel, rfl⟩ := Nat.exists_eq_succ_of_ne_zero (Nat.ne_of_gt hfuel)
    rw [List.append_nil, LinkedQueue.walk, h.next]
    cases post with
    | nil => rfl
    | cons n post =>
      have hn := hpost n rfl
      have hget := Links.get h
      simp only [List.nil_append, start_cons, Option.bind_eq_bind, Option.bind_some, hget, hn, Bool.false_eq_true,
        if_false]
  | cons n pre ih =>
    obtain ⟨fuel, rfl⟩ := Nat.exists_eq_succ_of_ne_zero (Nat.ne_of_gt (Nat.lt_of_le_of_lt (Nat.zero_le _) hfuel))
    have hget := Links.get h
    have hlinks : q.Links ((seen ++ [n]) ++ (pre ++ post)) := by simpa using h
    have hrest := ih hlinks (fun m hm => hpre m (List.mem_cons_of_mem n hm)) (Nat.lt_of_succ_lt_succ hfuel)
    rw [LinkedQueue.walk, h.next]
    simp only [List.cons_append, start_cons, Option.bind_eq_bind, Option.bind_some, hget, hpre n List.mem_cons_self,
      if_true]
    have hstop : some n.1 = stop (seen ++ [n]) := stop_concat.symm
    rw [hstop, hrest, List.append_assoc, List.singleton_append]

end LinkedQueue

end Spire.Lib
