import Mathlib.Data.List.Perm.Subperm
import Spire.Lib.LinkedQueue

/-!
# Linked lists that share their cells

Several lists in one memory: each has a head with only a pointer to the first cell, and a pointer to
the last one. `none` as a place is the head of the list in question, and as a pointer the null pointer.
A cell can be taken out of one list and put behind another, or be freed. An operation that follows a
pointer to a cell that is not there has no result.

`Holds` says which cells the lists have, and `Loose` that a cell is in none of them. Where the last cell
is taken out the pointer to it has to be put back to the head. There are three ways to see that it has,
and they agree (`unlinkFirst_holds`).
-/

namespace Spire.Lib

open Function (update)

/-- The lists. The cells from `brk` on have never been allocated. -/
structure LinkedLists (ι α : Type) where
  first : ι → Option Nat
  tail : ι → Option Nat
  cells : Nat → Option (Cell α)
  brk : Nat

namespace LinkedLists

open LinkedQueue (Segment start stop)

variable {ι α : Type}

/-- No list has a cell. -/
def empty (ι α : Type) : LinkedLists ι α :=
  { first := fun _ => none, tail := fun _ => none, cells := fun _ => none, brk := 0 }

/-! ## Operations -/

section Operations

variable [DecidableEq ι] (l : LinkedLists ι α)

def get (a : Nat) : Option α := (l.cells a).map Cell.val

/-- A change of a content. -/
def modify (a : Nat) (f : α → α) : LinkedLists ι α :=
  { l with cells := update l.cells a ((l.cells a).map fun c => { c with val := f c.val }) }

/-- `p->next = n`, where `p` is a place in the list `i`. -/
def setNext (i : ι) (p n : Option Nat) : Option (LinkedLists ι α) :=
  match p with
  | none => some { l with first := update l.first i n }
  | some a => (l.cells a).map fun c => { l with cells := update l.cells a (some { c with next := n }) }

/-- `a->next = NULL; tail->next = a; tail = a;` -/
def append (i : ι) (a : Nat) : Option (LinkedLists ι α) := do
  let l ← l.setNext i (some a) none
  let l ← l.setNext i (l.tail i) (some a)
  some { l with tail := update l.tail i (some a) }

/-- A new cell is appended. -/
def push (i : ι) (v : α) : Option (LinkedLists ι α) :=
  append { l with cells := update l.cells l.brk (some ⟨v, none⟩), brk := l.brk + 1 } i l.brk

/-- `head.next = head.next->next`. The cell is still there, and the pointer to the last one stays. -/
def unlinkFirst (i : ι) : Option (Nat × Cell α × LinkedLists ι α) := do
  let a ← l.first i
  let c ← l.cells a
  some (a, c, { l with first := update l.first i c.next })

/-- The pointer to the last cell goes back to the head, where the list has become empty. -/
def resetTail (i : ι) (emptied : Bool) : LinkedLists ι α :=
  if emptied then { l with tail := update l.tail i none } else l

def free (a : Nat) : LinkedLists ι α := { l with cells := update l.cells a none }

end Operations

/-! ## What the lists hold -/

/-- The lists have these cells, all at addresses of their own. -/
structure Holds (l : LinkedLists ι α) (ls : ι → List (Nat × α)) : Prop where
  segment : ∀ i, Segment l.cells (l.first i) (ls i) none
  tail : ∀ i, l.tail i = stop (ls i)
  nodup : ∀ i, ((ls i).map Prod.fst).Nodup
  apart : ∀ i j, i ≠ j → ∀ m ∈ ls i, ∀ n ∈ ls j, m.1 ≠ n.1
  fresh : ∀ i, ∀ m ∈ ls i, m.1 < l.brk

/-- A cell that is in no list. -/
structure Loose (l : LinkedLists ι α) (ls : ι → List (Nat × α)) (n : Nat × α) : Prop where
  cell : ∃ p, l.cells n.1 = some ⟨n.2, p⟩
  out : ∀ i, ∀ m ∈ ls i, m.1 ≠ n.1
  fresh : n.1 < l.brk

variable {l l' : LinkedLists ι α} {ls : ι → List (Nat × α)} {i j : ι} {n : Nat × α} {ns pre post : List (Nat × α)} {v : α}

theorem holds_empty : (empty ι α).Holds fun _ => [] where
  segment _ := rfl
  tail _ := rfl
  nodup _ := List.nodup_nil
  apart _ _ _ m hm := by cases hm
  fresh _ m hm := by cases hm

theorem last_cell {cells : Nat → Option (Cell α)} {p : Option Nat} (h : Segment cells p (pre ++ [n]) none) :
    cells n.1 = some ⟨n.2, none⟩ := by
  obtain ⟨m, -, -, p', hcell, rfl⟩ := LinkedQueue.segment_append.mp h
  exact hcell

/-- The last cell of a list is made to point elsewhere. -/
theorem relink {cells : Nat → Option (Cell α)} {p e : Option Nat} (h : Segment cells p (pre ++ [n]) none)
    (hnodup : ((pre ++ [n]).map Prod.fst).Nodup) :
    Segment (update cells n.1 (some ⟨n.2, e⟩)) p (pre ++ [n]) e := by
  obtain ⟨m, hpre, hp, -⟩ := LinkedQueue.segment_append.mp h
  refine LinkedQueue.segment_append.mpr ⟨m, hpre.congr fun x hx => ?_, hp, e, Function.update_self .., rfl⟩
  refine Function.update_of_ne ?_ _ _
  rw [List.map_append, List.nodup_append] at hnodup
  exact hnodup.2.2 x.1 (List.mem_map_of_mem hx) n.1 (List.mem_singleton_self _)

theorem Holds.first_eq (h : l.Holds ls) (i : ι) : l.first i = start (ls i) := (h.segment i).start_eq

theorem Holds.get_first (h : l.Holds ls) (hi : ls i = n :: ns) : l.get n.1 = some n.2 := by
  have hsegment := h.segment i
  rw [hi] at hsegment
  obtain ⟨-, p, hcell, -⟩ := hsegment
  rw [get, hcell]
  rfl

/-- There are no more cells than have ever been allocated. -/
theorem Holds.length_le (h : l.Holds ls) (hij : i ≠ j) : (ls i).length + (ls j).length ≤ l.brk := by
  have hnodup : ((ls i ++ ls j).map Prod.fst).Nodup := by
    rw [List.map_append, List.nodup_append]
    refine ⟨h.nodup i, h.nodup j, fun a ha b hb => ?_⟩
    obtain ⟨m, hm, rfl⟩ := List.mem_map.mp ha
    obtain ⟨n, hn, rfl⟩ := List.mem_map.mp hb
    exact h.apart i j hij m hm n hn
  have hsubset : (ls i ++ ls j).map Prod.fst ⊆ List.range l.brk := by
    intro a ha
    obtain ⟨m, hm, rfl⟩ := List.mem_map.mp ha
    rcases List.mem_append.mp hm with hm | hm
    · exact List.mem_range.mpr (h.fresh i m hm)
    · exact List.mem_range.mpr (h.fresh j m hm)
  have hle := (List.subperm_of_subset hnodup hsubset).length_le
  rwa [List.length_map, List.length_append, List.length_range] at hle

/-! ## What the operations make of it -/

/-- A loose cell is freed. -/
theorem Holds.free (h : l.Holds ls) (hn : l.Loose ls n) : (l.free n.1).Holds ls where
  segment i := (h.segment i).congr fun m hm => Function.update_of_ne (hn.out i m hm) _ _
  tail := h.tail
  nodup := h.nodup
  apart := h.apart
  fresh := h.fresh

/-- The content of a loose cell is changed. -/
theorem Holds.modify_loose (h : l.Holds ls) (hn : l.Loose ls n) (f : α → α) :
    (l.modify n.1 f).Holds ls ∧ (l.modify n.1 f).Loose ls (n.1, f n.2) := by
  obtain ⟨p, hcell⟩ := hn.cell
  refine ⟨⟨fun i => ?_, h.tail, h.nodup, h.apart, h.fresh⟩, ⟨⟨p, ?_⟩, hn.out, hn.fresh⟩⟩
  · exact (h.segment i).congr fun m hm => Function.update_of_ne (hn.out i m hm) _ _
  · simp [LinkedLists.modify, hcell]

variable [DecidableEq ι]

/-- What is asked of the addresses, when a cell comes to the end of a list. -/
theorem Holds.addresses (h : l.Holds ls) (hn : l.Loose ls n) (j : ι) :
    (∀ i, ((update ls j (ls j ++ [n]) i).map Prod.fst).Nodup) ∧
      (∀ i k, i ≠ k → ∀ x ∈ update ls j (ls j ++ [n]) i, ∀ y ∈ update ls j (ls j ++ [n]) k, x.1 ≠ y.1) ∧
        ∀ i, ∀ x ∈ update ls j (ls j ++ [n]) i, x.1 < l.brk := by
  have hmem : ∀ i x, x ∈ update ls j (ls j ++ [n]) i → x ∈ ls i ∨ i = j ∧ x = n := by
    intro i x hx
    by_cases hij : i = j
    · subst hij
      rw [Function.update_self] at hx
      exact (List.mem_append.mp hx).imp_right fun hx => ⟨rfl, List.mem_singleton.mp hx⟩
    · rw [Function.update_of_ne hij] at hx
      exact .inl hx
  refine ⟨fun i => ?_, fun i k hik x hx y hy => ?_, fun i x hx => ?_⟩
  · by_cases hij : i = j
    · subst hij
      rw [Function.update_self, List.map_append, List.map_singleton, List.nodup_append]
      refine ⟨h.nodup i, List.nodup_singleton _, fun a ha b hb => ?_⟩
      obtain ⟨x, hx, rfl⟩ := List.mem_map.mp ha
      rw [List.mem_singleton.mp hb]
      exact hn.out i x hx
    · rw [Function.update_of_ne hij]
      exact h.nodup i
  · rcases hmem i x hx with hx' | ⟨hi, rfl⟩
    · rcases hmem k y hy with hy' | ⟨-, rfl⟩
      · exact h.apart i k hik x hx' y hy'
      · exact hn.out i x hx'
    · rcases hmem k y hy with hy' | ⟨hk, -⟩
      · exact (hn.out k y hy').symm
      · exact absurd (hi.trans hk.symm) hik
  · rcases hmem i x hx with hx | ⟨-, rfl⟩
    · exact h.fresh i x hx
    · exact hn.fresh

/-- A cell that was in no list comes to the end of one. -/
theorem Holds.append (h : l.Holds ls) (hn : l.Loose ls n) (j : ι) :
    ∃ l', l.append j n.1 = some l' ∧ l'.Holds (update ls j (ls j ++ [n])) ∧ l'.brk = l.brk := by
  obtain ⟨p, hcell⟩ := hn.cell
  obtain ⟨hnodup, hapart, hfresh⟩ := h.addresses hn j
  have htail : ∀ i, update l.tail j (some n.1) i = stop (update ls j (ls j ++ [n]) i) := by
    intro i
    by_cases hij : i = j
    · subst hij
      rw [Function.update_self, Function.update_self, LinkedQueue.stop_concat]
    · rw [Function.update_of_ne hij, Function.update_of_ne hij, h.tail]
  have hother : ∀ i, ∀ m ∈ ls i, update l.cells n.1 (some ⟨n.2, none⟩) m.1 = l.cells m.1 :=
    fun i m hm => Function.update_of_ne (hn.out i m hm) _ _
  rcases List.eq_nil_or_concat' (ls j) with hj | ⟨pre, m, hj⟩
  · -- The head is made to point to the cell.
    have happend : l.append j n.1 = some
        { first := update l.first j (some n.1), tail := update l.tail j (some n.1)
          cells := update l.cells n.1 (some ⟨n.2, none⟩), brk := l.brk } := by
      simp [LinkedLists.append, setNext, hcell, h.tail, hj]
    refine ⟨_, happend, ⟨fun i => ?_, htail, hnodup, hapart, hfresh⟩, rfl⟩
    dsimp only
    by_cases hij : i = j
    · subst hij
      rw [Function.update_self, Function.update_self, hj]
      exact ⟨rfl, none, Function.update_self .., rfl⟩
    · rw [Function.update_of_ne hij, Function.update_of_ne hij]
      exact (h.segment i).congr (hother i)
  · -- The last cell is.
    have hm : m ∈ ls j := hj ▸ List.mem_append_right _ (List.mem_singleton_self m)
    have hlast : update l.cells n.1 (some ⟨n.2, none⟩) m.1 = some ⟨m.2, none⟩ :=
      (hother j m hm).trans (last_cell (hj ▸ h.segment j))
    have htail' : l.tail j = some m.1 := by rw [h.tail, hj, LinkedQueue.stop_concat]
    have happend : l.append j n.1 = some
        { first := l.first, tail := update l.tail j (some n.1)
          cells := update (update l.cells n.1 (some ⟨n.2, none⟩)) m.1 (some ⟨m.2, some n.1⟩), brk := l.brk } := by
      simp [LinkedLists.append, setNext, hcell, htail', hlast]
    refine ⟨_, happend, ⟨fun i => ?_, htail, hnodup, hapart, hfresh⟩, rfl⟩
    dsimp only
    by_cases hij : i = j
    · subst hij
      rw [Function.update_self]
      refine LinkedQueue.segment_append.mpr ⟨some n.1, ?_, rfl, none, ?_, rfl⟩
      · have hsegment := (h.segment i).congr (hother i)
        have hnodup := h.nodup i
        rw [hj] at hsegment hnodup ⊢
        exact relink hsegment hnodup
      · exact (Function.update_of_ne (hn.out i m hm).symm _ _).trans (Function.update_self ..)
    · rw [Function.update_of_ne hij]
      refine (h.segment i).congr fun x hx => ?_
      exact (Function.update_of_ne (h.apart i j hij x hx m hm) _ _).trans (hother i x hx)

/-- A new cell. -/
theorem Holds.push (h : l.Holds ls) (j : ι) (v : α) :
    ∃ l', l.push j v = some l' ∧ l'.Holds (update ls j (ls j ++ [(l.brk, v)])) := by
  set m : LinkedLists ι α := { l with cells := update l.cells l.brk (some ⟨v, none⟩), brk := l.brk + 1 } with hm
  have hnew : ∀ i, ∀ x ∈ ls i, x.1 ≠ l.brk := fun i x hx => Nat.ne_of_lt (h.fresh i x hx)
  have hholds : m.Holds ls :=
    { segment := fun i => (h.segment i).congr fun x hx => Function.update_of_ne (hnew i x hx) _ _
      tail := h.tail, nodup := h.nodup, apart := h.apart
      fresh := fun i x hx => Nat.lt_succ_of_lt (h.fresh i x hx) }
  have hloose : m.Loose ls (l.brk, v) := ⟨⟨none, Function.update_self ..⟩, hnew, Nat.lt_succ_self _⟩
  obtain ⟨l', hl', hholds', -⟩ := hholds.append hloose j
  exact ⟨l', hl', hholds'⟩

/-- The first cell is taken out. What the pointer to the last cell has to be is seen from it, from the head
and from the cell, and when it is put right the cell is loose. -/
theorem Holds.unlinkFirst (h : l.Holds ls) (hi : ls i = n :: ns) :
    ∃ l', l.unlinkFirst i = some (n.1, ⟨n.2, start ns⟩, l') ∧ l'.first i = start ns ∧ l'.tail = l.tail ∧
      (l.tail i = some n.1 ↔ ns = []) ∧
      ∀ emptied : Bool, (emptied = true ↔ ns = []) → (l'.resetTail i emptied).Holds (update ls i ns) ∧
        (l'.resetTail i emptied).Loose (update ls i ns) n := by
  have hsegment := h.segment i
  have hnodup := h.nodup i
  rw [hi] at hsegment hnodup
  obtain ⟨hp, p, hcell, hrest⟩ := hsegment
  obtain rfl := hrest.start_eq
  rw [List.map_cons, List.nodup_cons] at hnodup
  obtain ⟨hn, hnodup⟩ := hnodup
  have hout : ∀ m ∈ ns, m.1 ≠ n.1 := fun m hm heq => hn (heq ▸ List.mem_map_of_mem hm)
  have hmem : ∀ k x, x ∈ update ls i ns k → x ∈ ls k := by
    intro k x hx
    by_cases hk : k = i
    · subst hk
      rw [Function.update_self] at hx
      rw [hi]
      exact List.mem_cons_of_mem n hx
    · rwa [Function.update_of_ne hk] at hx
  refine ⟨{ l with first := update l.first i (start ns) }, ?_, Function.update_self .., rfl, ?_, ?_⟩
  · rw [LinkedLists.unlinkFirst, hp, Option.bind_eq_bind, Option.bind_some, hcell]
    rfl
  · rw [h.tail, hi]
    rcases List.eq_nil_or_concat' ns with rfl | ⟨pre, m, rfl⟩
    · exact iff_of_true rfl rfl
    · rw [← List.cons_append, LinkedQueue.stop_concat, Option.some_inj]
      refine iff_of_false (hout m (by simp)) (by simp)
  · intro emptied hemptied
    have hcells : ({ l with first := update l.first i (start ns) }.resetTail i emptied).cells = l.cells ∧
        ({ l with first := update l.first i (start ns) }.resetTail i emptied).first = update l.first i (start ns) ∧
          ({ l with first := update l.first i (start ns) }.resetTail i emptied).brk = l.brk := by
      cases emptied with
      | true => exact ⟨rfl, rfl, rfl⟩
      | false => exact ⟨rfl, rfl, rfl⟩
    obtain ⟨hcells, hfirst, hbrk⟩ := hcells
    refine ⟨⟨fun k => ?_, fun k => ?_, fun k => ?_, fun k k' hk x hx y hy => ?_, fun k x hx => ?_⟩,
      ⟨⟨_, by rw [hcells]; exact hcell⟩, fun k x hx => ?_, ?_⟩⟩
    · rw [hcells, hfirst]
      by_cases hk : k = i
      · subst hk
        rw [Function.update_self, Function.update_self]
        exact hrest
      · rw [Function.update_of_ne hk, Function.update_of_ne hk]
        exact h.segment k
    · by_cases hk : k = i
      · subst hk
        rw [Function.update_self]
        cases emptied with
        | true =>
          rw [hemptied.mp rfl]
          exact Function.update_self ..
        | false =>
          -- The last cell is still the last one.
          have hns : ns ≠ [] := fun hns => Bool.noConfusion (hemptied.mpr hns)
          obtain ⟨m, ms, rfl⟩ := List.exists_cons_of_ne_nil hns
          refine (h.tail k).trans ?_
          rw [hi, LinkedQueue.stop_cons_cons]
      · rw [Function.update_of_ne hk]
        refine Eq.trans ?_ (h.tail k)
        cases emptied with
        | true => exact Function.update_of_ne hk _ _
        | false => rfl
    · by_cases hk : k = i
      · subst hk
        rw [Function.update_self]
        exact hnodup
      · rw [Function.update_of_ne hk]
        exact h.nodup k
    · exact h.apart k k' hk x (hmem k x hx) y (hmem k' y hy)
    · rw [hbrk]
      exact h.fresh k x (hmem k x hx)
    · by_cases hk : k = i
      · subst hk
        rw [Function.update_self] at hx
        exact hout x hx
      · rw [Function.update_of_ne hk] at hx
        exact h.apart k i hk x hx n (hi ▸ List.mem_cons_self)
    · rw [hbrk]
      exact h.fresh i n (hi ▸ List.mem_cons_self)

/-- The content of a first cell is changed. -/
theorem Holds.modify_first (h : l.Holds ls) (hi : ls i = n :: ns) (f : α → α) :
    (l.modify n.1 f).Holds (update ls i ((n.1, f n.2) :: ns)) := by
  have hsegment := h.segment i
  have hnodup := h.nodup i
  rw [hi] at hsegment hnodup
  obtain ⟨hp, p, hcell, hrest⟩ := hsegment
  have hout : ∀ m ∈ ns, m.1 ≠ n.1 := fun m hm heq => (List.nodup_cons.mp hnodup).1 (heq ▸ List.mem_map_of_mem hm)
  have hmem : ∀ k x, x ∈ update ls i ((n.1, f n.2) :: ns) k → ∃ y ∈ ls k, y.1 = x.1 := by
    intro k x hx
    by_cases hk : k = i
    · subst hk
      rw [Function.update_self] at hx
      rw [hi]
      rcases List.mem_cons.mp hx with rfl | hx
      · exact ⟨n, List.mem_cons_self, rfl⟩
      · exact ⟨x, List.mem_cons_of_mem n hx, rfl⟩
    · rw [Function.update_of_ne hk] at hx
      exact ⟨x, hx, rfl⟩
  refine ⟨fun k => ?_, fun k => ?_, fun k => ?_, fun j k hjk x hx y hy => ?_, fun k x hx => ?_⟩
  · by_cases hk : k = i
    · subst hk
      rw [Function.update_self]
      refine ⟨hp, p, ?_, hrest.congr fun m hm => Function.update_of_ne (hout m hm) _ _⟩
      simp [LinkedLists.modify, hcell]
    · rw [Function.update_of_ne hk]
      exact (h.segment k).congr fun m hm => Function.update_of_ne (h.apart k i hk m hm n (hi ▸ List.mem_cons_self)) _ _
  · refine (h.tail k).trans ?_
    by_cases hk : k = i
    · subst hk
      rw [Function.update_self, hi]
      cases ns with
      | nil => rfl
      | cons m ns => rw [LinkedQueue.stop_cons_cons, LinkedQueue.stop_cons_cons]
    · rw [Function.update_of_ne hk]
  · by_cases hk : k = i
    · subst hk
      rw [Function.update_self]
      exact hnodup
    · rw [Function.update_of_ne hk]
      exact h.nodup k
  · obtain ⟨x', hx', hxx⟩ := hmem j x hx
    obtain ⟨y', hy', hyy⟩ := hmem k y hy
    rw [← hxx, ← hyy]
    exact h.apart j k hjk x' hx' y' hy'
  · obtain ⟨x', hx', hxx⟩ := hmem k x hx
    rw [← hxx]
    exact h.fresh k x' hx'

end LinkedLists

end Spire.Lib
