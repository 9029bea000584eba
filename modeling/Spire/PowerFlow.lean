import Mathlib.Data.List.Flatten
import Mathlib.Data.List.GetD
import Mathlib.Data.List.Range
import Mathlib.Logic.Relation
import Spire.Lib.LinkedQueue
import Spire.ScadaMaster

/-!
# Which substations have power

`init` reads the grid from a file, and `process` searches it breadth first from the first
substation, with the queue of `queue.c`. A substation passes power on where its transformer works,
along the lines whose two switches are closed: its own, and those that `init` has registered with
it as incoming. `process_powers` says that the search marks what power gets to.

`process` of `Spire.ScadaMaster` has a list for the queue. Here the queue is in memory, and the
loop may follow a bad pointer, exit or go on for ever; that it does not is part of the result.
-/

namespace Spire.Scada

open Function (update update_self update_of_ne)
open Lib.LinkedQueue (Segment segment_append)

/-! ## The file -/

/-- `MAX_SWITCHES` and `MAX_LINES`. -/
def maxSwitches : Nat := 10

def maxLines : Nat := 10

/-- A line of a substation: its id, those of its switches, and where it leads. -/
structure IniLine where
  id : Nat
  srcSwId : Nat
  destSwId : Nat
  destSub : Nat

/-- The part of the file for a substation. -/
structure IniSub where
  id : Nat
  txId : Nat
  swIds : List Nat
  lines : List IniLine

/-- Lines between the substations 1 to 4 are registered at both ends. -/
def Registered (src dest : Nat) : Prop := 1 ≤ src ∧ src ≤ 4 ∧ 1 ≤ dest ∧ dest ≤ 4

instance (src dest : Nat) : Decidable (Registered src dest) := by
  unfold Registered
  infer_instance

/-- The file `init/ini`, where it describes a grid: the first characters of the lines of the tooltip
array, which tell the kinds of the devices, and the substations. There is room for what it lists,
its switches exist, and its lines lead to substations. -/
structure Ini where
  tooltip : List Char
  subs : List IniSub
  pos : 0 < subs.length
  numSubs : tooltip.count '0' = subs.length
  numTxs : tooltip.count '1' = subs.length
  numSws : tooltip.count '2' = (subs.flatMap IniSub.swIds).length
  numLines : tooltip.count '3' = (subs.flatMap IniSub.lines).length
  ids : ∀ s ∈ subs, s.id < tooltip.length ∧ s.txId < tooltip.length ∧ (∀ i ∈ s.swIds, i < tooltip.length) ∧
    ∀ l ∈ s.lines, l.id < tooltip.length
  room : ∀ s ∈ subs, s.swIds.length ≤ maxSwitches ∧ s.lines.length ≤ maxLines
  roomIn : ∀ d, (subs.zipIdx.flatMap fun s => s.1.lines.filter fun l => l.destSub = d ∧ Registered s.2 d).length ≤ maxLines
  switches : ∀ s ∈ subs, ∀ l ∈ s.lines, l.srcSwId ∈ subs.flatMap IniSub.swIds ∧ l.destSwId ∈ subs.flatMap IniSub.swIds
  ends : ∀ s ∈ subs, ∀ l ∈ s.lines, l.destSub < subs.length

/-- The arrays while they are filled: the ids of the switches, the lines with their sources, the
substations, and the incoming lines of each. -/
structure Loading where
  sw : List Nat
  pl : List (IniLine × Nat)
  sub : List Sub
  inLines : Nat → List Nat

namespace Loading

def empty : Loading := { sw := [], pl := [], sub := [], inLines := fun _ => [] }

/-- A line of the substation `i`. -/
def line (i : Nat) (a : Loading) (l : IniLine) : Loading :=
  { a with
    pl := a.pl ++ [(l, i)]
    inLines :=
      if Registered i l.destSub then update a.inLines l.destSub (a.inLines l.destSub ++ [a.pl.length]) else a.inLines }

/-- A substation, with its switches and its lines. -/
def block (a : Loading) (s : IniSub) : Loading :=
  let sub : Sub :=
    { id := s.id
      txId := s.txId
      swList := List.range' a.sw.length s.swIds.length
      outLines := List.range' a.pl.length s.lines.length
      inLines := [] }
  { s.lines.foldl (line a.sub.length) { a with sw := a.sw ++ s.swIds } with sub := a.sub ++ [sub] }

/-- The loop that finds a switch by its id: the last one that has it. -/
def resolve (a : Loading) (id : Nat) : Nat :=
  (List.range a.sw.length).foldl (fun p j => if a.sw.getD j 0 = id then j else p) 0

end Loading

/-- `init`. -/
def Ini.init (f : Ini) : Topology :=
  let a := f.subs.foldl Loading.block Loading.empty
  { statLen := f.tooltip.length
    numSubs := f.tooltip.count '0'
    sub := fun i => { a.sub.getD i ⟨0, 0, [], [], []⟩ with inLines := a.inLines i }
    numSw := f.tooltip.count '2'
    swId := fun j => a.sw.getD j 0
    numLinks := f.tooltip.count '3'
    link := fun k =>
      let l := a.pl.getD k (⟨0, 0, 0, 0⟩, 0)
      { id := l.1.id
        srcSw := a.resolve l.1.srcSwId
        destSw := a.resolve l.1.destSwId
        srcSub := l.2
        destSub := l.1.destSub } }

namespace Loading

variable {a : Loading} {i : Nat} {ls : List IniLine}

theorem foldl_line_pl : (ls.foldl (line i) a).pl = a.pl ++ ls.map fun l => (l, i) := by
  induction ls generalizing a with
  | nil => exact (List.append_nil _).symm
  | cons l ls ih =>
    rw [List.foldl_cons, ih]
    exact List.append_assoc _ _ _

theorem foldl_line_sub : (ls.foldl (line i) a).sub = a.sub := by
  induction ls generalizing a with
  | nil => rfl
  | cons l ls ih => rw [List.foldl_cons, ih, line]

/-- What the arrays have of each line: its substation lists it, and where it is registered the one
that it leads to has it too. -/
structure Listed (a : Loading) (n : Nat) : Prop where
  out : ∀ i l, l ∈ (a.sub.getD i ⟨0, 0, [], [], []⟩).outLines ↔ ∃ x, a.pl[l]? = some (x, i)
  into : ∀ d l, l ∈ a.inLines d ↔ ∃ x i, a.pl[l]? = some (x, i) ∧ x.destSub = d ∧ Registered i d
  src : ∀ x ∈ a.pl, x.2 < a.sub.length
  dest : ∀ x ∈ a.pl, x.1.destSub < n

/-- The incoming lines, after a line. -/
theorem into_line {l : IniLine} (h : ∀ d k, k ∈ a.inLines d ↔ ∃ x i, a.pl[k]? = some (x, i) ∧ x.destSub = d ∧ Registered i d) :
    ∀ d k, k ∈ (a.line i l).inLines d ↔ ∃ x i', (a.line i l).pl[k]? = some (x, i') ∧ x.destSub = d ∧ Registered i' d := by
  intro d k
  have hnew : k ∈ (a.line i l).inLines d ↔ k ∈ a.inLines d ∨ (k = a.pl.length ∧ l.destSub = d ∧ Registered i d) := by
    unfold line
    dsimp only
    split
    next hreg =>
      by_cases hd : d = l.destSub
      · subst hd
        rw [update_self, List.mem_append, List.mem_singleton]
        simp [hreg]
      · rw [update_of_ne hd]
        simp [Ne.symm hd]
    next hreg =>
      refine ⟨Or.inl, fun hk => hk.elim id ?_⟩
      rintro ⟨-, rfl, hr⟩
      exact absurd hr hreg
  have hpl : ∀ x : IniLine × Nat, (a.line i l).pl[k]? = some x ↔ a.pl[k]? = some x ∨ (k = a.pl.length ∧ x = (l, i)) := by
    intro x
    show (a.pl ++ [(l, i)])[k]? = some x ↔ _
    rcases lt_trichotomy k a.pl.length with hlt | rfl | hgt
    · rw [List.getElem?_append_left hlt]
      exact ⟨Or.inl, fun hx => hx.resolve_right fun hk => absurd hk.1 hlt.ne⟩
    · rw [List.getElem?_concat_length, List.getElem?_eq_none (le_refl _)]
      simp [eq_comm]
    · rw [List.getElem?_eq_none (by simp; omega), List.getElem?_eq_none hgt.le]
      simp [hgt.ne']
  rw [hnew, h]
  constructor
  · rintro (⟨x, i', hx, hd, hr⟩ | ⟨hk, hd, hr⟩)
    · exact ⟨x, i', (hpl _).mpr (Or.inl hx), hd, hr⟩
    · exact ⟨l, i, (hpl _).mpr (Or.inr ⟨hk, rfl⟩), hd, hr⟩
  · rintro ⟨x, i', hx, hd, hr⟩
    rcases (hpl _).mp hx with hold | ⟨hk, heq⟩
    · exact Or.inl ⟨x, i', hold, hd, hr⟩
    · cases heq
      exact Or.inr ⟨hk, hd, hr⟩

theorem into_foldl (h : ∀ d k, k ∈ a.inLines d ↔ ∃ x i, a.pl[k]? = some (x, i) ∧ x.destSub = d ∧ Registered i d) :
    ∀ d k, k ∈ (ls.foldl (line i) a).inLines d ↔
      ∃ x i', (ls.foldl (line i) a).pl[k]? = some (x, i') ∧ x.destSub = d ∧ Registered i' d := by
  induction ls generalizing a with
  | nil => exact h
  | cons l ls ih => exact ih (into_line h)

/-- A substation is loaded. -/
theorem Listed.block {n : Nat} {s : IniSub} (h : a.Listed n) (hends : ∀ l ∈ s.lines, l.destSub < n) : (a.block s).Listed n := by
  have hpl : (a.block s).pl = a.pl ++ s.lines.map fun l => (l, a.sub.length) := foldl_line_pl
  refine ⟨fun i l => ?_, into_foldl h.into, fun x hx => ?_, fun x hx => ?_⟩
  · rw [hpl]
    show l ∈ ((a.sub ++ [_]).getD i _).outLines ↔ _
    rcases lt_trichotomy i a.sub.length with hlt | rfl | hgt
    · rw [List.getD_append _ _ _ _ hlt, h.out]
      constructor
      · rintro ⟨x, hx⟩
        exact ⟨x, by rw [List.getElem?_append_left (List.getElem?_eq_some_iff.mp hx).1, hx]⟩
      · rintro ⟨x, hx⟩
        rw [List.getElem?_append] at hx
        split at hx
        · exact ⟨x, hx⟩
        · rw [List.getElem?_map] at hx
          obtain ⟨y, -, hy⟩ := Option.map_eq_some_iff.mp hx
          cases hy
          exact absurd hlt (lt_irrefl _)
    · rw [List.getD_append_right _ _ _ _ (le_refl _), Nat.sub_self]
      show l ∈ List.range' a.pl.length s.lines.length ↔ _
      rw [List.mem_range'_1]
      constructor
      · rintro ⟨h₁, h₂⟩
        rw [List.getElem?_append_right h₁, List.getElem?_map, List.getElem?_eq_getElem (by omega)]
        exact ⟨_, rfl⟩
      · rintro ⟨x, hx⟩
        rw [List.getElem?_append] at hx
        split at hx
        · exact absurd (h.src _ (List.mem_of_getElem? hx)) (lt_irrefl _)
        next hge =>
          have hlen := (List.getElem?_eq_some_iff.mp hx).1
          rw [List.length_map] at hlen
          omega
    · rw [List.getD_eq_default _ _ (by simp; omega)]
      refine ⟨fun hl => absurd hl List.not_mem_nil, ?_⟩
      rintro ⟨x, hx⟩
      rcases List.mem_append.mp (List.mem_of_getElem? hx) with hold | hnew
      · have := h.src _ hold
        dsimp only at this
        omega
      · obtain ⟨y, -, hy⟩ := List.mem_map.mp hnew
        cases hy
        exact absurd hgt (lt_irrefl _)
  · show x.2 < (a.sub ++ [_]).length
    rw [List.length_append, List.length_singleton]
    rcases List.mem_append.mp (hpl ▸ hx) with hold | hnew
    · exact Nat.lt_succ_of_lt (h.src x hold)
    · obtain ⟨y, -, rfl⟩ := List.mem_map.mp hnew
      exact Nat.lt_succ_self _
  · rcases List.mem_append.mp (hpl ▸ hx) with hold | hnew
    · exact h.dest x hold
    · obtain ⟨y, hy, rfl⟩ := List.mem_map.mp hnew
      exact hends y hy

theorem listed_empty (n : Nat) : empty.Listed n := by
  refine ⟨fun i l => ?_, fun d l => ?_, fun x hx => absurd hx List.not_mem_nil, fun x hx => absurd hx List.not_mem_nil⟩
  · exact ⟨fun hl => absurd hl List.not_mem_nil, fun ⟨x, hx⟩ => by cases hx⟩
  · exact ⟨fun hl => absurd hl List.not_mem_nil, fun ⟨x, i, hx, _⟩ => by cases hx⟩

theorem Listed.foldl {n : Nat} {ss : List IniSub} (h : a.Listed n) (hends : ∀ s ∈ ss, ∀ l ∈ s.lines, l.destSub < n) :
    (ss.foldl Loading.block a).Listed n := by
  induction ss generalizing a with
  | nil => exact h
  | cons s ss ih =>
    exact ih (h.block (hends s List.mem_cons_self)) fun s' hs' => hends s' (List.mem_cons_of_mem s hs')

theorem foldl_block_sub {ss : List IniSub} : (ss.foldl block a).sub.length = a.sub.length + ss.length := by
  induction ss generalizing a with
  | nil => rfl
  | cons s ss ih =>
    rw [List.foldl_cons, ih, List.length_cons]
    show (a.sub ++ [_]).length + _ = _
    rw [List.length_append, List.length_singleton]
    omega

end Loading

section Init

variable (f : Ini)

theorem Ini.listed : (f.subs.foldl Loading.block Loading.empty).Listed f.subs.length :=
  (Loading.listed_empty _).foldl f.ends

/-- The line with this number, and the substation it belongs to. -/
theorem Ini.link_eq {l i : Nat} {x : IniLine} (h : (f.subs.foldl Loading.block Loading.empty).pl[l]? = some (x, i)) :
    (f.init.link l).srcSub = i ∧ (f.init.link l).destSub = x.destSub := by
  unfold Ini.init
  dsimp only
  rw [List.getD_eq_getElem?_getD, h]
  exact ⟨rfl, rfl⟩

/-- A substation has its own lines as outgoing ones, and registered lines that lead to it as
incoming ones. -/
theorem Ini.init_lines {i l : Nat} :
    (l ∈ (f.init.sub i).outLines → (f.init.link l).srcSub = i) ∧
      (l ∈ (f.init.sub i).inLines → (f.init.link l).destSub = i ∧ Registered (f.init.link l).srcSub i) := by
  constructor
  · intro hl
    obtain ⟨x, hx⟩ := (f.listed.out i l).mp hl
    exact (f.link_eq hx).1
  · intro hl
    obtain ⟨x, j, hx, hd, hr⟩ := (f.listed.into i l).mp hl
    obtain ⟨hsrc, hdest⟩ := f.link_eq hx
    exact ⟨hdest.trans hd, hsrc ▸ hr⟩

/-- What is loaded connects its substations. -/
theorem Ini.init_closed : f.init.Closed := by
  have hlen : (f.subs.foldl Loading.block Loading.empty).sub.length = f.subs.length :=
    Loading.foldl_block_sub.trans (Nat.zero_add _)
  have hsubs : f.init.numSubs = f.subs.length := f.numSubs
  refine ⟨hsubs ▸ f.pos, fun i l hl => ?_, fun i l hl => ?_⟩
  · obtain ⟨x, hx⟩ := (f.listed.out i l).mp hl
    rw [(f.link_eq hx).2, hsubs]
    exact f.listed.dest _ (List.mem_of_getElem? hx)
  · obtain ⟨x, j, hx, -⟩ := (f.listed.into i l).mp hl
    rw [(f.link_eq hx).1, hsubs, ← hlen]
    exact f.listed.src _ (List.mem_of_getElem? hx)

end Init

/-! ## The queue in memory -/

/-- `sentinal`, with the nodes that are allocated. Values leave at `last`; those from `brk` on have
never been allocated. -/
structure Sentinal where
  first : Option Nat
  last : Option Nat
  nodes : Nat → Option (Lib.Cell Nat)
  brk : Nat

namespace Sentinal

/-- `queue_init`. -/
def init : Sentinal := { first := none, last := none, nodes := fun _ => none, brk := 0 }

/-- `enqueue`. -/
def enqueue (q : Sentinal) (val : Nat) : Sentinal :=
  let nodes := update q.nodes q.brk (some ⟨val, none⟩)
  match q.first with
  | none => { first := some q.brk, last := some q.brk, nodes := nodes, brk := q.brk + 1 }
  | some a =>
    { first := some q.brk
      last := q.last
      nodes := update nodes a ((nodes a).map fun c => { c with next := some q.brk })
      brk := q.brk + 1 }

/-- `dequeue`. It has no result where it exits, or where `last` is a bad pointer. -/
def dequeue (q : Sentinal) : Option (Nat × Sentinal) := do
  let leave ← q.last
  let c ← q.nodes leave
  some (c.val,
    { q with last := c.next, first := if c.next = none then none else q.first, nodes := update q.nodes leave none })

/-- `queue_is_empty`. -/
def isEmpty (q : Sentinal) : Bool := q.first.isNone

/-- The queue has these nodes, linked in the order in which they leave, each at an address of its
own. -/
structure Holds (q : Sentinal) (ns : List (Nat × Nat)) : Prop where
  segment : Segment q.nodes q.last ns none
  nodup : (ns.map Prod.fst).Nodup
  fresh : ∀ n ∈ ns, n.1 < q.brk
  first : q.first = Lib.LinkedQueue.stop ns

variable {q : Sentinal} {ns : List (Nat × Nat)} {n : Nat × Nat}

theorem holds_init : init.Holds [] := ⟨rfl, List.nodup_nil, fun _ hn => absurd hn List.not_mem_nil, rfl⟩

theorem Holds.isEmpty (h : q.Holds ns) : q.isEmpty = true ↔ ns = [] := by
  unfold Sentinal.isEmpty
  rw [h.first]
  rcases List.eq_nil_or_concat' ns with rfl | ⟨ns, n, rfl⟩
  · exact ⟨fun _ => rfl, fun _ => rfl⟩
  · rw [Lib.LinkedQueue.stop_concat]
    simp

/-- A value is put behind all others. -/
theorem Holds.enqueue (h : q.Holds ns) (val : Nat) : ∃ a, (q.enqueue val).Holds (ns ++ [(a, val)]) := by
  refine ⟨q.brk, ?_⟩
  have hapart : ∀ n ∈ ns, n.1 ≠ q.brk := fun n hn => (h.fresh n hn).ne
  rcases List.eq_nil_or_concat' ns with rfl | ⟨ns, n, rfl⟩
  · have hfirst : q.first = none := h.first
    unfold Sentinal.enqueue
    rw [hfirst]
    refine ⟨⟨rfl, none, update_self _ _ _, rfl⟩, List.nodup_singleton _, fun m hm => ?_, rfl⟩
    rw [List.mem_singleton.mp hm]
    exact Nat.lt_succ_self _
  · have hfirst : q.first = some n.1 := h.first.trans Lib.LinkedQueue.stop_concat
    obtain ⟨m, hpre, hm, p, hcell, hp⟩ := segment_append.mp h.segment
    have hn := hapart n (List.mem_append_right _ (List.mem_singleton_self n))
    have hpost : ∀ m ∈ ns, m.1 ≠ n.1 := by
      have hnodup := h.nodup
      rw [List.map_append, List.nodup_append] at hnodup
      exact fun m hm => hnodup.2.2 m.1 (List.mem_map_of_mem hm) n.1 (List.mem_singleton_self _)
    unfold Sentinal.enqueue
    rw [hfirst]
    dsimp only
    refine ⟨segment_append.mpr ⟨some q.brk, segment_append.mpr ⟨some n.1, ?_, rfl, some q.brk, ?_, rfl⟩, rfl, none, ?_, rfl⟩,
      ?_, fun m hm => ?_, by rw [Lib.LinkedQueue.stop_concat]⟩
    · refine (hm ▸ hpre).congr fun m hmem => ?_
      dsimp only
      rw [update_of_ne (hpost m hmem), update_of_ne (hapart m (List.mem_append_left _ hmem))]
    · dsimp only
      rw [update_self, update_of_ne hn, hcell]
      rfl
    · dsimp only
      rw [update_of_ne hn.symm, update_self]
    · rw [List.map_append, List.nodup_append]
      refine ⟨h.nodup, List.nodup_singleton _, fun x hx y hy => ?_⟩
      obtain ⟨m, hmem, rfl⟩ := List.mem_map.mp hx
      rw [List.mem_singleton.mp hy]
      exact hapart m hmem
    · rcases List.mem_append.mp hm with hold | hnew
      · exact Nat.lt_succ_of_lt (h.fresh m hold)
      · rw [List.mem_singleton.mp hnew]
        exact Nat.lt_succ_self _

/-- The value that has been there longest leaves. -/
theorem Holds.dequeue (h : q.Holds (n :: ns)) : ∃ q', q.dequeue = some (n.2, q') ∧ q'.Holds ns := by
  obtain ⟨hlast, p, hcell, hrest⟩ := h.segment
  have hapart := List.nodup_cons.mp h.nodup
  have hp := hrest.start_eq
  refine ⟨_, by rw [Sentinal.dequeue, hlast, Option.bind_eq_bind, Option.bind_some, hcell]; rfl, ?_⟩
  refine ⟨hrest.congr fun m hm => update_of_ne (fun heq : m.1 = n.1 => hapart.1 (heq ▸ List.mem_map_of_mem hm)) _ _, hapart.2,
    fun m hm => h.fresh m (List.mem_cons_of_mem n hm), ?_⟩
  dsimp only
  rw [hp, h.first]
  cases ns with
  | nil => rfl
  | cons m ns => rw [Lib.LinkedQueue.stop_cons_cons, if_neg (by simp)]

end Sentinal

/-! ## The search in memory -/

/-- What `process` works on. -/
structure Machine where
  sub : Nat → UInt8
  link : Nat → UInt8
  queue : Sentinal

namespace Machine

variable (t : Topology) (g : Grid)

/-- A line of the substation that was taken from the queue. -/
def visit (m : Machine) (l far : Nat) : Machine :=
  if g.sw (t.link l).srcSw = 1 ∧ g.sw (t.link l).destSw = 1 then
    if m.sub far = 0 then { link := update m.link l 1, sub := update m.sub far 1, queue := m.queue.enqueue far }
    else { m with link := update m.link l 1 }
  else m

/-- One round of the loop. -/
def round (m : Machine) : Option Machine :=
  m.queue.dequeue.map fun x =>
    let m := { m with queue := x.2 }
    if g.tx x.1 = 0 then m
    else
      let m := (t.sub x.1).outLines.foldl (fun m l => m.visit t g l (t.link l).destSub) m
      (t.sub x.1).inLines.foldl (fun m l => m.visit t g l (t.link l).srcSub) m

/-- `while (!queue_is_empty())`, for so many rounds at most. -/
def loop : Nat → Machine → Option Machine
  | 0, m => if m.queue.isEmpty then some m else none
  | n + 1, m => if m.queue.isEmpty then some m else m.round t g >>= loop n

/-- Before the loop. -/
def start : Machine := { sub := fun j => if j = 0 then 1 else 0, link := fun _ => 0, queue := Sentinal.init.enqueue 0 }

/-- `process`, with a bound on the rounds of its search. -/
def process (n : Nat) : Option Grid :=
  (loop t g n start).map fun m =>
    let link := brokenLinks t g m.link
    { g with
      sub := m.sub
      link := link
      stat := (statWrites t g m.sub link).foldl (fun stat w => update stat w.1 w.2) g.stat }

variable {t g}

/-- The search with its queue in memory is where the one with a list is. -/
structure At (m : Machine) (b : Search) : Prop where
  sub : m.sub = b.sub
  link : m.link = b.link
  queue : ∃ ns, m.queue.Holds ns ∧ ns.map Prod.snd = b.queue

variable {m : Machine} {b : Search} {lines : List Nat} {far : Nat → Nat}

theorem At.visit (h : m.At b) (l far : Nat) : (m.visit t g l far).At (b.visit t g l far) := by
  obtain ⟨hsub, hlink, ns, hns, hqueue⟩ := h
  unfold Machine.visit Search.visit
  rw [hsub, hlink]
  split
  · split
    · obtain ⟨a, ha⟩ := hns.enqueue far
      exact ⟨rfl, rfl, ns ++ [(a, far)], ha, by rw [List.map_append, hqueue]; rfl⟩
    · exact ⟨rfl, rfl, ns, hns, hqueue⟩
  · exact ⟨hsub, hlink, ns, hns, hqueue⟩

theorem At.foldl (h : m.At b) :
    (lines.foldl (fun m l => m.visit t g l (far l)) m).At (lines.foldl (fun b l => b.visit t g l (far l)) b) := by
  induction lines generalizing m b with
  | nil => exact h
  | cons l lines ih => exact ih (h.visit l (far l))

/-- A round finds its value in the queue. -/
theorem At.round (h : m.At b) (hq : b.queue ≠ []) : ∃ m', m.round t g = some m' ∧ m'.At (b.round t g) := by
  obtain ⟨hsub, hlink, ns, hns, hqueue⟩ := h
  cases ns with
  | nil => exact absurd hqueue.symm hq
  | cons n ns =>
    obtain ⟨q', hq', hholds⟩ := hns.dequeue
    have hpop : Machine.At { m with queue := q' } { b with queue := ns.map Prod.snd } := ⟨hsub, hlink, ns, hholds, rfl⟩
    unfold Machine.round Search.round
    rw [hq', ← hqueue, List.map_cons]
    refine ⟨_, rfl, ?_⟩
    dsimp only
    by_cases htx : g.tx n.2 = 0
    · rw [if_pos htx, if_pos htx]
      exact hpop
    · rw [if_neg htx, if_neg htx]
      exact hpop.foldl.foldl

/-- The loop does what as many rounds with a list do. -/
theorem At.loop (h : m.At b) {n : Nat} (hdone : ((Search.round t g)^[n] b).queue = []) :
    ∃ m', Machine.loop t g n m = some m' ∧ m'.At ((Search.round t g)^[n] b) := by
  induction n generalizing m b with
  | zero =>
    obtain ⟨ns, hns, hqueue⟩ := h.queue
    refine ⟨m, if_pos (hns.isEmpty.mpr ?_), h⟩
    exact List.map_eq_nil_iff.mp (hqueue.trans hdone)
  | succ n ih =>
    obtain ⟨ns, hns, hqueue⟩ := h.queue
    unfold Machine.loop
    by_cases hq : b.queue = []
    · have hsame : (Search.round t g)^[n + 1] b = b :=
        Function.iterate_fixed (by unfold Search.round; rw [hq]) _
      rw [if_pos (hns.isEmpty.mpr (List.map_eq_nil_iff.mp (hqueue.trans hq))), hsame]
      exact ⟨m, rfl, h⟩
    · obtain ⟨m', hm', hround⟩ := h.round (t := t) (g := g) hq
      have hne : ¬ m.queue.isEmpty = true := fun hempty => hq (by rw [← hqueue, hns.isEmpty.mp hempty]; rfl)
      rw [if_neg hne, hm']
      exact ih hround hdone

theorem at_start : start.At Search.start := by
  obtain ⟨a, ha⟩ := Sentinal.holds_init.enqueue 0
  exact ⟨rfl, rfl, _, ha, rfl⟩

/-- **The loop ends**, and has found what `process` of `Spire.ScadaMaster` finds. -/
theorem process_eq (h : t.Closed) : process t g t.numSubs = some (Scada.process t g) := by
  obtain ⟨m, hm, hsub, hlink, -⟩ := at_start.loop (search_done (g := g) h)
  unfold process Scada.process
  rw [hm, Option.map_some, hsub, hlink]
  rfl

end Machine

/-! ## Where power gets -/

section Power

variable (t : Topology) (g : Grid)

/-- The two switches of a line are closed. -/
def Conducts (l : Nat) : Prop := g.sw (t.link l).srcSw = 1 ∧ g.sw (t.link l).destSw = 1

/-- The substation lists the line, with the other at its far end. -/
def Lists (i l far : Nat) : Prop :=
  l ∈ (t.sub i).outLines ∧ far = (t.link l).destSub ∨ l ∈ (t.sub i).inLines ∧ far = (t.link l).srcSub

/-- Power that gets to one substation gets to the other. -/
def Feeds (i far : Nat) : Prop := g.tx i ≠ 0 ∧ ∃ l, Lists t i l far ∧ Conducts t g l

/-- Power gets to a substation from the first one. -/
def Energised : Nat → Prop := Relation.ReflTransGen (Feeds t g) 0

/-- A closed line is listed where there is power that is passed on. -/
def Live (l : Nat) : Prop := Conducts t g l ∧ ∃ i far, Energised t g i ∧ g.tx i ≠ 0 ∧ Lists t i l far

/-- What the search should find. -/
structure PowerFlow (g' : Grid) : Prop where
  devices : g'.tx = g.tx ∧ g'.sw = g.sw
  sub_one : ∀ i, g'.sub i = 1 ↔ Energised t g i
  sub_zero : ∀ i, g'.sub i = 0 ↔ ¬ Energised t g i
  tripped : ∀ l < t.numLinks, g'.link l = 2 ↔ g.sw (t.link l).srcSw = 2
  live : ∀ l < t.numLinks, g.sw (t.link l).srcSw ≠ 2 → (g'.link l = 1 ↔ Live t g l)

variable {t g}

/-- What holds all along: what is marked has power, and where it is not that of a substation in the
queue, nor of one in `P`, it is passed on. -/
structure Search.Inv (t : Topology) (g : Grid) (P : Nat → Prop) (b : Search) : Prop where
  first : b.sub 0 = 1
  queued : ∀ i ∈ b.queue, b.sub i = 1
  sub : ∀ i, b.sub i = 0 ∨ b.sub i = 1 ∧ Energised t g i
  link : ∀ l, b.link l = 0 ∨ b.link l = 1 ∧ Live t g l
  passed : ∀ i, b.sub i = 1 → i ∉ b.queue → ¬ P i → g.tx i ≠ 0 → ∀ l far, Lists t i l far → Conducts t g l →
    b.link l = 1 ∧ b.sub far = 1

/-- What is marked stays marked. -/
structure Search.Grows (b b' : Search) : Prop where
  sub : ∀ i, b.sub i = 1 → b'.sub i = 1
  link : ∀ l, b.link l = 1 → b'.link l = 1

variable {b b' b'' : Search} {P : Nat → Prop} {i l far : Nat}

theorem Search.Grows.trans (h : b.Grows b') (h' : b'.Grows b'') : b.Grows b'' :=
  ⟨fun i hi => h'.sub i (h.sub i hi), fun l hl => h'.link l (h.link l hl)⟩

theorem Search.inv_start : Search.start.Inv t g fun _ => False := by
  refine ⟨rfl, fun i hi => if_pos (List.mem_singleton.mp hi), fun i => ?_, fun _ => Or.inl rfl, fun i hi hq => ?_⟩
  · by_cases h0 : i = 0
    · exact Or.inr ⟨if_pos h0, h0 ▸ Relation.ReflTransGen.refl⟩
    · exact Or.inl (if_neg h0)
  · by_cases h0 : i = 0
    · exact absurd (h0 ▸ List.mem_singleton_self 0) hq
    · have hzero : Search.start.sub i = 0 := if_neg h0
      rw [hzero] at hi
      cases hi

/-- **A line is looked at.** Where it is closed, it and the substation at its end are marked. -/
theorem Search.Inv.visit (h : b.Inv t g P) (hi : b.sub i = 1) (htx : g.tx i ≠ 0) (hl : Lists t i l far) :
    (b.visit t g l far).Inv t g P ∧ b.Grows (b.visit t g l far) ∧
      (Conducts t g l → (b.visit t g l far).link l = 1 ∧ (b.visit t g l far).sub far = 1) := by
  have hpower : Energised t g i := ((h.sub i).resolve_left (by rw [hi]; decide)).2
  unfold Search.visit
  split
  next hclosed =>
    have hlive : Live t g l := ⟨hclosed, i, far, hpower, htx, hl⟩
    have hlink : ∀ l', update b.link l 1 l' = 0 ∨ update b.link l 1 l' = 1 ∧ Live t g l' := by
      intro l'
      by_cases heq : l' = l
      · rw [heq, update_self]
        exact Or.inr ⟨rfl, hlive⟩
      · rw [update_of_ne heq]
        exact h.link l'
    have hgrows : ∀ l', b.link l' = 1 → update b.link l 1 l' = 1 := by
      intro l' hl'
      by_cases heq : l' = l
      · rw [heq, update_self]
      · rwa [update_of_ne heq]
    split
    next hdark =>
      have hmark : ∀ j, b.sub j = 1 → update b.sub far 1 j = 1 := by
        intro j hj
        by_cases heq : j = far
        · rw [heq, update_self]
        · rwa [update_of_ne heq]
      refine ⟨⟨hmark 0 h.first, fun j hj => ?_, fun j => ?_, hlink, fun j hj hq hP htx' l' far' hl' hc => ?_⟩, ⟨hmark, hgrows⟩,
        fun _ => ⟨update_self _ _ _, update_self _ _ _⟩⟩
      · rcases List.mem_append.mp hj with hold | hnew
        · exact hmark j (h.queued j hold)
        · rw [List.mem_singleton.mp hnew]
          exact update_self _ _ _
      · by_cases heq : j = far
        · exact Or.inr ⟨heq ▸ update_self _ _ _, heq ▸ hpower.tail ⟨htx, l, hl, hclosed⟩⟩
        · dsimp only
          rw [update_of_ne heq]
          exact h.sub j
      · -- what is marked now is in the queue
        have hne : j ≠ far := fun heq => hq (heq ▸ List.mem_append_right _ (List.mem_singleton_self _))
        dsimp only at hj
        rw [update_of_ne hne] at hj
        obtain ⟨h₁, h₂⟩ := h.passed j hj (fun hmem => hq (List.mem_append_left _ hmem)) hP htx' l' far' hl' hc
        exact ⟨hgrows l' h₁, hmark far' h₂⟩
    next hlit =>
      refine ⟨⟨h.first, h.queued, h.sub, hlink, fun j hj hq hP htx' l' far' hl' hc => ?_⟩, ⟨fun _ => id, hgrows⟩,
        fun _ => ⟨update_self _ _ _, ((h.sub far).resolve_left hlit).1⟩⟩
      obtain ⟨h₁, h₂⟩ := h.passed j hj hq hP htx' l' far' hl' hc
      exact ⟨hgrows l' h₁, h₂⟩
  next hopen => exact ⟨h, ⟨fun _ => id, fun _ => id⟩, fun hc => absurd hc hopen⟩

/-- Some lines of a substation are looked at. -/
theorem Search.Inv.foldl {lines : List Nat} (far : Nat → Nat) (h : b.Inv t g P) (hi : b.sub i = 1) (htx : g.tx i ≠ 0)
    (hl : ∀ l ∈ lines, Lists t i l (far l)) :
    (lines.foldl (fun b l => b.visit t g l (far l)) b).Inv t g P ∧
      b.Grows (lines.foldl (fun b l => b.visit t g l (far l)) b) ∧
      ∀ l ∈ lines, Conducts t g l → (lines.foldl (fun b l => b.visit t g l (far l)) b).link l = 1 ∧
        (lines.foldl (fun b l => b.visit t g l (far l)) b).sub (far l) = 1 := by
  induction lines generalizing b with
  | nil => exact ⟨h, ⟨fun _ => id, fun _ => id⟩, fun l hl => absurd hl List.not_mem_nil⟩
  | cons l lines ih =>
    obtain ⟨hinv, hgrows, hmarks⟩ := h.visit hi htx (hl l List.mem_cons_self)
    obtain ⟨hinv', hgrows', hmarks'⟩ := ih hinv (hgrows.sub i hi) fun l' hl' => hl l' (List.mem_cons_of_mem l hl')
    refine ⟨hinv', hgrows.trans hgrows', fun l' hl' hc => ?_⟩
    rcases List.mem_cons.mp hl' with rfl | hmem
    · obtain ⟨h₁, h₂⟩ := hmarks hc
      exact ⟨hgrows'.link _ h₁, hgrows'.sub _ h₂⟩
    · exact hmarks' l' hmem hc

/-- **A round.** -/
theorem Search.Inv.round (h : b.Inv t g fun _ => False) : (b.round t g).Inv t g fun _ => False := by
  unfold Search.round
  split
  · exact h
  next i queue hqueue =>
  have hi : b.sub i = 1 := h.queued i (hqueue ▸ List.mem_cons_self)
  have hpop : Search.Inv t g (· = i) { b with queue := queue } := by
    refine ⟨h.first, fun j hj => h.queued j (hqueue ▸ List.mem_cons_of_mem i hj), h.sub, h.link,
      fun j hj hq hne => h.passed j hj ?_ id⟩
    rw [hqueue, List.mem_cons, not_or]
    exact ⟨hne, hq⟩
  split
  next htx =>
    refine ⟨h.first, hpop.queued, h.sub, h.link, fun j hj hq _ htx' => hpop.passed j hj hq ?_ htx'⟩
    rintro rfl
    exact htx' htx
  next htx =>
    obtain ⟨hinv, hgrows, hmarks⟩ := hpop.foldl (fun l => (t.link l).destSub) hi htx fun l hl => Or.inl ⟨hl, rfl⟩
    obtain ⟨hinv', hgrows', hmarks'⟩ := hinv.foldl (fun l => (t.link l).srcSub) (hgrows.sub i hi) htx
      fun l hl => Or.inr ⟨hl, rfl⟩
    refine ⟨hinv'.first, hinv'.queued, hinv'.sub, hinv'.link, fun j hj hq _ htx' l far hl hc => ?_⟩
    by_cases hji : j = i
    · subst hji
      rcases hl with ⟨hl, rfl⟩ | ⟨hl, rfl⟩
      · exact ⟨hgrows'.link l (hmarks l hl hc).1, hgrows'.sub _ (hmarks l hl hc).2⟩
      · exact hmarks' l hl hc
    · exact hinv'.passed j hj hq hji htx' l far hl hc

/-- Where nothing is left in the queue, all that has power is marked. -/
theorem Search.Inv.energised (h : b.Inv t g fun _ => False) (hq : b.queue = []) (i : Nat) :
    b.sub i = 1 ↔ Energised t g i := by
  constructor
  · intro hi
    exact ((h.sub i).resolve_left (by rw [hi]; decide)).2
  · intro hi
    induction hi with
    | refl => exact h.first
    | tail _ hfeeds ih =>
      obtain ⟨htx, l, hl, hc⟩ := hfeeds
      exact (h.passed _ ih (by rw [hq]; exact List.not_mem_nil) id htx l _ hl hc).2

theorem Search.Inv.live (h : b.Inv t g fun _ => False) (hq : b.queue = []) (l : Nat) : b.link l = 1 ↔ Live t g l := by
  constructor
  · intro hl
    exact ((h.link l).resolve_left (by rw [hl]; decide)).2
  · rintro ⟨hc, i, far, hi, htx, hl⟩
    exact (h.passed i ((h.energised hq i).mpr hi) (by rw [hq]; exact List.not_mem_nil) id htx l far hl hc).1

/-- **What `process` finds.** -/
theorem powerFlow_process (h : t.Closed) : PowerFlow t g (process t g) := by
  have hdone := search_done (g := g) h
  have hinv : (search t g).Inv t g fun _ => False :=
    Function.Iterate.rec (fun b : Search => b.Inv t g fun _ => False) Search.inv_start (fun _ => Search.Inv.round) t.numSubs
  have hlink : ∀ l < t.numLinks, (process t g).link l = if g.sw (t.link l).srcSw = 2 then 2 else (search t g).link l := by
    intro l hl
    show brokenLinks t g _ l = _
    unfold brokenLinks
    simp only [hl, true_and]
  refine ⟨⟨rfl, rfl⟩, hinv.energised hdone, fun i => ?_, fun l hl => ?_, fun l hl htrip => ?_⟩
  · rw [← hinv.energised hdone]
    show (search t g).sub i = 0 ↔ _
    rcases hinv.sub i with hzero | ⟨hone, -⟩
    · rw [hzero]
      decide
    · rw [hone]
      decide
  · rw [hlink l hl]
    split
    next htrip => exact ⟨fun _ => htrip, fun _ => rfl⟩
    next htrip =>
      refine ⟨fun h2 => ?_, fun h2 => absurd h2 htrip⟩
      rcases hinv.link l with hzero | ⟨hone, -⟩
      · rw [hzero] at h2
        exact absurd h2 (by decide)
      · rw [hone] at h2
        exact absurd h2 (by decide)
  · rw [hlink l hl, if_neg htrip]
    exact hinv.live hdone l

/-- Two substations and a line from the first to the second. -/
def Ini.pair : Ini :=
  { tooltip := ['0', '0', '1', '1', '2', '2', '3']
    subs := [⟨0, 2, [4], [⟨6, 4, 5, 1⟩]⟩, ⟨1, 3, [5], []⟩]
    pos := by decide
    numSubs := by decide
    numTxs := by decide
    numSws := by decide
    numLines := by decide
    ids := by decide
    room := by decide
    roomIn := fun d => by
      refine (List.Sublist.flatMap_right _ fun s _ => List.filter_sublist (l := s.1.lines)).length_le.trans ?_
      decide
    switches := by decide
    ends := by decide }

/-- **The power flow is reachability.** On the grid of any file, whatever the status of its devices,
the search ends and marks what power gets to. -/
theorem process_powers (f : Ini) (g : Grid) :
    ∃ n g', Machine.process f.init g n = some g' ∧ PowerFlow f.init g g' :=
  ⟨_, _, Machine.process_eq f.init_closed, powerFlow_process f.init_closed⟩

example : (Machine.process Ini.pair.init Grid.fresh 2).map (fun g => (g.sub 0, g.sub 1, g.link 0)) = some (1, 1, 1) := by
  decide

end Power

end Spire.Scada
