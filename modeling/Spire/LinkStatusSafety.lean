import Spire.Lib.Latest
import Spire.LinkStatus

/-!
# Link status changes converge

What a node has of a creator is its entry of the table and the costs of the creator's edges. A
message of the creator that is newer than the entry takes its place, and the costs of the edges are
then those of the entry again (`Holds`), since between two messages of one epoch a cost changes only
with its number (`costs_of_seqs`). So all that counts of the messages that came is the last one.
-/

namespace Spire.LinkStatus

open Function (update update_self update_of_ne)
open Flood (maxNodes nodes)

/-! ## The order of the messages -/

theorem mem_nodes {i : Nat} : i ∈ nodes ↔ 1 ≤ i ∧ i ≤ maxNodes := by
  rw [nodes, List.mem_range'_1]
  omega

theorem Older.asymm (a b : StatusChange) (h : Older a b) : ¬ Older b a := by
  rintro (h' | ⟨h', hle, i, hi, hlt⟩)
  · rcases h with h | ⟨h, -⟩ <;> omega
  · rcases h with h | ⟨-, hle', -⟩
    · omega
    · exact absurd (hle' i hi) (not_le.mpr hlt)

theorem Older.trans (a b d : StatusChange) (h : Older a b) (h' : Older b d) : Older a d := by
  rcases h with h | ⟨h, hle, i, hi, hlt⟩
  · rcases h' with h' | ⟨h', -⟩
    · exact .inl (h.trans h')
    · exact .inl (h' ▸ h)
  · rcases h' with h' | ⟨h', hle', -⟩
    · exact .inl (h ▸ h')
    · exact .inr ⟨h.trans h', fun j hj => (hle j hj).trans (hle' j hj), i, hi, hlt.trans_le (hle' i hi)⟩

/-! ## Processing -/

section Process

variable {c : Conf} {n : Node} {a : Arrival} {old new : StatusChange} {newEpoch : Bool} {is : List Nat}

/-- A cell that is not valid ends the loop. -/
theorem validate_of_invalid (hnot : ∃ i ∈ is, ¬ ValidCell c new i) (o w : Bool) : validate c old new newEpoch is o w = none := by
  induction is generalizing o w with
  | nil =>
    obtain ⟨i, hi, -⟩ := hnot
    cases hi
  | cons j is ih =>
    unfold validate
    by_cases hnbr : j ∉ c.neighborIds new.creator ∧ (0 < (new.cell j).seq ∨ (new.cell j).cost ≠ 0)
    · rw [if_pos hnbr]
    · rw [if_neg hnbr]
      by_cases hcost : j ∈ c.neighborIds new.creator ∧ (new.cell j).cost ≠ -1 ∧ (new.cell j).cost < c.refCost new.creator j
      · rw [if_pos hcost]
      · rw [if_neg hcost]
        have hvalid : ValidCell c new j := ⟨fun h => by grind, fun h => by grind⟩
        have hrest : ∃ i ∈ is, ¬ ValidCell c new i := by
          obtain ⟨i, hi, hbad⟩ := hnot
          rcases List.mem_cons.mp hi with rfl | hi
          · exact absurd hvalid hbad
          · exact ⟨i, hi, hbad⟩
        split
        · exact ih hrest o w
        · exact ih hrest _ _

/-- Otherwise it finds the cells with older and with newer numbers, if the epoch is not new. -/
theorem validate_of_valid (old : StatusChange) (newEpoch : Bool) (hvalid : ∀ i ∈ is, ValidCell c new i) (o w : Bool) :
    ∃ o' w', validate c old new newEpoch is o w = some (o', w') ∧
      (o' = true ↔ o = true ∨ newEpoch = false ∧ ∃ i ∈ is, (new.cell i).seq < (old.cell i).seq) ∧
      (w' = true ↔ w = true ∨ newEpoch = false ∧ ∃ i ∈ is, (old.cell i).seq < (new.cell i).seq) := by
  induction is generalizing o w with
  | nil => exact ⟨o, w, rfl, by simp, by simp⟩
  | cons j is ih =>
    have hj := hvalid j List.mem_cons_self
    have hrest : ∀ i ∈ is, ValidCell c new i := fun i hi => hvalid i (List.mem_cons_of_mem j hi)
    have hnbr : ¬ (j ∉ c.neighborIds new.creator ∧ (0 < (new.cell j).seq ∨ (new.cell j).cost ≠ 0)) := by
      rintro ⟨hnot, hsome⟩
      have hzero := hj.neighbor hnot
      omega
    have hcost : ¬ (j ∈ c.neighborIds new.creator ∧ (new.cell j).cost ≠ -1 ∧ (new.cell j).cost < c.refCost new.creator j) := by
      rintro ⟨hin, hne, hlt⟩
      have hok := hj.cost hin
      omega
    unfold validate
    rw [if_neg hnbr, if_neg hcost]
    cases newEpoch with
    | true =>
      obtain ⟨o', w', heq, ho, hw⟩ := ih hrest o w
      exact ⟨o', w', heq, by simpa using ho, by simpa using hw⟩
    | false =>
      obtain ⟨o', w', heq, ho, hw⟩ := ih hrest (o || decide ((new.cell j).seq < (old.cell j).seq))
        (w || decide ((old.cell j).seq < (new.cell j).seq))
      refine ⟨o', w', heq, ?_, ?_⟩
      · rw [ho]
        simp [or_assoc]
      · rw [hw]
        simp [or_assoc]

/-- A message that is not valid changes nothing. -/
theorem process_of_invalid (hnot : ¬ Valid c a.change) : n.processStatusChange c a = n := by
  have hcell : ∃ i ∈ nodes, ¬ ValidCell c a.change i := by
    simpa [Valid] using hnot
  unfold Node.processStatusChange
  dsimp only
  split
  · rfl
  · split
    · rfl
    · rw [validate_of_invalid hcell]

/-- Nor does one whose creator is not a node. -/
theorem process_of_creator (hnot : a.change.creator ∉ nodes) : n.processStatusChange c a = n := by
  rw [mem_nodes] at hnot
  exact if_pos (by omega)

/-- Nor does a valid one that is not newer than what is stored. -/
theorem process_of_not_older (hvalid : Valid c a.change) (hnot : ¬ Older (n.table a.change.creator) a.change) :
    n.processStatusChange c a = n := by
  unfold Node.processStatusChange
  dsimp only
  split
  · rfl
  · split
    · rfl
    · rename_i hepoch
      have hold : ¬ (n.table a.change.creator).epoch < a.change.epoch := fun hlt => hnot (.inl hlt)
      have hsame : (n.table a.change.creator).epoch = a.change.epoch := by omega
      rw [decide_eq_false hold]
      obtain ⟨o, w, heq, ho, hw⟩ := validate_of_valid (n.table a.change.creator) false hvalid false false
      rw [heq]
      dsimp only
      split
      · rfl
      · rename_i hmixed
        split
        · rfl
        · rename_i hnew
          have hw' := hw.mp (by simpa using hnew)
          have ho' : ¬ o = true := fun htrue => hmixed ⟨rfl, htrue, by simpa using hnew⟩
          rw [ho] at ho'
          push Not at ho'
          exact absurd (.inr ⟨hsame, fun i hi => ho'.2 rfl i hi, (hw'.resolve_left (by simp)).2⟩) hnot

/-- Applying a cost concerns that cost. -/
theorem apply_eq (c : Conf) (n : Node) (a b : Nat) (cost : Int) : ∃ f, n.applyLinkStatusChange c a b cost = { n with cost := f } := by
  unfold Node.applyLinkStatusChange
  split
  · exact ⟨n.cost, rfl⟩
  · split
    · exact ⟨n.cost, rfl⟩
    · split
      · exact ⟨n.cost, rfl⟩
      · exact ⟨_, rfl⟩

theorem applyCells_eq (c : Conf) (n : Node) (old new : StatusChange) (newEpoch : Bool) (is : List Nat) :
    ∃ f, n.applyCells c old new newEpoch is = { n with cost := f } := by
  unfold Node.applyCells
  induction is generalizing n with
  | nil => exact ⟨n.cost, rfl⟩
  | cons i is ih =>
    rw [List.foldl_cons]
    split
    · obtain ⟨f, hf⟩ := apply_eq c n new.creator i (new.cell i).cost
      obtain ⟨g, hg⟩ := ih (n.applyLinkStatusChange c new.creator i (new.cell i).cost)
      rw [hf] at hg
      exact ⟨g, hf ▸ hg⟩
    · exact ih n

/-- A valid one that is newer takes the place of what is stored, and the costs that are new are applied. -/
theorem process_of_older (hcreator : a.change.creator ∈ nodes) (hvalid : Valid c a.change)
    (hold : Older (n.table a.change.creator) a.change) :
    (n.processStatusChange c a).table = update n.table a.change.creator a.change ∧
      (n.processStatusChange c a).cost = (n.applyCells c (n.table a.change.creator) a.change
        (decide ((n.table a.change.creator).epoch < a.change.epoch)) nodes).cost := by
  rw [mem_nodes] at hcreator
  obtain ⟨f, hf⟩ := applyCells_eq c n (n.table a.change.creator) a.change
    (decide ((n.table a.change.creator).epoch < a.change.epoch)) nodes
  have hepoch : ¬ a.change.epoch < (n.table a.change.creator).epoch := by
    rcases hold with h | ⟨h, -⟩ <;> omega
  obtain ⟨o, w, heq, ho, hw⟩ := validate_of_valid (n.table a.change.creator)
    (decide ((n.table a.change.creator).epoch < a.change.epoch)) hvalid false
    (decide ((n.table a.change.creator).epoch < a.change.epoch))
  have hnew : w = true := by
    rcases hold with h | ⟨h, -, hlt⟩
    · exact hw.mpr (.inl (decide_eq_true h))
    · exact hw.mpr (.inr ⟨decide_eq_false (by omega), hlt⟩)
  have hmixed : ¬ (decide ((n.table a.change.creator).epoch < a.change.epoch) = false ∧ o = true ∧ w = true) := by
    rintro ⟨hsame, htrue, -⟩
    rcases hold with h | ⟨-, hle, -⟩
    · exact absurd h (of_decide_eq_false hsame)
    · obtain ⟨-, i, hi, hlt⟩ := (ho.mp htrue).resolve_left (by simp)
      exact absurd (hle i hi) (not_le.mpr hlt)
  unfold Node.processStatusChange
  dsimp only
  rw [if_neg (by omega), if_neg hepoch, heq]
  dsimp only
  rw [if_neg hmixed, if_neg (by simp [hnew]), hf]
  exact ⟨rfl, rfl⟩

theorem apply_cost {a b : Nat} {cost : Int} (hcost : cost = -1 ∨ c.refCost a b ≤ cost) (n : Node) (i j : Nat) :
    (n.applyLinkStatusChange c a b cost).cost i j = if i = a ∧ j = b then (n.cost i j).map fun _ => cost else n.cost i j := by
  unfold Node.applyLinkStatusChange
  rw [if_neg (by omega)]
  by_cases hij : i = a ∧ j = b
  · obtain ⟨rfl, rfl⟩ := hij
    rw [if_pos ⟨rfl, rfl⟩]
    cases hold : n.cost i j with
    | none => exact hold
    | some old =>
      dsimp only
      split
      · rename_i heq
        rw [hold, heq]
        rfl
      · simp
  · rw [if_neg hij]
    cases n.cost a b with
    | none => rfl
    | some old =>
      dsimp only
      split
      · rfl
      · dsimp only
        rcases eq_or_ne i a with rfl | hi
        · rw [update_self, update_of_ne fun hj => hij ⟨rfl, hj⟩]
        · rw [update_of_ne hi]

/-- The costs after the loop that applies them. -/
theorem applyCells_cost (hvalid : ∀ i ∈ is, ValidCell c new i) (n : Node) (old : StatusChange) (newEpoch : Bool) (i j : Nat) :
    (n.applyCells c old new newEpoch is).cost i j =
      if i = new.creator ∧ j ∈ is ∧ j ∈ c.neighborIds new.creator ∧ (newEpoch ∨ (old.cell j).seq < (new.cell j).seq) then
        (n.cost i j).map fun _ => (new.cell j).cost
      else n.cost i j := by
  unfold Node.applyCells
  induction is generalizing n with
  | nil => simp
  | cons k is ih =>
    have hk := hvalid k List.mem_cons_self
    rw [List.foldl_cons, ih fun i hi => hvalid i (List.mem_cons_of_mem k hi)]
    by_cases hnew : k ∈ c.neighborIds new.creator ∧ (newEpoch ∨ (old.cell k).seq < (new.cell k).seq)
    · rw [if_pos hnew, apply_cost (hk.cost hnew.1)]
      by_cases hij : i = new.creator ∧ j = k
      · rw [if_pos hij]
        obtain ⟨rfl, rfl⟩ := hij
        have hin : new.creator = new.creator ∧ j ∈ j :: is ∧ j ∈ c.neighborIds new.creator ∧
            (newEpoch ∨ (old.cell j).seq < (new.cell j).seq) := ⟨rfl, List.mem_cons_self, hnew⟩
        rw [if_pos hin, Option.map_map]
        split <;> rfl
      · rw [if_neg hij]
        congr 1
        simp only [List.mem_cons, eq_iff_iff]
        grind
    · rw [if_neg hnew]
      congr 1
      simp only [List.mem_cons, eq_iff_iff]
      grind

end Process

/-! ## Creators -/

section Creators

variable {c : Conf} {id nbr : Nat} {log : List StatusChange} {m stored : StatusChange} {cost : Int}

theorem mem_nodes_of_neighbor {i : Nat} (h : i ∈ c.neighborIds id) : i ∈ nodes := by
  obtain ⟨e, he, hi⟩ := List.mem_flatMap.mp h
  have hmem := c.edges_mem e he
  rcases List.mem_append.mp hi with hi | hi
  · split at hi
    · rw [List.mem_singleton.mp hi]
      exact hmem.2
    · cases hi
  · split at hi
    · rw [List.mem_singleton.mp hi]
      exact hmem.1
    · cases hi

/-- The configuration has a cost for the link to every neighbour. -/
theorem findCost_of_neighbor {i : Nat} (h : i ∈ c.neighborIds id) : (c.findCost id i).isSome := by
  obtain ⟨e, he, hi⟩ := List.mem_flatMap.mp h
  have hkey : c.key e.1.1 e.1.2 = c.key id i := by
    rcases List.mem_append.mp hi with hi | hi
    · split at hi
      · rename_i heq
        rw [List.mem_singleton.mp hi, heq]
      · cases hi
    · split at hi
      · rename_i heq
        rw [List.mem_singleton.mp hi, ← heq.2]
        unfold Conf.key
        rcases lt_trichotomy e.1.1 e.1.2 with hlt | heq' | hgt
        · rw [if_neg (fun h => absurd h.2 (not_lt.mpr hlt.le)), if_pos ⟨heq.1, hlt⟩]
        · rw [heq']
        · rw [if_pos ⟨heq.1, hgt⟩, if_neg (fun h => absurd h.2 (not_lt.mpr hgt.le))]
      · cases hi
  rw [Conf.findCost, Option.isSome_map, List.find?_isSome]
  exact ⟨e, he, decide_eq_true hkey⟩

theorem refCost_range (c : Conf) (a b : Nat) : -2 ^ 15 ≤ c.refCost a b ∧ c.refCost a b < 2 ^ 15 := by
  unfold Conf.refCost Conf.findCost
  cases h : c.edges.find? fun e => decide (c.key e.1.1 e.1.2 = c.key a b) with
  | none => exact ⟨by simp, by simp⟩
  | some e => exact c.costs e (List.mem_of_find?_eq_some h)

/-- No status gives a cost below the configured one. -/
theorem newCost_ge {status : Nat} (h : newCost c id nbr status = some cost) : cost = -1 ∨ c.refCost id nbr ≤ cost := by
  have hrange := refCost_range c id nbr
  have hpenalty := c.lossPenalty_lt
  unfold newCost at h
  split at h
  · cases h
    exact .inl rfl
  · cases h
    exact .inr (le_refl _)
  · cases h
    refine .inr (le_min ?_ (by omega))
    rcases lt_or_ge (c.refCost id nbr) 0 with hneg | hpos
    · exact hneg.le.trans (Int.emod_nonneg _ (by decide))
    · rw [Int.emod_eq_of_lt (by omega) (by omega)]
      omega
  · cases h

theorem valid_own (c : Conf) (id : Nat) : Valid c (.own c id) := fun _ _ =>
  { neighbor := fun h => ⟨rfl, if_neg h⟩
    cost := fun h => .inl (if_pos h) }

theorem generate_cell_self (stored : StatusChange) (sourceEpoch nbr : Nat) (cost : Int) :
    (stored.generate sourceEpoch nbr cost).cell nbr = ⟨((stored.cell nbr).seq + 1) % 2 ^ 64, cost⟩ := update_self _ _ _

theorem generate_cell_of_ne (stored : StatusChange) (sourceEpoch : Nat) (cost : Int) {i : Nat} (h : i ≠ nbr) :
    (stored.generate sourceEpoch nbr cost).cell i = stored.cell i := update_of_ne h _ _

theorem valid_generate (h : Valid c stored) (hnbr : nbr ∈ c.neighborIds stored.creator)
    (hcost : cost = -1 ∨ c.refCost stored.creator nbr ≤ cost) (sourceEpoch : Nat) : Valid c (stored.generate sourceEpoch nbr cost) := by
  intro i hi
  rcases eq_or_ne i nbr with rfl | hne
  · refine ⟨fun hnot => absurd hnbr hnot, fun _ => ?_⟩
    rw [generate_cell_self]
    exact hcost
  · have hcell := h i hi
    refine ⟨fun hnot => ?_, fun hin => ?_⟩
    · rw [generate_cell_of_ne stored sourceEpoch cost hne]
      exact hcell.neighbor hnot
    · rw [generate_cell_of_ne stored sourceEpoch cost hne]
      exact hcell.cost hin

/-- What a correct creator sends is valid, names it and has an epoch. -/
theorem Generated.sound (h : Generated c id log) : ∀ m ∈ log, m.creator = id ∧ 0 < m.epoch ∧ Valid c m := by
  induction h with
  | nil => exact fun m hm => by cases hm
  | @generate log stored sourceEpoch nbr status cost _ hstored hepoch hnbr hcost ih =>
    have hold : stored.creator = id ∧ Valid c stored := by
      rcases hstored with rfl | hin
      · exact ⟨rfl, valid_own c id⟩
      · exact ⟨(ih stored hin).1, (ih stored hin).2.2⟩
    intro m hm
    rcases List.mem_append.mp hm with hm | hm
    · exact ih m hm
    · rw [List.mem_singleton.mp hm]
      refine ⟨hold.1, ?_, valid_generate hold.2 (hold.1 ▸ hnbr) (hold.1 ▸ newCost_ge hcost) sourceEpoch⟩
      change 0 < if stored.epoch = 0 then sourceEpoch else stored.epoch
      split <;> omega

/-- Within an epoch, a message that is newer than the one it is made of has the next number for one link. -/
theorem seq_of_older {sourceEpoch : Nat} (hepoch : stored.epoch = (stored.generate sourceEpoch nbr cost).epoch)
    (h : Older stored (stored.generate sourceEpoch nbr cost)) :
    nbr ∈ nodes ∧ ((stored.generate sourceEpoch nbr cost).cell nbr).seq = (stored.cell nbr).seq + 1 := by
  obtain ⟨-, -, j, hj, hlt⟩ := h.resolve_left (by omega)
  rcases eq_or_ne j nbr with rfl | hne
  · refine ⟨hj, ?_⟩
    rw [generate_cell_self] at hlt ⊢
    dsimp only at hlt ⊢
    have hle := Nat.mod_le ((stored.cell j).seq + 1) (2 ^ 64)
    omega
  · rw [generate_cell_of_ne stored sourceEpoch cost hne] at hlt
    exact absurd hlt (lt_irrefl _)

theorem epoch_generate (hpos : 0 < stored.epoch) (sourceEpoch nbr : Nat) (cost : Int) :
    (stored.generate sourceEpoch nbr cost).epoch = stored.epoch := if_neg hpos.ne'

/-- Each message of an increasing log has a number. -/
theorem Generated.exists_seq (h : Generated c id log) (hlog : log.Pairwise Older) :
    ∀ m ∈ log, ∃ i ∈ nodes, 0 < (m.cell i).seq := by
  induction h with
  | nil => exact fun m hm => by cases hm
  | @generate log stored sourceEpoch nbr status cost h hstored _ hnbr _ ih =>
    obtain ⟨hfront, -, hnew⟩ := List.pairwise_append.mp hlog
    intro m hm
    rcases List.mem_append.mp hm with hm | hm
    · exact ih hfront m hm
    · rw [List.mem_singleton.mp hm]
      refine ⟨nbr, mem_nodes_of_neighbor hnbr, ?_⟩
      rcases hstored with rfl | hin
      · rw [generate_cell_self]
        exact Nat.one_pos
      · have hepoch := epoch_generate (h.sound stored hin).2.1 sourceEpoch nbr cost
        rw [(seq_of_older hepoch.symm (hnew stored hin _ (List.mem_singleton_self _))).2]
        exact Nat.succ_pos _

/-- A new message and an old one of its epoch with the same number for a link have the same cost for it. -/
theorem cost_generate {sourceEpoch : Nat} (h : Generated c id log) (hlog : log.Pairwise Older)
    (hcosts : ∀ a ∈ log, ∀ b ∈ log, a.epoch = b.epoch → ∀ i ∈ nodes, (a.cell i).seq = (b.cell i).seq → (a.cell i).cost = (b.cell i).cost)
    (hstored : stored = .own c id ∨ stored ∈ log) (hnew : ∀ l ∈ log, Older l (stored.generate sourceEpoch nbr cost))
    (hm : m ∈ log) (hepoch : m.epoch = (stored.generate sourceEpoch nbr cost).epoch) {i : Nat} (hi : i ∈ nodes)
    (hseq : (m.cell i).seq = ((stored.generate sourceEpoch nbr cost).cell i).seq) :
    (m.cell i).cost = ((stored.generate sourceEpoch nbr cost).cell i).cost := by
  obtain ⟨-, hle, j, hj, hlt⟩ := (hnew m hm).resolve_left (by omega)
  rcases hstored with rfl | hin
  · -- the first message after a start has one number, so no older one has its epoch
    obtain ⟨k, hk, hpos⟩ := h.exists_seq hlog m hm
    have hzero : ∀ k ≠ nbr, ((StatusChange.generate (.own c id) sourceEpoch nbr cost).cell k).seq = 0 := by
      intro k hne
      rw [generate_cell_of_ne _ sourceEpoch cost hne]
      rfl
    have hone : ((StatusChange.generate (.own c id) sourceEpoch nbr cost).cell nbr).seq = 1 := by
      rw [generate_cell_self]
      rfl
    have hjn : j = nbr := by
      by_contra hne
      rw [hzero j hne] at hlt
      exact absurd hlt (Nat.not_lt_zero _)
    have hkn : k = nbr := by
      by_contra hne
      have hlek := hle k hk
      rw [hzero k hne] at hlek
      omega
    subst hjn hkn
    omega
  · have hstill := epoch_generate (h.sound stored hin).2.1 sourceEpoch nbr cost
    obtain ⟨hnbr, hnext⟩ := seq_of_older hstill.symm (hnew stored hin)
    rcases eq_or_ne i nbr with rfl | hne
    · -- the number is new: an older message with it would be as new as this one
      rcases Lib.older_or hlog hm hin with rfl | hold | hold
      · omega
      · obtain ⟨-, hle', -⟩ := hold.resolve_left (by omega)
        have hlei := hle' i hi
        omega
      · obtain ⟨-, hle', -⟩ := hold.resolve_left (by omega)
        rcases eq_or_ne j i with rfl | hji
        · omega
        · rw [generate_cell_of_ne stored sourceEpoch cost hji] at hlt
          exact absurd (hle' j hj) (not_le.mpr hlt)
    · rw [generate_cell_of_ne stored sourceEpoch cost hne] at hseq ⊢
      exact hcosts m hm stored hin (hepoch.trans hstill) i hi hseq

/-- **Costs and numbers.** Within an epoch a cost changes only with its number. -/
theorem Generated.costs_of_seqs (h : Generated c id log) (hlog : log.Pairwise Older) :
    ∀ a ∈ log, ∀ b ∈ log, a.epoch = b.epoch → ∀ i ∈ nodes, (a.cell i).seq = (b.cell i).seq → (a.cell i).cost = (b.cell i).cost := by
  induction h with
  | nil => exact fun a ha => by cases ha
  | @generate log stored sourceEpoch nbr status cost h hstored _ _ _ ih =>
    obtain ⟨hfront, -, hall⟩ := List.pairwise_append.mp hlog
    have hcosts := ih hfront
    have hnew : ∀ l ∈ log, Older l (stored.generate sourceEpoch nbr cost) := fun l hl => hall l hl _ (List.mem_singleton_self _)
    intro a ha b hb hepoch i hi hseq
    rcases List.mem_append.mp ha with ha | ha <;> rcases List.mem_append.mp hb with hb | hb
    · exact hcosts a ha b hb hepoch i hi hseq
    · rw [List.mem_singleton.mp hb] at hepoch hseq ⊢
      exact cost_generate h hfront hcosts hstored hnew ha hepoch hi hseq
    · rw [List.mem_singleton.mp ha] at hepoch hseq ⊢
      exact (cost_generate h hfront hcosts hstored hnew hb hepoch.symm hi hseq.symm).symm
    · rw [List.mem_singleton.mp ha, List.mem_singleton.mp hb]

end Creators

/-! ## What a node has of a creator -/

section Runs

variable {c : Conf} {me id : Nat} {log : List StatusChange} {m : StatusChange} {n : Node} {a : Arrival} {x : Node.Action}
  {xs ys : List Node.Action}

theorem mem_nodes_of_neighborIds {i : Nat} (h : i ∈ c.neighborIds id) : id ∈ nodes := by
  obtain ⟨e, he, hi⟩ := List.mem_flatMap.mp h
  have hmem := c.edges_mem e he
  rcases List.mem_append.mp hi with hi | hi
  · split at hi
    · rename_i heq
      exact heq ▸ hmem.1
    · cases hi
  · split at hi
    · rename_i heq
      exact heq.2 ▸ hmem.2
    · cases hi

/-- A creator that sends anything is a node. -/
theorem Generated.mem_nodes (h : Generated c id log) (hm : m ∈ log) : id ∈ nodes := by
  cases h with
  | nil => cases hm
  | generate _ _ _ hnbr _ => exact mem_nodes_of_neighborIds hnbr

/-- The entry of the table is one of the messages, or what is set at the start, and the costs of the edges are
those of the entry. -/
structure Holds (c : Conf) (me id : Nat) (log : List StatusChange) (n : Node) : Prop where
  node : n.id = me
  entry : n.table id = (Node.init c me).table id ∨ n.table id ∈ log
  cost : ∀ i, n.cost id i =
    (c.findCost id i).map fun _ => if i ∈ c.neighborIds id ∧ 0 < (n.table id).epoch then ((n.table id).cell i).cost else -1

theorem epoch_init (c : Conf) (me id : Nat) : ((Node.init c me).table id).epoch = 0 := by
  rcases eq_or_ne id me with rfl | hne
  · simp [Node.init, StatusChange.own]
  · simp [Node.init, StatusChange.empty, hne]

theorem holds_init (c : Conf) (me id : Nat) (log : List StatusChange) : Holds c me id log (.init c me) where
  node := rfl
  entry := .inl rfl
  cost i := by
    rw [epoch_init]
    simp [Node.init]

theorem process_id (c : Conf) (n : Node) (a : Arrival) : (n.processStatusChange c a).id = n.id := by
  unfold Node.processStatusChange
  dsimp only
  split
  · rfl
  · split
    · rfl
    · split
      · rfl
      · split
        · rfl
        · split
          · rfl
          · obtain ⟨f, hf⟩ := applyCells_eq c n (n.table a.change.creator) a.change
              (decide ((n.table a.change.creator).epoch < a.change.epoch)) nodes
            rw [hf]
            rfl

/-- A message changes nothing of other creators. -/
theorem process_other (h : a.change.creator ≠ id) :
    (n.processStatusChange c a).table id = n.table id ∧ (n.processStatusChange c a).cost id = n.cost id := by
  by_cases hcreator : a.change.creator ∈ nodes
  · by_cases hvalid : Valid c a.change
    · by_cases hold : Older (n.table a.change.creator) a.change
      · obtain ⟨htable, hcost⟩ := process_of_older hcreator hvalid hold
        refine ⟨by rw [htable, update_of_ne h.symm], funext fun i => ?_⟩
        rw [hcost, applyCells_cost hvalid, if_neg fun hi => h hi.1.symm]
      · rw [process_of_not_older hvalid hold]
        exact ⟨rfl, rfl⟩
    · rw [process_of_invalid hvalid]
      exact ⟨rfl, rfl⟩
  · rw [process_of_creator hcreator]
    exact ⟨rfl, rfl⟩

/-- Nor do the changes of the node's own links. -/
theorem generate_other (h : n.id ≠ id) (sourceEpoch nbr status : Nat) :
    (n.generateLinkStatusChange c sourceEpoch nbr status).id = n.id ∧
      (n.generateLinkStatusChange c sourceEpoch nbr status).table id = n.table id ∧
      (n.generateLinkStatusChange c sourceEpoch nbr status).cost id = n.cost id := by
  unfold Node.generateLinkStatusChange
  cases hcost : newCost c n.id nbr status with
  | none => exact ⟨rfl, rfl, rfl⟩
  | some cost =>
    obtain ⟨f, hf⟩ := apply_eq c n n.id nbr cost
    have hsame : f id = n.cost id := funext fun i => by
      have happly := apply_cost (newCost_ge hcost) n id i
      rw [hf, if_neg fun hi => h hi.1.symm] at happly
      exact happly
    dsimp only
    rw [hf]
    exact ⟨rfl, update_of_ne h.symm _ _, hsame⟩

/-- A message of the log either takes the place of the entry, or the entry is as new. -/
theorem Holds.process (h : Holds c me id log n) (hgen : Generated c id log) (hlog : log.Pairwise Older) (hm : a.change ∈ log) :
    (Holds c me id log (n.processStatusChange c a) ∧ Older (n.table id) a.change ∧ (n.processStatusChange c a).table id = a.change) ∨
      n.processStatusChange c a = n ∧ (n.table id = a.change ∨ Older a.change (n.table id)) := by
  obtain ⟨hcreator, hepoch, hvalid⟩ := hgen.sound _ hm
  by_cases hold : Older (n.table id) a.change
  · rw [← hcreator] at hold
    obtain ⟨htable, hcost⟩ := process_of_older (hcreator ▸ hgen.mem_nodes hm) hvalid hold
    rw [hcreator] at htable hcost hold
    have hentry : (n.processStatusChange c a).table id = a.change := by rw [htable, update_self]
    refine .inl ⟨⟨(process_id c n a).trans h.node, .inr (hentry ▸ hm), fun i => ?_⟩, hold, hentry⟩
    rw [hcost, applyCells_cost hvalid, hentry, hcreator, h.cost i]
    by_cases hnbr : i ∈ c.neighborIds id
    · have hi := mem_nodes_of_neighbor hnbr
      rw [if_pos (⟨hnbr, hepoch⟩ : _ ∧ 0 < a.change.epoch)]
      split
      · rw [Option.map_map]
        rfl
      · -- the number of the link is that of the entry, which is a message of this epoch
        rename_i hsame
        have hnot : ¬ (n.table id).epoch < a.change.epoch ∧ ¬ ((n.table id).cell i).seq < (a.change.cell i).seq := by
          simpa [hi, hnbr] using hsame
        obtain ⟨heq, hle, -⟩ := hold.resolve_left hnot.1
        have hin : n.table id ∈ log := by
          refine h.entry.resolve_left fun hinit => ?_
          rw [hinit, epoch_init] at heq
          omega
        have hseq := le_antisymm (hle i hi) (not_lt.mp hnot.2)
        rw [if_pos ⟨hnbr, by omega⟩, hgen.costs_of_seqs hlog _ hin _ hm heq i hi hseq]
    · rw [if_neg fun hi => hnbr hi.2.2.1, if_neg fun hi => hnbr hi.1, if_neg fun hi => hnbr hi.1]
  · refine .inr ⟨process_of_not_older hvalid (hcreator ▸ hold), ?_⟩
    rcases h.entry with hinit | hin
    · refine absurd (.inl ?_) hold
      rw [hinit, epoch_init]
      exact hepoch
    · rcases Lib.older_or hlog hin hm with heq | hlt | hgt
      · exact .inl heq
      · exact absurd hlt hold
      · exact .inr hgt

/-- **The register.** What a node has of a creator moves along the creator's log. -/
theorem keeps (me : Nat) (hgen : Generated c id log) (hlog : log.Pairwise Older) :
    Lib.Keeps (Node.step c) (fun n => n.table id) Older (Holds c me id log)
      (fun x => x.creator me = id → ∃ m ∈ log, x.Brings m) (fun x m => m ∈ log ∧ x.Brings m) := by
  have hother : ∀ n x, Holds c me id log n → Node.Action.creator me x ≠ id →
      (n.step c x).id = n.id ∧ (n.step c x).table id = n.table id ∧ (n.step c x).cost id = n.cost id := by
    intro n x h hne
    cases x with
    | process a => exact ⟨process_id c n a, process_other hne⟩
    | generate sourceEpoch nbr status => exact generate_other (fun heq => hne (h.node.symm.trans heq)) _ _ _
  have hown : ∀ n x, Holds c me id log n → x.creator me = id → (∃ m ∈ log, Node.Action.Brings m x) →
      ∃ a : Arrival, x = .process a ∧ a.change ∈ log := by
    intro n x h _ hbrings
    obtain ⟨m, hm, hx⟩ := hbrings
    cases x with
    | process a => exact ⟨a, rfl, hx ▸ hm⟩
    | generate sourceEpoch nbr status => exact hx.elim
  constructor
  case inv =>
    intro n x h hE
    by_cases hx : x.creator me = id
    · obtain ⟨a, rfl, hm⟩ := hown n x h hx (hE hx)
      rcases h.process hgen hlog hm with ⟨h', -, -⟩ | ⟨heq, -⟩
      · exact h'
      · rwa [Node.step, heq]
    · obtain ⟨hid, htable, hcost⟩ := hother n x h hx
      exact ⟨hid.trans h.node, htable ▸ h.entry, fun i => by rw [hcost, htable]; exact h.cost i⟩
  case rises =>
    intro n x h hE
    by_cases hx : x.creator me = id
    · obtain ⟨a, rfl, hm⟩ := hown n x h hx (hE hx)
      rcases h.process hgen hlog hm with ⟨-, hold, htable⟩ | ⟨heq, -⟩
      · exact .inr (by rw [Node.step, htable]; exact hold)
      · exact .inl (by rw [Node.step, heq])
    · exact .inl (hother n x h hx).2.1
  case takes =>
    intro n x m h _ hbrings
    obtain ⟨hm, hx⟩ := hbrings
    cases x with
    | process a =>
      cases hx
      rcases h.process hgen hlog hm with ⟨-, -, htable⟩ | ⟨heq, hnew⟩
      · exact .inl htable
      · rw [Node.step, heq]
        exact hnew
    | generate sourceEpoch nbr status => exact hx.elim

/-- What a node has of a creator after the last message. -/
theorem Hears.table_eq (h : Hears me id log xs) (hgen : Generated c id log) (hlog : log.Pairwise Older) :
    (Node.run c me xs).table id = log.getLast?.getD ((Node.init c me).table id) ∧ Holds c me id log (Node.run c me xs) := by
  have hkeeps := keeps me hgen hlog
  have hholds : Holds c me id log (Node.run c me xs) := hkeeps.run_inv (holds_init c me id log) h.only
  refine ⟨?_, hholds⟩
  cases hlast : log.getLast? with
  | none =>
    rw [List.getLast?_eq_none_iff.mp hlast] at hholds
    exact hholds.entry.resolve_right List.not_mem_nil
  | some m =>
    obtain ⟨x, hx, hm⟩ := h.last m hlast
    have hin := List.mem_of_getLast? hlast
    have htakes := hkeeps.run_takes Older.trans (holds_init c me id log) h.only hx ⟨hin, hm⟩
    refine hkeeps.run_eq_last Older.trans Older.asymm hlog hlast (holds_init c me id log) h.only ⟨x, hx, hin, hm⟩ ?_
    rcases htakes with heq | hold
    · exact heq ▸ hin
    · refine hholds.entry.resolve_left fun hinit => ?_
      have hepoch := (hgen.sound m hin).2.1
      have hzero := epoch_init c me id
      change Older m ((Node.run c me xs).table id) at hold
      rw [hinit] at hold
      rcases hold with hlt | ⟨heq, -⟩ <;> omega

/-! ## The messages of a correct creator -/

theorem process_own (h : a.change.creator = id) :
    (n.processStatusChange c a).table id = n.table id ∨ (n.processStatusChange c a).table id = a.change := by
  subst h
  by_cases hcreator : a.change.creator ∈ nodes
  · by_cases hvalid : Valid c a.change
    · by_cases hold : Older (n.table a.change.creator) a.change
      · rw [(process_of_older hcreator hvalid hold).1, update_self]
        exact .inr rfl
      · exact .inl (by rw [process_of_not_older hvalid hold])
    · exact .inl (by rw [process_of_invalid hvalid])
  · exact .inl (by rw [process_of_creator hcreator])

theorem generate_own {nbr status : Nat} {cost : Int} (h : newCost c n.id nbr status = some cost) (sourceEpoch : Nat) :
    (n.generateLinkStatusChange c sourceEpoch nbr status).id = n.id ∧
      (n.generateLinkStatusChange c sourceEpoch nbr status).table n.id = (n.table n.id).generate sourceEpoch nbr cost := by
  unfold Node.generateLinkStatusChange
  obtain ⟨f, hf⟩ := apply_eq c n n.id nbr cost
  rw [h]
  dsimp only
  rw [hf]
  exact ⟨rfl, update_self _ _ _⟩

/-- What a node makes over all the times that it is started are messages of a correct creator. -/
theorem Creator.generated {s : Creator} {zs : List CreatorAction} (hnode : s.node.id = id)
    (htable : s.node.table id = .own c id ∨ s.node.table id ∈ s.made) (hmade : Generated c id s.made)
    (hcorrect : Lib.Steps (Creator.step c id) (Creator.Correct c id) s zs) :
    Generated c id (zs.foldl (Creator.step c id) s).made := by
  induction zs generalizing s with
  | nil => exact hmade
  | cons z zs ih =>
    obtain ⟨hz, hzs⟩ := hcorrect
    cases z with
    | restart => exact ih rfl (.inl (update_self _ _ _)) hmade hzs
    | act x =>
      cases x with
      | process a =>
        refine ih ((process_id c s.node a).trans hnode) ?_ hmade hzs
        change (s.node.processStatusChange c a).table id = .own c id ∨ (s.node.processStatusChange c a).table id ∈ s.made
        by_cases hid : a.change.creator = id
        · rcases process_own (c := c) (n := s.node) hid with heq | heq
          · exact heq ▸ htable
          · exact .inr (heq ▸ hz hid)
        · rw [(process_other hid).1]
          exact htable
      | generate sourceEpoch nbr status =>
        cases hcost : newCost c s.node.id nbr status with
        | none =>
          have hsame : s.step c id (.act (.generate sourceEpoch nbr status)) = s := by
            simp [Creator.step, Node.step, Node.generateLinkStatusChange, hcost]
          rw [hsame] at hzs
          rw [List.foldl_cons, hsame]
          exact ih hnode htable hmade hzs
        | some cost =>
          obtain ⟨hid, hentry⟩ := generate_own hcost sourceEpoch
          rw [hnode] at hid hentry
          have hnext : (s.step c id (.act (.generate sourceEpoch nbr status))).made =
              s.made ++ [(s.node.table id).generate sourceEpoch nbr cost] := by
            simp [Creator.step, Node.step, hcost, hentry]
          refine ih hid (.inr ?_) ?_ hzs
          · rw [hnext]
            exact List.mem_append_right _ (List.mem_singleton.mpr hentry)
          · rw [hnext]
            exact .generate hmade htable hz.1 hz.2 (hnode ▸ hcost)

end Runs

/-- In any two runs of a node that get the last message of a correct creator, with any others of its messages in any order and any
number of times, the node ends with the same entry and the same costs for it, whatever it gets of others. If they get
the last message of every creator, the whole table and all costs are the same. A message that concerns a link to a node
that is not a neighbour, or has a cost below the configured one, changes nothing. -/
theorem status_changes_converge (c : Conf) (me : Nat) (log : Nat → List StatusChange) (hlog : ∀ id, (log id).Pairwise Older)
    (xs ys : List Node.Action) :
    (∀ id, Generated c id (log id) → Hears me id (log id) xs → Hears me id (log id) ys →
      (Node.run c me xs).table id = (Node.run c me ys).table id ∧ (Node.run c me xs).cost id = (Node.run c me ys).cost id) ∧
    ((∀ id, Generated c id (log id) ∧ Hears me id (log id) xs ∧ Hears me id (log id) ys) →
      (Node.run c me xs).table = (Node.run c me ys).table ∧ (Node.run c me xs).cost = (Node.run c me ys).cost) ∧
    ∀ (n : Node) (a : Arrival), ¬ Valid c a.change → n.processStatusChange c a = n := by
  have hsame : ∀ id, Generated c id (log id) → Hears me id (log id) xs → Hears me id (log id) ys →
      (Node.run c me xs).table id = (Node.run c me ys).table id ∧ (Node.run c me xs).cost id = (Node.run c me ys).cost id := by
    intro id hgen hx hy
    obtain ⟨hxt, hxh⟩ := hx.table_eq hgen (hlog id)
    obtain ⟨hyt, hyh⟩ := hy.table_eq hgen (hlog id)
    have htable := hxt.trans hyt.symm
    refine ⟨htable, funext fun i => ?_⟩
    rw [hxh.cost, hyh.cost, htable]
  refine ⟨hsame, fun hall => ⟨funext fun id => ?_, funext fun id => ?_⟩, fun n a hnot => process_of_invalid hnot⟩
  · exact (hsame id (hall id).1 (hall id).2.1 (hall id).2.2).1
  · exact (hsame id (hall id).1 (hall id).2.1 (hall id).2.2).2

/-! ## A run of three nodes -/

/-- Node `2` is between nodes `1` and `3`. -/
def line : Conf where
  directed := false
  edges := [((1, 2), 10), ((2, 3), 10)]
  edges_mem := by decide
  costs := by decide
  lossPenalty := 10000
  lossPenalty_lt := by decide

/-- Its link to node `3` comes up and goes down. -/
def comesUp : StatusChange := (StatusChange.own line 2).generate 5 3 10

def goesDown : StatusChange := comesUp.generate 5 3 (-1)

def upDown (id : Nat) : List StatusChange := if id = 2 then [comesUp, goesDown] else []

/-- Node `1` may get both messages, or the second one first, and more than once. -/
theorem status_changes_converge_upDown :
    (Node.run line 1 [.process ⟨1, comesUp, []⟩, .process ⟨1, goesDown, []⟩]).table =
        (Node.run line 1 [.process ⟨1, goesDown, []⟩, .process ⟨1, comesUp, []⟩, .process ⟨1, goesDown, []⟩]).table ∧
      (Node.run line 1 [.process ⟨1, comesUp, []⟩, .process ⟨1, goesDown, []⟩]).cost =
        (Node.run line 1 [.process ⟨1, goesDown, []⟩, .process ⟨1, comesUp, []⟩, .process ⟨1, goesDown, []⟩]).cost := by
  have hlog : ∀ id, (upDown id).Pairwise Older := by
    intro id
    unfold upDown
    split
    · decide
    · exact .nil
  refine (status_changes_converge line 1 upDown hlog _ _).2.1 fun id => ?_
  rcases eq_or_ne id 2 with rfl | hne
  · refine ⟨?_, ⟨?_, ?_⟩, ⟨?_, ?_⟩⟩
    · have hup : Generated line 2 [comesUp] :=
        .generate .nil (.inl rfl) (by decide) (by decide) (show newCost line 2 3 1 = some 10 by decide)
      exact .generate hup (.inr List.mem_cons_self) (by decide) (by decide) (show newCost line 2 3 0 = some (-1) by decide)
    all_goals simp [upDown, Node.Action.Brings]
  · have hnil : upDown id = [] := if_neg hne
    have hcreator : comesUp.creator ≠ id ∧ goesDown.creator ≠ id := ⟨hne.symm, hne.symm⟩
    rw [hnil]
    refine ⟨.nil, ⟨?_, ?_⟩, ⟨?_, ?_⟩⟩
    all_goals simp [Node.Action.creator, hcreator]

end Spire.LinkStatus
