import Mathlib.Data.List.Sort
import Spire.Lib.Quorum

/-!
# Selecting a fixed number of parties without talking

Parties `1 .. n` that see the same values can each decide alone whether they are
selected: those whose value reaches the `i`-th smallest qualify, and of them the first
`k` by number are taken. `tally_amongFirst` counts who is taken, for any test, and the
results about sorted lists count who qualifies. Ties do not matter, as the test is on
values and only the numbers of the parties break them.
-/

namespace Spire.Lib

/-! ## The values at and above a rank -/

section Rank

variable {α : Type*} {r : α → α → Prop} [DecidableRel r] {l : List α} {i : Nat}

/-- At most `i` entries of a sorted list are not at or above its entry at `i`. -/
theorem countP_above_rank (hrefl : ∀ a, r a a) (hs : l.Pairwise r) (hi : i < l.length) :
    l.length - i ≤ l.countP fun x => decide (r l[i] x) := by
  have hsplit : l = l.take i ++ l[i] :: l.drop (i + 1) := by
    rw [List.getElem_cons_drop, List.take_append_drop]
  have hpair := hs
  rw [hsplit] at hpair
  have habove := (List.pairwise_cons.mp (List.pairwise_append.mp hpair).2.1).1
  have hall : ∀ x ∈ l[i] :: l.drop (i + 1), decide (r l[i] x) = true := by
    intro x hx
    rw [decide_eq_true_eq]
    rcases List.mem_cons.mp hx with rfl | hx
    · exact hrefl _
    · exact habove x hx
  have hcount := List.countP_eq_length.mpr hall
  have hsub : (l[i] :: l.drop (i + 1)).Sublist l := by
    rw [List.getElem_cons_drop]
    exact List.drop_sublist i l
  have hle := hsub.countP_le (p := fun x => decide (r l[i] x))
  rw [hcount, List.length_cons, List.length_drop] at hle
  omega

/-- What all but `i` entries of a sorted list reach, its entry at `i` reaches. -/
theorem rank_above [IsTrans α r] (hs : l.Pairwise r) (hi : i < l.length) {v : α}
    (hcount : l.length - i ≤ l.countP fun x => decide (r v x)) : r v l[i] := by
  by_contra hnot
  have hbelow : (l.take (i + 1)).countP (fun x => decide (r v x)) = 0 := by
    rw [List.countP_eq_zero]
    intro x hx hv
    rw [decide_eq_true_eq] at hv
    obtain ⟨j, hj, rfl⟩ := List.getElem_of_mem hx
    rw [List.length_take] at hj
    rw [List.getElem_take] at hv
    rcases Nat.lt_or_ge j i with hlt | hge
    · exact hnot (Trans.trans hv (List.pairwise_iff_getElem.mp hs j i (by omega) hi hlt))
    · have hji : j = i := by omega
      subst hji
      exact hnot hv
  have hrest := List.countP_le_length (p := fun x => decide (r v x)) (l := l.drop (i + 1))
  rw [← List.take_append_drop (i + 1) l, List.countP_append, hbelow, List.take_append_drop] at hcount
  rw [List.length_drop] at hrest
  omega

end Rank

/-! ## The first that qualify -/

theorem tally_zero (p : Nat → Bool) : tally 0 p = 0 := rfl

theorem tally_succ (n : Nat) (p : Nat → Bool) : tally (n + 1) p = tally n p + if p (n + 1) then 1 else 0 := by
  rw [tally, tally, List.range'_1_concat, List.countP_append, List.countP_singleton, Nat.add_comm 1 n]

theorem tally_le_tally {m n : Nat} (h : m ≤ n) {p : Nat → Bool} : tally m p ≤ tally n p := by
  induction h with
  | refl => exact le_refl _
  | step _ ih =>
    rw [tally_succ]
    omega

/-- Party `i` qualifies, and fewer than `k` before it do. -/
def amongFirst (k : Nat) (p : Nat → Bool) (i : Nat) : Bool := p i && decide (tally (i - 1) p < k)

/-- The first `k` that qualify are `k`, unless there are not as many. -/
theorem tally_amongFirst (k n : Nat) (p : Nat → Bool) : tally n (amongFirst k p) = min k (tally n p) := by
  induction n with
  | zero => simp [tally_zero]
  | succ n ih =>
    rw [tally_succ, tally_succ, ih, amongFirst, Nat.add_sub_cancel]
    cases p (n + 1) with
    | false => simp
    | true =>
      simp only [Bool.true_and, decide_eq_true_eq, if_true]
      split <;> omega

end Spire.Lib
