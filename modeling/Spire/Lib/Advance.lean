import Mathlib.Data.List.AList
import Mathlib.Data.List.Perm.Subperm

/-!
# Counters that move over marked numbers

A counter moves to its successor as long as the successor is marked. Where only keys of a
finite table are marked, the length of the table is fuel enough.
-/

namespace Spire.Lib

variable {p : Nat → Bool} {n m fuel : Nat}

/-- The counter after the loop. -/
def advance (p : Nat → Bool) : Nat → Nat → Nat
  | 0, n => n
  | fuel + 1, n => if p (n + 1) then advance p fuel (n + 1) else n

theorem le_advance : n ≤ advance p fuel n := by
  induction fuel generalizing n with
  | zero => exact le_refl n
  | succ fuel ih =>
    rw [advance]
    split
    · exact le_trans (Nat.le_succ n) ih
    · exact le_refl n

/-- It has moved over marked numbers only. -/
theorem marked_of_le_advance (hlt : n < m) (hle : m ≤ advance p fuel n) : p m = true := by
  induction fuel generalizing n with
  | zero => exact absurd hle (Nat.not_le.mpr hlt)
  | succ fuel ih =>
    rw [advance] at hle
    split at hle
    · rename_i hp
      rcases Nat.eq_or_lt_of_le hlt with heq | hgt
      · rw [← heq]
        exact hp
      · exact ih hgt hle
    · omega

/-- It moves over all marked numbers that follow. -/
theorem le_advance_of (hfuel : m ≤ n + fuel) (h : ∀ k, n < k → k ≤ m → p k = true) : m ≤ advance p fuel n := by
  induction fuel generalizing n with
  | zero => exact hfuel
  | succ fuel ih =>
    rw [advance]
    by_cases hle : m ≤ n
    · split
      · exact le_trans hle (le_trans (Nat.le_succ n) le_advance)
      · exact hle
    · rw [if_pos (h (n + 1) (Nat.lt_succ_self n) (by omega))]
      exact ih (by omega) fun k hk => h k (by omega)

variable {β : Nat → Type*}

/-- Consecutive keys are no more than the keys of the table. -/
theorem keys_fuel (t : AList β) (h : ∀ k, n < k → k ≤ m → k ∈ t.keys) : m ≤ n + t.keys.length := by
  have hsub : (List.range' (n + 1) (m - n)) ⊆ t.keys := by
    intro k hk
    have := List.mem_range'_1.mp hk
    exact h k (by omega) (by omega)
  have hle := (List.subperm_of_subset List.nodup_range' hsub).length_le
  rw [List.length_range'] at hle
  omega

/-- The table is fuel enough to reach the last of the numbers that are marked. -/
theorem le_advance_keys (t : AList β) (hkeys : ∀ k, p k = true → k ∈ t.keys)
    (h : ∀ k, n < k → k ≤ m → p k = true) : m ≤ advance p t.keys.length n :=
  le_advance_of (keys_fuel t fun k hlt hle => hkeys k (h k hlt hle)) h

/-- The number after the counter is not marked. -/
theorem not_marked_advance (t : AList β) (hkeys : ∀ k, p k = true → k ∈ t.keys) :
    p (advance p t.keys.length n + 1) = false := by
  by_contra hmarked
  have hall : ∀ k, n < k → k ≤ advance p t.keys.length n + 1 → p k = true := by
    intro k hlt hle
    rcases Nat.lt_or_ge k (advance p t.keys.length n + 1) with hbelow | habove
    · exact marked_of_le_advance hlt (Nat.le_of_lt_succ hbelow)
    · rw [show k = advance p t.keys.length n + 1 by omega]
      exact Bool.not_eq_false _ ▸ hmarked
  have hle : advance p t.keys.length n + 1 ≤ advance p t.keys.length n := le_advance_keys t hkeys hall
  omega

end Spire.Lib
