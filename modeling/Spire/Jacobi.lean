import Mathlib.NumberTheory.LegendreSymbol.JacobiSymbol

/-!
# The Jacobi symbol of the threshold library

`jacobi` takes out factors 4 and 2 of its first number, and swaps the two where it is odd. It
computes the Jacobi symbol for every odd positive second number (`jacobi_eq`), although it
reduces its first number only where that changes nothing.
-/

namespace Spire.Threshold

open NumberTheorySymbols

/-- The loop, which ends when the first number is 1. It is never 0 there. -/
def jacobiLoop (p q : ℕ) (j : ℤ) : ℤ :=
  if p ≤ 1 then j
  else if p % 4 = 0 then jacobiLoop (p / 4) q j
  else if p % 4 = 2 then jacobiLoop (p / 2) q (if q % 8 = 3 ∨ q % 8 = 5 then -j else j)
  else if q % p = 0 then 0
  else jacobiLoop (q % p) p (if p % 4 = 3 ∧ q % 4 = 3 then -j else j)
termination_by p
decreasing_by
  · omega
  · omega
  · exact Nat.mod_lt _ (by omega)

/-- `jacobi`; -2 where the second number is not one that it is defined for. -/
def jacobi (p q : ℤ) : ℤ :=
  if q ≤ 0 ∨ q % 2 = 0 then -2
  else
    let p := if p < 0 then (if p.tmod q < 0 then p.tmod q + q else p.tmod q) else p
    if p = 1 ∨ q = 1 then 1
    else
      let p := if p ≤ q then p % q else p
      if p = 0 then 0 else jacobiLoop p.toNat q.toNat 1

variable {p q : ℕ} {j : ℤ}

/-- The sign that a turn of the loop applies. -/
theorem ite_neg_mul (c : Prop) [Decidable c] (x : ℤ) : (if c then -j else j) * x = j * if c then -x else x := by
  split <;> ring

theorem jacobiLoop_eq (hp : 0 < p) (hq : q % 2 = 1) : jacobiLoop p q j = j * J(p | q) := by
  induction p using Nat.strong_induction_on generalizing q j with
  | _ p ih =>
    rw [jacobiLoop]
    split
    · rename_i hone
      obtain rfl : p = 1 := by omega
      simp
    split
    · rename_i hfour
      rw [ih (p / 4) (by omega) (by omega) hq, Int.natCast_ediv, Nat.cast_ofNat, jacobiSym.div_four_left (by omega) hq]
    split
    · rename_i htwo
      rw [ih (p / 2) (by omega) (by omega) hq, ite_neg_mul, Int.natCast_ediv, Nat.cast_ofNat,
        jacobiSym.even_odd (by omega) hq]
    split
    · rename_i hzero
      have hgcd : J(p | q) = 0 := by
        rw [jacobiSym.eq_zero_iff, Int.gcd_natCast_natCast, Nat.gcd_eq_left (Nat.dvd_of_mod_eq_zero hzero)]
        omega
      rw [hgcd, mul_zero]
    · rename_i hmod
      rw [ih (q % p) (Nat.mod_lt _ hp) (by omega) (by omega), ite_neg_mul, Int.natCast_mod, ← jacobiSym.mod_left,
        jacobiSym.quadratic_reciprocity_if (by omega) hq]

/-- **`jacobi` is the Jacobi symbol**, for every first number and every odd positive second one. -/
theorem jacobi_eq (p : ℤ) (hq : q % 2 = 1) : jacobi p q = J(p | q) := by
  have hpos : ¬((q : ℤ) ≤ 0 ∨ (q : ℤ) % 2 = 0) := by omega
  unfold jacobi
  rw [if_neg hpos]
  -- a negative number is made one of its class that is not
  obtain ⟨p', hp', hsym, hp⟩ : ∃ p' : ℤ, 0 ≤ p' ∧ J(p | q) = J(p' | q) ∧
      (if p < 0 then (if p.tmod q < 0 then p.tmod q + q else p.tmod q) else p) = p' := by
    by_cases hneg : p < 0
    · have hdiv := Int.tmod_add_mul_tdiv p q
      have hlt := Int.tmod_lt_of_pos p (show (0 : ℤ) < q by omega)
      have habs := Int.lt_tmod_of_pos p (show (0 : ℤ) < q by omega)
      rw [if_pos hneg]
      split
      · refine ⟨_, by omega, jacobiSym.mod_left' ?_, rfl⟩
        conv_lhs => rw [← hdiv]
        simp
      · refine ⟨_, by omega, jacobiSym.mod_left' ?_, rfl⟩
        conv_lhs => rw [← hdiv]
        simp
    · exact ⟨p, by omega, rfl, if_neg hneg⟩
  simp only [hp]
  rw [hsym]
  split
  · rename_i hone
    rcases hone with rfl | hone
    · simp
    · obtain rfl : q = 1 := by omega
      simp
  · rename_i hone
    rw [not_or] at hone
    have hreduce : J(p' | q) = J((if p' ≤ q then p' % q else p') | q) := by
      split
      · exact jacobiSym.mod_left p' q
      · rfl
    have hnonneg : 0 ≤ (if p' ≤ q then p' % q else p') := by
      split
      · exact Int.emod_nonneg p' (by omega)
      · exact hp'
    rw [hreduce]
    generalize (if p' ≤ q then p' % q else p') = r at hnonneg ⊢
    split
    · rename_i hzero
      subst hzero
      rw [jacobiSym.zero_left (by omega)]
    · rename_i hne
      obtain ⟨r, rfl⟩ := Int.eq_ofNat_of_zero_le hnonneg
      rw [Int.toNat_natCast, Int.toNat_natCast, jacobiLoop_eq (by omega) hq, one_mul]

/-- For every pair of numbers: the Jacobi symbol where it is defined, and -2 elsewhere. -/
theorem jacobi_eq_jacobiSym (p q : ℤ) : jacobi p q = if q ≤ 0 ∨ q % 2 = 0 then -2 else J(p | q.toNat) := by
  split
  · rename_i hbad
    rw [jacobi, if_pos hbad]
  · rename_i hgood
    obtain ⟨r, rfl⟩ := Int.eq_ofNat_of_zero_le (show 0 ≤ q by omega)
    rw [Int.toNat_natCast]
    exact jacobi_eq p (by omega)

end Spire.Threshold
