import Mathlib.Data.Nat.Choose.Factorization
import Mathlib.Data.Int.NatAbs
import Mathlib.LinearAlgebra.Lagrange

/-!
# Lagrange interpolation without fractions

The coefficients with which the values of a polynomial at some integer points give its value
at another become integers when they are multiplied with a common multiple of their
denominators. For points among the first `l` positive numbers `l!` is one
(`prod_sub_dvd_factorial`), and the division may be done factor by factor
(`foldl_tdiv_mul_prod`).
-/

namespace Spire.Lib

open Polynomial

/-- Divisions one after the other are exact when the product of the divisors divides. -/
theorem foldl_tdiv_mul_prod {ds : List ℤ} {a : ℤ} (hne : (0 : ℤ) ∉ ds) (h : ds.prod ∣ a) :
    ds.foldl Int.tdiv a * ds.prod = a := by
  induction ds generalizing a with
  | nil => simp
  | cons d ds ih =>
    rw [List.mem_cons, not_or] at hne
    rw [List.prod_cons] at h
    have hd : d * a.tdiv d = a := Int.mul_tdiv_cancel' (dvd_of_mul_right_dvd h)
    have hrest : ds.prod ∣ a.tdiv d := by
      rw [← hd] at h
      exact (mul_dvd_mul_iff_left (Ne.symm hne.1)).mp h
    rw [List.foldl_cons, List.prod_cons, mul_left_comm, ih hne.2 hrest, hd]

/-- Distinct positive numbers up to `n` have a product that divides `n!`. -/
theorem prod_dvd_factorial {ι : Type*} {T : Finset ι} {f : ι → ℕ} {n : ℕ} (hinj : Set.InjOn f T)
    (hpos : ∀ i ∈ T, 0 < f i) (hle : ∀ i ∈ T, f i ≤ n) : ∏ i ∈ T, f i ∣ n.factorial := by
  classical
  have himage : ∏ x ∈ T.image f, x = ∏ i ∈ T, f i := Finset.prod_image hinj
  rw [← himage, ← Finset.prod_Ico_id_eq_factorial]
  refine Finset.prod_dvd_prod_of_subset _ _ _ fun x hx => ?_
  obtain ⟨i, hi, rfl⟩ := Finset.mem_image.mp hx
  exact Finset.mem_Ico.mpr ⟨hpos i hi, Nat.lt_succ_of_le (hle i hi)⟩

variable {S : Finset ℕ} {l j : ℕ}

/-- The distances of a point to others among the first `l` numbers have a product that divides `l!`. -/
theorem prod_sub_dvd_factorial (hS : ∀ s ∈ S, 0 < s ∧ s ≤ l) (hj : j ∈ S) :
    ∏ s ∈ S.erase j, ((j : ℤ) - s) ∣ l.factorial := by
  have hjl := hS j hj
  -- the points below and those above
  have hlow : ∏ s ∈ (S.erase j).filter (· < j), (j - s) ∣ (j - 1).factorial := by
    refine prod_dvd_factorial ?_ ?_ ?_
    · intro s hs t ht heq
      simp only [Finset.coe_filter, Finset.mem_erase, Set.mem_ofPred_eq] at hs ht heq
      omega
    · intro s hs
      have := (Finset.mem_filter.mp hs).2
      omega
    · intro s hs
      have := hS s (Finset.mem_of_mem_erase (Finset.mem_filter.mp hs).1)
      omega
  have hhigh : ∏ s ∈ (S.erase j).filter (¬· < j), (s - j) ∣ (l - j).factorial := by
    refine prod_dvd_factorial ?_ ?_ ?_
    · intro s hs t ht heq
      simp only [Finset.coe_filter, Finset.mem_erase, Set.mem_ofPred_eq] at hs ht heq
      omega
    · intro s hs
      have hs := Finset.mem_filter.mp hs
      have := (Finset.mem_erase.mp hs.1).1
      omega
    · intro s hs
      have := hS s (Finset.mem_of_mem_erase (Finset.mem_filter.mp hs).1)
      omega
  have habs : (∏ s ∈ S.erase j, ((j : ℤ) - s)).natAbs =
      (∏ s ∈ (S.erase j).filter (· < j), (j - s)) * ∏ s ∈ (S.erase j).filter (¬· < j), (s - j) := by
    rw [show (∏ s ∈ S.erase j, ((j : ℤ) - s)).natAbs = ∏ s ∈ S.erase j, ((j : ℤ) - s).natAbs from map_prod Int.natAbsHom _ _,
      ← Finset.prod_filter_mul_prod_filter_not _ (· < j)]
    congr 1
    · refine Finset.prod_congr rfl fun s hs => ?_
      have := (Finset.mem_filter.mp hs).2
      omega
    · refine Finset.prod_congr rfl fun s hs => ?_
      have := (Finset.mem_filter.mp hs).2
      omega
  rw [← Int.natAbs_dvd_natAbs, habs, Int.natAbs_natCast]
  calc _ ∣ (j - 1).factorial * (l - j).factorial := mul_dvd_mul hlow hhigh
    _ ∣ (j - 1 + (l - j)).factorial := Nat.factorial_mul_factorial_dvd_factorial_add _ _
    _ ∣ l.factorial := Nat.factorial_dvd_factorial (by omega)

/-- **The multiplied coefficients give a multiple of the value at another point.** -/
theorem sum_mul_eval {c : ℕ → ℤ} {Δ x : ℤ} (hc : ∀ j ∈ S, c j * ∏ s ∈ S.erase j, ((j : ℤ) - s) = Δ * ∏ s ∈ S.erase j, (x - s))
    {f : ℤ[X]} (hdeg : f.degree < S.card) : ∑ j ∈ S, c j * f.eval (j : ℤ) = Δ * f.eval x := by
  have hinj : Set.InjOn (fun j : ℕ => (j : ℚ)) S := fun a _ b _ h => Nat.cast_injective h
  have hdegQ : (f.map (Int.castRingHom ℚ)).degree < S.card := lt_of_le_of_lt degree_map_le hdeg
  have heval : ∀ y : ℤ, (f.map (Int.castRingHom ℚ)).eval (y : ℚ) = (f.eval y : ℤ) := by
    intro y
    rw [eval_intCast_map]
    rfl
  have hcoeff : ∀ j ∈ S, (c j : ℚ) = Δ * (Lagrange.basis S (fun j : ℕ => (j : ℚ)) j).eval (x : ℚ) := by
    intro j hj
    have hne : ∏ s ∈ S.erase j, ((j : ℚ) - s) ≠ 0 := by
      rw [Finset.prod_ne_zero_iff]
      intro s hs
      have := (Finset.mem_erase.mp hs).1
      rw [sub_ne_zero]
      exact fun heq => this (Nat.cast_injective heq).symm
    have hc' : (c j : ℚ) * ∏ s ∈ S.erase j, ((j : ℚ) - s) = Δ * ∏ s ∈ S.erase j, ((x : ℚ) - s) := by
      exact_mod_cast hc j hj
    have hbasis : (Lagrange.basis S (fun j : ℕ => (j : ℚ)) j).eval (x : ℚ) * ∏ s ∈ S.erase j, ((j : ℚ) - s) =
        ∏ s ∈ S.erase j, ((x : ℚ) - s) := by
      rw [Lagrange.basis, eval_prod, ← Finset.prod_mul_distrib]
      refine Finset.prod_congr rfl fun s hs => ?_
      have hjs : (j : ℚ) - s ≠ 0 := (Finset.prod_ne_zero_iff.mp hne) s hs
      simp only [Lagrange.basisDivisor, eval_mul, eval_C, eval_sub, eval_X]
      field_simp
    apply mul_right_cancel₀ hne
    rw [hc', mul_assoc, hbasis]
  have hinterp := Lagrange.eq_interpolate hinj hdegQ
  have hx := congrArg (Polynomial.eval (x : ℚ)) hinterp
  rw [heval, Lagrange.interpolate_apply, eval_finsetSum] at hx
  have hsum : ((∑ j ∈ S, c j * f.eval (j : ℤ) : ℤ) : ℚ) = Δ * f.eval x := by
    rw [hx, Int.cast_sum, Finset.mul_sum]
    refine Finset.sum_congr rfl fun j hj => ?_
    have := heval (j : ℤ)
    rw [Int.cast_natCast] at this
    rw [Int.cast_mul, hcoeff j hj, eval_mul, eval_C, this]
    ring
  exact_mod_cast hsum

end Spire.Lib
