import Mathlib.Algebra.BigOperators.Group.Finset.Basic
import Mathlib.Algebra.Group.Int.Even
import Mathlib.Data.Int.GCD
import Mathlib.Data.Int.ModEq
import Spire.Lib.IntegerLagrange

/-!
# An exponent that parties share

In a commutative group in which some power of every element is 1, exponents count only modulo
that power. An exponent that is the value of a polynomial at 0 can be given to parties as the
values at other points: powers with some of these values make up a power with the exponent
(`prod_zpow_shares`), and where an exponent has an inverse a root can be taken
(`root_of_bezout`) and is the only one (`root_unique`).
-/

namespace Spire.Lib

open Polynomial

variable {G : Type*} [CommGroup G] {x y : G} {a b e M : ℤ}

theorem zpow_eq_of_modEq (hx : x ^ M = 1) (h : a ≡ b [ZMOD M]) : x ^ a = x ^ b := by
  obtain ⟨c, hc⟩ := h.dvd
  obtain rfl : b = a + M * c := by omega
  rw [zpow_add, zpow_mul, hx, one_zpow, mul_one]

/-- From a root of a power, one of the element itself. -/
theorem root_of_bezout {w : G} {p q : ℤ} (hw : w ^ e = x ^ a) (hb : p * a + q * e = 1) : (w ^ p * x ^ q) ^ e = x := by
  calc (w ^ p * x ^ q) ^ e
      = (w ^ e) ^ p * x ^ (q * e) := by rw [mul_zpow, ← zpow_mul, ← zpow_mul, ← zpow_mul, mul_comm p]
    _ = x ^ (p * a + q * e) := by rw [hw, ← zpow_mul, mul_comm a, zpow_add]
    _ = x := by rw [hb, zpow_one]

theorem root_unique (hx : x ^ M = 1) (hy : y ^ M = 1) (hcop : IsCoprime e M) (h : x ^ e = y ^ e) : x = y := by
  obtain ⟨p, q, hpq⟩ := hcop
  have hroot : ∀ z : G, z ^ M = 1 → z = (z ^ e) ^ p := by
    intro z hz
    calc z = z ^ (p * e + q * M) := by rw [hpq, zpow_one]
      _ = (z ^ e) ^ p := by rw [zpow_add, mul_comm q, zpow_mul z M, hz, one_zpow, mul_one, mul_comm p, zpow_mul]
  rw [hroot x hx, hroot y hy, h]

theorem prod_zpow_eq_zpow_sum {ι : Type*} (S : Finset ι) (g : ι → ℤ) : ∏ j ∈ S, x ^ g j = x ^ ∑ j ∈ S, g j := by
  induction S using Finset.cons_induction with
  | empty => simp
  | cons j S hj ih => rw [Finset.prod_cons, Finset.sum_cons, zpow_add, ih]

/-- **Enough powers with values of the polynomial make up one with its value at 0.** The values are
multiplied with the inverse of `Δ`, and the powers are taken twice with the factor `t`. -/
theorem prod_zpow_shares {S : Finset ℕ} {c s : ℕ → ℤ} {t Δ inv : ℤ} {f : ℤ[X]} (hx : x ^ (t * t * M) = 1)
    (hc : ∀ j ∈ S, c j * ∏ i ∈ S.erase j, ((j : ℤ) - i) = Δ * ∏ i ∈ S.erase j, (0 - (i : ℤ))) (hdeg : f.degree < S.card)
    (hinv : Δ * inv ≡ 1 [ZMOD M]) (hs : ∀ j ∈ S, s j ≡ f.eval (j : ℤ) * inv [ZMOD M]) :
    ∏ j ∈ S, (x ^ (t * s j)) ^ (c j * t) = x ^ (t * t * f.eval 0) := by
  have hsum : ∑ j ∈ S, c j * s j ≡ f.eval 0 [ZMOD M] := by
    have hmod : ∑ j ∈ S, c j * s j ≡ ∑ j ∈ S, c j * (f.eval (j : ℤ) * inv) [ZMOD M] := by
      rw [Int.modEq_iff_dvd, ← Finset.sum_sub_distrib]
      exact Finset.dvd_sum fun j hj => ((hs j hj).mul_left (c j)).dvd
    calc ∑ j ∈ S, c j * s j
        ≡ ∑ j ∈ S, c j * (f.eval (j : ℤ) * inv) [ZMOD M] := hmod
      _ = (∑ j ∈ S, c j * f.eval (j : ℤ)) * inv := by
        rw [Finset.sum_mul]
        exact Finset.sum_congr rfl fun j _ => by ring
      _ = f.eval 0 * (Δ * inv) := by rw [sum_mul_eval hc hdeg]; ring
      _ ≡ f.eval 0 * 1 [ZMOD M] := hinv.mul_left _
      _ = f.eval 0 := mul_one _
  calc ∏ j ∈ S, (x ^ (t * s j)) ^ (c j * t)
      = ∏ j ∈ S, x ^ (t * t * (c j * s j)) := by
        refine Finset.prod_congr rfl fun j _ => ?_
        rw [← zpow_mul]
        congr 1
        ring
    _ = x ^ (t * t * ∑ j ∈ S, c j * s j) := by
        rw [Finset.mul_sum, prod_zpow_eq_zpow_sum]
    _ = x ^ (t * t * f.eval 0) := zpow_eq_of_modEq hx (hsum.mul_left' (c := t * t))

end Spire.Lib
