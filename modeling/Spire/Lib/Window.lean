import Mathlib.Data.Nat.ModEq
import Mathlib.Logic.Function.Basic

/-!
# Windows over a ring of slots

Numbers of a window that is not larger than the ring have slots of their own. `Stored` says what the
slots of a window hold. `skipWhile` is the loop that moves an index up over what satisfies a test.
-/

namespace Spire.Lib

/-! ## Slots -/

variable {size i j : Nat}

theorem mod_ne_of_lt (h : i < j) (hsize : j < i + size) : j % size ≠ i % size := by
  intro heq
  have hdvd : size ∣ j - i := (Nat.modEq_iff_dvd' h.le).mp heq.symm
  have hle := Nat.le_of_dvd (by omega) hdvd
  omega

/-- In a window the slot tells the number. -/
theorem eq_of_mod_eq {lo hi : Nat} (hsize : hi ≤ lo + size) (hi₁ : lo ≤ i) (hi₂ : i < hi) (hj₁ : lo ≤ j) (hj₂ : j < hi)
    (h : i % size = j % size) : i = j := by
  rcases Nat.lt_trichotomy i j with hlt | heq | hgt
  · exact absurd h.symm (mod_ne_of_lt hlt (by omega))
  · exact heq
  · exact absurd h (mod_ne_of_lt hgt (by omega))

/-! ## What a window holds -/

section Stored

open Function (update)

variable {α : Type*}

/-- The slots of the numbers from `lo` up to `hi` hold what `P` says of the number. -/
def Stored (size : Nat) (P : Nat → α → Prop) (ring : Nat → α) (lo hi : Nat) : Prop :=
  ∀ i, lo ≤ i → i < hi → P i (ring (i % size))

variable {P Q : Nat → α → Prop} {ring : Nat → α} {lo hi lo' hi' : Nat} {x : α}

theorem Stored.of_empty (h : hi ≤ lo) : Stored size P ring lo hi := fun _ hi₁ hi₂ => absurd (hi₁.trans_lt hi₂) (not_lt.mpr h)

theorem Stored.sub (h : Stored size P ring lo hi) (hlo : lo ≤ lo') (hhi : hi' ≤ hi) : Stored size P ring lo' hi' :=
  fun i hi₁ hi₂ => h i (hlo.trans hi₁) (hi₂.trans_le hhi)

theorem Stored.imp (h : Stored size P ring lo hi) (hPQ : ∀ i, lo ≤ i → i < hi → ∀ x, P i x → Q i x) :
    Stored size Q ring lo hi := fun i hi₁ hi₂ => hPQ i hi₁ hi₂ _ (h i hi₁ hi₂)

/-- A slot that is written holds what `P` says of its number, if that is in the window. -/
theorem Stored.write {s : Nat} (h : Stored size P ring lo hi) (hx : ∀ i, lo ≤ i → i < hi → i % size = s → P i x) :
    Stored size P (update ring s x) lo hi := by
  intro i hi₁ hi₂
  by_cases heq : i % size = s
  · rw [heq, Function.update_self]
    exact hx i hi₁ hi₂ heq
  · rw [Function.update_of_ne heq]
    exact h i hi₁ hi₂

/-- What is behind the window takes no slot of it. -/
theorem Stored.write_below {k : Nat} (h : Stored size P ring lo hi) (hk : k < lo) (hsize : hi ≤ k + size) :
    Stored size P (update ring (k % size) x) lo hi :=
  h.write fun _ hi₁ hi₂ heq => absurd heq (mod_ne_of_lt (hk.trans_le hi₁) (hi₂.trans_le hsize))

/-- The next number takes the slot after the window. -/
theorem Stored.push (h : Stored size P ring lo hi) (hlo : lo ≤ hi) (hsize : hi < lo + size) (hx : P hi x) :
    Stored size P (update ring (hi % size) x) lo (hi + 1) := by
  intro i hi₁ hi₂
  rcases Nat.lt_succ_iff_lt_or_eq.mp hi₂ with hlt | rfl
  · rw [Function.update_of_ne (mod_ne_of_lt hlt (by omega)).symm]
    exact h i hi₁ hlt
  · rw [Function.update_self]
    exact hx

/-- A loop that writes one value into the slots of a list of numbers. -/
theorem foldl_update_apply {β ι : Type*} [DecidableEq ι] (g : β → ι) (v : α) (ks : List β) (f : ι → α) (s : ι) :
    ks.foldl (fun f k => update f (g k) v) f s = if s ∈ ks.map g then v else f s := by
  induction ks generalizing f with
  | nil => rfl
  | cons k ks ih =>
    rw [List.foldl_cons, ih, List.map_cons]
    by_cases hks : s ∈ ks.map g
    · rw [if_pos hks, if_pos (List.mem_cons_of_mem _ hks)]
    · rw [if_neg hks]
      by_cases hk : s = g k
      · rw [if_pos (hk ▸ List.mem_cons_self), hk, Function.update_self]
      · rw [if_neg (List.not_mem_cons_of_ne_of_not_mem hk hks), Function.update_of_ne hk]

end Stored

/-! ## An index that is moved up -/

/-- `while (p(next)) next++`, with a bound on the number of rounds. -/
def skipWhile (p : Nat → Bool) : Nat → Nat → Nat
  | 0, next => next
  | n + 1, next => if p next then skipWhile p n (next + 1) else next

variable {p : Nat → Bool} {n next : Nat}

theorem le_skipWhile (p : Nat → Bool) (n next : Nat) : next ≤ skipWhile p n next := by
  induction n generalizing next with
  | zero => exact le_refl _
  | succ n ih =>
    unfold skipWhile
    split
    · exact (Nat.le_succ _).trans (ih (next + 1))
    · exact le_refl _

theorem skipWhile_le (p : Nat → Bool) (n next : Nat) : skipWhile p n next ≤ next + n := by
  induction n generalizing next with
  | zero => exact le_refl _
  | succ n ih =>
    unfold skipWhile
    split
    · have := ih (next + 1)
      omega
    · omega

/-- What is passed over satisfies the test. -/
theorem of_lt_skipWhile (h₁ : next ≤ i) (h₂ : i < skipWhile p n next) : p i = true := by
  induction n generalizing next with
  | zero => exact absurd h₂ (not_lt.mpr h₁)
  | succ n ih =>
    unfold skipWhile at h₂
    split at h₂
    next hp =>
      rcases Nat.eq_or_lt_of_le h₁ with rfl | hlt
      · exact hp
      · exact ih hlt h₂
    next => exact absurd h₂ (not_lt.mpr h₁)

/-- Where it stops before the bound, the test fails. -/
theorem skipWhile_stop (h : skipWhile p n next < next + n) : p (skipWhile p n next) = false := by
  induction n generalizing next with
  | zero => exact absurd h (lt_irrefl _)
  | succ n ih =>
    unfold skipWhile at h ⊢
    split
    next hp =>
      rw [if_pos hp] at h
      exact ih (by omega)
    next hp => exact Bool.eq_false_iff.mpr hp

/-! ## Loops that take a minimum -/

/-- A loop that only ever takes something smaller ends with something that is not larger. -/
theorem foldl_le {α : Type*} {f : Nat → α → Nat} (h : ∀ m x, f m x ≤ m) (xs : List α) (m : Nat) : xs.foldl f m ≤ m := by
  induction xs generalizing m with
  | nil => exact le_refl _
  | cons x xs ih => exact (ih (f m x)).trans (h m x)

end Spire.Lib
