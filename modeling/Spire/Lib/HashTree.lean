import Mathlib

/-!
# Complete binary trees of digests

A tree of depth `k` lies in an array in heap order: the root at position 1, the children of `n` at
`2 * n` and `2 * n + 1`, and the leaves from `2 ^ k` on. `fill` computes the inner nodes from the leaves.

Who knows the value at one position and the siblings on the way up can compute the root (`ascend`). Two
things are proved of it. From the siblings that the tree itself has there it comes to the tree's root
(`ascend_path`). And a value and siblings that come to the tree's root are those of the tree, unless the
way is longer than the tree is deep, and then a leaf is the digest of a pair (`ascend_binds`).
-/

namespace Spire.Lib.HashTree

variable {α : Type*} {h : α → α → α} {t : Nat → α} {n d k : Nat} {x : α} {ss : List α}

/-- The other child of the same parent. -/
def sibling (n : Nat) : Nat := if n % 2 = 0 then n + 1 else n - 1

/-- A node and its sibling, the left one first. -/
def pair (n : Nat) (x s : α) : α × α := if n % 2 = 0 then (x, s) else (s, x)

/-- The siblings on the way from a node, `d` levels up. -/
def path (t : Nat → α) : Nat → Nat → List α
  | _, 0 => []
  | n, d + 1 => t (sibling n) :: path t (n / 2) d

/-- What a value at a node and the siblings on the way up come to. -/
def ascend (h : α → α → α) : Nat → α → List α → α
  | _, x, [] => x
  | n, x, s :: ss => ascend h (n / 2) (h (pair n x s).1 (pair n x s).2) ss

/-- The pairs that are digested on the way. -/
def digested (h : α → α → α) : Nat → α → List α → List (α × α)
  | _, _, [] => []
  | n, x, s :: ss => pair n x s :: digested h (n / 2) (h (pair n x s).1 (pair n x s).2) ss

/-- Every inner node of a tree of depth `k` is the digest of its children. -/
def Hashed (h : α → α → α) (k : Nat) (t : Nat → α) : Prop :=
  ∀ n, 1 ≤ n → n < 2 ^ k → t n = h (t (2 * n)) (t (2 * n + 1))

/-- Digest the children of the nodes from `n` down to the root. -/
def fill (h : α → α → α) : Nat → (Nat → α) → (Nat → α)
  | 0, t => t
  | n + 1, t => fill h n (Function.update t (n + 1) (h (t (2 * (n + 1))) (t (2 * (n + 1) + 1))))

/-! ## Filling -/

theorem fill_of_lt {i : Nat} (hi : n < i) : fill h n t i = t i := by
  induction n generalizing t with
  | zero => rfl
  | succ n ih =>
    rw [fill, ih (by omega)]
    exact Function.update_of_ne (by omega) _ _

theorem fill_of_le {i : Nat} (hpos : 1 ≤ i) (hi : i ≤ n) :
    fill h n t i = h (fill h n t (2 * i)) (fill h n t (2 * i + 1)) := by
  induction n generalizing t with
  | zero => omega
  | succ n ih =>
    rcases Nat.lt_or_ge i (n + 1) with hlt | hge
    · exact ih (by omega)
    · obtain rfl : i = n + 1 := by omega
      -- Its children lie behind it, and are not written again.
      simp only [fill]
      rw [fill_of_lt (by omega), fill_of_lt (by omega), fill_of_lt (by omega), Function.update_self,
        Function.update_of_ne (by omega), Function.update_of_ne (by omega)]

theorem hashed_fill (h : α → α → α) (k : Nat) (t : Nat → α) : Hashed h k (fill h (2 ^ k - 1) t) :=
  fun _ hpos hlt => fill_of_le hpos (Nat.le_sub_one_of_lt hlt)

/-- The leaves are as they were. -/
theorem fill_leaf {i : Nat} (hi : 2 ^ k ≤ i) : fill h (2 ^ k - 1) t i = t i :=
  fill_of_lt (Nat.lt_of_lt_of_le (Nat.sub_lt (Nat.two_pow_pos k) Nat.one_pos) hi)

/-- What holds of every digest and of every value there was holds of every node. -/
theorem fill_all {P : α → Prop} (hh : ∀ a b, P (h a b)) (ht : ∀ i, P (t i)) (i : Nat) : P (fill h n t i) := by
  induction n generalizing t with
  | zero => exact ht i
  | succ n ih =>
    refine ih fun j => ?_
    rw [Function.update_apply]
    split
    · exact hh _ _
    · exact ht j

/-! ## The way up -/

theorem one_lt_sibling (hn : 1 < n) : 1 < sibling n := by
  unfold sibling
  split <;> omega

theorem sibling_ne (hn : 0 < n) : sibling n ≠ n := by
  unfold sibling
  split <;> omega

theorem length_path (t : Nat → α) (n d : Nat) : (path t n d).length = d := by
  induction d generalizing n with
  | zero => rfl
  | succ d ih => rw [path, List.length_cons, ih]

/-- The children of a node, seen from one of them. -/
theorem pair_sibling (t : Nat → α) (n : Nat) :
    pair n (t n) (t (sibling n)) = (t (2 * (n / 2)), t (2 * (n / 2) + 1)) := by
  unfold pair sibling
  rcases Nat.mod_two_eq_zero_or_one n with heven | hodd
  · have hleft : 2 * (n / 2) = n := by omega
    rw [if_pos heven, if_pos heven, hleft]
  · have hleft : 2 * (n / 2) = n - 1 := by omega
    have hright : n - 1 + 1 = n := by omega
    rw [if_neg (by omega), if_neg (by omega), hleft, hright]

/-- How far a node is from the root. -/
theorem exists_top (hpos : 1 ≤ n) : ∃ d, n / 2 ^ d = 1 := by
  have hle : 2 ^ Nat.log 2 n ≤ n := Nat.pow_log_le_self 2 (by omega)
  have hlt : n < 2 ^ (Nat.log 2 n + 1) := Nat.lt_pow_succ_log_self (by decide) n
  refine ⟨Nat.log 2 n, Nat.div_eq_of_lt_le ?_ ?_⟩
  · rwa [Nat.one_mul]
  · rwa [Nat.succ_mul, Nat.one_mul, ← Nat.two_mul, ← Nat.pow_succ']

theorem le_of_top (htop : n / 2 ^ d = 1) (hn : n < 2 ^ (k + 1)) : d ≤ k := by
  have hle : 2 ^ d ≤ n := by
    by_contra hlt
    rw [Nat.div_eq_of_lt (by omega)] at htop
    exact absurd htop (by decide)
  exact Nat.le_of_lt_succ ((Nat.pow_lt_pow_iff_right (by decide)).mp (Nat.lt_of_le_of_lt hle hn))

/-- The parent of a node below the root, and how far it is from the root. -/
theorem top_half (htop : n / 2 ^ (d + 1) = 1) : n / 2 / 2 ^ d = 1 ∧ 1 ≤ n / 2 := by
  have hup : n / 2 / 2 ^ d = 1 := by rw [Nat.div_div_eq_div_mul, ← Nat.pow_succ', htop]
  refine ⟨hup, Nat.one_le_iff_ne_zero.mpr fun hzero => ?_⟩
  rw [hzero, Nat.zero_div] at hup
  exact absurd hup (by decide)

/-- **The siblings of the tree come to its root.** -/
theorem ascend_path (ht : Hashed h k t) (hn : n < 2 ^ (k + 1)) (htop : n / 2 ^ d = 1) :
    ascend h n (t n) (path t n d) = t 1 := by
  induction d generalizing n with
  | zero =>
    rw [Nat.pow_zero, Nat.div_one] at htop
    rw [htop]
    rfl
  | succ d ih =>
    obtain ⟨hup, hpos⟩ := top_half htop
    rw [Nat.pow_succ] at hn
    have hparent : h (t (2 * (n / 2))) (t (2 * (n / 2) + 1)) = t (n / 2) := (ht _ hpos (by omega)).symm
    rw [path, ascend, pair_sibling, hparent]
    exact ih (by rw [Nat.pow_succ]; omega) hup

/-- **What comes to the tree's root is in the tree**, where digests of its inner nodes have no second
preimage among the pairs on the way: the value at the position it is said to be at, or, when the way is
too long, a pair whose digest is a leaf. -/
theorem ascend_binds (ht : Hashed h k t)
    (hinj : ∀ p ∈ digested h n x ss, ∀ i, 1 ≤ i → i < 2 ^ k → h p.1 p.2 = h (t (2 * i)) (t (2 * i + 1)) →
      p = (t (2 * i), t (2 * i + 1)))
    (htop : n / 2 ^ ss.length = 1) (hroot : ascend h n x ss = t 1) :
    (n < 2 ^ (k + 1) ∧ x = t n) ∨
      ∃ p ∈ digested h n x ss, ∃ i, 2 ^ k ≤ i ∧ i < 2 ^ (k + 1) ∧ h p.1 p.2 = t i := by
  induction ss generalizing n x with
  | nil =>
    rw [List.length_nil, Nat.pow_zero, Nat.div_one] at htop
    rw [htop]
    exact .inl ⟨Nat.one_lt_two_pow (Nat.succ_ne_zero k), hroot⟩
  | cons s ss ih =>
    obtain ⟨hup, hpos⟩ := top_half htop
    rcases ih (fun p hp => hinj p (List.mem_cons_of_mem _ hp)) hup hroot with ⟨hlt, hparent⟩ | ⟨p, hp, hleaf⟩
    · rcases Nat.lt_or_ge (n / 2) (2 ^ k) with hinner | hleaf
      · rw [ht _ hpos hinner] at hparent
        have hpair := hinj _ List.mem_cons_self _ hpos hinner hparent
        refine .inl ⟨by rw [Nat.pow_succ]; omega, ?_⟩
        rw [← pair_sibling] at hpair
        unfold pair at hpair
        split at hpair
        · exact (Prod.mk.inj hpair).1
        · exact (Prod.mk.inj hpair).2
      · exact .inr ⟨_, List.mem_cons_self, n / 2, hleaf, hlt, hparent⟩
    · exact .inr ⟨p, List.mem_cons_of_mem _ hp, hleaf⟩

end Spire.Lib.HashTree
