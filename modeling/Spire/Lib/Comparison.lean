import Mathlib.Data.List.Induction
import Mathlib.Data.Prod.Lex
import Mathlib.Order.Comparable

/-!
# Three-way comparisons of a partial order

Programs compare records by a function that answers `1`, `0` or `-1`. Where what is
compared is only partially ordered, the answer for two incomparable records is a choice,
and the common one is to call the first of them the older: it is behind in something.

`Reports compare key` says that a comparison makes this choice for the order of the keys.
It gives up what one expects of a comparison, and the section on pairs says of which
pairs. What is left, that a record which is not behind stays so along a chain, is enough
for a recipient that keeps the newest of what arrives, as long as what arrives is
comparable: `keepNewest_greatest`.
-/

namespace Spire.Lib

variable {α κ : Type*} [PartialOrder κ]

/-- The comparison tells where its first argument stands, by a key in a partial order;
who is not at or above the other is behind. -/
structure Reports (compare : α → α → Int) (key : α → κ) : Prop where
  ahead : ∀ {a b}, compare a b = 1 ↔ key b < key a
  equal : ∀ {a b}, compare a b = 0 ↔ key a = key b
  behind : ∀ {a b}, compare a b = -1 ↔ ¬ key b ≤ key a

namespace Reports

variable {compare : α → α → Int} {key : α → κ} {a b d : α}

/-- A field that is looked at first, and that decides unless it is the same. -/
theorem lex {ι : Type*} [LinearOrder ι] (h : Reports compare key) (first : α → ι) :
    Reports (fun a b => if first a < first b then -1 else if first a > first b then 1 else compare a b)
      (fun a => toLex (first a, key a)) := by
  have hlt : ∀ a b, toLex (first a, key a) < toLex (first b, key b) ↔
      first a < first b ∨ first a = first b ∧ key a < key b := fun a b => Prod.Lex.toLex_lt_toLex
  have hle : ∀ a b, toLex (first a, key a) ≤ toLex (first b, key b) ↔
      first a < first b ∨ first a = first b ∧ key a ≤ key b := fun a b => Prod.Lex.toLex_le_toLex
  constructor
  · intro a b
    rw [hlt]
    rcases lt_trichotomy (first a) (first b) with h1 | h1 | h1
    · simp [h1, h1.not_gt, h1.ne']
    · simp [h1, h.ahead]
    · simp [h1, h1.not_gt]
  · intro a b
    rcases lt_trichotomy (first a) (first b) with h1 | h1 | h1
    · simp [h1, h1.ne]
    · simp [h1, h.equal]
    · simp [h1, h1.not_gt, h1.ne']
  · intro a b
    rw [hle]
    rcases lt_trichotomy (first a) (first b) with h1 | h1 | h1
    · simp [h1, h1.not_gt, h1.ne']
    · simp [h1, h.behind]
    · simp [h1, h1.not_gt]

/-! ## Pairs and triples -/

theorem cases (h : Reports compare key) (a b : α) : compare a b = -1 ∨ compare a b = 0 ∨ compare a b = 1 := by
  rw [h.ahead, h.equal, h.behind, eq_comm, ← le_iff_eq_or_lt]
  exact (em (key b ≤ key a)).symm

theorem neg_iff (h : Reports compare key) : compare a b < 0 ↔ ¬ key b ≤ key a := by
  rw [← h.behind]
  have := h.cases a b
  omega

theorem not_behind (h : Reports compare key) : 0 ≤ compare a b ↔ key b ≤ key a := by
  rw [← not_lt, h.neg_iff, not_not]

/-- Each of two records claims to be behind the other exactly where their keys are
incomparable. -/
theorem both_behind (h : Reports compare key) :
    compare a b = -1 ∧ compare b a = -1 ↔ IncompRel (· ≤ ·) (key a) (key b) := by
  rw [h.behind, h.behind, and_comm]
  rfl

theorem behind_of_ahead (h : Reports compare key) (hab : compare a b = 1) : compare b a = -1 :=
  h.behind.mpr (h.ahead.mp hab).not_ge

theorem equal_symm (h : Reports compare key) (hab : compare a b = 0) : compare b a = 0 :=
  h.equal.mpr (h.equal.mp hab).symm

theorem not_behind_trans (h : Reports compare key) (hab : 0 ≤ compare a b) (hbd : 0 ≤ compare b d) :
    0 ≤ compare a d :=
  h.not_behind.mpr ((h.not_behind.mp hbd).trans (h.not_behind.mp hab))

theorem ahead_trans (h : Reports compare key) (hab : 0 ≤ compare a b) (hbd : 0 ≤ compare b d)
    (hone : compare a b = 1 ∨ compare b d = 1) : compare a d = 1 := by
  apply h.ahead.mpr
  have hba := h.not_behind.mp hab
  have hdb := h.not_behind.mp hbd
  rcases hone with hone | hone
  · exact hdb.trans_lt (h.ahead.mp hone)
  · exact (h.ahead.mp hone).trans_le hba

/-- Among comparable records, to be behind is to be below. -/
theorem behind_iff_lt (h : Reports compare key) (hcomp : ¬ (compare a b = -1 ∧ compare b a = -1)) :
    compare a b = -1 ↔ key a < key b := by
  rw [h.both_behind] at hcomp
  rw [h.behind]
  constructor
  · intro hba
    have hab : key a ≤ key b := by
      by_contra hab
      exact hcomp ⟨hab, hba⟩
    exact lt_of_le_not_ge hab hba
  · exact fun hlt => hlt.not_ge

theorem behind_trans (h : Reports compare key) (hab : compare a b = -1) (hbd : compare b d = -1)
    (hcab : compare b a ≠ -1) (hcbd : compare d b ≠ -1) : compare a d = -1 := by
  have h1 := (h.behind_iff_lt fun hboth => hcab hboth.2).mp hab
  have h2 := (h.behind_iff_lt fun hboth => hcbd hboth.2).mp hbd
  exact h.behind.mpr (h1.trans h2).not_ge

end Reports

/-! ## A recipient that keeps the newest -/

/-- What a recipient holds that drops an arrival standing behind what it has. -/
def keepNewest (compare : α → α → Int) (kept : Option α) (x : α) : Option α :=
  match kept with
  | none => some x
  | some y => if compare x y < 0 then some y else some x

/-- Where the arrivals are comparable, the recipient ends up with a greatest one. -/
theorem keepNewest_greatest {compare : α → α → Int} {key : α → κ} (h : Reports compare key) {xs : List α}
    (hne : xs ≠ []) (hchain : ∀ x ∈ xs, ∀ y ∈ xs, key x ≤ key y ∨ key y ≤ key x) :
    ∃ m ∈ xs, xs.foldl (keepNewest compare) none = some m ∧ ∀ x ∈ xs, key x ≤ key m := by
  induction xs using List.reverseRecOn with
  | nil => exact absurd rfl hne
  | append_singleton xs x ih =>
    rw [List.foldl_append, List.foldl_cons, List.foldl_nil]
    rcases eq_or_ne xs [] with rfl | hxs
    · exact ⟨x, by simp, rfl, by simp⟩
    · have hsub : ∀ y ∈ xs, y ∈ xs ++ [x] := fun y hy => List.mem_append_left _ hy
      obtain ⟨m, hm, heq, hmax⟩ := ih hxs fun y hy z hz => hchain y (hsub y hy) z (hsub z hz)
      rw [heq]
      simp only [keepNewest]
      by_cases hle : key m ≤ key x
      · rw [if_neg (h.neg_iff.not.mpr (not_not.mpr hle))]
        refine ⟨x, by simp, rfl, fun y hy => ?_⟩
        rcases List.mem_append.mp hy with hy | hy
        · exact (hmax y hy).trans hle
        · rw [List.mem_singleton.mp hy]
      · rw [if_pos (h.neg_iff.mpr hle)]
        refine ⟨m, hsub m hm, rfl, fun y hy => ?_⟩
        rcases List.mem_append.mp hy with hy | hy
        · exact hmax y hy
        · rw [List.mem_singleton.mp hy]
          exact (hchain m (hsub m hm) x (by simp)).resolve_left hle

/-- Two recipients to which the same comparable records arrive, in any two orders, end up
with records of the same key. -/
theorem keepNewest_perm {compare : α → α → Int} {key : α → κ} (h : Reports compare key) {xs ys : List α}
    (hperm : xs.Perm ys) (hchain : ∀ x ∈ xs, ∀ y ∈ xs, key x ≤ key y ∨ key y ≤ key x) :
    (xs.foldl (keepNewest compare) none).map key = (ys.foldl (keepNewest compare) none).map key := by
  rcases eq_or_ne xs [] with rfl | hne
  · rw [List.nil_perm.mp hperm]
  · have hne' : ys ≠ [] := by
      rintro rfl
      exact hne (List.perm_nil.mp hperm)
    obtain ⟨m, hm, heq, hmax⟩ := keepNewest_greatest h hne hchain
    obtain ⟨m', hm', heq', hmax'⟩ := keepNewest_greatest h hne' fun x hx y hy =>
      hchain x (hperm.mem_iff.mpr hx) y (hperm.mem_iff.mpr hy)
    rw [heq, heq', Option.map_some, Option.map_some]
    exact congrArg some (le_antisymm (hmax' m (hperm.mem_iff.mp hm)) (hmax m' (hperm.mem_iff.mpr hm')))

end Spire.Lib
