import Mathlib.Data.List.Basic
import Mathlib.Order.Lattice

/-!
# Lists kept in the order of their keys

A table as a sorted list, one entry for a key. `upsert` applies a change to the entry of
a key and puts a fresh entry in its place of the order where there was none. `mem_upsert`
says what is in the list afterwards, and is the only fact about it that a caller needs
beside `Keyed.upsert`.
-/

namespace Spire.Lib

variable {α κ : Type*} [LinearOrder κ] (key : α → κ)

/-- The keys increase strictly. -/
def Keyed (l : List α) : Prop := l.Pairwise fun a b => key a < key b

/-- The entry of `k`, or the fresh one. -/
def entry (k : κ) (fresh : α) (l : List α) : α := (l.find? fun a => key a = k).getD fresh

/-- Apply `f` to the entry of `k`. -/
def upsert (k : κ) (fresh : α) (f : α → α) : List α → List α
  | [] => [f fresh]
  | a :: as =>
    if key a < k then a :: upsert k fresh f as
    else if key a = k then f a :: as
    else f fresh :: a :: as

variable {key} {k : κ} {fresh a b : α} {f : α → α} {l : List α}

theorem Keyed.tail (h : Keyed key (a :: l)) : Keyed key l := (List.pairwise_cons.mp h).2

theorem Keyed.head_lt (h : Keyed key (a :: l)) (hb : b ∈ l) : key a < key b :=
  (List.pairwise_cons.mp h).1 b hb

/-- A condition on keys that smaller keys meet too splits the list. -/
theorem Keyed.split (h : Keyed key l) {p : κ → Prop} (hp : ∀ k₁ k₂, k₁ < k₂ → p k₂ → p k₁) :
    ∃ pre post, l = pre ++ post ∧ (∀ a ∈ pre, p (key a)) ∧ ∀ a ∈ post, ¬p (key a) := by
  induction l with
  | nil => exact ⟨[], [], rfl, List.forall_mem_nil _, List.forall_mem_nil _⟩
  | cons b l ih =>
    by_cases hb : p (key b)
    · obtain ⟨pre, post, rfl, hpre, hpost⟩ := ih h.tail
      exact ⟨b :: pre, post, rfl, List.forall_mem_cons.mpr ⟨hb, hpre⟩, hpost⟩
    · refine ⟨[], b :: l, rfl, List.forall_mem_nil _, List.forall_mem_cons.mpr ⟨hb, fun a ha hpa => ?_⟩⟩
      exact hb (hp _ _ (h.head_lt ha) hpa)

/-- Where a list is split by a condition, its first part is what meets it. -/
theorem filter_of_split {p : α → Prop} [DecidablePred p] {pre post : List α} (hpre : ∀ a ∈ pre, p a)
    (hpost : ∀ a ∈ post, ¬p a) : (pre ++ post).filter p = pre := by
  have hkeep : pre.filter p = pre := List.filter_eq_self.mpr fun a ha => decide_eq_true (hpre a ha)
  have hdrop : post.filter p = [] := List.filter_eq_nil_iff.mpr fun a ha h => hpost a ha (of_decide_eq_true h)
  rw [List.filter_append, hkeep, hdrop, List.append_nil]

/-- An entry is known by its key. -/
theorem Keyed.unique (h : Keyed key l) (ha : a ∈ l) (hb : b ∈ l) (hk : key a = key b) : a = b := by
  induction l with
  | nil => cases ha
  | cons c l ih =>
    rcases List.mem_cons.mp ha with hac | ha <;> rcases List.mem_cons.mp hb with hbc | hb
    · exact hac.trans hbc.symm
    · exact absurd hk (hac ▸ (h.head_lt hb).ne)
    · exact absurd hk (hbc ▸ (h.head_lt ha).ne')
    · exact ih h.tail ha hb

/-- The entry of a key has this key. -/
theorem key_entry (hfresh : key fresh = k) : key (entry key k fresh l) = k := by
  unfold entry
  cases hf : l.find? fun a => key a = k with
  | none => exact hfresh
  | some b => simpa using List.find?_some hf

theorem entry_mem_or (key : α → κ) (k : κ) (fresh : α) (l : List α) :
    entry key k fresh l ∈ l ∨ (∀ a ∈ l, key a ≠ k) ∧ entry key k fresh l = fresh := by
  unfold entry
  cases hf : l.find? fun a => key a = k with
  | none => exact .inr ⟨fun a ha => by simpa using List.find?_eq_none.mp hf a ha, rfl⟩
  | some b => exact .inl (List.mem_of_find?_eq_some hf)

theorem entry_eq_fresh (h : ∀ a ∈ l, key a ≠ k) : entry key k fresh l = fresh := by
  unfold entry
  rw [List.find?_eq_none.mpr fun a ha => by simpa using h a ha]
  rfl

theorem entry_eq (h : Keyed key l) (ha : a ∈ l) (hk : key a = k) : entry key k fresh l = a := by
  unfold entry
  cases hf : l.find? fun a => key a = k with
  | none => exact absurd hk (by simpa using List.find?_eq_none.mp hf a ha)
  | some b =>
    have hb : key b = k := by simpa using List.find?_some hf
    exact h.unique (List.mem_of_find?_eq_some hf) ha (hb.trans hk.symm)

/-- Where the changes keep the key, the list has the changed entry and all others. -/
theorem mem_upsert (h : Keyed key l) :
    b ∈ upsert key k fresh f l ↔ b = f (entry key k fresh l) ∨ b ∈ l ∧ key b ≠ k := by
  induction l with
  | nil => simp [upsert, entry]
  | cons a l ih =>
    unfold upsert
    split_ifs with hlt heq
    · have hentry : entry key k fresh (a :: l) = entry key k fresh l := by
        simp [entry, hlt.ne]
      rw [List.mem_cons, ih h.tail, hentry, List.mem_cons]
      constructor
      · rintro (rfl | rfl | ⟨hb, hne⟩)
        · exact .inr ⟨.inl rfl, hlt.ne⟩
        · exact .inl rfl
        · exact .inr ⟨.inr hb, hne⟩
      · rintro (rfl | ⟨rfl | hb, hne⟩)
        · exact .inr (.inl rfl)
        · exact .inl rfl
        · exact .inr (.inr ⟨hb, hne⟩)
    · have hentry : entry key k fresh (a :: l) = a := by simp [entry, heq]
      rw [List.mem_cons, hentry, List.mem_cons]
      constructor
      · rintro (rfl | hb)
        · exact .inl rfl
        · exact .inr ⟨.inr hb, fun hk => absurd (heq.trans hk.symm) (h.head_lt hb).ne⟩
      · rintro (rfl | ⟨rfl | hb, hne⟩)
        · exact .inl rfl
        · exact absurd heq hne
        · exact .inr hb
    · have hgt : k < key a := lt_of_le_of_ne (not_lt.mp hlt) (Ne.symm heq)
      have hall : ∀ c ∈ a :: l, key c ≠ k := by
        intro c hc
        rcases List.mem_cons.mp hc with rfl | hc
        · exact heq
        · exact (hgt.trans (h.head_lt hc)).ne'
      rw [entry_eq_fresh hall, List.mem_cons]
      refine or_congr_right ⟨fun hb => ⟨hb, hall b hb⟩, And.left⟩

theorem Keyed.upsert (h : Keyed key l) (hf : ∀ a, key (f a) = key a) (hfresh : key fresh = k) :
    Keyed key (upsert key k fresh f l) := by
  induction l with
  | nil => exact List.pairwise_singleton _ _
  | cons a l ih =>
    unfold Lib.upsert
    split_ifs with hlt heq
    · refine List.pairwise_cons.mpr ⟨fun b hb => ?_, ih h.tail⟩
      rcases (mem_upsert h.tail).mp hb with rfl | ⟨hb, -⟩
      · rw [hf, key_entry hfresh]
        exact hlt
      · exact h.head_lt hb
    · exact List.pairwise_cons.mpr ⟨fun b hb => (hf a).trans_lt (h.head_lt hb), h.tail⟩
    · have hgt : k < key a := lt_of_le_of_ne (not_lt.mp hlt) (Ne.symm heq)
      refine List.pairwise_cons.mpr ⟨fun b hb => ?_, h⟩
      rw [hf, hfresh]
      rcases List.mem_cons.mp hb with rfl | hb
      · exact hgt
      · exact hgt.trans (h.head_lt hb)

/-- The changed entry is found at its key. -/
theorem find?_upsert (h : Keyed key l) (hf : ∀ a, key (f a) = key a) (hfresh : key fresh = k) :
    (Lib.upsert key k fresh f l).find? (fun a => key a = k) = some (f (entry key k fresh l)) := by
  have hmem : f (entry key k fresh l) ∈ Lib.upsert key k fresh f l := (mem_upsert h).mpr (.inl rfl)
  have hkey : key (f (entry key k fresh l)) = k := (hf _).trans (key_entry hfresh)
  cases hfound : (Lib.upsert key k fresh f l).find? fun a => key a = k with
  | none => exact absurd hkey (by simpa using List.find?_eq_none.mp hfound _ hmem)
  | some b =>
    have hb : key b = k := by simpa using List.find?_some hfound
    exact congrArg some ((h.upsert hf hfresh).unique (List.mem_of_find?_eq_some hfound) hmem (hb.trans hkey.symm))

end Spire.Lib
