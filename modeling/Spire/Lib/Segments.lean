import Mathlib.Data.List.Basic

/-!
# Segments

A list of segments, each of which begins with the only element of it that is marked. Cut
anywhere, their concatenation is some whole segments and at most one that the cut goes through
(`cut_flatten`). What is behind the cut begins, from the next marked element on, with a whole
segment again (`dropWhile_drop_flatten`), and where the segments are short there is such an
element near (`exists_marked`).
-/

namespace Spire.Lib

variable {α : Type*}

/-- The first element is marked, and the others are not. -/
def Segment (p : α → Bool) : List α → Prop
  | [] => False
  | x :: xs => p x = true ∧ ∀ y ∈ xs, p y = false

/-- A cut behind `n` elements, before which `k` segments begin: between two segments, or within one. -/
inductive Cut (gs : List (List α)) (p : α → Bool) (n k : Nat) : Prop
  | between (htake : gs.flatten.take n = (gs.take k).flatten) (hdrop : gs.flatten.drop n = (gs.drop k).flatten)
  | within (j : Nat) (front back : List α) (hk : k = j + 1) (hget : gs[j]? = some (front ++ back)) (hfront : front ≠ [])
      (hback : back ≠ []) (hplain : ∀ y ∈ back, p y = false) (htake : gs.flatten.take n = (gs.take j).flatten ++ front)
      (hdrop : gs.flatten.drop n = back ++ (gs.drop k).flatten)

variable {p : α → Bool} {g : List α} {gs : List (List α)} {n : Nat}

theorem Segment.countP_take (h : Segment p g) (hn : n ≠ 0) : (g.take n).countP p = 1 := by
  cases g with
  | nil => exact h.elim
  | cons x xs =>
    obtain ⟨n, rfl⟩ := Nat.exists_eq_succ_of_ne_zero hn
    have hrest : (xs.take n).countP p = 0 := by
      rw [List.countP_eq_zero]
      intro y hy
      simp [h.2 y (List.mem_of_mem_take hy)]
    rw [List.take_succ_cons, List.countP_cons_of_pos h.1, hrest]

theorem Segment.countP (h : Segment p g) : g.countP p = 1 := by
  have hne : g.length ≠ 0 := by
    intro hzero
    rw [List.length_eq_zero_iff.mp hzero] at h
    exact h
  have hall := h.countP_take hne
  rwa [List.take_length] at hall

theorem Segment.plain_drop (h : Segment p g) (hn : n ≠ 0) : ∀ y ∈ g.drop n, p y = false := by
  intro y hy
  cases g with
  | nil => exact h.elim
  | cons x xs =>
    obtain ⟨n, rfl⟩ := Nat.exists_eq_succ_of_ne_zero hn
    exact h.2 y (List.mem_of_mem_drop hy)

/-- **Cuts.** The number of segments that begin before a cut says where it is. -/
theorem cut_flatten (hgs : ∀ g ∈ gs, Segment p g) (n : Nat) : Cut gs p n ((gs.flatten.take n).countP p) := by
  induction gs generalizing n with
  | nil => exact .between (by simp) (by simp)
  | cons g gs ih =>
    have hg := hgs g List.mem_cons_self
    rcases Nat.lt_or_ge n g.length with hlt | hge
    · rw [List.flatten_cons, List.take_append_of_le_length (Nat.le_of_lt hlt)]
      rcases eq_or_ne n 0 with rfl | hn
      · exact .between (by simp) (by simp)
      · refine .within 0 (g.take n) (g.drop n) (hg.countP_take hn) (by simp) ?_ ?_ (hg.plain_drop hn) ?_ ?_
        · exact List.ne_nil_of_length_pos (by rw [List.length_take]; omega)
        · exact List.ne_nil_of_length_pos (by rw [List.length_drop]; omega)
        · simp [List.take_append_of_le_length (Nat.le_of_lt hlt)]
        · rw [hg.countP_take hn, List.flatten_cons, List.drop_append_of_le_length (Nat.le_of_lt hlt)]
          simp
    · obtain ⟨m, rfl⟩ := Nat.exists_eq_add_of_le hge
      have htakes : (g :: gs).flatten.take (g.length + m) = g ++ gs.flatten.take m := by
        rw [List.flatten_cons, List.take_length_add_append]
      have hdrops : (g :: gs).flatten.drop (g.length + m) = gs.flatten.drop m := by
        rw [List.flatten_cons, List.drop_length_add_append]
      rw [htakes, List.countP_append, hg.countP, Nat.add_comm 1]
      rcases ih (fun g' hg' => hgs g' (List.mem_cons_of_mem g hg')) m with
        ⟨htake, hdrop⟩ | ⟨j, front, back, hk, hget, hfront, hback, hplain, htake, hdrop⟩
      · exact .between (htakes.trans (congrArg (g ++ ·) htake)) (hdrops.trans hdrop)
      · refine .within (j + 1) front back (by rw [hk]) hget hfront hback hplain ?_ (hdrops.trans hdrop)
        rw [htakes, htake, List.take_succ_cons, List.flatten_cons, List.append_assoc]

/-- What begins with whole segments begins with a marked element. -/
theorem exists_marked_of_flatten {xs ys : List α} (hgs : ∀ g ∈ gs, Segment p g) (hxs : xs ≠ []) (h : gs.flatten = xs ++ ys) :
    ∃ x ∈ xs, p x = true := by
  cases gs with
  | nil => exact absurd (List.append_eq_nil_iff.mp h.symm).1 hxs
  | cons g gs =>
    have hg := hgs g List.mem_cons_self
    obtain ⟨x, xs, rfl⟩ := List.exists_cons_of_ne_nil hxs
    cases g with
    | nil => exact hg.elim
    | cons y g =>
      cases (List.cons.inj h).1
      exact ⟨x, List.mem_cons_self, hg.1⟩

theorem dropWhile_flatten (hgs : ∀ g ∈ gs, Segment p g) : (gs.flatten.dropWhile fun x => !p x) = gs.flatten := by
  cases gs with
  | nil => rfl
  | cons g gs =>
    have hg := hgs g List.mem_cons_self
    cases g with
    | nil => exact hg.elim
    | cons x g => simp [hg.1]

/-- From the next marked element on there are whole segments again. -/
theorem dropWhile_drop_flatten (hgs : ∀ g ∈ gs, Segment p g) (n : Nat) :
    ((gs.flatten.drop n).dropWhile fun x => !p x) = (gs.drop ((gs.flatten.take n).countP p)).flatten := by
  have hrest : ∀ k, ∀ g ∈ gs.drop k, Segment p g := fun k g hg => hgs g (List.mem_of_mem_drop hg)
  rcases cut_flatten hgs n with ⟨-, hdrop⟩ | ⟨j, front, back, -, -, -, -, hplain, -, hdrop⟩
  · rw [hdrop, dropWhile_flatten (hrest _)]
  · rw [hdrop, List.dropWhile_append_of_pos (by simpa using hplain), dropWhile_flatten (hrest _)]

/-- Where no segment is longer than a stretch of elements, one begins in it. -/
theorem exists_marked {xs ys zs : List α} {m : Nat} (hgs : ∀ g ∈ gs, Segment p g) (hlen : ∀ g ∈ gs, g.length ≤ m)
    (h : gs.flatten = xs ++ (ys ++ zs)) (hys : m ≤ ys.length) (hm : 0 < m) : ∃ y ∈ ys, p y = true := by
  have hrest : ∀ k, ∀ g ∈ gs.drop k, Segment p g := fun k g hg => hgs g (List.mem_of_mem_drop hg)
  have hdrops : gs.flatten.drop xs.length = ys ++ zs := by rw [h, List.drop_left]
  rcases cut_flatten hgs xs.length with ⟨-, hdrop⟩ | ⟨j, front, back, -, hget, hfront, -, -, -, hdrop⟩
  · exact exists_marked_of_flatten (hrest _) (List.ne_nil_of_length_pos (Nat.lt_of_lt_of_le hm hys)) (hdrop.symm.trans hdrops)
  · have hshort := hlen _ (List.mem_of_getElem? hget)
    have hpos := List.length_pos_iff.mpr hfront
    rw [List.length_append] at hshort
    have hsplit := hdrop.symm.trans hdrops
    obtain ⟨ys', rfl⟩ := List.prefix_of_prefix_length_le ⟨_, hsplit⟩ ⟨_, rfl⟩ (by omega)
    rw [List.append_assoc] at hsplit
    have hne : ys' ≠ [] := List.ne_nil_of_length_pos (by rw [List.length_append] at hys; omega)
    obtain ⟨y, hy, hmark⟩ := exists_marked_of_flatten (hrest _) hne (List.append_cancel_left hsplit)
    exact ⟨y, List.mem_append_right _ hy, hmark⟩

end Spire.Lib
