import Mathlib.Data.Finset.Card
import Mathlib.Data.Finset.Prod
import Mathlib.Data.List.Chain
import Mathlib.Data.List.Nodup

/-!
# Paths of links that enter every vertex once

Links lead from a vertex `s`, which none enters, to a vertex `t`, which none leaves. At every other
vertex at most one enters, and one leaves when one enters (`Threads`). Then each link that leaves
`s` is the first of a path to `t`, and no two of these paths share a vertex between the ends
(`Threads.paths`).
-/

namespace Spire.Lib

variable {V : Type*}

/-- Links along which one goes from `s` to `t` without a choice to make but the first. -/
structure Threads (links : Finset (V × V)) (s t : V) : Prop where
  ends : s ≠ t
  noneIn : ∀ x, (x, s) ∉ links
  noneOut : ∀ x, (t, x) ∉ links
  uniqueIn : ∀ {x y v}, (x, v) ∈ links → (y, v) ∈ links → v ≠ t → x = y
  goesOn : ∀ {x v}, (x, v) ∈ links → v ≠ t → ∃ y, (v, y) ∈ links

/-- Paths from `s` to `t`, given by the vertices between the ends, which no two of them share. -/
structure DisjointPaths (R : V → V → Prop) (s t : V) (paths : List (List V)) : Prop where
  chain : ∀ p ∈ paths, (s :: p ++ [t]).IsChain R
  simple : ∀ p ∈ paths, (s :: p ++ [t]).Nodup
  distinct : paths.Nodup
  disjoint : paths.Pairwise List.Disjoint

theorem DisjointPaths.mono {R R' : V → V → Prop} {s t : V} {paths : List (List V)} (h : DisjointPaths R s t paths)
    (hR : ∀ x y, R x y → R' x y) : DisjointPaths R' s t paths where
  chain p hp := (h.chain p hp).imp hR
  simple := h.simple
  distinct := h.distinct
  disjoint := h.disjoint

/-- Of more paths than vertices are to be avoided one avoids them all. -/
theorem DisjointPaths.exists_avoiding [DecidableEq V] {R : V → V → Prop} {s t : V} {paths : List (List V)} (h : DisjointPaths R s t paths)
    {dead : Finset V} (hdead : dead.card < paths.length) : ∃ p ∈ paths, ∀ v ∈ p, v ∉ dead := by
  have hdis := h.disjoint
  clear h
  induction paths generalizing dead with
  | nil => exact absurd hdead (Nat.not_lt_zero _)
  | cons p paths ih =>
    by_cases hp : ∀ v ∈ p, v ∉ dead
    · exact ⟨p, List.mem_cons_self, hp⟩
    -- what this path has in common with them the others need not avoid
    obtain ⟨v, hv, hmem⟩ : ∃ v ∈ p, v ∈ dead := by simpa using hp
    have hcard := Finset.card_erase_add_one hmem
    obtain ⟨q, hq, havoid⟩ := ih (show (dead.erase v).card < paths.length by rw [List.length_cons] at hdead; omega) hdis.tail
    refine ⟨q, List.mem_cons_of_mem _ hq, fun u hu hdead => havoid u hu (Finset.mem_erase.mpr ⟨?_, hdead⟩)⟩
    rintro rfl
    exact (List.pairwise_cons.mp hdis).1 q hq hv hu

variable {links : Finset (V × V)} {s t x y v : V} {p q : List V}

namespace Threads

/-! The vertices of a path are listed from its end, so that the links into them come first. -/

/-- Two ways to a vertex are the same. -/
theorem way_unique (h : Threads links s t) (hp : (v :: p ++ [s]).IsChain fun a b => (b, a) ∈ links)
    (hq : (v :: q ++ [s]).IsChain fun a b => (b, a) ∈ links) (hpt : t ∉ v :: p) (hqt : t ∉ q) : p = q := by
  induction p generalizing v q with
  | nil =>
    cases q with
    | nil => rfl
    | cons b q =>
      simp only [List.cons_append, List.nil_append, List.isChain_cons_cons] at hp hq
      obtain rfl := h.uniqueIn hp.1 hq.1 fun heq => hpt (by simp [heq])
      cases q <;> exact absurd (List.isChain_cons_cons.mp hq.2).1 (h.noneIn _)
  | cons a p ih =>
    have hv : v ≠ t := fun heq => hpt (by simp [heq])
    cases q with
    | nil =>
      simp only [List.cons_append, List.nil_append, List.isChain_cons_cons] at hp hq
      obtain rfl := h.uniqueIn hq.1 hp.1 hv
      cases p <;> exact absurd (List.isChain_cons_cons.mp hp.2).1 (h.noneIn _)
    | cons b q =>
      simp only [List.cons_append, List.isChain_cons_cons] at hp hq
      obtain rfl := h.uniqueIn hp.1 hq.1 hv
      rw [ih hp.2 hq.2 (fun ht => hpt (List.mem_cons_of_mem _ ht)) fun ht => hqt (List.mem_cons_of_mem _ ht)]

/-- What starts at `s` does not pass a vertex twice. -/
theorem way_nodup (h : Threads links s t) (hp : (p ++ [s]).IsChain fun a b => (b, a) ∈ links) (ht : t ∉ p.tail) : (p ++ [s]).Nodup := by
  induction p with
  | nil => simp
  | cons z p ih =>
    have hnodup := ih hp.tail fun hmem => ht (List.mem_of_mem_tail hmem)
    refine List.nodup_cons.mpr ⟨fun hz => ?_, hnodup⟩
    obtain ⟨w, rest, hw⟩ : ∃ w rest, p ++ [s] = w :: rest := List.exists_cons_of_ne_nil (by simp)
    have hin : (w, z) ∈ links := by
      rw [List.cons_append, hw] at hp
      exact (List.isChain_cons_cons.mp hp).1
    rcases List.mem_append.mp hz with hz | hz
    swap
    · rw [List.mem_singleton] at hz
      exact h.noneIn w (hz ▸ hin)
    -- the vertex before the first time is the one before the second
    obtain ⟨a, b, rfl⟩ := List.append_of_mem hz
    obtain ⟨c, rest', hc⟩ : ∃ c rest', b ++ [s] = c :: rest' := List.exists_cons_of_ne_nil (by simp)
    have hin' : (c, z) ∈ links := by
      have hchain := hp.tail
      simp only [List.tail_cons, List.append_assoc, List.cons_append] at hchain
      rw [hc] at hchain
      exact (List.isChain_cons_cons.mp (List.isChain_append.mp hchain).2.1).1
    obtain rfl := h.uniqueIn hin hin' fun heq => ht (by simp [heq])
    rw [List.append_assoc, List.cons_append, hc] at hnodup hw
    cases a with
    | nil =>
      rw [List.nil_append, List.cons.injEq] at hw
      simp [hw.1] at hnodup
    | cons a' a =>
      rw [List.cons_append, List.cons.injEq] at hw
      simp [hw.1] at hnodup

/-- From the first link on the way goes on until it ends at `t`. -/
theorem way_on (h : Threads links s t) (hx : (s, x) ∈ links) (n : ℕ) :
    (∃ p, (t :: p ++ [s]).IsChain (fun a b => (b, a) ∈ links) ∧ t ∉ p ∧ (t :: p).getLast? = some x) ∨
    ∃ p, p.length = n + 1 ∧ (p ++ [s]).IsChain (fun a b => (b, a) ∈ links) ∧ t ∉ p ∧ p.getLast? = some x := by
  induction n with
  | zero =>
    by_cases hxt : x = t
    · exact .inl ⟨[], by simpa [← hxt] using hx, by simp, by simp [hxt]⟩
    · exact .inr ⟨[x], rfl, by simpa using hx, by simp [Ne.symm hxt], rfl⟩
  | succ n ih =>
    rcases ih with hdone | ⟨p, hlen, hchain, ht, hlast⟩
    · exact .inl hdone
    obtain ⟨v, p, rfl⟩ : ∃ v p', p = v :: p' := List.exists_cons_of_length_eq_add_one hlen
    obtain ⟨w, hw⟩ : ∃ w, (w, v) ∈ links := by
      cases p <;> exact ⟨_, (List.isChain_cons_cons.mp hchain).1⟩
    obtain ⟨y, hy⟩ := h.goesOn hw fun heq => ht (by simp [heq])
    have hlast' : (y :: v :: p).getLast? = some x := by rw [List.getLast?_cons_cons, hlast]
    by_cases hyt : y = t
    · subst hyt
      exact .inl ⟨v :: p, List.isChain_cons_cons.mpr ⟨hy, hchain⟩, ht, hlast'⟩
    · exact .inr ⟨y :: v :: p, by rw [List.length_cons, hlen], List.isChain_cons_cons.mpr ⟨hy, hchain⟩,
        List.not_mem_cons_of_ne_of_not_mem (Ne.symm hyt) ht, hlast'⟩

variable [DecidableEq V]

theorem way_to_end (h : Threads links s t) (hx : (s, x) ∈ links) :
    ∃ p, (t :: p ++ [s]).IsChain (fun a b => (b, a) ∈ links) ∧ t ∉ p ∧ (t :: p).getLast? = some x := by
  rcases h.way_on hx links.card with hdone | ⟨p, hlen, hchain, ht, -⟩
  · exact hdone
  -- a way longer than there are links
  have hnodup := h.way_nodup hchain fun hmem => ht (List.mem_of_mem_tail hmem)
  have hsub : p.toFinset ⊆ links.image Prod.snd := by
    intro z hz
    obtain ⟨a, b, rfl⟩ := List.append_of_mem (List.mem_toFinset.mp hz)
    rw [List.append_assoc, List.cons_append] at hchain
    have hrest := (List.isChain_append.mp hchain).2.1
    cases b <;> exact Finset.mem_image.mpr ⟨_, (List.isChain_cons_cons.mp hrest).1, rfl⟩
  have hcard := (Finset.card_le_card hsub).trans Finset.card_image_le
  rw [List.toFinset_card_of_nodup hnodup.of_append_left, hlen] at hcard
  omega

/-- **As many paths as links leave `s`.** -/
theorem paths (h : Threads links s t) : ∃ ps : List (List V), DisjointPaths (fun x y => (x, y) ∈ links) s t ps ∧
    ps.length = (links.filter fun e => e.1 = s).card := by
  have hall : ∀ x, ∃ p, (s, x) ∈ links →
      (t :: p ++ [s]).IsChain (fun a b => (b, a) ∈ links) ∧ t ∉ p ∧ (t :: p).getLast? = some x := by
    intro x
    by_cases hx : (s, x) ∈ links
    · obtain ⟨p, hp⟩ := h.way_to_end hx
      exact ⟨p, fun _ => hp⟩
    · exact ⟨[], fun hx' => absurd hx' hx⟩
  choose way hway using hall
  let firsts := (links.filter fun e => e.1 = s).toList.map Prod.snd
  have hfirsts : ∀ x ∈ firsts, (s, x) ∈ links := by
    intro x hx
    obtain ⟨⟨s', x'⟩, he, rfl⟩ := List.mem_map.mp hx
    obtain ⟨hmem, rfl⟩ := Finset.mem_filter.mp (Finset.mem_toList.mp he)
    exact hmem
  have hnodup : firsts.Nodup := by
    refine List.Nodup.map_on (fun e he e' he' heq => Prod.ext ?_ heq) (Finset.nodup_toList _)
    rw [(Finset.mem_filter.mp (Finset.mem_toList.mp he)).2, (Finset.mem_filter.mp (Finset.mem_toList.mp he')).2]
  -- ways that share a vertex have the same first link
  have hshare : ∀ x ∈ firsts, ∀ y ∈ firsts, ∀ z, z ∈ way x → z ∈ way y → x = y := by
    intro x hx y hy z hzx hzy
    obtain ⟨hcx, htx, hlx⟩ := hway x (hfirsts x hx)
    obtain ⟨hcy, hty, hly⟩ := hway y (hfirsts y hy)
    obtain ⟨a, b, hab⟩ := List.append_of_mem hzx
    obtain ⟨a', b', hab'⟩ := List.append_of_mem hzy
    rw [hab] at hcx htx hlx
    rw [hab'] at hcy hty hly
    simp only [← List.cons_append] at hcx hcy hlx hly
    rw [List.append_assoc] at hcx hcy
    have hb := h.way_unique (List.isChain_append.mp hcx).2.1 (List.isChain_append.mp hcy).2.1
      (fun ht => htx (List.mem_append_right _ ht)) fun ht => hty (List.mem_append_right _ (List.mem_cons_of_mem _ ht))
    rw [List.getLast?_append_of_ne_nil _ (List.cons_ne_nil _ _)] at hlx hly
    rw [hb, hly] at hlx
    exact (Option.some_inj.mp hlx).symm
  refine ⟨firsts.map fun x => (way x).reverse, ⟨?_, ?_, ?_, ?_⟩, by simp [firsts]⟩
  · intro p hp
    obtain ⟨x, hx, rfl⟩ := List.mem_map.mp hp
    have := List.isChain_reverse.mpr (hway x (hfirsts x hx)).1
    simpa using this
  · intro p hp
    obtain ⟨x, hx, rfl⟩ := List.mem_map.mp hp
    obtain ⟨hc, ht, -⟩ := hway x (hfirsts x hx)
    have := List.nodup_reverse.mpr (h.way_nodup hc ht)
    simpa using this
  · refine List.Nodup.map_on (fun x hx y hy heq => ?_) hnodup
    have hlx := (hway x (hfirsts x hx)).2.2
    rw [List.reverse_injective heq, (hway y (hfirsts y hy)).2.2] at hlx
    exact (Option.some_inj.mp hlx).symm
  · refine List.pairwise_map.mpr (hnodup.imp_of_mem fun {x y} hx hy hne z hzx hzy => hne ?_)
    exact hshare x hx y hy z (List.mem_reverse.mp hzx) (List.mem_reverse.mp hzy)

end Threads

end Spire.Lib
