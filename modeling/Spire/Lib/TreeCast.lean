import Mathlib.Algebra.Order.Group.Multiset
import Mathlib.Data.Multiset.UnionInter
import Mathlib.Tactic.Abel
import Mathlib.Logic.Relation

/-!
# Copies that travel down a tree

A node that takes a copy sends one to each of its children as long as its hops last. Where no
node has two parents, no node ever has two copies, in whatever order the copies are taken
and whichever are lost (`Run.once`). Where none is lost the copies come to rest at exactly
the nodes within reach (`Run.taken_iff`).
-/

namespace Spire.Lib.TreeCast

variable {V : Type*}

/-- The copies that are on their way, and those that have been taken, with their hops. -/
structure Net (V : Type*) where
  flying : Multiset (V × ℕ)
  taken : Multiset (V × ℕ)

/-- The copies a node sends when it takes one. -/
def sends (children : V → List V) (x : V × ℕ) : Multiset (V × ℕ) :=
  if 1 < x.2 then (children x.1 : Multiset V).map fun v => (v, x.2 - 1) else 0

/-- Any copy is taken next, or lost if copies can be lost. -/
inductive Step (children : V → List V) (lossy : Prop) : Net V → Net V → Prop
  | take {x : V × ℕ} {rest taken : Multiset (V × ℕ)} :
    Step children lossy ⟨x ::ₘ rest, taken⟩ ⟨rest + sends children x, x ::ₘ taken⟩
  | lose {x : V × ℕ} {rest taken : Multiset (V × ℕ)} : lossy → Step children lossy ⟨x ::ₘ rest, taken⟩ ⟨rest, taken⟩

/-- No node has two parents, and each child is one deeper than its parent. -/
structure IsTree (children : V → List V) (root : V) (depth : V → ℕ) : Prop where
  nodup : ∀ u, (children u).Nodup
  parent : ∀ ⦃u u' v⦄, v ∈ children u → v ∈ children u' → u = u'
  not_child : ∀ u, root ∉ children u
  depth_root : depth root = 0
  depth_child : ∀ ⦃u v⦄, v ∈ children u → depth v = depth u + 1

/-- What holds in every run that starts with one copy at the root. -/
structure Good (children : V → List V) (root : V) (depth : V → ℕ) (hops : ℕ) (net : Net V) : Prop where
  once : ((net.flying + net.taken).map Prod.fst).Nodup
  hops : ∀ x ∈ net.flying + net.taken, x.2 + depth x.1 = hops
  alive : ∀ x ∈ net.flying + net.taken, x.1 = root ∨ 0 < x.2
  source : ∀ v ∈ (net.flying + net.taken).map Prod.fst, v = root ∨ ∃ u ∈ net.taken.map Prod.fst, v ∈ children u

/-- A run, from one copy at the root. -/
abbrev Run (children : V → List V) (lossy : Prop) (root : V) (hops : ℕ) (net : Net V) : Prop :=
  Relation.ReflTransGen (Step children lossy) ⟨{(root, hops)}, 0⟩ net

variable {children : V → List V} {lossy : Prop} {root v : V} {depth : V → ℕ} {hops : ℕ} {net net' : Net V} {x : V × ℕ}

theorem mem_sends {y : V × ℕ} : y ∈ sends children x ↔ 1 < x.2 ∧ y.1 ∈ children x.1 ∧ y.2 = x.2 - 1 := by
  obtain ⟨v, t⟩ := y
  unfold sends
  split
  · rename_i hlt
    simp [hlt, eq_comm]
  · rename_i hlt
    simp [hlt]

theorem sends_fst_nodup (htree : IsTree children root depth) : ((sends children x).map Prod.fst).Nodup := by
  unfold sends
  split
  · rw [Multiset.map_map]
    simpa using htree.nodup x.1
  · simp

theorem good_start (htree : IsTree children root depth) : Good children root depth hops ⟨{(root, hops)}, 0⟩ where
  once := by simp
  hops := by simp [htree.depth_root]
  alive := by simp
  source := by simp

/-- A step keeps it. -/
theorem Good.step (htree : IsTree children root depth) (h : Good children root depth hops net)
    (hstep : Step children lossy net net') : Good children root depth hops net' := by
  cases hstep with
  | @take x rest taken =>
    have hperm : (rest + sends children x) + x ::ₘ taken = (x ::ₘ rest + taken) + sends children x := by
      simp only [Multiset.add_cons, Multiset.cons_add]
      congr 1
      abel
    -- a child that has a copy would have it from its parent, and that is `x`
    have hnew : ∀ v ∈ (sends children x).map Prod.fst, v ∉ (x ::ₘ rest + taken).map Prod.fst := by
      intro v hv hold
      obtain ⟨y, hy, rfl⟩ := Multiset.mem_map.mp hv
      obtain ⟨_, hchild, _⟩ := mem_sends.mp hy
      rcases h.source _ hold with heq | ⟨u, hu, hchild'⟩
      · exact htree.not_child _ (heq ▸ hchild)
      · obtain rfl := htree.parent hchild' hchild
        have := h.once
        rw [Multiset.cons_add, Multiset.map_cons, Multiset.nodup_cons, Multiset.map_add, Multiset.mem_add] at this
        exact this.1 (.inr hu)
    constructor
    · rw [hperm, Multiset.map_add, Multiset.nodup_add]
      exact ⟨h.once, sends_fst_nodup htree, Multiset.disjoint_right.mpr fun hv => hnew _ hv⟩
    · intro y hy
      rw [hperm, Multiset.mem_add] at hy
      rcases hy with hy | hy
      · exact h.hops y hy
      · obtain ⟨hlt, hchild, heq⟩ := mem_sends.mp hy
        have := h.hops x (by simp)
        have := htree.depth_child hchild
        omega
    · intro y hy
      rw [hperm, Multiset.mem_add] at hy
      rcases hy with hy | hy
      · exact h.alive y hy
      · obtain ⟨hlt, _, heq⟩ := mem_sends.mp hy
        exact .inr (by omega)
    · intro v hv
      rw [hperm, Multiset.map_add, Multiset.mem_add] at hv
      rcases hv with hv | hv
      · rcases h.source v hv with heq | ⟨u, hu, hchild⟩
        · exact .inl heq
        · refine .inr ⟨u, ?_, hchild⟩
          rw [Multiset.map_cons]
          exact Multiset.mem_cons_of_mem hu
      · obtain ⟨y, hy, rfl⟩ := Multiset.mem_map.mp hv
        exact .inr ⟨x.1, by simp, (mem_sends.mp hy).2.1⟩
  | @lose x rest taken _ =>
    have hle : rest + taken ≤ x ::ₘ rest + taken := by
      rw [Multiset.cons_add]
      exact Multiset.le_cons_self _ _
    exact {
      once := Multiset.nodup_of_le (Multiset.map_le_map hle) h.once
      hops := fun y hy => h.hops y (Multiset.mem_of_le hle hy)
      alive := fun y hy => h.alive y (Multiset.mem_of_le hle hy)
      source := fun v hv => h.source v (Multiset.mem_of_le (Multiset.map_le_map hle) hv) }

theorem Run.good (htree : IsTree children root depth) (h : Run children lossy root hops net) :
    Good children root depth hops net := by
  induction h with
  | refl => exact good_start htree
  | tail _ hstep ih => exact ih.step htree hstep

/-- **No node takes two copies**, whatever is lost. -/
theorem Run.once (htree : IsTree children root depth) (h : Run children lossy root hops net) :
    (net.taken.map Prod.fst).Nodup :=
  Multiset.nodup_of_le (Multiset.map_le_map (Multiset.le_add_left _ _)) (h.good htree).once

/-- A copy that was taken leads down from the root, with hops left when it was taken. -/
theorem Good.reach (htree : IsTree children root depth) (h : Good children root depth hops net)
    (hv : v ∈ (net.flying + net.taken).map Prod.fst) :
    Relation.ReflTransGen (fun u v => v ∈ children u) root v ∧ (v = root ∨ depth v < hops) := by
  constructor
  · -- on the depth, along the parents
    induction hd : depth v generalizing v with
    | zero =>
      rcases h.source v hv with rfl | ⟨u, _, hchild⟩
      · exact .refl
      · have := htree.depth_child hchild
        omega
    | succ d ih =>
      rcases h.source v hv with rfl | ⟨u, hu, hchild⟩
      · exact .refl
      · have := htree.depth_child hchild
        have hmem : u ∈ (net.flying + net.taken).map Prod.fst := by
          rw [Multiset.map_add]
          exact Multiset.mem_add.mpr (.inr hu)
        exact (ih hmem (by omega)).tail hchild
  · obtain ⟨x, hx, rfl⟩ := Multiset.mem_map.mp hv
    rcases h.alive x hx with heq | hpos
    · exact .inl heq
    · have := h.hops x hx
      exact .inr (by omega)

/-! ## Where nothing is lost -/

/-- The root has its copy, and so has every child of a node that took one with hops left. -/
structure Closed (children : V → List V) (root : V) (net : Net V) : Prop where
  root : root ∈ (net.flying + net.taken).map Prod.fst
  child : ∀ x ∈ net.taken, 1 < x.2 → ∀ v ∈ children x.1, v ∈ (net.flying + net.taken).map Prod.fst

theorem Closed.step (h : Closed children root net) (hstep : Step children False net net') : Closed children root net' := by
  cases hstep with
  | @take x rest taken =>
    have hkeep : ∀ {v}, v ∈ (x ::ₘ rest + taken).map Prod.fst →
        v ∈ ((rest + sends children x) + x ::ₘ taken).map Prod.fst := by
      intro v hv
      simp only [Multiset.map_add, Multiset.map_cons, Multiset.mem_add, Multiset.mem_cons] at hv ⊢
      tauto
    constructor
    · exact hkeep h.root
    · intro y hy hlt v hv
      rcases Multiset.mem_cons.mp hy with rfl | hy
      · have hsent : (v, y.2 - 1) ∈ sends children y := mem_sends.mpr ⟨hlt, hv, rfl⟩
        refine Multiset.mem_map.mpr ⟨(v, y.2 - 1), ?_, rfl⟩
        rw [Multiset.mem_add, Multiset.mem_add]
        exact .inl (.inr hsent)
      · exact hkeep (h.child y hy hlt v hv)
  | lose hno => exact hno.elim

theorem Run.closed (h : Run children False root hops net) : Closed children root net := by
  induction h with
  | refl => exact ⟨by simp, by simp⟩
  | tail _ hstep ih => exact ih.step hstep

/-- **When nothing is on its way any more, exactly the nodes within reach have taken a copy.** -/
theorem Run.taken_iff (htree : IsTree children root depth) (h : Run children False root hops net)
    (hrest : net.flying = 0) :
    v ∈ net.taken.map Prod.fst ↔
      Relation.ReflTransGen (fun u v => v ∈ children u) root v ∧ (v = root ∨ depth v < hops) := by
  have hall : net.flying + net.taken = net.taken := by rw [hrest, zero_add]
  have hgood := h.good htree
  have hclosed := h.closed
  constructor
  · intro hv
    exact hgood.reach htree (by rw [hall]; exact hv)
  · rintro ⟨hreach, hdepth⟩
    induction hreach with
    | refl => simpa only [hall] using hclosed.root
    | @tail u v _ hchild ih =>
      have hdv := htree.depth_child hchild
      have hlt : depth v < hops := hdepth.resolve_left fun heq => htree.not_child u (heq ▸ hchild)
      obtain ⟨x, hx, rfl⟩ := Multiset.mem_map.mp (ih (.inr (by omega)))
      have hx' := hgood.hops x (by rw [hall]; exact hx)
      simpa only [hall] using hclosed.child x hx (by omega) v hchild

end Spire.Lib.TreeCast
