import Mathlib

/-!
# Relaxing steps until nothing improves

Labels of the vertices of a graph are lowered along its steps, one step after the other, and
with every label the step that lowered it last is kept. Costs may be negative; what excludes
cycles of negative cost is a potential (`Feasible`) that is nowhere above the labels at the
start. Then the steps that were kept lead from every vertex back to one whose label was never
lowered (`Inv.rooted`), and as many passes as there are vertices are enough
(`settled_of_passes`).
-/

namespace Spire.Lib

namespace BellmanFord

variable {V E : Type*}

/-- Labels, and the step that lowered each last. -/
structure Labels (V E : Type*) where
  dist : V → ℤ
  prev : V → Option E

section Relax

variable (src dst : E → V) (cost : E → ℤ)

/-- A step that would lower a label. -/
def Improves (l : Labels V E) (e : E) : Prop := l.dist (src e) + cost e < l.dist (dst e)

instance (l : Labels V E) (e : E) : Decidable (Improves src dst cost l e) := by
  unfold Improves
  infer_instance

/-- No step lowers a label. -/
def Settled (es : List E) (l : Labels V E) : Prop := ∀ e ∈ es, ¬Improves src dst cost l e

/-- A potential: no step leads further down than its cost. -/
def Feasible (es : List E) (π : V → ℤ) : Prop := ∀ e ∈ es, π (dst e) ≤ π (src e) + cost e

/-- A walk, as its steps. -/
def IsWalk (es : List E) (u : V) : V → List E → Prop
  | v, [] => u = v
  | v, e :: w => e ∈ es ∧ dst e = v ∧ IsWalk es u (src e) w

def relax [DecidableEq V] (l : Labels V E) (e : E) : Labels V E :=
  if Improves src dst cost l e then
    { dist := Function.update l.dist (dst e) (l.dist (src e) + cost e), prev := Function.update l.prev (dst e) (some e) }
  else l

/-- All steps, one after the other. -/
def pass [DecidableEq V] (es : List E) (l : Labels V E) : Labels V E := es.foldl (relax src dst cost) l

/-- The steps that are kept, from a vertex back to one that was never lowered, the last step first. -/
inductive Chain (prev : V → Option E) (r : V) : V → List E → Prop
  | root (h : prev r = none) : Chain prev r r []
  | step {v : V} {e : E} {w : List E} (he : prev v = some e) (hw : Chain prev r (src e) w) : Chain prev r v (e :: w)

end Relax

variable {src dst : E → V} {cost : E → ℤ} {es : List E} {l : Labels V E} {π d₀ : V → ℤ} {u v r : V} {e : E} {w : List E}

@[simp] theorem isWalk_nil : IsWalk src dst es u v [] ↔ u = v := Iff.rfl

@[simp] theorem isWalk_cons : IsWalk src dst es u v (e :: w) ↔ e ∈ es ∧ dst e = v ∧ IsWalk src dst es u (src e) w := Iff.rfl

/-- A potential bounds the cost of a walk. -/
theorem Feasible.walk (h : Feasible src dst cost es π) (hw : IsWalk src dst es u v w) : π v ≤ π u + (w.map cost).sum := by
  induction w generalizing v with
  | nil => simp [isWalk_nil.mp hw]
  | cons e w ih =>
    obtain ⟨he, rfl, hw⟩ := hw
    have hstep := h e he
    have hrest := ih hw
    rw [List.map_cons, List.sum_cons]
    omega

theorem isWalk_append {w' : List E} {m : V} : (hw : IsWalk src dst es m v w) → (hw' : IsWalk src dst es u m w') →
    IsWalk src dst es u v (w ++ w') := by
  intro hw hw'
  induction w generalizing v with
  | nil =>
    rw [isWalk_nil] at hw
    rwa [← hw]
  | cons e w ih => exact ⟨hw.1, hw.2.1, ih hw.2.2⟩

theorem walk_steps (hw : IsWalk src dst es u v w) : ∀ e ∈ w, e ∈ es := by
  induction w generalizing v with
  | nil => simp
  | cons e w ih => exact List.forall_mem_cons.mpr ⟨hw.1, ih hw.2.2⟩

/-- A walk is cut at a vertex that it passes. -/
theorem walk_split {x : V} (hw : IsWalk src dst es u v w) (hx : x ∈ v :: w.map src) :
    ∃ w₁ w₂, w = w₁ ++ w₂ ∧ IsWalk src dst es x v w₁ ∧ IsWalk src dst es u x w₂ := by
  induction w generalizing v with
  | nil =>
    rw [List.map_nil, List.mem_singleton] at hx
    subst hx
    exact ⟨[], [], rfl, rfl, hw⟩
  | cons e w ih =>
    rcases List.mem_cons.mp hx with rfl | hx
    · exact ⟨[], e :: w, rfl, rfl, hw⟩
    · obtain ⟨w₁, w₂, rfl, h₁, h₂⟩ := ih hw.2.2 hx
      exact ⟨e :: w₁, w₂, rfl, ⟨hw.1, hw.2.1, h₁⟩, h₂⟩

/-- A walk that passes a vertex twice has a cycle. -/
theorem exists_cycle (hw : IsWalk src dst es u v w) (hdup : ¬(v :: w.map src).Nodup) :
    ∃ w₁ w₂ w₃ m, w = w₁ ++ (w₂ ++ w₃) ∧ w₂ ≠ [] ∧
      IsWalk src dst es m v w₁ ∧ IsWalk src dst es m m w₂ ∧ IsWalk src dst es u m w₃ := by
  induction w generalizing v with
  | nil => simp at hdup
  | cons e w ih =>
    by_cases hv : v ∈ src e :: w.map src
    · obtain ⟨a, b, rfl, ha, hb⟩ := walk_split hw.2.2 hv
      exact ⟨[], e :: a, b, v, rfl, by simp, rfl, ⟨hw.1, hw.2.1, ha⟩, hb⟩
    · rw [List.map_cons, List.nodup_cons, not_and] at hdup
      obtain ⟨w₁, w₂, w₃, m, rfl, hne, h₁, h₂, h₃⟩ := ih hw.2.2 (hdup hv)
      exact ⟨e :: w₁, w₂, w₃, m, rfl, hne, ⟨hw.1, hw.2.1, h₁⟩, h₂, h₃⟩

/-! ## What relaxing keeps -/

/-- Labels between a potential and those at the start, and the steps that lowered them. -/
structure Inv (src dst : E → V) (cost : E → ℤ) (es : List E) (π d₀ : V → ℤ) (l : Labels V E) : Prop where
  low : ∀ v, π v ≤ l.dist v
  high : ∀ v, l.dist v ≤ d₀ v
  unlowered : ∀ v, l.prev v = none → l.dist v = d₀ v
  lowered : ∀ v e, l.prev v = some e → e ∈ es ∧ dst e = v ∧ l.dist (src e) + cost e ≤ l.dist v ∧ l.dist v < d₀ v
  rooted : ∀ v, ∃ r w, Chain src l.prev r v w

theorem inv_start (hπ : ∀ v, π v ≤ d₀ v) : Inv src dst cost es π d₀ ⟨d₀, fun _ => none⟩ where
  low := hπ
  high _ := le_refl _
  unlowered _ _ := rfl
  lowered _ _ h := by cases h
  rooted v := ⟨v, [], .root rfl⟩

/-- A chain is a walk that costs no more than the labels differ. -/
theorem Inv.walk_of_chain (h : Inv src dst cost es π d₀ l) (hc : Chain src l.prev r v w) :
    IsWalk src dst es r v w ∧ d₀ r + (w.map cost).sum ≤ l.dist v := by
  induction hc with
  | root hr => exact ⟨rfl, by simp [h.unlowered r hr]⟩
  | step he hw ih =>
    obtain ⟨hmem, hdst, hle, -⟩ := h.lowered _ _ he
    obtain ⟨hwalk, hcost⟩ := ih
    refine ⟨⟨hmem, hdst, hwalk⟩, ?_⟩
    rw [List.map_cons, List.sum_cons]
    omega

theorem chain_unique {prev : V → Option E} {r' : V} {w' : List E} (h : Chain src prev r v w) (h' : Chain src prev r' v w') :
    w = w' ∧ r = r' := by
  induction h generalizing w' with
  | root hr =>
    cases h' with
    | root => exact ⟨rfl, rfl⟩
    | step he => rw [hr] at he; cases he
  | step he _ ih =>
    cases h' with
    | root hr => rw [hr] at he; cases he
    | step he' hw' =>
      obtain rfl := Option.some_inj.mp (he.symm.trans he')
      obtain ⟨rfl, rfl⟩ := ih hw'
      exact ⟨rfl, rfl⟩

theorem chain_shorter {prev : V → Option E} (h : Chain src prev r v w) (hu : u ∈ w.map src) :
    ∃ w', Chain src prev r u w' ∧ w'.length < w.length := by
  induction h with
  | root => simp at hu
  | @step v e w he hw ih =>
    rcases List.mem_cons.mp hu with rfl | hu
    · exact ⟨w, hw, Nat.lt_succ_self _⟩
    · obtain ⟨w', hw', hlt⟩ := ih hu
      exact ⟨w', hw', Nat.lt_succ_of_lt hlt⟩

/-- A chain does not pass a vertex twice. -/
theorem Chain.nodup {prev : V → Option E} (h : Chain src prev r v w) : (v :: w.map src).Nodup := by
  induction h with
  | root => simp
  | @step v e w he hw ih =>
    refine List.nodup_cons.mpr ⟨fun hv => ?_, ih⟩
    obtain ⟨w', hw', hlt⟩ := chain_shorter (.step he hw) hv
    rw [(chain_unique hw' (.step he hw)).1] at hlt
    exact lt_irrefl _ hlt

/-- Once nothing improves, the steps that were kept cost what the labels differ. -/
theorem Inv.tight (h : Inv src dst cost es π d₀ l) (hs : Settled src dst cost es l) (he : l.prev v = some e) :
    l.dist v = l.dist (src e) + cost e := by
  obtain ⟨hmem, rfl, hle, -⟩ := h.lowered v e he
  have := hs e hmem
  unfold Improves at this
  omega

theorem Inv.tight_chain (h : Inv src dst cost es π d₀ l) (hs : Settled src dst cost es l) (hc : Chain src l.prev r v w) :
    ∀ e ∈ w, l.dist (dst e) = l.dist (src e) + cost e := by
  induction hc with
  | root => simp
  | step he _ ih =>
    refine List.forall_mem_cons.mpr ⟨?_, ih⟩
    rw [(h.lowered _ _ he).2.1]
    exact h.tight hs he

theorem Settled.feasible (hs : Settled src dst cost es l) : Feasible src dst cost es l.dist := by
  intro e he
  have := hs e he
  unfold Improves at this
  omega

/-- How far a label is above the potential does not go down along a chain. -/
theorem Inv.slack_le (h : Inv src dst cost es π d₀ l) (hfeas : Feasible src dst cost es π) (hc : Chain src l.prev r v w)
    (hu : u = v ∨ ∃ e ∈ w, u = src e) : l.dist u - π u ≤ l.dist v - π v := by
  induction hc with
  | root hr =>
    rcases hu with rfl | ⟨e, he, -⟩
    · exact le_refl _
    · cases he
  | @step v e w he hw ih =>
    obtain ⟨hmem, rfl, hle, -⟩ := h.lowered _ _ he
    have hstep := hfeas e hmem
    rcases hu with rfl | ⟨e', he', rfl⟩
    · exact le_refl _
    · have hbefore : l.dist (src e') - π (src e') ≤ l.dist (src e) - π (src e) := by
        rcases List.mem_cons.mp he' with rfl | he'
        · exact le_refl _
        · exact ih (.inr ⟨e', he', rfl⟩)
      omega

variable [DecidableEq V]

/-- A chain that does not pass the vertex is still one when its step is replaced. -/
theorem Chain.update (hc : Chain src l.prev r v w) (hv : v ≠ u) (hw : ∀ e ∈ w, src e ≠ u) (e : E) :
    Chain src (Function.update l.prev u (some e)) r v w := by
  induction hc with
  | root hr => exact .root (by rw [Function.update_of_ne hv, hr])
  | step he hrest ih =>
    refine .step (by rw [Function.update_of_ne hv, he]) (ih (hw _ List.mem_cons_self) fun e' he' => ?_)
    exact hw e' (List.mem_cons_of_mem _ he')

theorem Inv.relax (h : Inv src dst cost es π d₀ l) (hfeas : Feasible src dst cost es π) (he : e ∈ es) :
    Inv src dst cost es π d₀ (relax src dst cost l e) := by
  unfold BellmanFord.relax
  split
  swap
  · exact h
  rename_i himp
  unfold Improves at himp
  have hstep := hfeas e he
  have hlow := h.low (src e)
  have hhigh := h.high (dst e)
  -- the chain of the start of the step does not pass its end, as no cycle has negative cost
  have hchain : ∃ r w, Chain src (Function.update l.prev (dst e) (some e)) r (src e) w := by
    obtain ⟨r, w, hc⟩ := h.rooted (src e)
    have havoid : ∀ x, (x = src e ∨ ∃ e' ∈ w, x = src e') → x ≠ dst e := by
      rintro x hx rfl
      have := h.slack_le hfeas hc hx
      omega
    exact ⟨r, w, hc.update (havoid _ (.inl rfl)) (fun e' he' => havoid _ (.inr ⟨e', he', rfl⟩)) e⟩
  obtain ⟨r, w, hc⟩ := hchain
  have hself : Chain src (Function.update l.prev (dst e) (some e)) r (dst e) (e :: w) := .step (by simp) hc
  refine ⟨fun v => ?_, fun v => ?_, fun v hv => ?_, fun v e' he' => ?_, fun v => ?_⟩
  · by_cases hv : v = dst e
    · subst hv
      simp only [Function.update_self]
      omega
    · simp only [Function.update_of_ne hv, h.low]
  · by_cases hv : v = dst e
    · subst hv
      simp only [Function.update_self]
      omega
    · simp only [Function.update_of_ne hv, h.high]
  · by_cases hve : v = dst e
    · subst hve
      simp at hv
    · simp only [Function.update_of_ne hve] at hv ⊢
      exact h.unlowered v hv
  · -- no label is raised
    have hdown : ∀ x, Function.update l.dist (dst e) (l.dist (src e) + cost e) x ≤ l.dist x := by
      intro x
      by_cases hx : x = dst e
      · subst hx
        simp only [Function.update_self]
        omega
      · rw [Function.update_of_ne hx]
    by_cases hv : v = dst e
    · subst hv
      simp only [Function.update_self, Option.some_inj] at he' ⊢
      subst he'
      have := hdown (src e)
      exact ⟨he, rfl, by omega, by omega⟩
    · simp only [Function.update_of_ne hv] at he' ⊢
      obtain ⟨hmem, hdst, hle, hlt⟩ := h.lowered v e' he'
      have := hdown (src e')
      exact ⟨hmem, hdst, by omega, hlt⟩
  · show ∃ r' w', Chain src (Function.update l.prev (dst e) (some e)) r' v w'
    obtain ⟨r', w', hold⟩ := h.rooted v
    induction hold with
    | root hr =>
      by_cases hv : r' = dst e
      · exact ⟨r, e :: w, hv ▸ hself⟩
      · exact ⟨r', [], .root (by rw [Function.update_of_ne hv, hr])⟩
    | @step v e' w' he' _ ih =>
      by_cases hv : v = dst e
      · exact ⟨r, e :: w, hv ▸ hself⟩
      · obtain ⟨r'', w'', hnew⟩ := ih
        exact ⟨r'', e' :: w'', .step (by rw [Function.update_of_ne hv, he']) hnew⟩

theorem Inv.pass_of_subset {es' : List E} (h : Inv src dst cost es π d₀ l) (hfeas : Feasible src dst cost es π)
    (hsub : ∀ e ∈ es', e ∈ es) : Inv src dst cost es π d₀ (pass src dst cost es' l) := by
  induction es' generalizing l with
  | nil => exact h
  | cons e es' ih =>
    exact ih (h.relax hfeas (hsub e List.mem_cons_self)) fun e' he' => hsub e' (List.mem_cons_of_mem _ he')

theorem Inv.pass (h : Inv src dst cost es π d₀ l) (hfeas : Feasible src dst cost es π) :
    Inv src dst cost es π d₀ (pass src dst cost es l) := h.pass_of_subset hfeas fun _ he => he

/-! ## How many passes are enough -/

theorem relax_le (l : Labels V E) (e : E) (v : V) : (relax src dst cost l e).dist v ≤ l.dist v := by
  unfold relax
  split
  · rename_i himp
    unfold Improves at himp
    show Function.update l.dist (dst e) (l.dist (src e) + cost e) v ≤ l.dist v
    by_cases hv : v = dst e
    · subst hv
      rw [Function.update_self]
      omega
    · rw [Function.update_of_ne hv]
  · exact le_refl _

theorem relax_dst_le (l : Labels V E) (e : E) : (relax src dst cost l e).dist (dst e) ≤ l.dist (src e) + cost e := by
  unfold relax
  split
  · simp
  · rename_i himp
    unfold Improves at himp
    omega

theorem pass_le (es : List E) (l : Labels V E) (v : V) : (pass src dst cost es l).dist v ≤ l.dist v := by
  induction es generalizing l with
  | nil => exact le_refl _
  | cons e es ih => exact (ih _).trans (relax_le l e v)

/-- After a pass the end of a step is no further than its start was before. -/
theorem pass_dst_le (he : e ∈ es) : (pass src dst cost es l).dist (dst e) ≤ l.dist (src e) + cost e := by
  induction es generalizing l with
  | nil => cases he
  | cons e' es ih =>
    show (pass src dst cost es (relax src dst cost l e')).dist (dst e) ≤ _
    rcases List.mem_cons.mp he with rfl | he
    · exact (pass_le es _ _).trans (relax_dst_le l e)
    · exact (ih he).trans (Int.add_le_add_right (relax_le l e' (src e)) _)

/-- Passes reach the end of a walk when they are as many as its steps. -/
theorem iterate_pass_le {n : ℕ} (hw : IsWalk src dst es u v w) (hlen : w.length ≤ n) :
    ((pass src dst cost es)^[n] l).dist v ≤ l.dist u + (w.map cost).sum := by
  induction w generalizing v n with
  | nil =>
    rw [isWalk_nil] at hw
    subst hw
    have hdown : ∀ n, ((pass src dst cost es)^[n] l).dist u ≤ l.dist u := by
      intro n
      induction n with
      | zero => exact le_refl _
      | succ n ih =>
        rw [Function.iterate_succ_apply']
        exact (pass_le es _ u).trans ih
    simpa using hdown n
  | cons e w ih =>
    obtain ⟨he, rfl, hw⟩ := hw
    obtain ⟨m, rfl⟩ : ∃ m, n = m + 1 := ⟨n - 1, by rw [List.length_cons] at hlen; omega⟩
    have hbefore := ih (n := m) hw (by rw [List.length_cons] at hlen; omega)
    rw [Function.iterate_succ_apply', List.map_cons, List.sum_cons]
    exact (pass_dst_le he).trans (by omega)

/-- A walk can be cut short, at no cost, to one that does not pass a vertex twice. -/
theorem exists_simple_walk (hfeas : Feasible src dst cost es π) (hw : IsWalk src dst es u v w) :
    ∃ w', IsWalk src dst es u v w' ∧ (v :: w'.map src).Nodup ∧ (w'.map cost).sum ≤ (w.map cost).sum := by
  induction hn : w.length using Nat.strong_induction_on generalizing w with
  | _ n ih =>
    by_cases hdup : (v :: w.map src).Nodup
    · exact ⟨w, hw, hdup, le_refl _⟩
    obtain ⟨w₁, w₂, w₃, m, rfl, hne, hw₁, hw₂, hw₃⟩ := exists_cycle hw hdup
    have hcycle := hfeas.walk hw₂
    obtain ⟨w', hw', hnodup, hcost⟩ := ih (w₁ ++ w₃).length (by
      have := List.length_pos_of_ne_nil hne
      simp only [List.length_append] at hn ⊢
      omega) (isWalk_append hw₁ hw₃) rfl
    refine ⟨w', hw', hnodup, hcost.trans ?_⟩
    simp only [List.map_append, List.sum_append]
    omega

omit [DecidableEq V] in
theorem mem_of_walk {vs : Finset V} {x : V} (hvs : ∀ e ∈ es, src e ∈ vs ∧ dst e ∈ vs) (hv : v ∈ vs) (hw : IsWalk src dst es u v w)
    (hx : x ∈ v :: w.map src) : x ∈ vs := by
  rcases List.mem_cons.mp hx with rfl | hx
  · exact hv
  · obtain ⟨e, he, rfl⟩ := List.mem_map.mp hx
    exact (hvs e (walk_steps hw e he)).1

theorem length_lt_of_simple {vs : Finset V} (hvs : ∀ e ∈ es, src e ∈ vs ∧ dst e ∈ vs) (hv : v ∈ vs) (hw : IsWalk src dst es u v w)
    (hnodup : (v :: w.map src).Nodup) : w.length < vs.card := by
  have hcard := Finset.card_le_card fun x hx => mem_of_walk hvs hv hw (List.mem_toFinset.mp hx)
  rwa [List.toFinset_card_of_nodup hnodup, List.length_cons, List.length_map] at hcard

/-- Where each vertex bounds the cost of coming to it, all of them bound the cost of a walk. -/
theorem cost_le_of_simple {vs : Finset V} {b : V → ℤ} (hvs : ∀ e ∈ es, src e ∈ vs ∧ dst e ∈ vs) (hv : v ∈ vs)
    (hw : IsWalk src dst es u v w) (hnodup : (v :: w.map src).Nodup) (hb : ∀ v, 0 ≤ b v) (hcost : ∀ e ∈ es, cost e ≤ b (dst e)) :
    (w.map cost).sum ≤ ∑ x ∈ vs, b x := by
  have hlist : (w.map cost).sum ≤ ((v :: w.map src).map b).sum := by
    clear hnodup hv
    induction w generalizing v with
    | nil => simp [hb v]
    | cons e w ih =>
      obtain ⟨he, rfl, hw⟩ := hw
      have := hcost e he
      have := ih hw
      simp only [List.map_cons, List.sum_cons] at this ⊢
      omega
  refine hlist.trans ?_
  rw [← List.sum_toFinset b hnodup]
  exact Finset.sum_le_sum_of_subset_of_nonneg (fun x hx => mem_of_walk hvs hv hw (List.mem_toFinset.mp hx)) fun x _ _ => hb x

/-- **As many passes as there are vertices, but one, are enough**: then no step lowers a label. -/
theorem settled_of_passes {vs : Finset V} {n : ℕ} (hfeas : Feasible src dst cost es π) (hvs : ∀ e ∈ es, src e ∈ vs ∧ dst e ∈ vs)
    (hπ : ∀ v, π v ≤ d₀ v) (hn : vs.card ≤ n + 1) :
    Settled src dst cost es ((pass src dst cost es)^[n] ⟨d₀, fun _ => none⟩) := by
  have hinv : Inv src dst cost es π d₀ ((pass src dst cost es)^[n] ⟨d₀, fun _ => none⟩) := by
    clear hn
    induction n with
    | zero => exact inv_start hπ
    | succ n ih =>
      rw [Function.iterate_succ_apply']
      exact ih.pass hfeas
  intro e he himp
  unfold Improves at himp
  obtain ⟨r, w, hc⟩ := hinv.rooted (src e)
  obtain ⟨hwalk, hcost⟩ := hinv.walk_of_chain hc
  obtain ⟨w', hw', hnodup, hle⟩ := exists_simple_walk hfeas (w := e :: w) ⟨he, rfl, hwalk⟩
  have hlen := length_lt_of_simple hvs (hvs e he).2 hw' hnodup
  have hreach : ((pass src dst cost es)^[n] ⟨d₀, fun _ => none⟩).dist (dst e) ≤ d₀ r + (w'.map cost).sum :=
    iterate_pass_le hw' (by omega)
  rw [List.map_cons, List.sum_cons] at hle
  omega

end BellmanFord

end Spire.Lib
