import Mathlib
import Spire.Lib.BellmanFord

/-!
# Flows of unit capacity, augmented along cheapest walks

A flow from `s` to `t` is a set of arcs, each used once. A step goes along an arc that is not
used, or back along one that is, and then gets the cost of the arc back. While two potentials
exist that no open step breaks, one from `s` and one to `t` (`Optimal`), no cycle of steps has
negative cost; a walk of tight steps from `s` to `t` keeps this when it is pushed
(`Optimal.augment`). No flow of the same worth is then cheaper (`Optimal.cost_le`), and when the
open steps do not lead from `s` to `t`, none is worth more (`Optimal.worth_le`).
-/

namespace Spire.Lib

namespace UnitFlow

open BellmanFord

/-- A step along an arc, or back along it. -/
structure Step (A : Type*) where
  arc : A
  residual : Bool
deriving DecidableEq

def Step.twin {A : Type*} (e : Step A) : Step A := ⟨e.arc, !e.residual⟩

section Defs

variable {V A : Type*} (tail head : A → V) (c : A → ℤ)

def start (e : Step A) : V := if e.residual then head e.arc else tail e.arc

def stop (e : Step A) : V := if e.residual then tail e.arc else head e.arc

def cost (e : Step A) : ℤ := if e.residual then -c e.arc else c e.arc

variable [DecidableEq V] [DecidableEq A]

/-- A step that can be made: along an unused arc or back along a used one. -/
def Open (arcs used : Finset A) (e : Step A) : Prop := if e.residual then e.arc ∈ used else e.arc ∈ arcs ∧ e.arc ∉ used

instance (arcs used : Finset A) (e : Step A) : Decidable (Open arcs used e) := by
  unfold Open
  infer_instance

/-- The arcs that are used after a step. -/
def push (used : Finset A) (e : Step A) : Finset A := if e.residual then used.erase e.arc else insert e.arc used

/-- What leaves a vertex less what enters it. -/
def balance (used : Finset A) (v : V) : ℤ := ∑ a ∈ used, ((if tail a = v then 1 else 0) - if head a = v then 1 else 0)

/-- A flow of the worth `p`, with a potential from `s` that is nowhere above `top` and one to `t`. -/
structure Optimal (arcs : Finset A) (s t : V) (top : ℤ) (used : Finset A) (p : ℕ) : Prop where
  sub : used ⊆ arcs
  balanced : ∀ v, balance tail head used v = p * ((if s = v then 1 else 0) - if t = v then 1 else 0)
  out : ∃ π : V → ℤ, π s = 0 ∧ (∀ v, 0 ≤ π v ∧ π v ≤ top) ∧ ∀ e, Open arcs used e → π (stop tail head e) ≤ π (start tail head e) + cost c e
  back : ∃ ψ : V → ℤ, ψ t = 0 ∧ (∀ v, 0 ≤ ψ v) ∧ ∀ e, Open arcs used e → ψ (start tail head e) ≤ cost c e + ψ (stop tail head e)
  source : ∀ a ∈ used, head a ≠ s
  sink : ∀ a ∈ used, tail a ≠ t

end Defs

section Twin

variable {V A : Type*} {tail head : A → V} {c : A → ℤ} {e : Step A}

@[simp] theorem start_twin : start tail head e.twin = stop tail head e := by
  cases h : e.residual <;> simp [start, stop, Step.twin, h]

@[simp] theorem stop_twin : stop tail head e.twin = start tail head e := by
  cases h : e.residual <;> simp [start, stop, Step.twin, h]

@[simp] theorem cost_twin : cost c e.twin = -cost c e := by
  cases h : e.residual <;> simp [cost, Step.twin, h]

variable {arcs used : Finset A} {s t u v : V} {w : List (Step A)}

/-- The steps of a walk through different vertices are along different arcs. -/
theorem nodup_arcs (hopen : ∀ e ∈ w, Open arcs used e) (hnodup : (w.map (start tail head)).Nodup) : (w.map Step.arc).Nodup := by
  refine (List.Nodup.of_map _ hnodup).map_on fun e he e' he' heq => ?_
  have h := hopen e he
  have h' := hopen e' he'
  obtain ⟨a, residual⟩ := e
  obtain ⟨b, residual'⟩ := e'
  dsimp only at heq
  subst heq
  cases residual <;> cases residual' <;> simp_all [Open]

/-- A walk through different vertices does not come back to where it started. -/
theorem stop_ne_of_nodup {es : List (Step A)} (hw : IsWalk (start tail head) (stop tail head) es u v w)
    (hnodup : (v :: w.map (start tail head)).Nodup) : ∀ e ∈ w, stop tail head e ≠ u := by
  have hlast : ∀ {v : V} {w : List (Step A)}, IsWalk (start tail head) (stop tail head) es u v w → w ≠ [] → u ∈ w.map (start tail head) := by
    intro v w hw hne
    induction w generalizing v with
    | nil => exact absurd rfl hne
    | cons e w ih =>
      rw [List.map_cons, List.mem_cons]
      cases w with
      | nil => exact .inl (isWalk_nil.mp hw.2.2)
      | cons e' w => exact .inr (ih hw.2.2 (List.cons_ne_nil _ _))
  induction w generalizing v with
  | nil => simp
  | cons e w ih =>
    have hu := hlast hw (List.cons_ne_nil _ _)
    have hne := (List.nodup_cons.mp hnodup).1
    refine List.forall_mem_cons.mpr ⟨fun heq => hne ?_, ih hw.2.2 (List.nodup_cons.mp hnodup).2⟩
    rw [← hw.2.1, heq]
    exact hu

/-- Against a potential to the end, no vertex of a tight walk is closer than the walk makes it. -/
theorem back_le {es : List (Step A)} {ψ d : V → ℤ} {D : ℤ} (hw : IsWalk (start tail head) (stop tail head) es u v w)
    (hψ : ∀ e ∈ w, ψ (start tail head e) ≤ cost c e + ψ (stop tail head e))
    (htight : ∀ e ∈ w, d (stop tail head e) = d (start tail head e) + cost c e) (hv : ψ v ≤ D - d v) :
    ∀ e ∈ w, ψ (stop tail head e) ≤ D - d (stop tail head e) := by
  induction w generalizing v with
  | nil => simp
  | cons e w ih =>
    obtain ⟨-, rfl, hw⟩ := hw
    refine List.forall_mem_cons.mpr ⟨hv, ih hw (fun e' he' => hψ e' (List.mem_cons_of_mem _ he'))
      (fun e' he' => htight e' (List.mem_cons_of_mem _ he')) ?_⟩
    have h₁ := hψ e List.mem_cons_self
    have h₂ := htight e List.mem_cons_self
    omega

end Twin

section Push

variable {V A : Type*} [DecidableEq V] [DecidableEq A] {tail head : A → V} {c : A → ℤ} {arcs used : Finset A} {e e' : Step A}

theorem balance_push (h : Open arcs used e) (v : V) : balance tail head (push used e) v =
    balance tail head used v + ((if start tail head e = v then 1 else 0) - if stop tail head e = v then 1 else 0) := by
  obtain ⟨a, residual⟩ := e
  cases residual
  · rw [Open, if_neg Bool.false_ne_true] at h
    rw [balance, push, if_neg Bool.false_ne_true, Finset.sum_insert h.2, add_comm]
    rfl
  · rw [Open, if_pos rfl] at h
    rw [balance, push, if_pos rfl, balance, ← Finset.add_sum_erase _ _ h]
    simp only [start, stop, ↓reduceIte]
    omega

theorem open_push (h : Open arcs used e) (he : Open arcs (push used e) e') :
    e' = e.twin ∨ Open arcs used e' ∧ e'.arc ≠ e.arc := by
  obtain ⟨a, residual⟩ := e
  obtain ⟨b, residual'⟩ := e'
  by_cases hab : b = a
  · subst hab
    left
    cases residual <;> cases residual' <;> simp_all [Open, push, Step.twin]
  · right
    refine ⟨?_, hab⟩
    cases residual <;> cases residual' <;> simp_all [Open, push]

theorem open_push_of_ne (h : Open arcs used e') (hne : e'.arc ≠ e.arc) : Open arcs (push used e) e' := by
  obtain ⟨a, residual⟩ := e
  obtain ⟨b, residual'⟩ := e'
  dsimp only at hne
  cases residual <;> cases residual' <;> simp_all [Open, push]

/-! ## Along a walk -/

variable {s t u v : V} {w : List (Step A)}

theorem open_pushes (hopen : ∀ e ∈ w, Open arcs used e) (harcs : (w.map Step.arc).Nodup)
    (he : Open arcs (w.foldl push used) e') : (∃ e ∈ w, e' = e.twin) ∨ Open arcs used e' := by
  induction w generalizing used with
  | nil => exact .inr he
  | cons e w ih =>
    rw [List.map_cons, List.nodup_cons] at harcs
    have hrest : ∀ e' ∈ w, Open arcs (push used e) e' := fun e' he' =>
      open_push_of_ne (hopen e' (List.mem_cons_of_mem _ he')) fun heq => harcs.1 (heq ▸ List.mem_map_of_mem he')
    rcases ih hrest harcs.2 he with ⟨e'', hmem, rfl⟩ | hpush
    · exact .inl ⟨e'', List.mem_cons_of_mem _ hmem, rfl⟩
    · rcases open_push (hopen e List.mem_cons_self) hpush with rfl | ⟨hold, -⟩
      · exact .inl ⟨e, List.mem_cons_self, rfl⟩
      · exact .inr hold

theorem balance_pushes {es : List (Step A)} (hopen : ∀ e ∈ w, Open arcs used e) (harcs : (w.map Step.arc).Nodup)
    (hw : IsWalk (start tail head) (stop tail head) es u v w) (x : V) : balance tail head (w.foldl push used) x =
      balance tail head used x + ((if u = x then 1 else 0) - if v = x then 1 else 0) := by
  induction w generalizing used v with
  | nil =>
    rw [isWalk_nil] at hw
    simp [hw]
  | cons e w ih =>
    rw [List.map_cons, List.nodup_cons] at harcs
    have hrest : ∀ e' ∈ w, Open arcs (push used e) e' := fun e' he' =>
      open_push_of_ne (hopen e' (List.mem_cons_of_mem _ he')) fun heq => harcs.1 (heq ▸ List.mem_map_of_mem he')
    obtain ⟨-, rfl, hw⟩ := hw
    rw [List.foldl_cons, ih hrest harcs.2 hw, balance_push (hopen e List.mem_cons_self)]
    omega

theorem mem_pushes {a : A} (ha : a ∈ w.foldl push used) : a ∈ used ∨ ∃ e ∈ w, e.residual = false ∧ e.arc = a := by
  induction w generalizing used with
  | nil => exact .inl ha
  | cons e w ih =>
    rcases ih ha with hpush | ⟨e', he', hrest⟩
    · unfold push at hpush
      split at hpush
      · exact .inl (Finset.mem_of_mem_erase hpush)
      · rename_i hres
        rcases Finset.mem_insert.mp hpush with rfl | hold
        · exact .inr ⟨e, List.mem_cons_self, by simpa using hres, rfl⟩
        · exact .inl hold
    · exact .inr ⟨e', List.mem_cons_of_mem _ he', hrest⟩

variable {top : ℤ} {p : ℕ}

/-- **A cheapest walk is pushed.** -/
theorem Optimal.augment {es : List (Step A)} {d : V → ℤ} (h : Optimal tail head c arcs s t top used p)
    (hds : d s = 0) (hd : ∀ v, 0 ≤ d v ∧ d v ≤ top)
    (hfeas : ∀ e, Open arcs used e → d (stop tail head e) ≤ d (start tail head e) + cost c e)
    (hw : IsWalk (start tail head) (stop tail head) es s t w) (hopen : ∀ e ∈ w, Open arcs used e)
    (htight : ∀ e ∈ w, d (stop tail head e) = d (start tail head e) + cost c e)
    (hnodup : (t :: w.map (start tail head)).Nodup) : Optimal tail head c arcs s t top (w.foldl push used) (p + 1) := by
  have harcs := nodup_arcs hopen (List.nodup_cons.mp hnodup).2
  obtain ⟨ψ, hψt, hψ, hback⟩ := h.back
  refine ⟨fun a ha => ?_, fun v => ?_, ⟨d, hds, hd, fun e' he' => ?_⟩, ⟨fun v => max (ψ v) (d t - d v), ?_, ?_, fun e' he' => ?_⟩,
    fun a ha => ?_, fun a ha => ?_⟩
  · rcases mem_pushes ha with hold | ⟨e, he, hres, rfl⟩
    · exact h.sub hold
    · have := hopen e he
      rw [Open, hres, if_neg Bool.false_ne_true] at this
      exact this.1
  · rw [balance_pushes hopen harcs hw, h.balanced]
    push_cast
    ring
  · rcases open_pushes hopen harcs he' with ⟨e, he, rfl⟩ | hold
    · have := htight e he
      rw [stop_twin, start_twin, cost_twin]
      omega
    · exact hfeas e' hold
  · simp [hψt]
  · intro v
    exact (hψ v).trans (le_max_left _ _)
  · rcases open_pushes hopen harcs he' with ⟨e, he, rfl⟩ | hold
    · have hle := back_le hw (fun e he => hback e (hopen e he)) htight (D := d t) (by omega) e he
      have := htight e he
      rw [stop_twin, start_twin, cost_twin]
      dsimp only
      omega
    · have h₁ := hback e' hold
      have h₂ := hfeas e' hold
      dsimp only
      omega
  · rcases mem_pushes ha with hold | ⟨e, he, hres, rfl⟩
    · exact h.source a hold
    · have := stop_ne_of_nodup hw hnodup e he
      rwa [stop, hres, if_neg Bool.false_ne_true] at this
  · rcases mem_pushes ha with hold | ⟨e, he, hres, rfl⟩
    · exact h.sink a hold
    · intro htail
      refine (List.nodup_cons.mp hnodup).1 (List.mem_map.mpr ⟨e, he, ?_⟩)
      rw [start, hres, if_neg Bool.false_ne_true, htail]

omit [DecidableEq A] in
/-- Before anything is pushed, when no arc has a negative cost. -/
theorem optimal_empty (hc : ∀ a ∈ arcs, 0 ≤ c a) (htop : 0 ≤ top) : Optimal tail head c arcs s t top ∅ 0 := by
  have hcost : ∀ e : Step A, Open arcs ∅ e → 0 ≤ cost c e := by
    intro e he
    unfold Open at he
    split at he
    · simp at he
    · rename_i hres
      rw [cost, if_neg hres]
      exact hc _ he.1
  refine ⟨Finset.empty_subset _, fun v => by simp [balance], ⟨fun _ => 0, rfl, fun v => ⟨le_refl _, htop⟩, fun e he => ?_⟩,
    ⟨fun _ => 0, rfl, fun v => le_refl _, fun e he => ?_⟩, fun a ha => (Finset.notMem_empty a ha).elim,
    fun a ha => (Finset.notMem_empty a ha).elim⟩
  · have := hcost e he
    dsimp only
    omega
  · have := hcost e he
    dsimp only
    omega

/-! ## Against other flows -/

variable {other : Finset A} {q : ℕ}

/-- A sum over a set is the least when what is in it is not above zero and nothing else is below. -/
theorem sum_le_of_sign {f : A → ℤ} (hin : ∀ a ∈ used, f a ≤ 0) (hout : ∀ a ∈ other, a ∉ used → 0 ≤ f a) :
    ∑ a ∈ used, f a ≤ ∑ a ∈ other, f a := by
  rw [← Finset.sum_inter_add_sum_sdiff used other, ← Finset.sum_inter_add_sum_sdiff other used, Finset.inter_comm used other]
  have h₁ : ∑ a ∈ used \ other, f a ≤ 0 := Finset.sum_nonpos fun a ha => hin a (Finset.mem_sdiff.mp ha).1
  have h₂ : 0 ≤ ∑ a ∈ other \ used, f a :=
    Finset.sum_nonneg fun a ha => hout a (Finset.mem_sdiff.mp ha).1 (Finset.mem_sdiff.mp ha).2
  omega

omit [DecidableEq A] in
theorem sum_balance (other : Finset A) (R : Finset V) : ∑ v ∈ R, balance tail head other v =
    ∑ a ∈ other, ((if tail a ∈ R then 1 else 0) - if head a ∈ R then 1 else 0) := by
  simp only [balance]
  rw [Finset.sum_comm]
  refine Finset.sum_congr rfl fun a _ => ?_
  rw [Finset.sum_sub_distrib, Finset.sum_ite_eq, Finset.sum_ite_eq]

omit [DecidableEq A] in
/-- What a potential is worth along the arcs of a flow. -/
theorem sum_potential {ends : Finset V} (π : V → ℤ) (h : ∀ a ∈ other, tail a ∈ ends ∧ head a ∈ ends) :
    ∑ a ∈ other, (π (tail a) - π (head a)) = ∑ v ∈ ends, π v * balance tail head other v := by
  simp only [balance, Finset.mul_sum]
  rw [Finset.sum_comm]
  refine Finset.sum_congr rfl fun a ha => ?_
  simp only [mul_sub, Finset.sum_sub_distrib, mul_ite, mul_one, mul_zero, Finset.sum_ite_eq, h a ha, ↓reduceIte]

/-- **No flow of the same worth is cheaper.** -/
theorem Optimal.cost_le (h : Optimal tail head c arcs s t top used p) (hsub : other ⊆ arcs)
    (hbal : ∀ v, balance tail head other v = p * ((if s = v then 1 else 0) - if t = v then 1 else 0)) :
    ∑ a ∈ used, c a ≤ ∑ a ∈ other, c a := by
  obtain ⟨π, -, -, hπ⟩ := h.out
  have hpot : ∑ a ∈ used, (π (tail a) - π (head a)) = ∑ a ∈ other, (π (tail a) - π (head a)) := by
    have hends : ∀ a ∈ arcs, tail a ∈ arcs.image tail ∪ arcs.image head ∧ head a ∈ arcs.image tail ∪ arcs.image head := fun a ha =>
      ⟨Finset.mem_union_left _ (Finset.mem_image_of_mem _ ha), Finset.mem_union_right _ (Finset.mem_image_of_mem _ ha)⟩
    rw [sum_potential π fun a ha => hends a (h.sub ha), sum_potential π fun a ha => hends a (hsub ha)]
    exact Finset.sum_congr rfl fun v _ => by rw [h.balanced, hbal]
  -- with the potential taken off, no arc outside the flow is below zero, and none in it is above
  have hred : ∑ a ∈ used, (c a + (π (tail a) - π (head a))) ≤ ∑ a ∈ other, (c a + (π (tail a) - π (head a))) := by
    have hin : ∀ a ∈ used, c a + (π (tail a) - π (head a)) ≤ 0 := by
      intro a ha
      have := hπ ⟨a, true⟩ (by simpa [Open] using ha)
      simp only [start, stop, cost, ↓reduceIte] at this
      omega
    have hout : ∀ a ∈ arcs, a ∉ used → 0 ≤ c a + (π (tail a) - π (head a)) := by
      intro a ha hnot
      have := hπ ⟨a, false⟩ (by simp [Open, ha, hnot])
      simp only [start, stop, cost, Bool.false_eq_true, ↓reduceIte] at this
      omega
    exact sum_le_of_sign hin fun a ha => hout a (hsub ha)
  simp only [Finset.sum_add_distrib] at hred
  omega

/-- **No flow is worth more** when the open steps do not lead out of a set that has `s` and not `t`. -/
theorem Optimal.worth_le (h : Optimal tail head c arcs s t top used p) {R : Finset V} (hs : s ∈ R) (ht : t ∉ R)
    (hclosed : ∀ e, Open arcs used e → start tail head e ∈ R → stop tail head e ∈ R) (hsub : other ⊆ arcs)
    (hbal : ∀ v, balance tail head other v = q * ((if s = v then 1 else 0) - if t = v then 1 else 0)) : q ≤ p := by
  have hworth : ∀ n : ℕ, ∑ v ∈ R, (n : ℤ) * ((if s = v then 1 else 0) - if t = v then 1 else 0) = n := by
    intro n
    simp only [← Finset.mul_sum, Finset.sum_sub_distrib, Finset.sum_ite_eq, hs, ht, ↓reduceIte]
    ring
  have hp : ∑ v ∈ R, balance tail head used v = _ := sum_balance used R
  have hq : ∑ v ∈ R, balance tail head other v = _ := sum_balance other R
  simp only [h.balanced, hworth] at hp
  simp only [hbal, hworth] at hq
  -- the arcs that leave the set are used, and none that is used enters it
  have hin : ∀ a ∈ used, (if head a ∈ R then 1 else 0) - (if tail a ∈ R then 1 else 0) ≤ (0 : ℤ) := by
    intro a ha
    have hback : head a ∈ R → tail a ∈ R := hclosed ⟨a, true⟩ (by simpa [Open] using ha)
    by_cases htail : tail a ∈ R <;> by_cases hhead : head a ∈ R <;> simp_all
  have hout : ∀ a ∈ other, a ∉ used → (0 : ℤ) ≤ (if head a ∈ R then 1 else 0) - if tail a ∈ R then 1 else 0 := by
    intro a ha hnot
    have hforth : tail a ∈ R → head a ∈ R := hclosed ⟨a, false⟩ (by simp [Open, hsub ha, hnot])
    by_cases htail : tail a ∈ R <;> by_cases hhead : head a ∈ R <;> simp_all
  have hle := sum_le_of_sign hin hout
  simp only [Finset.sum_sub_distrib] at hp hq hle
  omega

end Push

end UnitFlow

end Spire.Lib
