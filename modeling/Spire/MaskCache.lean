import Spire.PathMasks
import Mathlib.Logic.Relation

/-!
# The cache of the masks

A mask stays in `MP_Cache` until a cost changes, and one that has fewer paths than wanted is also
kept for the numbers it was not computed for. In every run a packet gets the mask that it would get
if nothing was kept (`stamp_run`).
-/

namespace Spire.MultiPath

open Function (update)

/-- What the masks of a daemon come from. -/
structure Daemon where
  costs : Costs
  graphs : Nat → Graphs
  cache : Cache

inductive Step (c : Conf) : Daemon → Daemon → Prop
  /-- A packet is stamped. -/
  | stamp {d : Daemon} {dest k : Nat} {mask : Option Nat} {cache : Cache} :
    stampBitmask c d.costs d.graphs d.cache dest k = .ok (mask, cache) → Step c d { d with cache := cache }
  /-- Costs change, here or as another daemon announces. -/
  | setCosts {d : Daemon} (costs : Costs) : Step c d { d with costs := costs, cache := emptyCache }
  /-- Other graphs are used from now on. -/
  | switch {d : Daemon} (graphs : Nat → Graphs) : Step c d { d with graphs := graphs }

abbrev Run (c : Conf) (w : Costs) (graphs : Nat → Graphs) : Daemon → Prop :=
  Relation.ReflTransGen (Step c) ⟨w, graphs, emptyCache⟩

/-- Every mask that is kept is the one that would be computed. -/
def Coherent (c : Conf) (w : Costs) (cache : Cache) : Prop :=
  ∀ dest k mask, cache (dest, k) = some mask → ∃ p, compute c w dest k false false = .ok (p, mask)

variable {c : Conf} {w : Costs} {cost : Arc → Option Int} {graphs : Nat → Graphs} {cache cache' : Cache} {flow : Flow}
  {bag bag' : List Arc} {dest k i p found mask : Nat} {d d' : Daemon}

theorem found_le (h : findPaths c cost dest k found flow bag = .ok (p, bag')) : found ≤ p := by
  induction k generalizing found flow bag with
  | zero =>
    obtain ⟨rfl, -⟩ := Prod.mk.inj (Except.ok.inj h)
    exact le_refl _
  | succ k ih =>
    unfold findPaths at h
    split at h
    · cases h
    split at h
    · obtain ⟨rfl, -⟩ := Prod.mk.inj (Except.ok.inj h)
      exact le_refl _
    cases haug : augment c _ _ _ flow bag with
    | error e =>
      rw [haug] at h
      cases h
    | ok r =>
      rw [haug] at h
      exact (Nat.le_succ _).trans (ih h)

/-- When the paths run out before `k`, any number that is not smaller finds the same. -/
theorem findPaths_fewer (h : findPaths c cost dest k found flow bag = .ok (p, bag')) (hp : p < found + k) (hi : p ≤ found + i) :
    findPaths c cost dest i found flow bag = .ok (p, bag') := by
  induction k generalizing found flow bag i with
  | zero => exact absurd (found_le h) (by omega)
  | succ k ih =>
    cases i with
    | zero =>
      obtain rfl : p = found := le_antisymm hi (found_le h)
      unfold findPaths at h
      split at h
      · cases h
      split at h
      · exact h
      cases haug : augment c _ _ _ flow bag with
      | error e =>
        rw [haug] at h
        cases h
      | ok r =>
        rw [haug] at h
        exact absurd (found_le h) (by omega)
    | succ i =>
      unfold findPaths at h ⊢
      split at h
      · cases h
      split at h
      · rename_i hfar
        rw [if_pos hfar]
        exact h
      · rename_i hfar
        rw [if_neg hfar]
        cases haug : augment c _ _ _ flow bag with
        | error e =>
          rw [haug] at h
          cases h
        | ok r =>
          rw [haug] at h
          exact ih h (by omega) (by omega)

theorem compute_fewer (h : compute c w dest k false false = .ok (p, mask)) (hp : p < k) (hi : p ≤ i) :
    compute c w dest i false false = .ok (p, mask) := by
  unfold compute at h ⊢
  split at h
  · obtain ⟨rfl, -⟩ := Prod.mk.inj (Except.ok.inj h)
    exact absurd hp (lt_irrefl _)
  rename_i hne
  rw [if_neg hne]
  split at h
  · cases h
  rename_i hdest
  rw [if_neg hdest]
  cases hfind : findPaths c (arcCost w false false) dest k 0 startFlow [] with
  | error e =>
    rw [hfind] at h
    cases h
  | ok r =>
    rw [hfind] at h
    obtain ⟨rfl, rfl⟩ := Prod.mk.inj (Except.ok.inj h)
    rw [findPaths_fewer hfind (by omega) (by omega)]
    rfl

theorem coherent_empty : Coherent c w emptyCache := fun _ _ _ h => nomatch h

theorem Coherent.put (h : Coherent c w cache) (hcompute : compute c w dest k false false = .ok (p, mask)) :
    Coherent c w (update cache (dest, k) (some mask)) := by
  intro dest' k' mask' hmask
  by_cases hx : (dest', k') = (dest, k)
  · obtain ⟨rfl, rfl⟩ := Prod.mk.inj hx
    rw [Function.update_self] at hmask
    obtain rfl := Option.some_inj.mp hmask
    exact ⟨p, hcompute⟩
  · rw [Function.update_of_ne hx] at hmask
    exact h dest' k' mask' hmask

theorem Coherent.fill (h : Coherent c w cache) (hcompute : compute c w dest k false false = .ok (p, mask)) :
    Coherent c w (fill cache dest k p mask) := by
  intro dest' k' mask' hmask
  unfold MultiPath.fill at hmask
  split at hmask
  · rename_i hcond
    obtain ⟨-, hlt, rfl, hle, -⟩ := hcond
    obtain rfl := Option.some_inj.mp hmask
    exact ⟨p, compute_fewer hcompute hlt hle⟩
  · exact h dest' k' mask' hmask

/-- A lookup that answers as expected and leaves a coherent cache. -/
def Answers {α : Type} (c : Conf) (w : Costs) (answer : Except Crash α) (r : Except Crash (α × Cache)) : Prop :=
  r.map Prod.fst = answer ∧ ∀ a cache, r = .ok (a, cache) → Coherent c w cache

theorem Answers.ok {α : Type} (h : Coherent c w cache) (a : α) : Answers c w (.ok a) (.ok (a, cache)) := by
  refine ⟨rfl, fun a' cache' heq => ?_⟩
  obtain ⟨-, rfl⟩ := Prod.mk.inj (Except.ok.inj heq)
  exact h

theorem Answers.map {α β : Type} {answer : Except Crash α} {r : Except Crash (α × Cache)} (h : Answers c w answer r) (f : α → β) :
    Answers c w (answer.map f) (r.map fun (a, cache) => (f a, cache)) := by
  obtain ⟨rfl, hcache⟩ := h
  cases r with
  | error e => exact ⟨rfl, fun _ _ heq => nomatch heq⟩
  | ok r => exact Answers.ok (hcache r.1 r.2 rfl) (f r.1)

theorem disjointPathsMask_answers (h : Coherent c w cache) :
    Answers c w ((compute c w dest k false false).map Prod.snd) (disjointPathsMask c w cache dest k) := by
  unfold disjointPathsMask
  cases hcache : cache (dest, k) with
  | some mask =>
    obtain ⟨p, hcompute⟩ := h dest k mask hcache
    rw [hcompute]
    exact .ok h mask
  | none =>
    cases hcompute : compute c w dest k false false with
    | error e => exact ⟨rfl, fun _ _ heq => nomatch heq⟩
    | ok r => exact .ok ((h.put hcompute).fill hcompute) r.2

theorem twoPathsMask_answers (h : Coherent c w cache) :
    Answers c w ((compute c w dest 2 false false).map Prod.snd) (twoPathsMask c w cache dest) := by
  unfold twoPathsMask
  cases hcache : cache (dest, 2) with
  | some mask =>
    obtain ⟨p, hcompute⟩ := h dest 2 mask hcache
    rw [hcompute]
    exact .ok h mask
  | none =>
    cases hcompute : compute c w dest 2 false false with
    | error e => exact ⟨rfl, fun _ _ heq => nomatch heq⟩
    | ok r => exact .ok (h.put hcompute) r.2

/-- What a packet is stamped with does not depend on what is kept. -/
theorem stampBitmask_answers (h : Coherent c w cache) :
    Answers c w ((stampBitmask c w graphs emptyCache dest k).map Prod.fst) (stampBitmask c w graphs cache dest k) := by
  -- one answer serves any coherent cache, the empty one too
  suffices hans : ∃ answer, ∀ cache, Coherent c w cache → Answers c w answer (stampBitmask c w graphs cache dest k) by
    obtain ⟨answer, hans⟩ := hans
    rw [(hans emptyCache coherent_empty).1]
    exact hans cache h
  unfold stampBitmask
  split
  · exact ⟨_, fun _ hc => .ok hc none⟩
  dsimp only
  generalize (if maxK < k ∧ k ≠ dgKFlag then maxK else k) = k
  split
  · exact ⟨_, fun _ hc => .ok hc _⟩
  split
  · split
    · exact ⟨_, fun _ hc => .ok hc _⟩
    · exact ⟨_, fun _ hc => .ok hc _⟩
    · exact ⟨_, fun _ hc => (twoPathsMask_answers hc).map some⟩
    · exact ⟨_, fun _ hc => (twoPathsMask_answers hc).map fun mask => some (mask ||| (graphs dest).bitmasks .srcDst)⟩
    · exact ⟨_, fun _ hc => (disjointPathsMask_answers hc).map some⟩
  · exact ⟨_, fun _ hc => (disjointPathsMask_answers hc).map some⟩

theorem Coherent.step (h : Coherent c d.costs d.cache) (hstep : Step c d d') : Coherent c d'.costs d'.cache := by
  cases hstep with
  | stamp hstamp => exact (stampBitmask_answers h).2 _ _ hstamp
  | setCosts => exact coherent_empty
  | switch => exact h

theorem Run.coherent (h : Run c w graphs d) : Coherent c d.costs d.cache := by
  induction h with
  | refl => exact coherent_empty
  | tail _ hstep ih => exact ih.step hstep

/-- **A packet gets the mask it would get if none was kept**, in every run of packets and cost changes. -/
theorem stamp_run (h : Run c w graphs d) (dest k : Nat) : (stampBitmask c d.costs d.graphs d.cache dest k).map Prod.fst =
    (stampBitmask c d.costs d.graphs emptyCache dest k).map Prod.fst :=
  (stampBitmask_answers h.coherent).1

/-- Five paths are stamped after two were wanted and one was found. -/
theorem row_stamps : (stampBitmask row (evenCosts 10 (by decide)) (fun _ => ⟨.k2, fun _ => 0⟩)
      (fill (update emptyCache (3, 2) (some 3)) 3 2 1 3) 3 5).map Prod.fst =
    (stampBitmask row (evenCosts 10 (by decide)) (fun _ => ⟨.k2, fun _ => 0⟩) emptyCache 3 5).map Prod.fst := by
  have hstamp : stampBitmask row (evenCosts 10 (by decide)) (fun _ => ⟨.k2, fun _ => 0⟩) emptyCache 3 2 =
      .ok (some 3, fill (update emptyCache (3, 2) (some 3)) 3 2 1 3) := rfl
  have hrun : Run row (evenCosts 10 (by decide)) (fun _ => ⟨.k2, fun _ => 0⟩)
      ⟨evenCosts 10 (by decide), fun _ => ⟨.k2, fun _ => 0⟩, fill (update emptyCache (3, 2) (some 3)) 3 2 1 3⟩ :=
    .single (.stamp hstamp)
  exact stamp_run hrun 3 5

end Spire.MultiPath
