import Spire.Lib.Runs

/-!
# Postconditions of computations that can fail

`Ends E Q x` says what a computation in `Except` guarantees: `Q` of its result if it has one,
and `E` of its failure if it fails. The rules follow the computation: `bind`, `map`, and a loop
whose rounds keep an invariant.
-/

namespace Spire.Lib

variable {ε α : Type*} {β γ : Type}

/-- `Q` holds of the result and `E` of the failure. -/
def Ends (E : ε → Prop) (Q : β → Prop) : Except ε β → Prop
  | .ok b => Q b
  | .error e => E e

variable {E E' : ε → Prop} {Q Q' : β → Prop} {R : γ → Prop} {x : Except ε β}

theorem Ends.ok {b : β} (h : Q b) : Ends E Q (.ok b : Except ε β) := h

theorem Ends.error {e : ε} (h : E e) : Ends E Q (.error e : Except ε β) := h

theorem Ends.of (hQ : ∀ b, x = .ok b → Q b) (hE : ∀ e, x = .error e → E e) : Ends E Q x := by
  cases x with
  | ok b => exact hQ b rfl
  | error e => exact hE e rfl

theorem Ends.imp (h : Ends E Q x) (hQ : ∀ b, Q b → Q' b) (hE : ∀ e, E e → E' e) : Ends E' Q' x := by
  cases x with
  | ok b => exact hQ b h
  | error e => exact hE e h

/-- What else is known of the result. -/
theorem Ends.and (h : Ends E Q x) (h' : ∀ b, x = .ok b → Q' b) : Ends E (fun b => Q b ∧ Q' b) x := by
  cases x with
  | ok b => exact ⟨h, h' b rfl⟩
  | error e => exact h

theorem Ends.bind {f : β → Except ε γ} (h : Ends E Q x) (hf : ∀ b, Q b → Ends E R (f b)) :
    Ends E R (x >>= f) := by
  cases x with
  | ok b => exact hf b h
  | error e => exact h

theorem Ends.map {f : β → γ} (h : Ends E Q x) (hf : ∀ b, Q b → R (f b)) : Ends E R (x.map f) := by
  cases x with
  | ok b => exact hf b h
  | error e => exact h

/-- A loop keeps what each of its rounds keeps. -/
theorem Ends.foldlM {σ : Type} {f : σ → α → Except ε σ} {I : σ → Prop} {s : σ} {xs : List α}
    (hround : ∀ x ∈ xs, ∀ s, I s → Ends E I (f s x)) (h0 : I s) : Ends E I (xs.foldlM f s) := by
  induction xs generalizing s with
  | nil => exact h0
  | cons x xs ih =>
    rw [List.foldlM_cons]
    exact (hround x List.mem_cons_self s h0).bind fun t ht =>
      ih (fun y hy => hround y (List.mem_cons_of_mem x hy)) ht

/-- The same where a condition is known of each round. -/
theorem Ends.foldlM_rounds {σ : Type} {f : σ → α → Except ε σ} {I : σ → Prop} {K : σ → α → Prop} {s : σ} {xs : List α}
    (hround : ∀ x ∈ xs, ∀ s, I s → K s x → Ends E I (f s x)) (h0 : I s) (hK : Rounds f K s xs) :
    Ends E I (xs.foldlM f s) := by
  induction xs generalizing s with
  | nil => exact h0
  | cons x xs ih =>
    rw [List.foldlM_cons]
    exact ((hround x List.mem_cons_self s h0 hK.1).and hK.2).bind fun t ht =>
      ih (fun y hy => hround y (List.mem_cons_of_mem x hy)) ht.1 ht.2

/-- What follows, from what a loop keeps and a condition on its rounds, holds of each round. -/
theorem Rounds.imp_ends {σ : Type} {f : σ → α → Except ε σ} {I : σ → Prop} {K L : σ → α → Prop} {s : σ} {xs : List α}
    (h : Rounds f K s xs) (hround : ∀ x s, I s → K s x → Ends E I (f s x)) (hL : ∀ x s, I s → K s x → L s x) (h0 : I s) :
    Rounds f L s xs := by
  induction xs generalizing s with
  | nil => exact trivial
  | cons x xs ih =>
    refine ⟨hL x s h0 h.1, fun t ht => ih (h.2 t ht) ?_⟩
    have hround := hround x s h0 h.1
    rw [ht] at hround
    exact hround

/-- The same where a round needs a condition that the rounds for other elements do not
disturb. -/
theorem Ends.foldlM_of {σ : Type} {f : σ → α → Except ε σ} {I : σ → Prop} {K : σ → α → Prop} {s : σ} {xs : List α}
    (hround : ∀ x ∈ xs, ∀ s, I s → K s x → Ends E I (f s x))
    (hframe : ∀ s x t y, f s x = .ok t → y ≠ x → K s y → K t y) (hnodup : xs.Nodup) (hK : ∀ x ∈ xs, K s x)
    (h0 : I s) : Ends E I (xs.foldlM f s) := by
  induction xs generalizing s with
  | nil => exact h0
  | cons x xs ih =>
    obtain ⟨hx, hxs⟩ := List.nodup_cons.mp hnodup
    rw [List.foldlM_cons]
    refine ((hround x List.mem_cons_self s h0 (hK x List.mem_cons_self)).and fun t ht => ?_).bind fun t ht =>
      ih (fun y hy => hround y (List.mem_cons_of_mem x hy)) hxs ht.2 ht.1
    intro y hy
    have hne : y ≠ x := fun hyx => hx (hyx ▸ hy)
    exact hframe s x t y ht hne (hK y (List.mem_cons_of_mem x hy))

/-! ## Results only -/

/-- `Q` holds of the result, if there is one. -/
def Yields (Q : β → Prop) (x : Except ε β) : Prop := ∀ b, x = .ok b → Q b

theorem Yields.ok {b : β} (h : Q b) : Yields Q (.ok b : Except ε β) := by
  rintro _ ⟨⟩
  exact h

theorem Yields.error {e : ε} : Yields Q (.error e : Except ε β) := by
  rintro _ ⟨⟩

theorem Yields.imp (h : Yields Q x) (hQ : ∀ b, Q b → Q' b) : Yields Q' x := fun b hb => hQ b (h b hb)

theorem Yields.bind {f : β → Except ε γ} (h : Yields Q x) (hf : ∀ b, Q b → Yields R (f b)) : Yields R (x >>= f) := by
  cases x with
  | ok b => exact hf b (h b rfl)
  | error e => exact Yields.error

theorem Yields.map {f : β → γ} (h : Yields Q x) (hf : ∀ b, Q b → R (f b)) : Yields R (x.map f) := by
  cases x with
  | ok b => exact Yields.ok (hf b (h b rfl))
  | error e => exact Yields.error

end Spire.Lib
