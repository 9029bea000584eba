import Mathlib.Data.List.Infix

/-!
# Runs of one machine

A machine is a function from a state and an input to a state. `Always` says that a
property holds in every state of a run and `Steps` that a condition holds of every step.
`always_iff_steps` is the induction for machines whose steps keep a property exactly when
a condition on the step is met. `Halts` is about machines without inputs that run until they
are done. The last section is about loops whose rounds can fail.
-/

namespace Spire.Lib

variable {σ α : Type*} (f : σ → α → σ)

/-- `Q` holds in every state of the run, the first and the last included. -/
def Always (Q : σ → Prop) : σ → List α → Prop
  | s, [] => Q s
  | s, x :: xs => Q s ∧ Always Q (f s x) xs

/-- `K` holds of every step of the run. -/
def Steps (K : σ → α → Prop) : σ → List α → Prop
  | _, [] => True
  | s, x :: xs => K s x ∧ Steps K (f s x) xs

instance decidableSteps (K : σ → α → Prop) [∀ s x, Decidable (K s x)] : ∀ s xs, Decidable (Steps f K s xs)
  | _, [] => inferInstanceAs (Decidable True)
  | s, x :: xs =>
    have := decidableSteps K (f s x) xs
    inferInstanceAs (Decidable (K s x ∧ Steps f K (f s x) xs))

variable {f} {Q I : σ → Prop} {K : σ → α → Prop} {s : σ} {xs ys : List α}

theorem Always.head (h : Always f Q s xs) : Q s := by
  cases xs with
  | nil => exact h
  | cons x xs => exact h.1

/-- The states of a run are those its beginnings lead to. -/
theorem Always.of_prefix (h : Always f Q s xs) (hys : ys <+: xs) : Q (ys.foldl f s) := by
  induction ys generalizing s xs with
  | nil => exact h.head
  | cons y ys ih =>
    obtain ⟨zs, rfl⟩ := hys
    exact ih h.2 (List.prefix_append ys zs)

/-- What every step keeps holds at the end of every run. -/
theorem foldl_inv (hstep : ∀ s x, I s → I (f s x)) (h0 : I s) : I (xs.foldl f s) := by
  induction xs generalizing s with
  | nil => exact h0
  | cons x xs ih => exact ih (hstep s x h0)

/-- So it holds in every state of the run. -/
theorem always_inv (hstep : ∀ s x, I s → I (f s x)) (h0 : I s) : Always f I s xs := by
  induction xs generalizing s with
  | nil => exact h0
  | cons x xs ih => exact ⟨h0, ih (hstep s x h0)⟩

/-- **The induction.** `I` is what a run keeps as long as its steps meet the condition. -/
theorem always_iff_steps (hstep : ∀ s x, I s → Q s → (Q (f s x) ↔ K s x))
    (hkeep : ∀ s x, I s → Q s → K s x → I (f s x)) (h0 : I s) (hQ : Q s) :
    Always f Q s xs ↔ Steps f K s xs := by
  induction xs generalizing s with
  | nil => exact iff_of_true hQ trivial
  | cons x xs ih =>
    constructor
    · rintro ⟨-, h⟩
      have hK := (hstep s x h0 hQ).mp h.head
      exact ⟨hK, (ih (hkeep s x h0 hQ hK) h.head).mp h⟩
    · rintro ⟨hK, h⟩
      exact ⟨hQ, (ih (hkeep s x h0 hQ hK) ((hstep s x h0 hQ).mpr hK)).mpr h⟩

/-- The same for runs of which it is known what their steps are like. -/
theorem always_iff_steps_of {E : σ → α → Prop} (hstep : ∀ s x, I s → Q s → E s x → (Q (f s x) ↔ K s x))
    (hkeep : ∀ s x, I s → Q s → E s x → K s x → I (f s x)) (hE : Steps f E s xs) (h0 : I s) (hQ : Q s) :
    Always f Q s xs ↔ Steps f K s xs := by
  induction xs generalizing s with
  | nil => exact iff_of_true hQ trivial
  | cons x xs ih =>
    obtain ⟨hx, hxs⟩ := hE
    constructor
    · rintro ⟨-, h⟩
      have hK := (hstep s x h0 hQ hx).mp h.head
      exact ⟨hK, (ih hxs (hkeep s x h0 hQ hx hK) h.head).mp h⟩
    · rintro ⟨hK, h⟩
      exact ⟨hQ, (ih hxs (hkeep s x h0 hQ hx hK) ((hstep s x h0 hQ hx).mpr hK)).mpr h⟩

/-- What is asked of a step is what its condition says, along runs of which it is known what their steps
are like. -/
theorem steps_iff_of {E P : σ → α → Prop} (hstep : ∀ s x, I s → E s x → (P s x ↔ K s x))
    (hkeep : ∀ s x, I s → E s x → K s x → I (f s x)) (hE : Steps f E s xs) (h0 : I s) :
    Steps f P s xs ↔ Steps f K s xs := by
  induction xs generalizing s with
  | nil => exact Iff.rfl
  | cons x xs ih =>
    obtain ⟨hx, hxs⟩ := hE
    show P s x ∧ _ ↔ K s x ∧ _
    rw [hstep s x h0 hx]
    exact and_congr_right fun hK => ih hxs (hkeep s x h0 hx hK)

theorem steps_append : Steps f K s (xs ++ ys) ↔ Steps f K s xs ∧ Steps f K (xs.foldl f s) ys := by
  induction xs generalizing s with
  | nil => exact ⟨fun h => ⟨trivial, h⟩, And.right⟩
  | cons x xs ih => exact (and_congr_right fun _ => ih).trans and_assoc.symm

/-- For a property that once lost stays lost, the end of the run tells whether every step
met the condition. `A` is what is known of the inputs. -/
theorem foldl_iff_steps {A : α → Prop} (hstep : ∀ s x, A x → I s → (Q (f s x) ↔ Q s ∧ K s x))
    (hkeep : ∀ s x, A x → I s → I (f s x)) (hA : ∀ x ∈ xs, A x) (h0 : I s) :
    Q (xs.foldl f s) ↔ Q s ∧ Steps f K s xs := by
  induction xs generalizing s with
  | nil => exact ⟨fun h => ⟨h, trivial⟩, And.left⟩
  | cons x xs ih =>
    have hx := hA x List.mem_cons_self
    rw [List.foldl_cons, ih (fun y hy => hA y (List.mem_cons_of_mem x hy)) (hkeep s x hx h0), hstep s x hx h0,
      and_assoc]
    rfl

/-- **Runs whose steps meet a condition.** `A` is what is known of the inputs. -/
theorem always_of_steps {A : α → Prop} (hstep : ∀ s x, A x → Q s → K s x → Q (f s x)) (hA : ∀ x ∈ xs, A x)
    (hK : Steps f K s xs) (hQ : Q s) : Always f Q s xs := by
  induction xs generalizing s with
  | nil => exact hQ
  | cons x xs ih =>
    have hx := hstep s x (hA x List.mem_cons_self) hQ hK.1
    exact ⟨hQ, ih (fun y hy => hA y (List.mem_cons_of_mem x hy)) hK.2 hx⟩

/-- A condition on the steps follows from another along a run, by what the steps keep. -/
theorem Steps.imp_of {E L : σ → α → Prop} (hstep : ∀ s x, I s → E s x → K s x → L s x ∧ I (f s x))
    (hE : Steps f E s xs) (hK : Steps f K s xs) (h0 : I s) : Steps f L s xs := by
  induction xs generalizing s with
  | nil => exact trivial
  | cons x xs ih =>
    obtain ⟨hL, hI⟩ := hstep s x h0 hE.1 hK.1
    exact ⟨hL, ih hE.2 hK.2 hI⟩

theorem Always.imp {R : σ → Prop} (himp : ∀ s, Q s → R s) (h : Always f Q s xs) : Always f R s xs := by
  induction xs generalizing s with
  | nil => exact himp s h
  | cons x xs ih => exact ⟨himp s h.1, ih h.2⟩

/-- The same for what every step keeps. -/
theorem foldl_inv_of {A : α → Prop} (hstep : ∀ s x, A x → I s → I (f s x)) (hA : ∀ x ∈ xs, A x) (h0 : I s) :
    I (xs.foldl f s) := by
  induction xs generalizing s with
  | nil => exact h0
  | cons x xs ih =>
    exact ih (fun y hy => hA y (List.mem_cons_of_mem x hy)) (hstep s x (hA x List.mem_cons_self) h0)

/-- What an input leaves behind and later steps keep is there at the end. -/
theorem foldl_leaves {A : α → Prop} {B : α → σ → Prop} (hset : ∀ s x, A x → I s → B x (f s x))
    (hstay : ∀ s x y, A y → I s → B x s → B x (f s y)) (hkeep : ∀ s x, A x → I s → I (f s x))
    (hA : ∀ x ∈ xs, A x) (h0 : I s) : ∀ x ∈ xs, B x (xs.foldl f s) := by
  induction xs generalizing s with
  | nil => exact fun x hx => by cases hx
  | cons y xs ih =>
    have hy := hA y List.mem_cons_self
    have hA' := fun x hx => hA x (List.mem_cons_of_mem y hx)
    intro x hx
    rcases List.mem_cons.mp hx with rfl | hx
    · exact (foldl_inv_of (I := fun s => I s ∧ B x s)
        (fun s z hz h => ⟨hkeep s z hz h.1, hstay s x z hz h.1 h.2⟩) hA' ⟨hkeep s x hy h0, hset s x hy h0⟩).2
    · exact ih hA' (hkeep s y hy h0) x hx

/-! ## Runs to an end -/

section Ending

variable {σ : Type*} (step : σ → σ) (done : σ → Bool)

/-- The state the machine is in after `n` steps, or where it was done before. -/
def runTo : Nat → σ → σ
  | 0, s => s
  | n + 1, s => if done s then s else runTo n (step s)

/-- The machine comes to an end, in a state with `Q`. -/
def Halts (Q : σ → Prop) (s : σ) : Prop := ∃ n, done (runTo step done n s) = true ∧ Q (runTo step done n s)

variable {step done} {Q I : σ → Prop} {s : σ}

theorem runTo_of_done (h : done s = true) (n : Nat) : runTo step done n s = s := by
  cases n with
  | zero => rfl
  | succ n => rw [runTo, if_pos h]

theorem halts_of_done (h : done s = true) : Halts step done Q s ↔ Q s := by
  constructor
  · rintro ⟨n, -, hQ⟩
    rwa [runTo_of_done h] at hQ
  · exact fun hQ => ⟨0, h, hQ⟩

/-- A machine that is not done makes its next step. -/
theorem halts_step (h : done s = false) : Halts step done Q s ↔ Halts step done Q (step s) := by
  have hrun : ∀ n, runTo step done (n + 1) s = runTo step done n (step s) := fun n => by
    rw [runTo, h]
    rfl
  constructor
  · rintro ⟨n, hdone, hQ⟩
    cases n with
    | zero =>
      rw [runTo, h] at hdone
      cases hdone
    | succ n =>
      rw [hrun] at hdone hQ
      exact ⟨n, hdone, hQ⟩
  · rintro ⟨n, hdone, hQ⟩
    rw [← hrun] at hdone hQ
    exact ⟨n + 1, hdone, hQ⟩

/-- What every step keeps rules out an end that is without it. -/
theorem not_halts_of_inv (hkeep : ∀ s, I s → done s = false → I (step s)) (hend : ∀ s, I s → done s = true → ¬Q s)
    (h0 : I s) : ¬Halts step done Q s := by
  rintro ⟨n, hdone, hQ⟩
  have hinv : I (runTo step done n s) := by
    clear hdone hQ
    induction n generalizing s with
    | zero => exact h0
    | succ n ih =>
      rw [runTo]
      split
      · exact h0
      · rename_i hnot
        exact ih (hkeep s h0 (Bool.not_eq_true _ ▸ hnot))
  exact hend _ hinv hdone hQ

end Ending

/-! ## Loops that can fail -/

section Failing

variable {ε δ : Type*} {β γ : Type} {σ : Type} {s t : σ} {xs : List α}

theorem bind_eq_ok {x : Except ε β} {f : β → Except ε γ} {c : γ} :
    x >>= f = .ok c ↔ ∃ b, x = .ok b ∧ f b = .ok c := by
  cases x with
  | error e => exact iff_of_false (fun h => by cases h) (by rintro ⟨b, hb, -⟩; cases hb)
  | ok b =>
    constructor
    · exact fun h => ⟨b, rfl, h⟩
    · rintro ⟨b', hb, h⟩
      cases hb
      exact h

/-- A loop whose rounds append to an output has appended, where it ends well, what its
rounds append, and each round was one that ends well. -/
theorem foldlM_appends {f : σ → α → Except ε σ} (out : σ → List δ) {g : α → List δ} {K : α → Prop}
    (hround : ∀ s x t, f s x = .ok t → out t = out s ++ g x ∧ K x) (h : xs.foldlM f s = .ok t) :
    out t = out s ++ xs.flatMap g ∧ ∀ x ∈ xs, K x := by
  induction xs generalizing s with
  | nil =>
    cases h
    exact ⟨(List.append_nil _).symm, fun x hx => by cases hx⟩
  | cons x xs ih =>
    rw [List.foldlM_cons] at h
    obtain ⟨u, hu, h⟩ := bind_eq_ok.mp h
    obtain ⟨hout, hK⟩ := hround s x u hu
    obtain ⟨hrest, hall⟩ := ih h
    refine ⟨?_, fun y hy => ?_⟩
    · rw [hrest, hout, List.flatMap_cons, List.append_assoc]
    · rcases List.mem_cons.mp hy with rfl | hy
      · exact hK
      · exact hall y hy

/-- What every round that ends well keeps holds after a loop that ends well. -/
theorem foldlM_inv {f : σ → α → Except ε σ} {I : σ → Prop}
    (hround : ∀ x ∈ xs, ∀ s t, f s x = .ok t → I s → I t) (h : xs.foldlM f s = .ok t) (h0 : I s) : I t := by
  induction xs generalizing s with
  | nil =>
    cases h
    exact h0
  | cons x xs ih =>
    rw [List.foldlM_cons] at h
    obtain ⟨u, hu, h⟩ := bind_eq_ok.mp h
    exact ih (fun y hy => hround y (List.mem_cons_of_mem x hy)) h (hround x List.mem_cons_self s u hu h0)

/-- The same where a round keeps it under a condition that the rounds for other elements do
not disturb. -/
theorem foldlM_inv_of {f : σ → α → Except ε σ} {I : σ → Prop} {K : σ → α → Prop}
    (hround : ∀ x ∈ xs, ∀ s t, f s x = .ok t → I s → K s x → I t)
    (hframe : ∀ s x t y, f s x = .ok t → y ≠ x → K s y → K t y) (hnodup : xs.Nodup)
    (hK : ∀ x ∈ xs, K s x) (h : xs.foldlM f s = .ok t) (h0 : I s) : I t := by
  induction xs generalizing s with
  | nil =>
    cases h
    exact h0
  | cons x xs ih =>
    rw [List.foldlM_cons] at h
    obtain ⟨u, hu, h⟩ := bind_eq_ok.mp h
    obtain ⟨hx, hxs⟩ := List.nodup_cons.mp hnodup
    have hKx := hK x List.mem_cons_self
    refine ih (fun y hy => hround y (List.mem_cons_of_mem x hy)) hxs ?_ h
      (hround x List.mem_cons_self s u hu h0 hKx)
    intro y hy
    have hne : y ≠ x := fun hyx => hx (hyx ▸ hy)
    exact hframe s x u y hu hne (hK y (List.mem_cons_of_mem x hy))

/-- What each round leaves for its element, from a condition on it, is there after the loop. -/
theorem foldlM_leaves {f : σ → α → Except ε σ} {K B : α → σ → Prop}
    (hround : ∀ x ∈ xs, ∀ s t, f s x = .ok t → K x s → B x t)
    (hframe : ∀ s x t y, f s x = .ok t → y ≠ x → (K y s → K y t) ∧ (B y s → B y t)) (hnodup : xs.Nodup)
    (hK : ∀ x ∈ xs, K x s) (h : xs.foldlM f s = .ok t) : ∀ x ∈ xs, B x t := by
  induction xs generalizing s with
  | nil => exact fun x hx => by cases hx
  | cons x xs ih =>
    rw [List.foldlM_cons] at h
    obtain ⟨u, hu, h⟩ := bind_eq_ok.mp h
    obtain ⟨hx, hxs⟩ := List.nodup_cons.mp hnodup
    have hne : ∀ y ∈ xs, y ≠ x := by
      rintro y hy rfl
      exact hx hy
    have hlater := ih (fun y hy => hround y (List.mem_cons_of_mem x hy)) hxs
      (fun y hy => (hframe s x u y hu (hne y hy)).1 (hK y (List.mem_cons_of_mem x hy))) h
    have hfirst : B x t := by
      have hthere := hround x List.mem_cons_self s u hu (hK x List.mem_cons_self)
      refine foldlM_inv (I := B x) ?_ h hthere
      intro y hy s' t' hround' hB
      exact (hframe s' y t' x hround' (hne y hy).symm).2 hB
    intro y hy
    rcases List.mem_cons.mp hy with rfl | hy
    · exact hfirst
    · exact hlater y hy

/-- A condition holds of each round of a loop, at the state that the rounds before it lead to. -/
def Rounds (f : σ → α → Except ε σ) (K : σ → α → Prop) : σ → List α → Prop
  | _, [] => True
  | s, x :: xs => K s x ∧ ∀ t, f s x = .ok t → Rounds f K t xs

theorem rounds_of_forall {f : σ → α → Except ε σ} {K : σ → α → Prop} (h : ∀ s x, K s x) : Rounds f K s xs := by
  induction xs generalizing s with
  | nil => exact trivial
  | cons x xs ih => exact ⟨h s x, fun _ _ => ih⟩

/-- The last round comes at the state that the others lead to. -/
theorem rounds_concat {f : σ → α → Except ε σ} {K : σ → α → Prop} {x : α} :
    Rounds f K s (xs ++ [x]) ↔ Rounds f K s xs ∧ ∀ t, xs.foldlM f s = .ok t → K t x := by
  induction xs generalizing s with
  | nil =>
    constructor
    · rintro ⟨hK, -⟩
      refine ⟨trivial, fun t ht => ?_⟩
      cases ht
      exact hK
    · exact fun h => ⟨h.2 s rfl, fun _ _ => trivial⟩
  | cons y xs ih =>
    rw [List.cons_append, Rounds, Rounds]
    constructor
    · rintro ⟨hK, hrest⟩
      refine ⟨⟨hK, fun t ht => (ih.mp (hrest t ht)).1⟩, fun u hu => ?_⟩
      rw [List.foldlM_cons] at hu
      obtain ⟨t, ht, hu⟩ := bind_eq_ok.mp hu
      exact (ih.mp (hrest t ht)).2 u hu
    · rintro ⟨⟨hK, hrest⟩, hlast⟩
      refine ⟨hK, fun t ht => ih.mpr ⟨hrest t ht, fun u hu => hlast u ?_⟩⟩
      rw [List.foldlM_cons]
      exact bind_eq_ok.mpr ⟨t, ht, hu⟩

/-- A loop ends well whose rounds do and keep what they need. -/
theorem foldlM_ok_of {f : σ → α → Except ε σ} {I : σ → Prop} {K : σ → α → Prop}
    (hround : ∀ x ∈ xs, ∀ s, I s → K s x → ∃ t, f s x = .ok t ∧ I t) (hK : Rounds f K s xs) (h0 : I s) :
    ∃ t, xs.foldlM f s = .ok t ∧ I t := by
  induction xs generalizing s with
  | nil => exact ⟨s, rfl, h0⟩
  | cons x xs ih =>
    obtain ⟨t, ht, hI⟩ := hround x List.mem_cons_self s h0 hK.1
    obtain ⟨u, hu, hI⟩ := ih (fun y hy => hround y (List.mem_cons_of_mem x hy)) (hK.2 t ht) hI
    rw [List.foldlM_cons]
    exact ⟨u, bind_eq_ok.mpr ⟨t, ht, hu⟩, hI⟩

theorem foldlM_ok {f : σ → α → Except ε σ} {I : σ → Prop}
    (hround : ∀ x ∈ xs, ∀ s, I s → ∃ t, f s x = .ok t ∧ I t) (h0 : I s) : ∃ t, xs.foldlM f s = .ok t ∧ I t := by
  have htrue : Rounds f (fun _ _ => True) s xs := rounds_of_forall fun _ _ => trivial
  exact foldlM_ok_of (fun x hx s hI _ => hround x hx s hI) htrue h0

theorem Rounds.imp {f : σ → α → Except ε σ} {K L : σ → α → Prop} (himp : ∀ s x, K s x → L s x) (h : Rounds f K s xs) :
    Rounds f L s xs := by
  induction xs generalizing s with
  | nil => exact trivial
  | cons x xs ih => exact ⟨himp s x h.1, fun t ht => ih (h.2 t ht)⟩

theorem rounds_congr {f : σ → α → Except ε σ} {K L : σ → α → Prop} (h : ∀ x ∈ xs, ∀ s, K s x ↔ L s x) :
    Rounds f K s xs ↔ Rounds f L s xs := by
  induction xs generalizing s with
  | nil => exact Iff.rfl
  | cons x xs ih =>
    have hrest := fun t => @ih t fun y hy => h y (List.mem_cons_of_mem x hy)
    exact and_congr (h x List.mem_cons_self s) (forall₂_congr fun t _ => hrest t)

theorem rounds_and {f : σ → α → Except ε σ} {K L : σ → α → Prop} :
    Rounds f K s xs ∧ Rounds f L s xs ↔ Rounds f (fun s x => K s x ∧ L s x) s xs := by
  induction xs generalizing s with
  | nil => exact ⟨And.left, fun h => ⟨h, h⟩⟩
  | cons x xs ih =>
    constructor
    · exact fun h => ⟨⟨h.1.1, h.2.1⟩, fun t ht => ih.mp ⟨h.1.2 t ht, h.2.2 t ht⟩⟩
    · exact fun h => ⟨⟨h.1.1, fun t ht => (ih.mpr (h.2 t ht)).1⟩, h.1.2, fun t ht => (ih.mpr (h.2 t ht)).2⟩

/-- A loop ends with an error exactly where one of its rounds does. -/
theorem foldlM_ne_error_iff {f : σ → α → Except ε σ} {e : ε} :
    xs.foldlM f s ≠ .error e ↔ Rounds f (fun s x => f s x ≠ .error e) s xs := by
  induction xs generalizing s with
  | nil => exact iff_of_true (fun h => by cases h) trivial
  | cons x xs ih =>
    rw [List.foldlM_cons, Rounds]
    cases hx : f s x with
    | error e' =>
      constructor
      · exact fun h => ⟨h, fun t ht => by cases ht⟩
      · exact fun h => h.1
    | ok t =>
      constructor
      · refine fun h => ⟨(nomatch ·), fun t' ht => ?_⟩
        cases ht
        exact ih.mp h
      · exact fun h => ih.mpr (h.2 t rfl)

/-- Where all rounds that may come end well, a condition on the elements is one on all of them. -/
theorem rounds_iff_forall {f : σ → α → Except ε σ} {I : σ → Prop} {K : α → Prop}
    (hround : ∀ x ∈ xs, ∀ s, I s → K x → ∃ t, f s x = .ok t ∧ I t) (h0 : I s) :
    Rounds f (fun _ x => K x) s xs ↔ ∀ x ∈ xs, K x := by
  induction xs generalizing s with
  | nil => exact iff_of_true trivial fun x hx => by cases hx
  | cons x xs ih =>
    rw [Rounds, List.forall_mem_cons]
    refine and_congr_right fun hx => ?_
    obtain ⟨t, ht, hI⟩ := hround x List.mem_cons_self s h0 hx
    rw [← ih (fun y hy => hround y (List.mem_cons_of_mem x hy)) hI]
    constructor
    · exact fun h => h t ht
    · intro h t' ht'
      rw [ht] at ht'
      cases ht'
      exact h

end Failing

end Spire.Lib
