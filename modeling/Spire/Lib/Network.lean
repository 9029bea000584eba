import Mathlib.Logic.Function.Basic

/-!
# Parties over an adversarial network

A world is one local state per party and the list of every message sent so far.
A correct party moves by handling an input: a message that was sent, any number
of times and in any order, or a local action. The adversary injects whatever the
forgery rule of the environment lets it build out of what it has seen. Losing a
message is never delivering it.

The rules at the end turn facts about one handler call into facts about every
run: an invariant of local states and of what is sent, that a correct party signs
one message of a kind only, and the origin of what a party stores. They name no
protocol.
-/

namespace Spire.Lib

/-- What a party handles: a message from the network, or a local action. -/
inductive Input (μ τ : Type*)
  | msg (m : μ)
  | act (t : τ)

/-- A handler: the party's name, its state and an input give its next state and
the messages it sends. -/
abbrev Handler (σ μ τ : Type*) := Nat → σ → Input μ τ → σ × List μ

/-- Local states, and every message sent so far. -/
structure World (σ μ : Type*) where
  node : Nat → σ
  sent : List μ

/-- Which parties follow the handler, and which messages the adversary can build
from those already sent. -/
structure Env (μ : Type*) where
  correct : Nat → Bool
  forge : List μ → μ → Bool

/-- One step of a run: a party handles an input, or the adversary sends. -/
inductive Event (μ τ : Type*)
  | handle (i : Nat) (x : Input μ τ)
  | inject (m : μ)

variable {σ μ τ : Type*}

namespace World

/-- A party's move: its new state, and its messages on the network. -/
def move (w : World σ μ) (i : Nat) (r : σ × List μ) : World σ μ :=
  { node := Function.update w.node i r.1, sent := r.2 ++ w.sent }

@[simp] theorem move_node_self (w : World σ μ) (i : Nat) (r : σ × List μ) :
    (w.move i r).node i = r.1 := by
  simp [move]

theorem move_node_of_ne (w : World σ μ) {i j : Nat} (r : σ × List μ) (h : j ≠ i) :
    (w.move i r).node j = w.node j := by
  simp [move, h]

/-- A move keeps what holds of every party, when it holds of the one that moves. -/
theorem move_node_inv {I : Nat → σ → Prop} {w : World σ μ} {i : Nat} {r : σ × List μ}
    (h : ∀ j, I j (w.node j)) (hi : I i r.1) : ∀ j, I j ((w.move i r).node j) := by
  intro j
  by_cases hj : j = i
  · subst hj
    rw [move_node_self]
    exact hi
  · rw [move_node_of_ne w r hj]
    exact h j

@[simp] theorem move_sent (w : World σ μ) (i : Nat) (r : σ × List μ) :
    (w.move i r).sent = r.2 ++ w.sent := rfl

/-- A message can be handled once it has been sent; an action always can. -/
def Available [DecidableEq μ] (w : World σ μ) : Input μ τ → Bool
  | .msg m => decide (m ∈ w.sent)
  | .act _ => true

theorem available_msg [DecidableEq μ] {w : World σ μ} {m : μ} :
    w.Available (.msg m : Input μ τ) = true ↔ m ∈ w.sent :=
  decide_eq_true_iff

/-- One step. An event the rules do not allow changes nothing. -/
def step [DecidableEq μ] (E : Env μ) (H : Handler σ μ τ) (w : World σ μ) :
    Event μ τ → World σ μ
  | .handle i x => if E.correct i && w.Available x then w.move i (H i (w.node i) x) else w
  | .inject m => if E.forge w.sent m then { w with sent := m :: w.sent } else w

/-- A run of the system. -/
def run [DecidableEq μ] (E : Env μ) (H : Handler σ μ τ) (w : World σ μ) (evs : List (Event μ τ)) :
    World σ μ :=
  evs.foldl (step E H) w

/-- The events of `n` rounds, in each of which the named parties handle the messages
sent since the first `old`, oldest first. -/
def rounds [DecidableEq μ] (E : Env μ) (H : Handler σ μ τ) (parties : List Nat) :
    Nat → Nat → World σ μ → List (Event μ τ)
  | 0, _, _ => []
  | n + 1, old, w =>
    let news := (w.sent.take (w.sent.length - old)).reverse
    let evs := news.flatMap fun m => parties.map fun i => .handle i (.msg m)
    evs ++ rounds E H parties n w.sent.length (w.run E H evs)

end World

/-! ## Rules -/

section Rules

variable [DecidableEq μ] {E : Env μ} {H : Handler σ μ τ}

theorem run_append (w : World σ μ) (as bs : List (Event μ τ)) :
    w.run E H (as ++ bs) = (w.run E H as).run E H bs :=
  List.foldl_append

/-- What a step can do: nothing, a correct party's move, or an injection. -/
theorem step_cases (w : World σ μ) (e : Event μ τ) :
    w.step E H e = w ∨
    (∃ i x, E.correct i = true ∧ w.Available x = true ∧ e = .handle i x ∧
      w.step E H e = w.move i (H i (w.node i) x)) ∨
    (∃ m, E.forge w.sent m = true ∧ e = .inject m ∧
      w.step E H e = { w with sent := m :: w.sent }) := by
  cases e with
  | handle i x =>
    by_cases h : (E.correct i && w.Available x) = true
    · obtain ⟨hc, ha⟩ := Bool.and_eq_true_iff.mp h
      exact .inr (.inl ⟨i, x, hc, ha, rfl, by simp only [World.step, h, if_true]⟩)
    · exact .inl (by simp only [World.step, h]; rfl)
  | inject m =>
    by_cases h : E.forge w.sent m = true
    · exact .inr (.inr ⟨m, h, rfl, by simp only [World.step, h, if_true]⟩)
    · exact .inl (by simp only [World.step, h]; rfl)

/-- Every move of a run is of a certain kind, which may depend on the world it is made in. -/
def World.Along (E : Env μ) (H : Handler σ μ τ) (K : World σ μ → Nat → Input μ τ → Prop) :
    World σ μ → List (Event μ τ) → Prop
  | _, [] => True
  | w, e :: evs =>
    (∀ i x, E.correct i = true → e = .handle i x → K w i x) ∧ World.Along E H K (w.step E H e) evs

theorem World.along_of_forall {K : Nat → Input μ τ → Prop} {w : World σ μ} {evs : List (Event μ τ)}
    (h : ∀ i x, E.correct i = true → .handle i x ∈ evs → K i x) :
    World.Along E H (fun _ => K) w evs := by
  induction evs generalizing w with
  | nil => trivial
  | cons e evs ih =>
    refine ⟨fun i x hc he => h i x hc (he ▸ List.mem_cons_self ..), ih fun i x hc hx => ?_⟩
    exact h i x hc (List.mem_cons_of_mem _ hx)

/-- A test of every move of a run. -/
def World.checkAlong (E : Env μ) (H : Handler σ μ τ) (k : World σ μ → Nat → Input μ τ → Bool) :
    World σ μ → List (Event μ τ) → Bool
  | _, [] => true
  | w, e :: evs =>
    (match e with
      | .handle i x => k w i x
      | .inject _ => true) && World.checkAlong E H k (w.step E H e) evs

/-- A run that passes a test has only moves of a kind the test is for. -/
theorem World.along_of_check {K : World σ μ → Nat → Input μ τ → Prop} {k : World σ μ → Nat → Input μ τ → Bool}
    (hk : ∀ w i x, k w i x = true → K w i x) {w : World σ μ} {evs : List (Event μ τ)}
    (h : World.checkAlong E H k w evs = true) : World.Along E H K w evs := by
  induction evs generalizing w with
  | nil => trivial
  | cons e evs ih =>
    obtain ⟨hfirst, hrest⟩ := Bool.and_eq_true_iff.mp h
    refine ⟨fun i x _ he => ?_, ih hrest⟩
    subst he
    exact hk w i x hfirst

/-- **The invariant rule.** What holds at the start and is kept by every correct
move and every injection holds after every run, where the moves of the run may be
restricted to those of a certain kind. -/
theorem run_inv_along {P : World σ μ → Prop} {K : World σ μ → Nat → Input μ τ → Prop} {w : World σ μ}
    (h0 : P w)
    (hmove : ∀ w i x, P w → K w i x → E.correct i = true → w.Available x = true →
      P (w.move i (H i (w.node i) x)))
    (hinject : ∀ w m, P w → E.forge w.sent m = true → P { w with sent := m :: w.sent })
    {evs : List (Event μ τ)} (hok : World.Along E H K w evs) : P (w.run E H evs) := by
  induction evs generalizing w with
  | nil => exact h0
  | cons e evs ih =>
    refine ih (w := w.step E H e) ?_ hok.2
    obtain hsame | ⟨i, x, hc, ha, rfl, hw⟩ | ⟨m, hf, -, hw⟩ := step_cases (E := E) (H := H) w e
    · rw [hsame]; exact h0
    · rw [hw]; exact hmove w i x h0 (hok.1 i x hc rfl) hc ha
    · rw [hw]; exact hinject w m h0 hf

/-- The invariant rule for runs whose moves are of a kind that does not depend on the
world. -/
theorem run_inv_of {P : World σ μ → Prop} {K : Nat → Input μ τ → Prop} {w : World σ μ}
    (h0 : P w)
    (hmove : ∀ w i x, P w → K i x → E.correct i = true → w.Available x = true →
      P (w.move i (H i (w.node i) x)))
    (hinject : ∀ w m, P w → E.forge w.sent m = true → P { w with sent := m :: w.sent })
    {evs : List (Event μ τ)} (hok : ∀ i x, E.correct i = true → .handle i x ∈ evs → K i x) :
    P (w.run E H evs) :=
  run_inv_along h0 hmove hinject (World.along_of_forall hok)

/-- The invariant rule for runs of any moves. -/
theorem run_inv {P : World σ μ → Prop} {w : World σ μ} (h0 : P w)
    (hmove : ∀ w i x, P w → E.correct i = true → w.Available x = true →
      P (w.move i (H i (w.node i) x)))
    (hinject : ∀ w m, P w → E.forge w.sent m = true → P { w with sent := m :: w.sent })
    (evs : List (Event μ τ)) : P (w.run E H evs) :=
  run_inv_of (K := fun _ _ => True) h0 (fun w i x h _ => hmove w i x h) hinject fun _ _ _ _ => trivial

/-- Nothing sent is ever unsent. -/
theorem sent_subset_run (w : World σ μ) (evs : List (Event μ τ)) :
    ∀ m ∈ w.sent, m ∈ (w.run E H evs).sent := by
  refine run_inv (P := fun w' => ∀ m ∈ w.sent, m ∈ w'.sent) (fun _ h => h) ?_ ?_ evs
  · intro w' i x ih _ _ m hm
    rw [World.move_sent]
    exact List.mem_append_right _ (ih m hm)
  · intro w' m' ih _ m hm
    exact List.mem_cons_of_mem _ (ih m hm)

/-- An invariant of local states, kept by every handler call. -/
theorem node_inv {I : Nat → σ → Prop} {w : World σ μ} (h0 : ∀ i, I i (w.node i))
    (hstep : ∀ i s x, I i s → I i (H i s x).1) (evs : List (Event μ τ)) :
    ∀ i, I i ((w.run E H evs).node i) := by
  refine run_inv (P := fun w => ∀ i, I i (w.node i)) h0 ?_ (fun _ _ h _ => h) evs
  exact fun w i x ih _ _ => World.move_node_inv ih (hstep i _ x (ih i))

/-- Local invariants and a fact about every sent message, each used for the other:
a handler call may rely on the fact for the message it handles, and the adversary
on all messages it has seen. -/
theorem node_sent_inv {I : Nat → σ → Prop} {Q : μ → Prop} {K : Nat → Input μ τ → Prop}
    {w : World σ μ} (h0 : ∀ i, I i (w.node i)) (hsent : ∀ m ∈ w.sent, Q m)
    (hstep : ∀ i s x, E.correct i = true → I i s → K i x → (∀ m, x = .msg m → Q m) →
      I i (H i s x).1 ∧ ∀ m ∈ (H i s x).2, Q m)
    (hforge : ∀ l m, (∀ m' ∈ l, Q m') → E.forge l m = true → Q m)
    {evs : List (Event μ τ)} (hok : ∀ i x, E.correct i = true → .handle i x ∈ evs → K i x) :
    (∀ i, I i ((w.run E H evs).node i)) ∧ ∀ m ∈ (w.run E H evs).sent, Q m := by
  refine run_inv_of (P := fun w => (∀ i, I i (w.node i)) ∧ ∀ m ∈ w.sent, Q m) ⟨h0, hsent⟩ ?_ ?_ hok
  · rintro w i x ⟨hw, hq⟩ hx hc ha
    have hhanded : ∀ m, x = .msg m → Q m := by
      rintro m rfl
      exact hq m (of_decide_eq_true ha)
    obtain ⟨hI, hout⟩ := hstep i _ x hc (hw i) hx hhanded
    refine ⟨World.move_node_inv hw hI, fun m hm => ?_⟩
    rw [World.move_sent] at hm
    rcases List.mem_append.mp hm with hm | hm
    · exact hout m hm
    · exact hq m hm
  · rintro w m ⟨hw, hq⟩ hf
    refine ⟨hw, fun m' hm' => ?_⟩
    rcases List.mem_cons.mp hm' with rfl | hm'
    · exact hforge _ _ hq hf
    · exact hq m' hm'

/-- **Signing once.** Messages are grouped by a key. When a correct party that
has a message on record sends no other of the same key, no two sent messages of
one key bear its signature. -/
theorem signed_once {κ : Type*} (signer : μ → Nat) (key : μ → Option κ) {I : Nat → σ → Prop}
    {R : Nat → σ → μ → Prop} {w : World σ μ} (h0 : ∀ i, I i (w.node i))
    (hsent : ∀ m ∈ w.sent, E.correct (signer m) = true → key m = none)
    (hI : ∀ i s x, I i s → I i (H i s x).1)
    (hkeep : ∀ i s x m, I i s → signer m = i → R i s m → R i (H i s x).1 m)
    (hemit : ∀ i s x m, I i s → m ∈ (H i s x).2 → (key m).isSome = true →
      signer m = i ∧ R i (H i s x).1 m)
    (hfresh : ∀ i s x m m' k, I i s → m ∈ (H i s x).2 → key m = some k → key m' = some k →
      signer m' = i → ¬ R i s m')
    (hsingle : ∀ i s x m m' k, I i s → m ∈ (H i s x).2 → m' ∈ (H i s x).2 → key m = some k →
      key m' = some k → m = m')
    (hforge : ∀ l m, E.forge l m = true → E.correct (signer m) = false)
    (evs : List (Event μ τ)) {m m' : μ} {k : κ} (hm : m ∈ (w.run E H evs).sent)
    (hm' : m' ∈ (w.run E H evs).sent) (hc : E.correct (signer m) = true)
    (hsigner : signer m = signer m') (hk : key m = some k) (hk' : key m' = some k) : m = m' := by
  have hall := run_inv (E := E) (H := H) (w := w)
    (P := fun w => (∀ i, I i (w.node i)) ∧
      (∀ m ∈ w.sent, E.correct (signer m) = true → (key m).isSome = true →
        R (signer m) (w.node (signer m)) m) ∧
      (∀ m ∈ w.sent, ∀ m' ∈ w.sent, E.correct (signer m) = true → signer m = signer m' →
        ∀ k, key m = some k → key m' = some k → m = m'))
    ⟨h0, fun m hm hc hk => (nomatch (hsent m hm hc ▸ hk)),
      fun m hm m' _ hc _ k hk => (nomatch (hsent m hm hc ▸ hk))⟩ ?_ ?_ evs
  · exact hall.2.2 m hm m' hm' hc hsigner k hk hk'
  · rintro w i x ⟨hw, hr, hone⟩ - -
    have hsends : ∀ m ∈ (H i (w.node i) x).2, ∀ k, key m = some k → signer m = i :=
      fun m hm k hk => (hemit i _ x m (hw i) hm (by rw [hk]; rfl)).1
    refine ⟨World.move_node_inv hw (hI i _ x (hw i)), fun m hm hc hk => ?_,
      fun m hm m' hm' hc hs k hk hk' => ?_⟩
    · rw [World.move_sent, List.mem_append] at hm
      rcases hm with hm | hm
      · obtain ⟨hsg, hR⟩ := hemit i _ x m (hw i) hm hk
        rw [hsg, World.move_node_self]
        exact hR
      · by_cases hj : signer m = i
        · have hR := hr m hm hc hk
          rw [hj] at hR ⊢
          rw [World.move_node_self]
          exact hkeep i _ x m (hw i) hj hR
        · rw [World.move_node_of_ne w _ hj]
          exact hr m hm hc hk
    · rw [World.move_sent, List.mem_append] at hm hm'
      -- a message sent now excludes one of its key on record
      have hclash : ∀ a ∈ (H i (w.node i) x).2, ∀ b ∈ w.sent, E.correct (signer b) = true →
          signer b = i → key a = some k → key b = some k → False := by
        intro a ha b hb hcb hsb hka hkb
        have hR := hr b hb hcb (by rw [hkb]; rfl)
        rw [hsb] at hR
        exact hfresh i _ x a b k (hw i) ha hka hkb hsb hR
      rcases hm with hm | hm <;> rcases hm' with hm' | hm'
      · exact hsingle i _ x m m' k (hw i) hm hm' hk hk'
      · exact (hclash m hm m' hm' (hs ▸ hc) (hs ▸ hsends m hm k hk) hk hk').elim
      · exact (hclash m' hm' m hm hc (hs.trans (hsends m' hm' k hk')) hk' hk).elim
      · exact hone m hm m' hm' hc hs k hk hk'
  · rintro w a ⟨hw, hr, hone⟩ hf
    have hbad := hforge _ _ hf
    refine ⟨hw, fun m hm hc hk => ?_, fun m hm m' hm' hc hs k hk hk' => ?_⟩
    · rcases List.mem_cons.mp hm with rfl | hm
      · rw [hbad] at hc
        exact nomatch hc
      · exact hr m hm hc hk
    · rcases List.mem_cons.mp hm with rfl | hm
      · rw [hbad] at hc
        exact nomatch hc
      · rcases List.mem_cons.mp hm' with rfl | hm'
        · rw [hs, hbad] at hc
          exact nomatch hc
        · exact hone m hm m' hm' hc hs k hk hk'

/-- **The origin of stored messages.** What a party stores it was handed, or
sent itself; so what a party stores was sent. -/
theorem stored_sent {I : Nat → σ → Prop} {S : σ → μ → Prop} {w : World σ μ}
    (h0 : ∀ i, I i (w.node i)) (hempty : ∀ i m, S (w.node i) m → m ∈ w.sent)
    (hI : ∀ i s x, I i s → I i (H i s x).1)
    (hstep : ∀ i s x m, I i s → S (H i s x).1 m → S s m ∨ x = .msg m ∨ m ∈ (H i s x).2)
    (evs : List (Event μ τ)) :
    ∀ i m, S ((w.run E H evs).node i) m → m ∈ (w.run E H evs).sent := by
  have hall := run_inv (E := E) (H := H) (w := w)
    (P := fun w => (∀ i, I i (w.node i)) ∧ ∀ i m, S (w.node i) m → m ∈ w.sent)
    ⟨h0, hempty⟩ ?_ ?_ evs
  · exact hall.2
  · rintro w i x ⟨hw, hs⟩ - ha
    refine ⟨World.move_node_inv hw (hI i _ x (hw i)), fun j m hm => ?_⟩
    · rw [World.move_sent]
      by_cases hj : j = i
      · subst hj
        rw [World.move_node_self] at hm
        rcases hstep j _ x m (hw j) hm with hold | rfl | hnew
        · exact List.mem_append_right _ (hs j m hold)
        · exact List.mem_append_right _ (of_decide_eq_true ha)
        · exact List.mem_append_left _ hnew
      · rw [World.move_node_of_ne w _ hj] at hm
        exact List.mem_append_right _ (hs j m hm)
  · rintro w m' ⟨hw, hs⟩ _
    exact ⟨hw, fun j m hm => List.mem_cons_of_mem _ (hs j m hm)⟩

end Rules

end Spire.Lib
