import Spire.Lib.Network

/-!
# Handlers made of small edits

One handler call is often a sequence of small edits of the state, each of which
may send messages. `Chain E` says that a state reaches another by edits allowed by
`E`, sending the given messages in all. A handler is taken apart into its edits
once; what an edit keeps, a chain keeps, and the rules for runs then need looking
at single edits only.
-/

namespace Spire.Lib

variable {σ μ τ : Type*}

/-- Edits one after the other, with the messages of all of them. -/
inductive Chain (E : σ → σ → List μ → Prop) : σ → σ → List μ → Prop
  | nil (s : σ) : Chain E s s []
  | cons {s t u : σ} {out rest : List μ} : E s t out → Chain E t u rest → Chain E s u (out ++ rest)

namespace Chain

variable {E : σ → σ → List μ → Prop} {s t u : σ} {out rest : List μ}

theorem single (h : E s t out) : Chain E s t out := by
  have hc := cons h (nil t)
  rwa [List.append_nil] at hc

/-- A chain that begins with an edit that sends one message. -/
theorem cons_sent {m : μ} (h : E s t [m]) (h' : Chain E t u rest) : Chain E s u (m :: rest) :=
  cons h h'

theorem trans (h : Chain E s t out) (h' : Chain E t u rest) : Chain E s u (out ++ rest) := by
  induction h with
  | nil => exact h'
  | cons he _ ih =>
    rw [List.append_assoc]
    exact cons he (ih h')

/-- A chain that ends with an edit that sends nothing. -/
theorem snoc (h : Chain E s t out) (h' : E t u []) : Chain E s u out := by
  have hc := h.trans (single h')
  rwa [List.append_nil] at hc

theorem mono {E' : σ → σ → List μ → Prop} (hE : ∀ s t out, E s t out → E' s t out) (h : Chain E s t out) :
    Chain E' s t out := by
  induction h with
  | nil s => exact nil s
  | cons he _ ih => exact cons (hE _ _ _ he) ih

/-- A loop whose rounds are chains is one. -/
theorem foldl {α : Type*} {f : σ → α → σ × List μ} {I : σ → Prop}
    (hf : ∀ s a, I s → I (f s a).1 ∧ Chain E s (f s a).1 (f s a).2) (as : List α)
    {r : σ × List μ} (h : Chain E s r.1 r.2) (hr : I r.1) :
    I (as.foldl (fun r a => ((f r.1 a).1, r.2 ++ (f r.1 a).2)) r).1 ∧
      Chain E s (as.foldl (fun r a => ((f r.1 a).1, r.2 ++ (f r.1 a).2)) r).1
        (as.foldl (fun r a => ((f r.1 a).1, r.2 ++ (f r.1 a).2)) r).2 := by
  induction as generalizing r with
  | nil => exact ⟨hr, h⟩
  | cons a as ih =>
    obtain ⟨hI, hc⟩ := hf r.1 a hr
    exact ih (h.trans hc) hI

/-- An invariant of single edits. -/
theorem inv {I : σ → Prop} (hE : ∀ s t out, E s t out → I s → I t) (h : Chain E s t out) (hs : I s) :
    I t := by
  induction h with
  | nil => exact hs
  | cons he _ ih => exact ih (hE _ _ _ he hs)

/-- A fact about what edits send. -/
theorem forall_sent {I : σ → Prop} {Q : μ → Prop} (hE : ∀ s t out, E s t out → I s → I t)
    (hQ : ∀ s t out, E s t out → I s → ∀ m ∈ out, Q m) (h : Chain E s t out) (hs : I s) :
    ∀ m ∈ out, Q m := by
  induction h with
  | nil => exact fun _ hm => nomatch hm
  | cons he _ ih =>
    intro m hm
    rcases List.mem_append.mp hm with hm | hm
    · exact hQ _ _ _ he hs m hm
    · exact ih (hE _ _ _ he hs) m hm

/-- What a chain sends, one of its edits sends. -/
theorem exists_edit {I : σ → Prop} (hE : ∀ s t out, E s t out → I s → I t) (h : Chain E s u out)
    (hs : I s) {m : μ} (hm : m ∈ out) :
    ∃ t t' before now after, Chain E s t before ∧ I t ∧ E t t' now ∧ m ∈ now ∧ Chain E t' u after := by
  induction h with
  | nil => exact nomatch hm
  | cons he hrest ih =>
    rcases List.mem_append.mp hm with hm | hm
    · exact ⟨_, _, _, _, _, nil _, hs, he, hm, hrest⟩
    · obtain ⟨t, t', before, now, after, hb, hI, he', hm', ha⟩ := ih (hE _ _ _ he hs) hm
      exact ⟨t, t', _, now, after, cons he hb, hI, he', hm', ha⟩

/-- A move that is a chain of edits keeps what every edit keeps, made as a move of its own,
of what does not depend on the order of the messages sent. -/
theorem move_inv {P : World σ μ → Prop} {i : Nat}
    (hset : ∀ w w' : World σ μ, w'.node = w.node → (∀ m, m ∈ w'.sent ↔ m ∈ w.sent) → P w → P w')
    (hE : ∀ (w : World σ μ) t out, P w → E (w.node i) t out → P (w.move i (t, out)))
    (h : Chain E s u out) {w : World σ μ} (hs : w.node i = s) (hw : P w) : P (w.move i (u, out)) := by
  induction h generalizing w with
  | nil s =>
    refine hset w _ ?_ (fun m => by simp) hw
    rw [← hs]
    exact Function.update_eq_self i w.node
  | cons he _ ih =>
    have hfirst := hE w _ _ hw (hs ▸ he)
    refine hset _ _ ?_ (fun m => ?_) (ih (World.move_node_self w i _) hfirst)
    · exact (Function.update_idem _ _ w.node).symm
    · simp only [World.move_sent, List.mem_append, or_assoc]
      exact or_left_comm

end Chain

/-! ## Rules for runs -/

section Runs

variable [DecidableEq μ] {E : Env μ} {H : Handler σ μ τ} {M : Nat → Input μ τ → σ → σ → List μ → Prop}
  {I : Nat → σ → Prop} {w : World σ μ}

/-- **Signing once, by edits.** No edit sends a keyed message when one of its key
is on record, what an edit sends is on record after it, and no edit loses the
record. Then no two sent messages of one key bear a correct party's signature. -/
theorem signed_once_of_edits {κ : Type*} (signer : μ → Nat) (key : μ → Option κ) {R : Nat → σ → κ → Prop}
    (hchain : ∀ i s x, I i s → Chain (M i x) s (H i s x).1 (H i s x).2)
    (h0 : ∀ i, I i (w.node i))
    (hsent : ∀ m ∈ w.sent, E.correct (signer m) = true → key m = none)
    (hI : ∀ i x s t out, M i x s t out → I i s → I i t)
    (hkeep : ∀ i x s t out k, M i x s t out → I i s → R i s k → R i t k)
    (hemit : ∀ i x s t out m k, M i x s t out → I i s → m ∈ out → key m = some k →
      signer m = i ∧ ¬ R i s k ∧ R i t k)
    (hsingle : ∀ i x s t out m m' k, M i x s t out → m ∈ out → m' ∈ out → key m = some k →
      key m' = some k → m = m')
    (hforge : ∀ l m, E.forge l m = true → E.correct (signer m) = false)
    (evs : List (Event μ τ)) {m m' : μ} {k : κ} (hm : m ∈ (w.run E H evs).sent)
    (hm' : m' ∈ (w.run E H evs).sent) (hc : E.correct (signer m) = true)
    (hsigner : signer m = signer m') (hk : key m = some k) (hk' : key m' = some k) : m = m' := by
  have hkept : ∀ {i x s t out} (k : κ), Chain (M i x) s t out → I i s → R i s k → R i t k := by
    intro i x s t out k h hs hR
    exact (h.inv (I := fun s => I i s ∧ R i s k)
      (fun _ _ _ he hs => ⟨hI _ _ _ _ _ he hs.1, hkeep _ _ _ _ _ k he hs.1 hs.2⟩) ⟨hs, hR⟩).2
  refine signed_once signer key (R := fun i s m => ∀ k, key m = some k → R i s k) h0 hsent
    (fun i s x hs => (hchain i s x hs).inv (hI i x) hs) ?_ ?_ ?_ ?_ hforge evs hm hm' hc hsigner hk hk'
  · intro i s x m hs _ hR k hk
    exact hkept k (hchain i s x hs) hs (hR k hk)
  · intro i s x m hs hm hkey
    obtain ⟨k, hk⟩ := Option.isSome_iff_exists.mp hkey
    obtain ⟨t, t', _, _, _, _, hIt, he, hm, ha⟩ := (hchain i s x hs).exists_edit (hI i x) hs hm
    obtain ⟨hsg, -, hR⟩ := hemit i x t t' _ m k he hIt hm hk
    refine ⟨hsg, fun k' hk' => ?_⟩
    cases hk.symm.trans hk'
    exact hkept k ha (hI i x t t' _ he hIt) hR
  · intro i s x m m' k hs hm hk hk' _ hR
    obtain ⟨t, t', _, _, _, hb, hIt, he, hm, -⟩ := (hchain i s x hs).exists_edit (hI i x) hs hm
    exact (hemit i x t t' _ m k he hIt hm hk).2.1 (hkept k hb hs (hR k hk'))
  · intro i s x m m' k hs hm hm' hk hk'
    -- a key already on record is not sent again later in the chain
    have honce : ∀ {s t out}, Chain (M i x) s t out → I i s → R i s k → ∀ a ∈ out, key a ≠ some k := by
      intro s t out h hs hR a ha hka
      obtain ⟨t, t', _, _, _, hb, hIt, he, ha, -⟩ := h.exists_edit (hI i x) hs ha
      exact (hemit i x t t' _ a k he hIt ha hka).2.1 (hkept k hb hs hR)
    have hpair : ∀ {s t out}, Chain (M i x) s t out → I i s → m ∈ out → m' ∈ out → m = m' := by
      intro s t out h
      induction h with
      | nil => exact fun _ hm => nomatch hm
      | cons he hrest ih =>
        intro hs hm hm'
        have ht := hI i x _ _ _ he hs
        rcases List.mem_append.mp hm with hm | hm <;> rcases List.mem_append.mp hm' with hm' | hm'
        · exact hsingle i x _ _ _ m m' k he hm hm' hk hk'
        · exact absurd hk' (honce hrest ht (hemit i x _ _ _ m k he hs hm hk).2.2 m' hm')
        · exact absurd hk (honce hrest ht (hemit i x _ _ _ m' k he hs hm' hk').2.2 m hm)
        · exact ih ht hm hm'
    exact hpair (hchain i s x hs) hs hm hm'

/-- **The origin of stored messages, by edits.** -/
theorem stored_sent_of_edits {S : σ → μ → Prop}
    (hchain : ∀ i s x, I i s → Chain (M i x) s (H i s x).1 (H i s x).2)
    (h0 : ∀ i, I i (w.node i)) (hempty : ∀ i m, S (w.node i) m → m ∈ w.sent)
    (hI : ∀ i x s t out, M i x s t out → I i s → I i t)
    (hstore : ∀ i x s t out m, M i x s t out → S t m → S s m ∨ x = .msg m)
    (evs : List (Event μ τ)) :
    ∀ i m, S ((w.run E H evs).node i) m → m ∈ (w.run E H evs).sent := by
  refine stored_sent h0 hempty (fun i s x hs => (hchain i s x hs).inv (hI i x) hs) ?_ evs
  intro i s x m hs hm
  have hback : ∀ {s t out}, Chain (M i x) s t out → S t m → S s m ∨ x = .msg m := by
    intro s t out h
    induction h with
    | nil => exact .inl
    | cons he _ ih =>
      intro hm
      rcases ih hm with hm | hx
      · exact hstore i x _ _ _ m he hm
      · exact .inr hx
  rcases hback (hchain i s x hs) hm with hm | hx
  · exact .inl hm
  · exact .inr (.inl hx)

end Runs

end Spire.Lib
