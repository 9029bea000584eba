import Spire.FloodNode

/-!
# End-to-end acknowledgements

A node says with the matrix it generates what it has of each source. Whoever keeps the last matrix
of the node refuses another as soon as one cell of it goes back, so that the matrices must not.

A cell moves on with the messages, and it changes when its source asks for a handshake. Such a
request has an epoch above the one in the matrix that the node has of the source. But the node takes
the request up before it looks at the `aru` that comes with it, and where it does not like that, the
matrix is not stored: the next request is again compared with the old one. The cells never go back
exactly if each request that is taken up is newer than what the cell already answers.
-/

namespace Spire.Flood

open Function (update update_self update_of_ne)
open Lib

/-! ## The order of the cells -/

namespace Cell

variable {x y z : Cell}

theorem Below.trans (h : x.Below y) (h' : y.Below z) : x.Below z := by
  unfold Below at *
  omega

theorem Below.irrefl (x : Cell) : ¬ x.Below x := by
  unfold Below
  omega

theorem not_below_trans (h : ¬ y.Below x) (h' : ¬ z.Below y) : ¬ z.Below x := by
  unfold Below at *
  omega

theorem eq_of_not_below (h : ¬ y.Below x) (h' : ¬ x.Below y) : x = y := by
  obtain ⟨d, s, a⟩ := x
  obtain ⟨d', s', a'⟩ := y
  simp only [Below] at h h'
  simp only [Cell.mk.injEq]
  omega

theorem not_below_zero (x : Cell) : ¬ x.Below ⟨0, 0, 0⟩ := by
  simp only [Below]
  omega

end Cell

namespace E2E

variable {x y z : E2E}

/-- Cell by cell the second matrix is not behind the first. -/
def Le (x y : E2E) : Prop := ∀ i ∈ nodes, ¬ (y.cell i).Below (x.cell i)

theorem not_rejects : ¬ x.Rejects y ↔ x.Le y := by
  unfold Rejects Le
  push Not
  rfl

theorem Le.refl (x : E2E) : x.Le x := fun i _ => Cell.Below.irrefl (x.cell i)

theorem Le.trans (h : x.Le y) (h' : y.Le z) : x.Le z := fun i hi => Cell.not_below_trans (h i hi) (h' i hi)

theorem zero_le (x : E2E) : zero.Le x := fun i _ => Cell.not_below_zero (x.cell i)

/-- What is not ahead of a matrix is not accepted after it. -/
theorem Le.not_accepts (h : y.Le x) : ¬ x.Accepts y := fun ⟨_, i, hi, hlt⟩ => h i hi hlt

theorem le_update {i : Nat} (hi : i ∈ nodes) {cell : Cell} :
    x.Le { x with cell := update x.cell i cell } ↔ ¬ cell.Below (x.cell i) := by
  constructor
  · intro h
    have hi := h i hi
    dsimp only at hi
    rwa [update_self] at hi
  · intro h j _
    dsimp only
    by_cases hj : j = i
    · subst hj
      rwa [update_self]
    · rw [update_of_ne hj]
      exact Cell.Below.irrefl _

end E2E

/-! ## What the handlers do to the matrices -/

namespace Node

variable {c : Conf} {n n' : Node} {new : E2E} {lastHop now : Nat}

theorem onFlow_e2e {s d : Nat} {g : Flow → Except Fault Flow} (h : n.onFlow s d g = .ok n') : n'.e2e = n.e2e := by
  unfold onFlow at h
  cases hg : g (n.flow s d) with
  | error e => simp [hg, Except.map] at h
  | ok f =>
    simp only [hg, Except.map, Except.ok.injEq] at h
    rw [← h]
    rfl

/-- A loop whose rounds leave the matrices alone does. -/
theorem foldlM_e2e {α : Type} {xs : List α} {g : Node → α → Except Fault Node}
    (hround : ∀ m x m', g m x = .ok m' → m'.e2e = m.e2e) (h : xs.foldlM g n = .ok n') : n'.e2e = n.e2e :=
  foldlM_inv (I := fun m => m.e2e = n.e2e) (fun x _ m m' hm hI => (hround m x m' hm).trans hI) h rfl

theorem processAcks_e2e {acks : List HbhAck} (h : processAcks c lastHop acks n = .ok n') : n'.e2e = n.e2e := by
  induction acks generalizing n with
  | nil =>
    cases h
    rfl
  | cons a acks ih =>
    unfold processAcks at h
    split at h
    · cases h
      rfl
    · obtain ⟨m, hm, h⟩ := bind_eq_ok.mp h
      exact (ih h).trans (onFlow_e2e hm)

theorem sendOne_e2e {x : Slot} (h : n.sendOne c x = .ok n') : n'.e2e = n.e2e := by
  cases x with
  | data k s d t =>
    unfold sendOne sendData at h
    exact onFlow_e2e h
  | e2e k d =>
    unfold sendOne sendE2E at h
    exact foldlM_e2e (fun _ _ _ => onFlow_e2e) h

theorem resendTo_e2e {r : Restamp} {i k : Nat} (h : n.resendTo c r i k = .ok n') : n'.e2e = n.e2e := by
  unfold resendTo at h
  obtain ⟨x, -, h⟩ := bind_eq_ok.mp h
  split at h
  · exact (foldlM_e2e (fun _ _ _ => sendOne_e2e) h : n'.e2e = (n.setFlow c.myId i x.2).e2e)
  · cases h
    rfl

theorem restampTo_e2e {r : Restamp} {i : Nat} (h : n.restampTo c r i = .ok n') : n'.e2e = n.e2e := by
  unfold restampTo at h
  dsimp only at h
  split at h
  · cases h
    rfl
  · obtain ⟨x, -, h⟩ := bind_eq_ok.mp h
    split at h
    · exact (foldlM_e2e (fun _ _ _ => resendTo_e2e) h : n'.e2e = (n.setFlow c.myId i x.1).e2e)
    · cases h
      rfl

/-- A matrix that gets through is newer in one of the cells and older in none. What is taken up of
it is either stored or, with the request answered, dropped. -/
theorem processE2E_cases (h : n.processE2E c lastHop new now = .ok n') :
    n'.e2e = n.e2e ∧ ¬ (new.dest ∈ nodes ∧ (n.e2e new.dest).Accepts new) ∨
      new.dest ∈ nodes ∧ (n.e2e new.dest).Accepts new ∧
        ∃ m, m = (if n.Opens c new then n.answer c new now else n) ∧
          (m.Completes c new ∧ (new.cell c.myId).aru ≠ 0 ∧ n'.e2e = m.e2e ∨
            ¬ (m.Completes c new ∧ (new.cell c.myId).aru ≠ 0) ∧ n'.e2e = update m.e2e new.dest new) := by
  have hmem : new.dest ∈ nodes ↔ ¬ (new.dest < 1 ∨ maxNodes < new.dest) := by
    rw [nodes, List.mem_range'_1]
    omega
  have happly : ∀ m : Node, m.apply c lastHop new = .ok n' → n'.e2e = update m.e2e new.dest new := by
    intro m hm
    unfold apply at hm
    cases hfold : nodes.foldlM (fun (n : Node) i => n.onFlow i new.dest fun f =>
        f.onCell c lastHop ((m.e2e new.dest).cell i) (new.cell i)) m with
    | error e => simp [hfold, Except.map] at hm
    | ok l =>
      simp only [hfold, Except.map, Except.ok.injEq] at hm
      rw [← hm, ← foldlM_e2e (fun _ _ _ => onFlow_e2e) hfold]
  unfold processE2E at h
  split at h
  next hdest =>
    cases h
    exact Or.inl ⟨rfl, fun h => hmem.mp h.1 hdest⟩
  next hdest =>
    split at h
    next hacc =>
      cases h
      exact Or.inl ⟨rfl, fun h => hacc h.2⟩
    next hacc =>
      obtain ⟨m, hm⟩ : ∃ m, m = if n.Opens c new then n.answer c new now else n := ⟨_, rfl⟩
      refine Or.inr ⟨hmem.mpr hdest, not_not.mp hacc, m, hm, ?_⟩
      dsimp only at h
      rw [← hm] at h
      split at h
      next hdone =>
        split at h
        next haru =>
          cases h
          exact Or.inl ⟨hdone, haru, rfl⟩
        next haru => exact Or.inr ⟨fun hdrop => haru hdrop.2, (happly _ h :)⟩
      next hdone => exact Or.inr ⟨fun hdrop => hdone hdrop.1, happly _ h⟩

theorem genCell_not_below (c : Conf) (n : Node) (i : Nat) : ¬ (n.genCell c i).Below ((n.own c).cell i) := by
  unfold genCell
  dsimp only
  split
  next hraise =>
    simp only [Cell.Below]
    omega
  next => exact Cell.Below.irrefl _

theorem genCell_epochs (c : Conf) (n : Node) (i : Nat) :
    (n.genCell c i).destEpoch = ((n.own c).cell i).destEpoch ∧ (n.genCell c i).srcEpoch = ((n.own c).cell i).srcEpoch := by
  unfold genCell
  dsimp only
  split <;> exact ⟨rfl, rfl⟩

/-- `Reliable_Flood_Gen_E2E` only raises an `aru`. -/
theorem genE2E_le (c : Conf) (n : Node) : (n.own c).Le ((n.genE2E c).own c) := by
  unfold genE2E
  split
  · exact E2E.Le.refl _
  · split
    · exact E2E.Le.refl _
    · intro i _
      simp only [own, update_self]
      exact genCell_not_below c n i

/-! ## Requests -/

/-- The node takes the acknowledgement of another node up as a request for a handshake. -/
def TakesUp (c : Conf) (n : Node) (new : E2E) : Prop :=
  new.dest ∈ nodes ∧ new.dest ≠ c.myId ∧ (n.e2e new.dest).Accepts new ∧ n.Opens c new

/-- The request is newer than what the node's cell for the destination already answers, or it comes
a second time before any message did, or the node's own epoch moves on with it. -/
def Newer (c : Conf) (n : Node) (new : E2E) (now : Nat) : Prop :=
  let cell := (n.own c).cell new.dest
  let epoch := (new.cell c.myId).destEpoch
  cell.srcEpoch < epoch ∨ cell.srcEpoch = epoch ∧ cell.aru = 0 ∨ 1 < n.flowSeqNo new.dest ∧ cell.destEpoch < now

/-- The request comes with an `aru`, though it knows the epoch of the flow. -/
def Dropped (c : Conf) (n : Node) (new : E2E) (now : Nat) : Prop :=
  (new.cell c.myId).srcEpoch = n.newSourceEpoch new.dest now ∧ (new.cell c.myId).aru ≠ 0

/-- The cell with the answer. -/
def answerCell (c : Conf) (n : Node) (new : E2E) (now : Nat) : Cell :=
  ⟨if 1 < n.flowSeqNo new.dest then now else ((n.own c).cell new.dest).destEpoch, (new.cell c.myId).destEpoch, 0⟩

theorem answer_own : (n.answer c new now).own c =
    { n.own c with cell := update (n.own c).cell new.dest (n.answerCell c new now) } := by
  unfold answer own
  simp only [update_self]
  rfl

theorem answer_completes : (n.answer c new now).Completes c new ↔
    (new.cell c.myId).srcEpoch = n.newSourceEpoch new.dest now := by
  unfold Completes answer
  simp only [update_self, true_and]

theorem answer_newer (h : ((n.own c).cell new.dest).destEpoch ≤ now) :
    ¬ (n.answerCell c new now).Below ((n.own c).cell new.dest) ↔ n.Newer c new now := by
  unfold answerCell Newer Cell.Below
  dsimp only
  split <;> omega

/-- What an acknowledgement of another node does to the node's own matrix. -/
theorem processE2E_own (h : n.processE2E c lastHop new now = .ok n') (hdest : new.dest ≠ c.myId) :
    (n.TakesUp c new → n'.own c = { n.own c with cell := update (n.own c).cell new.dest (n.answerCell c new now) }) ∧
      (¬ n.TakesUp c new → n'.own c = n.own c) := by
  rcases processE2E_cases h with ⟨heq, hno⟩ | ⟨hmem, hacc, m, hm, hcases⟩
  · exact ⟨fun hup => absurd ⟨hup.1, hup.2.2.1⟩ hno, fun _ => congrFun heq c.myId⟩
  · have hown : n'.own c = m.own c := by
      unfold own
      rcases hcases with ⟨-, -, heq⟩ | ⟨-, heq⟩
      · rw [heq]
      · rw [heq, update_of_ne hdest.symm]
    rw [hown, hm]
    constructor
    · rintro ⟨-, -, -, hopens⟩
      rw [if_pos hopens, answer_own]
    · intro hup
      rw [if_neg fun hopens => hup ⟨hmem, hdest, hacc, hopens⟩]

/-- Its own matrix comes back to a node and does not ask for a handshake. -/
theorem processE2E_self (h : n.processE2E c lastHop new now = .ok n') (hdest : new.dest = c.myId)
    (hopens : ¬ n.Opens c new) : n'.own c = n.own c ∨ (n.own c).Accepts new ∧ n'.own c = new := by
  rcases processE2E_cases h with ⟨heq, -⟩ | ⟨-, hacc, m, hm, hcases⟩
  · exact Or.inl (congrFun heq c.myId)
  · rw [if_neg hopens] at hm
    subst hm
    unfold own
    rw [hdest] at hacc hcases
    rcases hcases with ⟨-, -, heq⟩ | ⟨-, heq⟩
    · exact Or.inl (congrFun heq c.myId)
    · exact Or.inr ⟨hacc, by rw [heq, update_self]⟩

/-- What other steps do to the matrices. -/
theorem step_own {a : Action} (h : n.step c a = .ok n') (ha : ∀ lastHop new now, a ≠ .e2e lastHop new now) :
    (n.own c).Le (n'.own c) ∧ (∀ d ≠ c.myId, n'.e2e d = n.e2e d) ∧
      ∀ i, ((n'.own c).cell i).destEpoch = ((n.own c).cell i).destEpoch ∧
        ((n'.own c).cell i).srcEpoch = ((n.own c).cell i).srcEpoch := by
  have hsame (heq : n'.e2e = n.e2e) : (n.own c).Le (n'.own c) ∧ (∀ d ≠ c.myId, n'.e2e d = n.e2e d) ∧
      ∀ i, ((n'.own c).cell i).destEpoch = ((n.own c).cell i).destEpoch ∧
        ((n'.own c).cell i).srcEpoch = ((n.own c).cell i).srcEpoch := by
    have hown : n'.own c = n.own c := congrFun heq c.myId
    rw [hown]
    exact ⟨E2E.Le.refl _, fun d _ => congrFun heq d, fun _ => ⟨rfl, rfl⟩⟩
  cases a with
  | data k m =>
    refine hsame ?_
    unfold step processData at h
    cases hdata : ((if c.e2eOpt then n else { n with e2eStop := true }).flow m.src m.dest).onData c k
      (if c.e2eOpt then n else { n with e2eStop := true }).numPathsSnapshot m with
    | error e => simp [hdata, Except.map] at h
    | ok x =>
      simp only [hdata, Except.map, Except.ok.injEq] at h
      rw [← h]
      split <;> rfl
  | acks k acks => exact hsame (processAcks_e2e h)
  | e2e k new now => exact absurd rfl (ha k new now)
  | gen =>
    cases h
    refine ⟨genE2E_le c n, fun d hd => ?_, fun i => ?_⟩
    · unfold genE2E
      split
      · rfl
      · split
        · rfl
        · exact update_of_ne hd _ _
    · unfold genE2E
      split
      · exact ⟨rfl, rfl⟩
      · split
        · exact ⟨rfl, rfl⟩
        · simp only [own, update_self]
          exact genCell_epochs c n i
  | transfer k unsent => exact hsame (foldlM_e2e (fun _ _ _ => foldlM_e2e fun _ _ _ => onFlow_e2e) h)
  | send x => exact hsame (sendOne_e2e h)
  | restamp r => exact hsame (foldlM_e2e (fun _ _ _ => restampTo_e2e) h)
  | fill m numPaths =>
    cases h
    exact hsame rfl

end Node

/-! ## Runs -/

/-- The time of the clock after a step. -/
def Action.time : Action → Nat → Nat
  | .e2e _ _ now, _ => now
  | _, t => t

/-- A node with the last time it read the clock and all matrices it has had, the newest first. -/
structure Watch where
  node : Node
  clock : Nat
  past : List E2E

namespace Watch

variable (c : Conf)

def start (now : Nat) : Watch := ⟨Node.init c now, now, [(Node.init c now).own c]⟩

def step (w : Watch) (a : Action) : Watch :=
  match w.node.step c a with
  | .ok n => ⟨n, a.time w.clock, n.own c :: w.past⟩
  | .error _ => w

/-- The daemon survives the step, the clock does not go back, and nobody else can sign for the node. -/
def Possible (w : Watch) (a : Action) : Prop :=
  (∃ n, w.node.step c a = .ok n) ∧
    match a with
    | .e2e _ new now => w.clock ≤ now ∧ (new.dest = c.myId → new ∈ w.past)
    | _ => True

/-- No matrix has a cell that is behind that of an earlier one, and no node refuses a matrix that
has seen only earlier ones. -/
structure NeverBack (w : Watch) : Prop where
  nondecreasing : w.past.Pairwise fun later earlier => earlier.Le later
  heard : ∀ newer m older, w.past = newer ++ m :: older →
    ∀ receiver : Node, receiver.e2e c.myId ∈ E2E.zero :: older → ¬ (receiver.e2e c.myId).Rejects m

/-- A request that is taken up is newer than what the cell answers. -/
def Fresh (w : Watch) : Action → Prop
  | .e2e _ new now => w.node.TakesUp c new → w.node.Newer c new now
  | _ => True

/-- A request that is taken up is not dropped. -/
def Kept (w : Watch) : Action → Prop
  | .e2e _ new now => w.node.TakesUp c new → ¬ w.node.Dropped c new now
  | _ => True

variable {c} {w : Watch} {a : Action} {t : Nat} {as : List Action}

theorem neverBack_iff : NeverBack c w ↔ w.past.Pairwise fun later earlier => earlier.Le later := by
  refine ⟨NeverBack.nondecreasing, fun h => ⟨h, ?_⟩⟩
  intro newer m older hpast receiver hr
  rw [E2E.not_rejects]
  rw [hpast] at h
  rcases List.mem_cons.mp hr with hr | hr
  · rw [hr]
    exact E2E.zero_le m
  · exact (List.pairwise_cons.mp (List.pairwise_append.mp h).2.1).1 _ hr

/-- What holds along every run. -/
structure Inv (c : Conf) (w : Watch) : Prop where
  newest : ∃ older, w.past = w.node.own c :: older
  clock : ∀ m ∈ w.past, ∀ i, (m.cell i).destEpoch ≤ w.clock
  self : ∀ m ∈ w.past, (m.cell c.myId).destEpoch ≤ ((w.node.own c).cell c.myId).destEpoch

theorem Inv.own_mem (h : Inv c w) : w.node.own c ∈ w.past := by
  obtain ⟨older, hpast⟩ := h.newest
  rw [hpast]
  exact List.mem_cons_self

theorem inv_start (c : Conf) (t : Nat) : Inv c (start c t) := by
  have hcell : ∀ i, (((Node.init c t).own c).cell i).destEpoch = t := by
    intro i
    simp only [Node.own, Node.init, update_self]
  constructor
  · exact ⟨[], rfl⟩
  · intro m hm i
    cases List.mem_singleton.mp hm
    exact (hcell i).le
  · intro m hm
    cases List.mem_singleton.mp hm
    exact le_refl _

/-- Where all matrices so far go up, the next one does if it is not behind the last. -/
theorem neverBack_cons {n : Node} {t : Nat} (h : Inv c w) (hw : NeverBack c w) :
    NeverBack c ⟨n, t, n.own c :: w.past⟩ ↔ (w.node.own c).Le (n.own c) := by
  rw [neverBack_iff, List.pairwise_cons]
  constructor
  · exact fun hnext => hnext.1 _ h.own_mem
  · intro hle
    refine ⟨fun m hm => ?_, hw.nondecreasing⟩
    obtain ⟨older, hpast⟩ := h.newest
    have hsorted := hw.nondecreasing
    rw [hpast] at hm hsorted
    rcases List.mem_cons.mp hm with rfl | hm
    · exact hle
    · exact ((List.pairwise_cons.mp hsorted).1 m hm).trans hle

/-- The node's own matrix asks it for nothing. -/
theorem Inv.not_opens (h : Inv c w) {new : E2E} (hdest : new.dest = c.myId) (hmem : new ∈ w.past) :
    ¬ w.node.Opens c new := by
  unfold Node.Opens
  rw [hdest, not_lt]
  exact h.self new hmem

theorem step_eq {n : Node} (h : w.node.step c a = .ok n) : w.step c a = ⟨n, a.time w.clock, n.own c :: w.past⟩ := by
  unfold step
  rw [h]

/-- What a step leaves of the node's own matrix, and of the matrix it has of a destination. -/
theorem step_acks {n : Node} (hI : Inv c w) (hp : w.Possible c a) (h : w.node.step c a = .ok n) :
    (∃ k new now, a = .e2e k new now ∧ new.dest ≠ c.myId ∧ w.node.TakesUp c new ∧
        n.own c = { w.node.own c with
          cell := update (w.node.own c).cell new.dest (w.node.answerCell c new now) }) ∨
      (∀ k new now, a = .e2e k new now → ¬ w.node.TakesUp c new) ∧ (w.node.own c).Le (n.own c) ∧
        (n.own c ∈ w.past ∨ ∀ i, ((n.own c).cell i).destEpoch = ((w.node.own c).cell i).destEpoch) := by
  by_cases ha : ∃ k new now, a = .e2e k new now
  · obtain ⟨k, new, now, rfl⟩ := ha
    by_cases hdest : new.dest = c.myId
    · refine Or.inr ⟨?_, ?_⟩
      · intro k' new' now' heq
        cases heq
        exact fun hup => hup.2.1 hdest
      · have hmem := hp.2.2 hdest
        rcases Node.processE2E_self h hdest (hI.not_opens hdest hmem) with heq | ⟨hacc, heq⟩
        · rw [heq]
          exact ⟨E2E.Le.refl _, Or.inr fun _ => rfl⟩
        · rw [heq]
          exact ⟨E2E.not_rejects.mp hacc.1, Or.inl hmem⟩
    · obtain ⟨hup, hnot⟩ := Node.processE2E_own h hdest
      by_cases htakes : w.node.TakesUp c new
      · exact Or.inl ⟨k, new, now, rfl, hdest, htakes, hup htakes⟩
      · refine Or.inr ⟨?_, ?_⟩
        · intro k' new' now' heq
          cases heq
          exact htakes
        · rw [hnot htakes]
          exact ⟨E2E.Le.refl _, Or.inr fun _ => rfl⟩
  · have hne : ∀ k new now, a ≠ .e2e k new now := fun k new now heq => ha ⟨k, new, now, heq⟩
    obtain ⟨hle, -, hepochs⟩ := Node.step_own h hne
    exact Or.inr ⟨fun k new now heq => absurd heq (hne k new now), hle, Or.inr fun i => (hepochs i).1⟩

theorem clock_le (hp : w.Possible c a) : w.clock ≤ a.time w.clock := by
  cases a with
  | e2e k new now => exact hp.2.1
  | _ => exact le_refl _

/-- **One step.** It keeps the matrices going up exactly if what it takes up is newer. -/
theorem step_neverBack (hI : Inv c w) (hw : NeverBack c w) (hp : w.Possible c a) :
    NeverBack c (w.step c a) ↔ w.Fresh c a := by
  obtain ⟨n, h⟩ := hp.1
  rw [step_eq h, neverBack_cons hI hw]
  rcases step_acks hI hp h with ⟨k, new, now, rfl, hdest, htakes, hown⟩ | ⟨hno, hle, -⟩
  · have hclock : ((w.node.own c).cell new.dest).destEpoch ≤ now := (hI.clock _ hI.own_mem _).trans hp.2.1
    rw [hown, E2E.le_update htakes.1, Node.answer_newer hclock]
    exact ⟨fun hnewer _ => hnewer, fun hfresh => hfresh htakes⟩
  · refine iff_of_true hle ?_
    cases a with
    | e2e k new now => exact fun htakes => absurd htakes (hno k new now rfl)
    | _ => trivial

/-- What holds along a run goes on holding. -/
theorem step_inv (hI : Inv c w) (hp : w.Possible c a) : Inv c (w.step c a) := by
  obtain ⟨n, h⟩ := hp.1
  rw [step_eq h]
  have hold : ∀ m ∈ w.past, ∀ i, (m.cell i).destEpoch ≤ a.time w.clock := fun m hm i =>
    (hI.clock m hm i).trans (clock_le hp)
  suffices hcells : (∀ i, ((n.own c).cell i).destEpoch ≤ a.time w.clock) ∧
      ((w.node.own c).cell c.myId).destEpoch ≤ ((n.own c).cell c.myId).destEpoch by
    refine ⟨⟨w.past, rfl⟩, fun m hm => ?_, fun m hm => ?_⟩
    · rcases List.mem_cons.mp hm with rfl | hm
      · exact hcells.1
      · exact hold m hm
    · rcases List.mem_cons.mp hm with rfl | hm
      · exact le_refl _
      · exact (hI.self m hm).trans hcells.2
  rcases step_acks hI hp h with ⟨k, new, now, rfl, hdest, -, hown⟩ | ⟨-, hle, hown⟩
  · rw [hown]
    dsimp only
    constructor
    · intro i
      by_cases hi : i = new.dest
      · rw [hi, update_self, Node.answerCell]
        split
        · exact le_refl _
        · exact hold _ hI.own_mem _
      · rw [update_of_ne hi]
        exact hold _ hI.own_mem i
    · rw [update_of_ne hdest.symm]
  · constructor
    · intro i
      rcases hown with hmem | heq
      · exact hold _ hmem i
      · rw [heq i]
        exact hold _ hI.own_mem i
    · have hself := hle c.myId c.myId_mem
      unfold Cell.Below at hself
      omega

/-- In a run in which no request is dropped, a cell answers what the node has of its source. -/
structure InStep (c : Conf) (w : Watch) : Prop where
  inv : Inv c w
  neverBack : NeverBack c w
  answered : ∀ d ≠ c.myId, ((w.node.own c).cell d).srcEpoch = ((w.node.e2e d).cell c.myId).destEpoch

theorem inStep_start (c : Conf) (t : Nat) : InStep c (start c t) := by
  refine ⟨inv_start c t, neverBack_iff.mpr (List.pairwise_singleton _ _), fun d hd => ?_⟩
  simp only [start, Node.own, Node.init, update_self, update_of_ne hd]
  rfl

theorem InStep.fresh (h : InStep c w) : w.Fresh c a := by
  cases a with
  | e2e k new now =>
    rintro ⟨-, hdest, -, hopens⟩
    refine Or.inl ?_
    rw [h.answered new.dest hdest]
    exact hopens
  | _ => trivial

/-- What is stored is what was answered. -/
theorem answered_e2e {n : Node} {k now d : Nat} {new : E2E} (h : InStep c w) (hp : w.Possible c (.e2e k new now))
    (hkept : w.Kept c (.e2e k new now)) (hn : w.node.step c (.e2e k new now) = .ok n) (hd : d ≠ c.myId) :
    ((n.own c).cell d).srcEpoch = ((n.e2e d).cell c.myId).destEpoch := by
  have hunchanged : n.e2e = w.node.e2e → ((n.own c).cell d).srcEpoch = ((n.e2e d).cell c.myId).destEpoch := by
    intro heq
    rw [Node.own, heq]
    exact h.answered d hd
  rcases Node.processE2E_cases hn with ⟨heq, -⟩ | ⟨hmem, hacc, m, hm, hcases⟩
  · exact hunchanged heq
  by_cases hdest : new.dest = c.myId
  · -- it is one of the node's earlier matrices, and those are not ahead
    have hle : new.Le (w.node.own c) := by
      obtain ⟨older, hpast⟩ := h.inv.newest
      have hsorted := h.neverBack.nondecreasing
      have hnew := hp.2.2 hdest
      rw [hpast] at hsorted hnew
      rcases List.mem_cons.mp hnew with heq | hnew
      · rw [heq]
        exact E2E.Le.refl _
      · exact (List.pairwise_cons.mp hsorted).1 new hnew
    rw [hdest] at hacc
    exact absurd hacc hle.not_accepts
  by_cases hopens : w.node.Opens c new
  · have htakes : w.node.TakesUp c new := ⟨hmem, hdest, hacc, hopens⟩
    rw [if_pos hopens] at hm
    subst hm
    have hstored : n.e2e = update (w.node.answer c new now).e2e new.dest new := by
      rcases hcases with ⟨hdone, haru, -⟩ | ⟨-, heq⟩
      · exact absurd ⟨Node.answer_completes.mp hdone, haru⟩ (hkept htakes)
      · exact heq
    rw [(Node.processE2E_own hn hdest).1 htakes, hstored]
    dsimp only
    by_cases hd' : d = new.dest
    · rw [hd', update_self, update_self]
      rfl
    · rw [update_of_ne hd', update_of_ne hd', Node.answer]
      dsimp only
      rw [update_of_ne hd]
      exact h.answered d hd
  · rw [if_neg hopens] at hm
    subst hm
    rcases hcases with ⟨-, -, heq⟩ | ⟨-, heq⟩
    · exact hunchanged heq
    · rw [Node.own, heq, update_of_ne (Ne.symm hdest)]
      by_cases hd' : d = new.dest
      · have hle := E2E.not_rejects.mp hacc.1 c.myId c.myId_mem
        unfold Node.Opens at hopens
        unfold Cell.Below at hle
        rw [hd', update_self]
        have hanswered := h.answered new.dest hdest
        rw [Node.own] at hanswered
        omega
      · rw [update_of_ne hd']
        exact h.answered d hd

theorem InStep.step (h : InStep c w) (hp : w.Possible c a) (hkept : w.Kept c a) : InStep c (w.step c a) := by
  have hneverBack := (step_neverBack h.inv h.neverBack hp).mpr h.fresh
  refine ⟨step_inv h.inv hp, hneverBack, ?_⟩
  obtain ⟨n, hn⟩ := hp.1
  rw [step_eq hn]
  intro d hd
  dsimp only
  by_cases ha : ∃ k new now, a = .e2e k new now
  · obtain ⟨k, new, now, rfl⟩ := ha
    exact answered_e2e h hp hkept hn hd
  · have hne : ∀ k new now, a ≠ .e2e k new now := fun k new now heq => ha ⟨k, new, now, heq⟩
    obtain ⟨-, hothers, hepochs⟩ := Node.step_own hn hne
    rw [(hepochs d).2, hothers d hd]
    exact h.answered d hd

/-- **End-to-end acknowledgements.** In a run of a node its matrices go up and are listened to
exactly if each request that is taken up is newer than what its cell answers. They are if no request
that is taken up comes with an `aru` for the epoch of the flow, on which it is dropped. -/
theorem never_back_iff (c : Conf) (t : Nat) (as : List Action) (h : Steps (step c) (Possible c) (start c t) as) :
    (Always (step c) (NeverBack c) (start c t) as ↔ Steps (step c) (Fresh c) (start c t) as) ∧
      (Steps (step c) (Kept c) (start c t) as → Steps (step c) (Fresh c) (start c t) as) := by
  constructor
  · exact always_iff_steps_of (fun _ _ hI hw hp => step_neverBack hI hw hp) (fun _ _ hI _ hp _ => step_inv hI hp) h
      (inv_start c t) (inStep_start c t).neverBack
  · intro hkept
    exact Steps.imp_of (fun _ _ hI hp hk => ⟨hI.fresh, hI.step hp hk⟩) h hkept (inStep_start c t)

end Watch

/-! ## Requests that are dropped -/

/-- What a request that is dropped leaves behind is the answer. -/
theorem Node.processE2E_dropped {c : Conf} {n : Node} {new : E2E} {now : Nat} (k : Nat) (hup : n.TakesUp c new)
    (hdrop : n.Dropped c new now) : n.processE2E c k new now = .ok (n.answer c new now) := by
  obtain ⟨hmem, -, hacc, hopens⟩ := hup
  rw [nodes, List.mem_range'_1] at hmem
  have hdest : ¬ (new.dest < 1 ∨ maxNodes < new.dest) := by omega
  unfold processE2E
  rw [if_neg hdest, if_neg (not_not.mpr hacc)]
  dsimp only
  rw [if_pos hopens, if_pos (answer_completes.mpr hdrop.1), if_pos hdrop.2]

/-- A node with a single neighbour. -/
def lineConf : Conf :=
  { myId := 1, myId_mem := one_mem_nodes, neighborIds := [2], neighborMask := fun _ => 1, hbhAdvance := false
    hbhOpt := true, e2eOpt := true, crypto := true }

/-- A matrix of the neighbour that asks for a handshake, and has an `aru` already. -/
def earlyAru (epoch : Nat) : E2E := { dest := 2, cell := update (fun _ => ⟨0, 0, 0⟩) 1 ⟨epoch, 100, 1⟩ }

/-- Two requests, of which the later one has the lower epoch. -/
def twoRequests : List Action := [.e2e 1 (earlyAru 7) 100, .e2e 1 (earlyAru 5) 100]

namespace Watch

/-- The first request is taken up and dropped, and so is the second, because of the matrix that was
not stored. -/
theorem twoRequests_steps : ∃ n₁ n₂ : Node, (start lineConf 100).node.step lineConf (.e2e 1 (earlyAru 7) 100) = .ok n₁ ∧
    n₁.step lineConf (.e2e 1 (earlyAru 5) 100) = .ok n₂ ∧ (n₁.own lineConf).cell 2 = ⟨100, 7, 0⟩ ∧
      (n₂.own lineConf).cell 2 = ⟨100, 5, 0⟩ := by
  refine ⟨_, _, Node.processE2E_dropped 1 ?_ ?_, Node.processE2E_dropped 1 ?_ ?_, rfl, rfl⟩
  · exact ⟨by decide, by decide, by decide, by decide⟩
  · exact ⟨rfl, by decide⟩
  · exact ⟨by decide, by decide, by decide, by decide⟩
  · exact ⟨rfl, by decide⟩

theorem twoRequests_possible : Steps (step lineConf) (Possible lineConf) (start lineConf 100) twoRequests := by
  obtain ⟨n₁, n₂, h₁, h₂, -, -⟩ := twoRequests_steps
  refine ⟨⟨⟨n₁, h₁⟩, le_refl _, fun h => absurd h (by decide)⟩, ?_⟩
  rw [step_eq h₁]
  exact ⟨⟨⟨n₂, h₂⟩, le_refl _, fun h => absurd h (by decide)⟩, trivial⟩

theorem never_back_twoRequests :
    (Always (step lineConf) (NeverBack lineConf) (start lineConf 100) twoRequests ↔
        Steps (step lineConf) (Fresh lineConf) (start lineConf 100) twoRequests) ∧
      (Steps (step lineConf) (Kept lineConf) (start lineConf 100) twoRequests →
        Steps (step lineConf) (Fresh lineConf) (start lineConf 100) twoRequests) :=
  never_back_iff lineConf 100 twoRequests twoRequests_possible

/-- The cell of the node for its neighbour goes from epoch 7 back to epoch 5. -/
theorem goes_back : ¬ ∀ (c : Conf) (t : Nat) (as : List Action), Steps (step c) (Possible c) (start c t) as →
    Always (step c) (NeverBack c) (start c t) as := by
  intro h
  obtain ⟨n₁, n₂, h₁, h₂, hcell₁, hcell₂⟩ := twoRequests_steps
  obtain ⟨-, -, hlast⟩ := h lineConf 100 twoRequests twoRequests_possible
  have hsorted := hlast.nondecreasing
  rw [step_eq h₁, step_eq h₂] at hsorted
  have hback := (List.pairwise_cons.mp hsorted).1 (n₁.own lineConf) List.mem_cons_self 2 (by decide)
  rw [hcell₁, hcell₂] at hback
  exact hback (by decide)

end Watch

end Spire.Flood
