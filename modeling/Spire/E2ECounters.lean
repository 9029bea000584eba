import Spire.FlowSafety

/-!
# The counters of a flow and the destination's acknowledgement

`Reliable_Flood_Process_E2E` takes 64-bit numbers from a signed message: it counts `sow` up to the
`aru` of a cell, or sets it and the other counters to the number after the `aru`. For hop-by-hop
acknowledgements the last 64-bit number is replaced before it is used so; here it is not. A cell
with it that takes effect makes the counters start again at zero, or the loop go on for ever.

`finishes_iff` says that nothing else does. The loop over the cells may be cut short by a message
that is not there; where the flows have their windows it is not.
-/

namespace Spire.Flood

open Function (update)
open Lib

/-! ## One cell -/

/-- The window starts anew. -/
def Cell.Restarts (old new : Cell) : Prop := old.destEpoch < new.destEpoch ∨ old.srcEpoch < new.srcEpoch

/-- The cell changes the flow. -/
def Cell.TakesEffect (old new : Cell) : Prop := old.Restarts new ∨ old.aru < new.aru

instance (old new : Cell) : Decidable (old.TakesEffect new) := by
  unfold Cell.TakesEffect Cell.Restarts
  infer_instance

namespace Flow

variable {c : Conf} {f g : Flow} {old new : Cell} {lastHop : Nat}

/-- The counters that a cell leaves are those that numbers without a bound would have. -/
structure Exact (c : Conf) (old new : Cell) (f g : Flow) : Prop where
  restart : old.Restarts new → g.sow = new.aru + 1 ∧ g.headSeq = new.aru + 1 ∧
    ∀ k, c.Ngbr k → g.nextSeq k = new.aru + 1 ∧ g.flowSow k = new.aru + 1
  acknowledge : ¬old.Restarts new → old.aru < new.aru →
    g.sow = max f.sow (new.aru + 1) ∧ g.headSeq = max f.headSeq g.sow ∧
    ∀ k, c.Ngbr k → max (f.nextSeq k) g.sow ≤ g.nextSeq k ∧ g.flowSow k = max (f.flowSow k) (new.aru + 1)

/-- Blocking a flow leaves its counters alone, and has no loop to hang in. -/
theorem block_counters (c : Conf) (f : Flow) (lastHop : Nat) : f.block c lastHop ≠ .error .endless ∧
    ∀ g, f.block c lastHop = .ok g →
      g.sow = f.sow ∧ g.headSeq = f.headSeq ∧ g.nextSeq = f.nextSeq ∧ g.flowSow = f.flowSow := by
  unfold block enqueue nextMask
  dsimp only
  split
  · split
    · split
      · refine ⟨by simp [Except.map], fun g hg => ?_⟩
        cases hg
        dsimp only
        split <;> exact ⟨rfl, rfl, rfl, rfl⟩
      · exact ⟨by simp [Except.map], fun g hg => by cases hg⟩
    · refine ⟨by simp, fun g hg => ?_⟩
      cases hg
      exact ⟨rfl, rfl, rfl, rfl⟩
  · refine ⟨by simp, fun g hg => ?_⟩
    cases hg
    exact ⟨rfl, rfl, rfl, rfl⟩

theorem firstUnsent_self (f : Flow) (k : Nat) : f.firstUnsent k f.headSeq = f.headSeq := by
  unfold firstUnsent
  rw [Nat.sub_self]
  rfl

theorem clearRange_flowSow (c : Conf) (b : Bool) (n seq : Nat) (f : Flow) : (clearRange c b n seq f).flowSow = f.flowSow := by
  induction n generalizing seq f with
  | zero => rfl
  | succ n ih =>
    rw [clearRange, ih]
    split <;> rfl

/-- What a cell comes to, before the flow is blocked. -/
def applyCell (c : Conf) (f : Flow) (old new : Cell) : Except Fault Flow :=
  if old.destEpoch < new.destEpoch then .ok ((clearRange c false (f.headSeq - f.sow) f.sow f).restart c new)
  else if old.srcEpoch < new.srcEpoch then .ok (f.restart c new)
  else f.acknowledge c new

theorem onCell_of_takesEffect (h : old.TakesEffect new) :
    f.onCell c lastHop old new = f.applyCell c old new >>= fun f => f.block c lastHop := by
  unfold onCell applyCell
  split
  · rfl
  · rename_i hdest
    split
    · rfl
    · rename_i hsrc
      rw [if_pos (h.resolve_left (not_or.mpr ⟨hdest, hsrc⟩))]

theorem onCell_of_not_takesEffect (h : ¬old.TakesEffect new) : f.onCell c lastHop old new = .ok f := by
  obtain ⟨hrestarts, haru⟩ := not_or.mp h
  obtain ⟨hdest, hsrc⟩ := not_or.mp hrestarts
  rw [onCell, if_neg hdest, if_neg hsrc, if_neg haru]

theorem restart_counters (c : Conf) (f : Flow) (new : Cell) :
    (f.restart c new).sow = add64 new.aru 1 ∧ (f.restart c new).headSeq = add64 new.aru 1 ∧
      ∀ k, c.Ngbr k → (f.restart c new).nextSeq k = add64 new.aru 1 ∧ (f.restart c new).flowSow k = add64 new.aru 1 := by
  refine ⟨rfl, rfl, fun k hk => ⟨?_, ?_⟩⟩
  · unfold restart
    dsimp only
    rw [Conf.each_of_ngbr hk]
    exact firstUnsent_self { f with sow := add64 new.aru 1, headSeq := add64 new.aru 1 } k
  · unfold restart
    dsimp only
    rw [Conf.each_of_ngbr hk]

theorem acknowledge_counters (haru : new.aru < 2 ^ 64 - 1) (hnot : ¬old.Restarts new) :
    ∃ g, f.acknowledge c new = .ok g ∧ Exact c old new f g := by
  obtain ⟨-, hhead, hnext⟩ := clearRange_fields c true (new.aru + 1 - f.sow) f.sow f
  have hadd : add64 new.aru 1 = new.aru + 1 := Nat.mod_eq_of_lt (by omega)
  unfold acknowledge release
  rw [if_neg haru.ne]
  refine ⟨_, rfl, fun h => absurd h hnot, fun _ _ => ⟨rfl, ?_, fun k hk => ⟨?_, ?_⟩⟩⟩
  · show max (clearRange c true (new.aru + 1 - f.sow) f.sow f).headSeq (max f.sow (new.aru + 1)) = _
    rw [hhead]
    rfl
  · dsimp only
    rw [catchUp_nextSeq hk]
    dsimp only
    rw [hnext]
    exact le_firstUnsent
  · dsimp only
    rw [Conf.each_of_ngbr hk, hadd]
    show (if (clearRange c true (new.aru + 1 - f.sow) f.sow f).flowSow k ≤ new.aru then new.aru + 1
      else (clearRange c true (new.aru + 1 - f.sow) f.sow f).flowSow k) = _
    rw [clearRange_flowSow]
    split <;> omega

variable (c f old) in
/-- A cell whose `aru` is not the last number leaves the counters that it should. -/
theorem applyCell_exact (haru : new.aru < 2 ^ 64 - 1) :
    ∃ g, f.applyCell c old new = .ok g ∧ Exact c old new f g := by
  have hadd : add64 new.aru 1 = new.aru + 1 := Nat.mod_eq_of_lt (by omega)
  unfold applyCell
  split
  · rename_i hdest
    have hcounters := restart_counters c (clearRange c false (f.headSeq - f.sow) f.sow f) new
    rw [hadd] at hcounters
    exact ⟨_, rfl, fun _ => hcounters, fun hnot => absurd (.inl hdest) hnot⟩
  · rename_i hdest
    split
    · rename_i hsrc
      have hcounters := restart_counters c f new
      rw [hadd] at hcounters
      exact ⟨_, rfl, fun _ => hcounters, fun hnot => absurd (.inr hsrc) hnot⟩
    · rename_i hsrc
      exact acknowledge_counters haru (not_or.mpr ⟨hdest, hsrc⟩)

variable (c f old) in
/-- With the last number the loop does not end, or `sow` is zero. -/
theorem applyCell_last (haru : new.aru = 2 ^ 64 - 1) :
    f.applyCell c old new = .error .endless ∨ old.Restarts new ∧
      ∃ g, f.applyCell c old new = .ok g ∧ g.sow = 0 ∧ ∀ k, c.Ngbr k → g.nextSeq k = g.headSeq := by
  have hadd : add64 new.aru 1 = 0 := by rw [haru]; rfl
  have hnext : ∀ (g : Flow) k, c.Ngbr k → (g.restart c new).nextSeq k = (g.restart c new).headSeq := fun g k hk =>
    ((restart_counters c g new).2.2 k hk).1
  unfold applyCell
  split
  · rename_i hdest
    exact .inr ⟨.inl hdest, _, rfl, hadd, hnext _⟩
  · split
    · rename_i hsrc
      exact .inr ⟨.inr hsrc, _, rfl, hadd, hnext _⟩
    · left
      unfold acknowledge release
      rw [if_pos haru]
      rfl

/-- A flow with nothing to send is blocked without a look at a message. -/
theorem block_of_settled (lastHop : Nat) (h : ∀ k, c.Ngbr k → g.nextSeq k = g.headSeq) : ∃ g', g.block c lastHop = .ok g' := by
  unfold block
  dsimp only
  split
  · rename_i hk
    rw [enqueue, if_neg fun hq => absurd hq.2 (by dsimp only; rw [h lastHop hk]; exact lt_irrefl _)]
    exact ⟨_, rfl⟩
  · exact ⟨_, rfl⟩

theorem Exact.of_block {h : Flow} (hg : Exact c old new f g) (hblock : g.block c lastHop = .ok h) : Exact c old new f h := by
  obtain ⟨hsow, hhead, hnext, hflow⟩ := (block_counters c g lastHop).2 h hblock
  refine ⟨?_, ?_⟩
  · rw [hsow, hhead, hnext, hflow]
    exact hg.restart
  · rw [hsow, hhead, hnext, hflow]
    exact hg.acknowledge

/-- **One cell.** -/
theorem onCell_exact_iff (haru : new.aru < 2 ^ 64) :
    f.onCell c lastHop old new ≠ .error .endless ∧ (∀ g, f.onCell c lastHop old new = .ok g → Exact c old new f g) ↔
      (old.TakesEffect new → new.aru ≠ 2 ^ 64 - 1) := by
  by_cases htakes : old.TakesEffect new
  · rw [onCell_of_takesEffect htakes]
    constructor
    · rintro ⟨hends, hexact⟩ _ hlast
      rcases applyCell_last c f old hlast with hendless | ⟨hrestarts, g, hg, hzero, hsettled⟩
      · rw [hendless] at hends
        exact hends rfl
      · obtain ⟨h, hblock⟩ := block_of_settled lastHop hsettled
        rw [hg] at hexact
        have hsow := ((hexact h hblock).restart hrestarts).1
        rw [((block_counters c g lastHop).2 h hblock).1, hzero] at hsow
        omega
    · intro hlast
      obtain ⟨g, hg, hexact⟩ := applyCell_exact c f old (Nat.lt_of_le_of_ne (by omega) (hlast htakes))
      rw [hg]
      exact ⟨(block_counters c g lastHop).1, fun h hblock => hexact.of_block hblock⟩
  · rw [onCell_of_not_takesEffect htakes]
    refine iff_of_true ⟨by simp, fun g hg => ?_⟩ fun h => absurd h htakes
    obtain ⟨hrestarts, hsame⟩ := not_or.mp htakes
    exact ⟨fun h => absurd h hrestarts, fun _ h => absurd h hsame⟩

end Flow

/-! ## The whole message -/

namespace Node

variable {c : Conf} {n : Node} {new : E2E} {lastHop now : Nat}

/-- The state in which `Reliable_Flood_Process_E2E` comes to the loop over the cells, if it does. -/
def entersLoop (c : Conf) (n : Node) (new : E2E) (now : Nat) : Option Node :=
  if new.dest < 1 ∨ maxNodes < new.dest then none
  else if ¬ (n.e2e new.dest).Accepts new then none
  else
    let n := if n.Opens c new then n.answer c new now else n
    if n.Completes c new then
      if (new.cell c.myId).aru ≠ 0 then none
      else some { n with handshakeComplete := update n.handshakeComplete new.dest true }
    else some n

/-- A round of the loop. -/
def cellRound (c : Conf) (lastHop : Nat) (old new : E2E) (n : Node) (i : Nat) : Except Fault Node :=
  n.onFlow i new.dest fun f => f.onCell c lastHop (old.cell i) (new.cell i)

/-- The message is processed to an end, and each flow that the loop comes to has the counters that
numbers without a bound would have. -/
structure Finishes (c : Conf) (n : Node) (lastHop : Nat) (new : E2E) (now : Nat) : Prop where
  ends : n.processE2E c lastHop new now ≠ .error .endless
  exact : ∀ n', n.entersLoop c new now = some n' → Rounds (cellRound c lastHop (n'.e2e new.dest) new)
    (fun n i => ∀ g, (n.flow i new.dest).onCell c lastHop ((n'.e2e new.dest).cell i) (new.cell i) = .ok g →
      Flow.Exact c ((n'.e2e new.dest).cell i) (new.cell i) (n.flow i new.dest) g) n' nodes

theorem processE2E_eq (c : Conf) (n : Node) (lastHop : Nat) (new : E2E) (now : Nat) :
    (n.entersLoop c new now = none ∧ ∃ n', n.processE2E c lastHop new now = .ok n') ∨
      ∃ n', n.entersLoop c new now = some n' ∧ n.processE2E c lastHop new now = n'.apply c lastHop new := by
  unfold entersLoop processE2E
  split
  · exact .inl ⟨rfl, n, rfl⟩
  split
  · exact .inl ⟨rfl, n, rfl⟩
  dsimp only
  generalize (if n.Opens c new then n.answer c new now else n) = n
  split
  · split
    · exact .inl ⟨rfl, n, rfl⟩
    · exact .inr ⟨_, rfl, rfl⟩
  · exact .inr ⟨_, rfl, rfl⟩

theorem map_ne_error_iff {ε α β : Type} {x : Except ε α} {f : α → β} {e : ε} : x.map f ≠ .error e ↔ x ≠ .error e := by
  cases x <;> simp [Except.map]

/-- The loop ends where each of its rounds does. -/
theorem apply_ends_iff : n.apply c lastHop new ≠ .error .endless ↔
    Rounds (cellRound c lastHop (n.e2e new.dest) new)
      (fun n' i => (n'.flow i new.dest).onCell c lastHop ((n.e2e new.dest).cell i) (new.cell i) ≠ .error .endless)
      n nodes := by
  unfold apply
  dsimp only
  rw [map_ne_error_iff]
  refine Iff.trans foldlM_ne_error_iff (rounds_congr fun i _ n' => ?_)
  exact map_ne_error_iff

/-- The message is processed well exactly where no round that is reached has a cell with the last
number that takes effect. -/
theorem finishes_iff_rounds (haru : ∀ i, (new.cell i).aru < 2 ^ 64) : n.Finishes c lastHop new now ↔
    ∀ n', n.entersLoop c new now = some n' → Rounds (cellRound c lastHop (n'.e2e new.dest) new)
      (fun _ i => ((n'.e2e new.dest).cell i).TakesEffect (new.cell i) → (new.cell i).aru ≠ 2 ^ 64 - 1) n' nodes := by
  have hround : ∀ n' : Node, n'.apply c lastHop new ≠ .error .endless ∧
      Rounds (cellRound c lastHop (n'.e2e new.dest) new)
        (fun n i => ∀ g, (n.flow i new.dest).onCell c lastHop ((n'.e2e new.dest).cell i) (new.cell i) = .ok g →
          Flow.Exact c ((n'.e2e new.dest).cell i) (new.cell i) (n.flow i new.dest) g) n' nodes ↔
      Rounds (cellRound c lastHop (n'.e2e new.dest) new)
        (fun _ i => ((n'.e2e new.dest).cell i).TakesEffect (new.cell i) → (new.cell i).aru ≠ 2 ^ 64 - 1) n' nodes := by
    intro n'
    rw [apply_ends_iff, rounds_and]
    exact rounds_congr fun i _ m => Flow.onCell_exact_iff (haru i)
  rcases processE2E_eq c n lastHop new now with ⟨hnone, n', hok⟩ | ⟨n', hsome, happly⟩
  · rw [hnone]
    refine iff_of_true ⟨?_, ?_⟩ (by simp)
    · rw [hok]
      simp
    · rw [hnone]
      simp
  · constructor
    · intro h n'' hn''
      obtain rfl : n'' = n' := Option.some.inj (hn''.symm.trans hsome)
      exact (hround n'').mp ⟨happly ▸ h.ends, h.exact n'' hn''⟩
    · intro h
      refine ⟨?_, fun n'' hn'' => ((hround n'').mpr (h n'' hn'')).2⟩
      rw [happly]
      exact ((hround n').mpr (h n' hsome)).1

/-! ## Flows with their windows -/

variable {P : Nat → Nat → Nat → Prop}

theorem Kept.entersLoop {n' : Node} (h : n.Kept c P) (hn' : n.entersLoop c new now = some n') : n'.Kept c P := by
  obtain ⟨m, hm, hkept⟩ : ∃ m, m = (if n.Opens c new then n.answer c new now else n) ∧ m.Kept c P := by
    refine ⟨_, rfl, ?_⟩
    split
    · exact h.answer
    · exact h
  unfold Node.entersLoop at hn'
  dsimp only at hn'
  rw [← hm] at hn'
  split at hn'
  · cases hn'
  split at hn'
  · cases hn'
  split at hn'
  · split at hn'
    · cases hn'
    · cases hn'
      exact hkept
  · cases hn'
    exact hkept

theorem Kept.cellRound {old : E2E} {i : Nat} (h : n.Kept c P) (haru : (new.cell i).aru < 2 ^ 64)
    (hi : (old.cell i).TakesEffect (new.cell i) → (new.cell i).aru ≠ 2 ^ 64 - 1) :
    ∃ n', Node.cellRound c lastHop old new n i = .ok n' ∧ n'.Kept c P := by
  refine h.onFlow ?_
  by_cases htakes : (old.cell i).TakesEffect (new.cell i)
  · exact (h i new.dest).onCell (Nat.lt_of_le_of_ne (by omega) (hi htakes))
  · exact ⟨_, Flow.onCell_of_not_takesEffect htakes, h i new.dest⟩

theorem Kept.finishes_iff_cells (h : n.Kept c P) (haru : ∀ i, (new.cell i).aru < 2 ^ 64) : n.Finishes c lastHop new now ↔
    ∀ n', n.entersLoop c new now = some n' → ∀ i ∈ nodes,
      ((n'.e2e new.dest).cell i).TakesEffect (new.cell i) → (new.cell i).aru ≠ 2 ^ 64 - 1 := by
  rw [finishes_iff_rounds haru]
  refine forall₂_congr fun n' hn' => ?_
  exact rounds_iff_forall (I := Node.Kept c P) (fun i _ m hm hi => hm.cellRound (haru i) hi) (h.entersLoop hn')

/-- **When an end-to-end acknowledgement is processed well.** For every state and every message:
exactly when no round that the loop comes to has a cell with the last 64-bit number that takes
effect. Where the flows have their windows the loop comes to all rounds. -/
theorem finishes_iff (haru : ∀ i, (new.cell i).aru < 2 ^ 64) :
    (n.Finishes c lastHop new now ↔ ∀ n', n.entersLoop c new now = some n' →
      Rounds (Node.cellRound c lastHop (n'.e2e new.dest) new)
        (fun _ i => ((n'.e2e new.dest).cell i).TakesEffect (new.cell i) → (new.cell i).aru ≠ 2 ^ 64 - 1) n' nodes) ∧
    ∀ P, n.Kept c P → (n.Finishes c lastHop new now ↔ ∀ n', n.entersLoop c new now = some n' → ∀ i ∈ nodes,
      ((n'.e2e new.dest).cell i).TakesEffect (new.cell i) → (new.cell i).aru ≠ 2 ^ 64 - 1) :=
  ⟨finishes_iff_rounds haru, fun _ h => h.finishes_iff_cells haru⟩

/-- The destination has the messages of its source up to 2^31. -/
theorem finishes_farE2E : (Node.init farConf 100).Finishes farConf 1 farE2E 100 := by
  have hsmall : ∀ i, (farE2E.cell i).aru ≤ 2 ^ 31 := by
    intro i
    simp only [farE2E]
    split <;> decide
  refine ((finishes_iff fun i => (hsmall i).trans_lt (by decide)).2 _ (kept_init farConf 100)).mpr fun n' _ i _ _ => ?_
  have := hsmall i
  omega

/-- An acknowledgement that has the last number for one source. -/
def lastE2E : E2E := { dest := 3, cell := fun i => if i = 2 then ⟨0, 0, 2 ^ 64 - 1⟩ else ⟨0, 0, 0⟩ }

theorem lastE2E_aru (i : Nat) : (lastE2E.cell i).aru < 2 ^ 64 := by
  simp only [lastE2E]
  split <;> decide

theorem entersLoop_lastE2E : (Node.init farConf 100).entersLoop farConf lastE2E 100 = some (Node.init farConf 100) := by
  have haccepts : ((Node.init farConf 100).e2e lastE2E.dest).Accepts lastE2E := by decide +kernel
  have hopens : ¬(Node.init farConf 100).Opens farConf lastE2E := by decide
  have hcompletes : ¬(Node.init farConf 100).Completes farConf lastE2E := by decide
  unfold Node.entersLoop
  rw [if_neg (by decide), if_neg (not_not.mpr haccepts)]
  dsimp only
  rw [if_neg hopens, if_neg hcompletes]

/-- A destination may sign one that keeps the node busy for ever. -/
theorem lastE2E_not_finished : ¬ ∀ (c : Conf) (n : Node) (lastHop now : Nat) (new : E2E),
    (∀ i, (new.cell i).aru < 2 ^ 64) → n.Finishes c lastHop new now := by
  intro hall
  have hcells := ((kept_init farConf 100).finishes_iff_cells lastE2E_aru).mp
    (hall farConf (Node.init farConf 100) 1 100 lastE2E lastE2E_aru)
  exact hcells _ entersLoop_lastE2E 2 (by decide) (.inr (by decide)) rfl

end Node

end Spire.Flood
