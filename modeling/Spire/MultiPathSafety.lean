import Spire.MultiPath
import Spire.Lib.DisjointPaths

/-!
# The paths that are found

The labels of `rounds` are those of the library's passes over the edges that have capacity left:
no distance wraps (`relax_eq`), and there is no progress after as many rounds as the daemon allows
(`rounds_settled`). A distance below `USHRT_MAX` at the destination comes from the source, though
other nodes that the source does not reach may have one (`root_of_lt`). So every round pushes a
cheapest walk (`findPaths_spec`).
-/

namespace Spire.MultiPath

open Function (update)
open Lib.BellmanFord (Labels Settled Improves Feasible IsWalk Chain)
open Lib.UnitFlow (Step Open Optimal push)

/-- No cost that is used is negative. -/
structure Legal (c : Conf) (cost : Arc → Option Int) : Prop where
  through : ∀ id, cost (.through id) = some 0
  range : ∀ a ∈ c.arcs, ∀ x, cost a = some x → 0 ≤ x ∧ x ≤ 32767

/-- The edges that are not broken. -/
def usable (c : Conf) (cost : Arc → Option Int) : Finset Arc := c.arcs.toFinset.filter fun a => (cost a).isSome

def weight (cost : Arc → Option Int) (a : Arc) : Int := (cost a).getD 0

abbrev edgeCost (cost : Arc → Option Int) : FlowEdge → Int := Lib.UnitFlow.cost (weight cost)

/-- The flow of every edge says whether it is used. -/
def Agrees (flow : Flow) (used : Finset Arc) : Prop := ∀ e : FlowEdge, flow e = if e.arc ∈ used ↔ e.residual then 0 else 1

/-- The edges with capacity left. -/
def openEdges (c : Conf) (cost : Arc → Option Int) (used : Finset Arc) : List FlowEdge :=
  c.flowEdges.filter fun e => Open (usable c cost) used e

/-- A potential that no edge with capacity left breaks. -/
structure Potential (c : Conf) (cost : Arc → Option Int) (used : Finset Arc) (π : FlowNode → Int) : Prop where
  nonneg : ∀ v, 0 ≤ π v
  feasible : Feasible startNode endNode (edgeCost cost) (openEdges c cost used) π

variable {c : Conf} {cost : Arc → Option Int} {flow : Flow} {used : Finset Arc} {e : FlowEdge} {l : Labels FlowNode FlowEdge}
  {π : FlowNode → Int} {es : List FlowEdge} {b : Bool} {p k found dest : Nat}

/-- What the labels keep while the edges are relaxed. -/
abbrev LabelsInv (c : Conf) (cost : Arc → Option Int) (used : Finset Arc) (π : FlowNode → Int) (l : Labels FlowNode FlowEdge) : Prop :=
  Lib.BellmanFord.Inv startNode endNode (edgeCost cost) (openEdges c cost used) π
    (startLabels c).dist l

abbrev libRelax (cost : Arc → Option Int) : Labels FlowNode FlowEdge → FlowEdge → Labels FlowNode FlowEdge :=
  Lib.BellmanFord.relax startNode endNode (edgeCost cost)

abbrev libPass (cost : Arc → Option Int) : List FlowEdge → Labels FlowNode FlowEdge → Labels FlowNode FlowEdge :=
  Lib.BellmanFord.pass startNode endNode (edgeCost cost)

theorem mem_flowEdges : e ∈ c.flowEdges ↔ e.arc ∈ c.arcs := by
  obtain ⟨a, residual⟩ := e
  cases residual <;> simp [Conf.flowEdges]

theorem mem_usable {a : Arc} : a ∈ usable c cost ↔ a ∈ c.arcs ∧ ∃ x, cost a = some x := by
  simp [usable, Option.isSome_iff_exists]

theorem agrees_start : Agrees startFlow ∅ := by
  rintro ⟨a, residual⟩
  cases residual <;> simp [startFlow, capacity]

theorem lt_capacity_iff (h : Agrees flow used) : flow e < capacity ↔ (e.arc ∈ used ↔ e.residual) := by
  rw [h e, capacity]
  split <;> simp_all

theorem open_iff (h : Agrees flow used) (hsub : used ⊆ usable c cost) (he : e.arc ∈ c.arcs) :
    Open (usable c cost) used e ↔ flow e < capacity ∧ ∃ x, cost e.arc = some x := by
  rw [lt_capacity_iff h]
  obtain ⟨a, residual⟩ := e
  dsimp only at he ⊢
  have hused : a ∈ used → ∃ x, cost a = some x := fun ha => (mem_usable.mp (hsub ha)).2
  cases residual
  · simp only [Open, Bool.false_eq_true, ↓reduceIte, mem_usable, he, true_and, iff_false]
    exact and_comm
  · simp only [Open, ↓reduceIte, iff_true]
    exact ⟨fun ha => ⟨ha, hused ha⟩, And.left⟩

theorem int16_of_range {x : Int} (h : 0 ≤ x ∧ x ≤ 32767) : int16 (-x) = -x := by
  unfold int16
  omega

theorem flowCost_eq (hlegal : Legal c cost) (he : e.arc ∈ c.arcs) {x : Int} (hx : cost e.arc = some x) :
    flowCost cost e = some (edgeCost cost e) := by
  have hrange := hlegal.range _ he x hx
  unfold flowCost edgeCost Lib.UnitFlow.cost weight
  rw [hx]
  split <;> simp_all [int16_of_range]

/-- A label is lowered as in the library: no distance is out of range. -/
theorem relax_eq (hlegal : Legal c cost) (h : Agrees flow used) (hsub : used ⊆ usable c cost) (hpot : Potential c cost used π)
    (hinv : LabelsInv c cost used π l) (he : e ∈ c.flowEdges) : relax cost flow (l, b) e =
      if Open (usable c cost) used e ∧ Improves startNode endNode (edgeCost cost) l e then
        (libRelax cost l e, true)
      else (l, b) := by
  have harc := mem_flowEdges.mp he
  have hiff := open_iff h hsub harc
  unfold relax
  cases hx : cost e.arc with
  | none =>
    have hnot : ¬Open (usable c cost) used e := by simp [hiff, hx]
    simp [flowCost, hx, hnot]
  | some x =>
    rw [flowCost_eq hlegal harc hx]
    simp only [hx, Option.some.injEq, exists_eq', and_true] at hiff
    by_cases hboth : Open (usable c cost) used e ∧ Improves startNode endNode (edgeCost cost) l e
    · have hstep := hpot.feasible e (List.mem_filter.mpr ⟨he, by simpa using hboth.1⟩)
      have hlow := hinv.low (startNode e)
      have hhigh := hinv.high (endNode e)
      have hstart : (startLabels c).dist (endNode e) ≤ 65535 := by
        unfold startLabels
        dsimp only
        split <;> omega
      have hpos := hpot.nonneg (endNode e)
      have himp := hboth.2
      unfold Improves at himp
      have hrange : (l.dist (startNode e) + edgeCost cost e) % 65536 = l.dist (startNode e) + edgeCost cost e := by
        refine Int.emod_eq_of_lt ?_ ?_ <;> omega
      rw [if_pos hboth, libRelax, Lib.BellmanFord.relax, if_pos hboth.2]
      dsimp only
      rw [if_pos ⟨hiff.mp hboth.1, himp⟩, hrange]
    · rw [if_neg hboth]
      dsimp only
      rw [if_neg fun h => hboth ⟨hiff.mpr h.1, h.2⟩]

/-- The edges, one after the other, and whether there was progress. -/
theorem fold_relax (hlegal : Legal c cost) (h : Agrees flow used) (hsub : used ⊆ usable c cost) (hpot : Potential c cost used π)
    (hinv : LabelsInv c cost used π l) (hes : ∀ e ∈ es, e ∈ c.flowEdges) :
    ∃ b', es.foldl (relax cost flow) (l, b) = (libPass cost (es.filter fun e => Open (usable c cost) used e) l, b') ∧
      (b' = false ↔ b = false ∧ Settled startNode endNode (edgeCost cost) (es.filter fun e => Open (usable c cost) used e) l) ∧
      (b = false → b' = false → libPass cost (es.filter fun e => Open (usable c cost) used e) l = l) := by
  induction es generalizing l b with
  | nil => exact ⟨b, rfl, by simp [Settled], fun _ _ => rfl⟩
  | cons e es ih =>
    obtain ⟨he, hes⟩ := List.forall_mem_cons.mp hes
    rw [List.foldl_cons, relax_eq hlegal h hsub hpot hinv he]
    by_cases hopen : Open (usable c cost) used e
    swap
    · rw [if_neg fun hboth => hopen hboth.1, List.filter_cons_of_neg (by simpa using hopen)]
      exact ih hinv hes
    have hmem : e ∈ openEdges c cost used := List.mem_filter.mpr ⟨he, by simpa using hopen⟩
    rw [List.filter_cons_of_pos (by simpa using hopen)]
    by_cases himp : Improves startNode endNode (edgeCost cost) l e
    · rw [if_pos ⟨hopen, himp⟩]
      obtain ⟨b', heq, hiff, -⟩ := ih (b := true) (hinv.relax hpot.feasible hmem) hes
      have hb' : b' = true := by simpa using hiff
      refine ⟨b', heq, ?_, fun _ hb => ?_⟩
      · rw [hb']
        refine ⟨fun hb => (nomatch hb), fun hboth => ?_⟩
        exact absurd himp (hboth.2 e List.mem_cons_self)
      · rw [hb'] at hb
        cases hb
    · rw [if_neg fun hboth => himp hboth.2]
      have hstay : libRelax cost l e = l := if_neg himp
      obtain ⟨b', heq, hiff, hsame⟩ := ih (b := b) hinv hes
      have hpass : libPass cost (e :: es.filter fun e => Open (usable c cost) used e) l =
          libPass cost (es.filter fun e => Open (usable c cost) used e) l := by
        show libPass cost _ (libRelax cost l e) = _
        rw [hstay]
      refine ⟨b', by rw [heq, hpass], ?_, by rwa [hpass]⟩
      rw [hiff]
      unfold Settled
      rw [List.forall_mem_cons]
      exact and_congr_right fun _ => (and_iff_right himp).symm

/-- There is no progress any more when the library's passes are done. -/
theorem rounds_some (hlegal : Legal c cost) (h : Agrees flow used) (hsub : used ⊆ usable c cost) (hpot : Potential c cost used π)
    (hinv : LabelsInv c cost used π l) {n : Nat}
    (hsettled : Settled startNode endNode (edgeCost cost) (openEdges c cost used) ((libPass cost (openEdges c cost used))^[n] l)) :
    ∃ l', rounds c cost flow (n + 1) l = some l' ∧ LabelsInv c cost used π l' ∧
      Settled startNode endNode (edgeCost cost) (openEdges c cost used) l' := by
  induction n generalizing l with
  | zero =>
    obtain ⟨b', heq, hiff, hsame⟩ := fold_relax (b := false) hlegal h hsub hpot hinv fun e he => he
    obtain rfl := hiff.mpr ⟨rfl, hsettled⟩
    refine ⟨l, ?_, hinv, hsettled⟩
    rw [rounds, heq, hsame rfl rfl]
  | succ n ih =>
    obtain ⟨b', heq, hiff, hsame⟩ := fold_relax (b := false) hlegal h hsub hpot hinv fun e he => he
    rw [rounds, heq]
    cases b' with
    | false =>
      rw [hsame rfl rfl]
      exact ⟨l, rfl, hinv, (hiff.mp rfl).2⟩
    | true => exact ih (hinv.pass hpot.feasible) hsettled

/-! ## A round that finds a path -/

/-- All flow nodes. -/
def flowNodes (c : Conf) : Finset FlowNode := c.nodes.toFinset.image .inbound ∪ c.nodes.toFinset.image .outbound

theorem card_flowNodes_le (c : Conf) : (flowNodes c).card ≤ 2 * c.nodes.length := by
  have hin := (Finset.card_image_le (s := c.nodes.toFinset) (f := FlowNode.inbound)).trans c.nodes.toFinset_card_le
  have hout := (Finset.card_image_le (s := c.nodes.toFinset) (f := FlowNode.outbound)).trans c.nodes.toFinset_card_le
  have := Finset.card_union_le (c.nodes.toFinset.image FlowNode.inbound) (c.nodes.toFinset.image .outbound)
  unfold flowNodes
  omega

/-- A link is there along an edge, and where edges have no direction along one the other way round. -/
theorem link_mem_arcs {s d : Nat} : .link s d ∈ c.arcs ↔ (s, d) ∈ c.edges ∨ ¬c.directed ∧ (d, s) ∈ c.edges := by
  simp only [Conf.arcs, Conf.linkArcs, List.mem_append, List.mem_map, reduceCtorEq, and_false, exists_false, List.mem_flatMap,
    false_or]
  constructor
  · rintro ⟨⟨a, b⟩, he, hmem⟩
    split at hmem
    · obtain ⟨rfl, rfl⟩ := Arc.link.inj (List.mem_singleton.mp hmem)
      exact .inl he
    · rename_i hdir
      simp only [List.mem_cons, Arc.link.injEq, List.not_mem_nil, or_false] at hmem
      rcases hmem with ⟨rfl, rfl⟩ | ⟨rfl, rfl⟩
      · exact .inl he
      · exact .inr ⟨hdir, he⟩
  · rintro (he | ⟨hdir, he⟩)
    · exact ⟨_, he, by split <;> simp⟩
    · exact ⟨_, he, by simp [hdir]⟩

theorem mem_arcs_link {s d : Nat} (h : .link s d ∈ c.arcs) : s ∈ c.nodes ∧ d ∈ c.nodes ∧ s ≠ d := by
  rcases link_mem_arcs.mp h with he | ⟨-, he⟩
  · exact c.ends _ he
  · obtain ⟨hd, hs, hne⟩ := c.ends _ he
    exact ⟨hs, hd, hne.symm⟩

theorem mem_arcs_through {i : Nat} : .through i ∈ c.arcs ↔ i ∈ c.nodes := by
  simp only [Conf.arcs, Conf.linkArcs, List.mem_append, List.mem_map, Arc.through.injEq, exists_eq_right, List.mem_flatMap]
  refine or_iff_left fun ⟨e, _, hmem⟩ => ?_
  split at hmem <;> simp at hmem

theorem ends_mem {a : Arc} (ha : a ∈ c.arcs) : a.tail ∈ flowNodes c ∧ a.head ∈ flowNodes c := by
  unfold flowNodes
  cases a with
  | through i =>
    have := mem_arcs_through.mp ha
    simp [Arc.tail, Arc.head, this]
  | link s d =>
    obtain ⟨hs, hd, -⟩ := mem_arcs_link ha
    simp [Arc.tail, Arc.head, hs, hd]

theorem openEdges_ends : ∀ e ∈ openEdges c cost used, startNode e ∈ flowNodes c ∧ endNode e ∈ flowNodes c := by
  intro e he
  have harc := ends_mem (mem_flowEdges.mp (List.mem_filter.mp he).1)
  unfold startNode endNode Lib.UnitFlow.start Lib.UnitFlow.stop
  split
  · exact harc.symm
  · exact harc

theorem mem_openEdges (hsub : used ⊆ usable c cost) : e ∈ openEdges c cost used ↔ Open (usable c cost) used e := by
  unfold openEdges
  rw [List.mem_filter, mem_flowEdges, decide_eq_true_iff]
  refine and_iff_right_of_imp fun h => ?_
  unfold Open at h
  split at h
  · exact (mem_usable.mp (hsub h)).1
  · exact (mem_usable.mp h.1).1

/-- A flow of least cost from this node to the destination. -/
abbrev LeastCost (c : Conf) (cost : Arc → Option Int) (dest : Nat) (used : Finset Arc) (p : Nat) : Prop :=
  Optimal Arc.tail Arc.head (weight cost) (usable c cost) (.outbound c.myId) (.inbound dest) 65535 used p

theorem startLabels_self : (startLabels c).dist (.outbound c.myId) = 0 := if_pos rfl

theorem startLabels_of_ne {v : FlowNode} (h : v ≠ .outbound c.myId) : (startLabels c).dist v = 65535 := if_neg h

/-- **The rounds end, with nothing left to lower.** -/
theorem rounds_settled (hlegal : Legal c cost) (h : Agrees flow used) (hbest : LeastCost c cost dest used p) :
    ∃ l π, rounds c cost flow (c.nodes.length * 2 + 1) (startLabels c) = some l ∧ Potential c cost used π ∧
      LabelsInv c cost used π l ∧ π (.outbound c.myId) = 0 ∧ Settled startNode endNode (edgeCost cost) (openEdges c cost used) l := by
  obtain ⟨π, hπs, hπ, hfeas⟩ := hbest.out
  have hpot : Potential c cost used π := ⟨fun v => (hπ v).1, fun e he => hfeas e ((mem_openEdges hbest.sub).mp he)⟩
  have hle : ∀ v, π v ≤ (startLabels c).dist v := by
    intro v
    by_cases hv : v = .outbound c.myId
    · rw [hv, hπs, startLabels_self]
    · rw [startLabels_of_ne hv]
      exact (hπ v).2
  have hsettled := Lib.BellmanFord.settled_of_passes (n := c.nodes.length * 2) hpot.feasible openEdges_ends hle
    (by have := card_flowNodes_le c; omega)
  obtain ⟨l, hl, hinv, hset⟩ := rounds_some hlegal h hbest.sub hpot (Lib.BellmanFord.inv_start hle) hsettled
  exact ⟨l, π, hl, hpot, hinv, hπs, hset⟩

/-- A distance of the destination below the highest is one from the source. -/
theorem root_of_lt (hbest : LeastCost c cost dest used p) (hinv : LabelsInv c cost used π l) {r : FlowNode} {w : List FlowEdge}
    (hc : Chain startNode l.prev r (.inbound dest) w) (hlt : l.dist (.inbound dest) < 65535) : r = .outbound c.myId := by
  by_contra hne
  obtain ⟨ψ, hψt, hψ, hback⟩ := hbest.back
  obtain ⟨hwalk, hcost⟩ := hinv.walk_of_chain hc
  have hup : Feasible startNode endNode (edgeCost cost) (openEdges c cost used) fun v => -ψ v := by
    intro e he
    have := hback e ((mem_openEdges hbest.sub).mp he)
    dsimp only [startNode, endNode, edgeCost]
    omega
  have := hup.walk hwalk
  have := hψ r
  rw [startLabels_of_ne hne] at hcost
  omega

/-- The bag has the edges that are used. -/
structure Holds (bag : List Arc) (used : Finset Arc) : Prop where
  nodup : bag.Nodup
  mem : ∀ a, a ∈ bag ↔ a ∈ used

theorem agrees_push (h : Agrees flow used) : Agrees (update (update flow e capacity) e.twin 0) (push used e) := by
  rintro ⟨a, residual⟩
  obtain ⟨a', residual'⟩ := e
  by_cases ha : a = a'
  · subst ha
    cases residual <;> cases residual' <;> simp [Step.twin, push, update, capacity]
  · have := h ⟨a, residual⟩
    cases residual' <;> simp_all [Step.twin, push, update]

theorem putInBag_push {bag : List Arc} (hbag : Holds bag used) (hopen : Open (usable c cost) used e) :
    ∃ bag', putInBag bag e = .ok bag' ∧ Holds bag' (push used e) := by
  obtain ⟨a, residual⟩ := e
  unfold Open at hopen
  cases residual
  · have hnot : a ∉ used := hopen.2
    refine ⟨a :: bag, rfl, List.nodup_cons.mpr ⟨fun ha => hnot ((hbag.mem a).mp ha), hbag.nodup⟩, fun a' => ?_⟩
    simp [push, hbag.mem]
  · have hin : a ∈ bag := (hbag.mem a).mpr hopen
    refine ⟨bag.erase a, by simp [putInBag, hin], hbag.nodup.erase a, fun a' => ?_⟩
    rw [hbag.nodup.mem_erase_iff, hbag.mem]
    simp [push]

/-- Going back along a chain to the source pushes it. -/
theorem augment_chain {prev : FlowNode → Option FlowEdge} {v : FlowNode} {w : List FlowEdge} {n : Nat} {bag : List Arc}
    (hc : Chain startNode prev (.outbound c.myId) v w) (hopen : ∀ e ∈ w, Open (usable c cost) used e) (harcs : (w.map Step.arc).Nodup)
    (hn : w.length < n) (h : Agrees flow used) (hbag : Holds bag used) :
    ∃ flow' bag', augment c prev n v flow bag = .ok (flow', bag') ∧ Agrees flow' (w.foldl push used) ∧ Holds bag' (w.foldl push used) := by
  induction hc generalizing used flow bag n with
  | root hr =>
    obtain ⟨n, rfl⟩ := Nat.exists_eq_add_of_lt hn
    exact ⟨flow, bag, by simp [augment], h, hbag⟩
  | @step v e w he hw ih =>
    obtain ⟨n, rfl⟩ : ∃ m, n = m + 1 := ⟨n - 1, by omega⟩
    have hne : v ≠ .outbound c.myId := by
      rintro rfl
      -- the chain would come back to where it ends
      have hnodup := (Chain.step he hw).nodup
      have hroot : FlowNode.outbound c.myId ∈ (e :: w).map startNode := by
        clear ih hnodup hopen harcs hn
        generalize he' : startNode e = u at hw
        rw [List.map_cons, he']
        clear he he'
        induction hw with
        | root => exact List.mem_cons_self
        | step _ _ ih => exact List.mem_cons_of_mem _ ih
      exact (List.nodup_cons.mp hnodup).1 hroot
    rw [List.map_cons, List.nodup_cons] at harcs
    obtain ⟨bag', hput, hbag'⟩ := putInBag_push hbag (hopen e List.mem_cons_self)
    have hrest : ∀ e' ∈ w, Open (usable c cost) (push used e) e' := fun e' he' =>
      Lib.UnitFlow.open_push_of_ne (hopen e' (List.mem_cons_of_mem _ he')) fun heq => harcs.1 (heq ▸ List.mem_map_of_mem he')
    obtain ⟨flow'', bag'', heq, hagrees, hholds⟩ := ih (n := n) hrest harcs.2 (by rw [List.length_cons] at hn; omega) (agrees_push h) hbag'
    refine ⟨flow'', bag'', ?_, hagrees, hholds⟩
    rw [augment, if_neg hne, he]
    dsimp only
    rw [hput]
    exact heq

/-- What is left when no path was found: distances that no open edge shortens, from the source. -/
def Stuck (c : Conf) (cost : Arc → Option Int) (dest : Nat) (used : Finset Arc) : Prop :=
  ∃ d : FlowNode → Int, Feasible startNode endNode (edgeCost cost) (openEdges c cost used) d ∧ d (.outbound c.myId) = 0 ∧
    d (.inbound dest) = 65535

/-- **Every round pushes a cheapest walk or finds none.** -/
theorem findPaths_spec (hlegal : Legal c cost) (hdest : dest ∈ c.nodes) {bag : List Arc} (h : Agrees flow used) (hbag : Holds bag used)
    (hbest : LeastCost c cost dest used found) :
    ∃ p bag' used', findPaths c cost dest k found flow bag = .ok (p, bag') ∧ Holds bag' used' ∧ LeastCost c cost dest used' p ∧
      p ≤ found + k ∧ (p < found + k → Stuck c cost dest used') := by
  induction k generalizing found flow used bag with
  | zero => exact ⟨found, bag, used, rfl, hbag, hbest, le_refl _, fun hlt => absurd hlt (lt_irrefl _)⟩
  | succ k ih =>
    obtain ⟨l, π, hl, hpot, hinv, hπs, hset⟩ := rounds_settled hlegal h hbest
    have hself : l.dist (.outbound c.myId) = 0 := by
      have hlow := hinv.low (.outbound c.myId)
      have hhigh := hinv.high (.outbound c.myId)
      rw [startLabels_self] at hhigh
      omega
    have hrange : ∀ v, 0 ≤ l.dist v ∧ l.dist v ≤ 65535 := by
      intro v
      have hlow := hinv.low v
      have hhigh := hinv.high v
      have hpos := hpot.nonneg v
      have hstart : (startLabels c).dist v ≤ 65535 := by
        unfold startLabels
        dsimp only
        split <;> omega
      omega
    unfold findPaths
    rw [hl]
    dsimp only
    by_cases hfar : l.dist (.inbound dest) = 65535
    · rw [if_pos hfar]
      exact ⟨found, bag, used, rfl, hbag, hbest, by omega, fun _ => ⟨l.dist, hset.feasible, hself, hfar⟩⟩
    rw [if_neg hfar]
    obtain ⟨r, w, hc⟩ := hinv.rooted (.inbound dest)
    obtain rfl := root_of_lt hbest hinv hc (by have := (hrange (.inbound dest)).2; omega)
    have hwalk := (hinv.walk_of_chain hc).1
    have hopen : ∀ e ∈ w, Open (usable c cost) used e := fun e he =>
      (mem_openEdges hbest.sub).mp (Lib.BellmanFord.walk_steps hwalk e he)
    have hnext := hbest.augment hself hrange (fun e he => hset.feasible e ((mem_openEdges hbest.sub).mpr he)) hwalk hopen
      (hinv.tight_chain hset hc) hc.nodup
    have hlen := Lib.BellmanFord.length_lt_of_simple openEdges_ends (by simp [flowNodes, hdest]) hwalk hc.nodup
    obtain ⟨flow', bag', haug, hagrees, hholds⟩ := augment_chain (n := c.nodes.length * 2 + 1) hc hopen
      (Lib.UnitFlow.nodup_arcs hopen (List.nodup_cons.mp hc.nodup).2) (by have := card_flowNodes_le c; omega) h hbag
    rw [haug]
    obtain ⟨p, bag'', used'', heq, hbag'', hbest'', hle, hstuck⟩ := ih hagrees hholds hnext
    exact ⟨p, bag'', used'', heq, hbag'', hbest'', by omega, fun hlt => hstuck (by omega)⟩

end Spire.MultiPath
