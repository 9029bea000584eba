import Spire.NodeDisjoint

/-!
# The masks of disjoint paths

What `MultiPath_Compute` stamps on the mask has as many paths as it returns, and no other paths of
that number cost less (`compute_paths`). When it returns fewer than asked for there are no more
(`compute_most`). Both need costs that do not become negative: a daemon that is near enough to a
link with the least cost of the type `int16` finds a negative cycle and exits (`compute_exits`).
-/

namespace Spire.MultiPath

open Lib (DisjointPaths)
open Lib.UnitFlow (Open)

variable {c : Conf} {w : Costs} {cost : Arc → Option Int} {used : Finset Arc} {useBaseCost requireReverse : Bool}
  {dest k p u v x y mask : Nat} {path : List Nat} {paths : List (List Nat)}

/-- A link of the overlay that is not broken. -/
def Passable (c : Conf) (w : Costs) (useBaseCost requireReverse : Bool) (u v : Nat) : Prop :=
  .link u v ∈ c.arcs ∧ (linkCost w useBaseCost requireReverse u v).isSome

/-- What the hops of a path cost, from its first node to its last. -/
def lineCost (w : Costs) (useBaseCost requireReverse : Bool) (path : List Nat) : Int :=
  ((path.zip path.tail).map fun e => (linkCost w useBaseCost requireReverse e.1 e.2).getD 0).sum

/-- What some paths cost that are given by the nodes between their ends. -/
def totalCost (c : Conf) (w : Costs) (useBaseCost requireReverse : Bool) (dest : Nat) (paths : List (List Nat)) : Int :=
  (paths.map fun path => lineCost w useBaseCost requireReverse (c.myId :: path ++ [dest])).sum

/-- Costs that do not become negative: no base cost is, and no announced one is the least of its type. -/
def Usual (c : Conf) (w : Costs) (useBaseCost : Bool) : Prop :=
  ∀ s d, .link s d ∈ c.arcs → if useBaseCost then 0 ≤ w.baseCost s d else w.cost s d ≠ -32768

theorem link_symm (h : .link u v ∈ c.arcs) : .link v u ∈ c.arcs := by
  rw [link_mem_arcs] at h ⊢
  rcases h with he | ⟨hdir, he⟩
  · have hkeys := c.keys _ he
    split at hkeys
    · exact .inl hkeys
    · rename_i hdir
      exact .inr ⟨hdir, he⟩
  · exact .inl he

theorem key_mem (h : .link u v ∈ c.arcs) : c.key u v ∈ c.edges := by
  unfold Conf.key
  rcases link_mem_arcs.mp h with he | ⟨hdir, he⟩
  · rw [if_neg]
    · exact he
    · rintro ⟨hdir, hlt⟩
      have hkeys := c.keys _ he
      rw [if_neg hdir] at hkeys
      exact absurd hlt hkeys.asymm
  · have hkeys := c.keys _ he
    rw [if_neg hdir] at hkeys
    rwa [if_pos ⟨hdir, hkeys⟩]

theorem int16_abs {x : Int} (h : -32768 ≤ x ∧ x ≤ 32767) (hne : x ≠ -32768) : 0 ≤ int16 |x| ∧ int16 |x| ≤ 32767 := by
  unfold int16
  rcases abs_cases x with ⟨hx, _⟩ | ⟨hx, _⟩ <;> rw [hx] <;> omega

theorem legal_arcCost (h : Usual c w useBaseCost) : Legal c (arcCost w useBaseCost requireReverse) where
  through _ := rfl
  range a ha x hx := by
    cases a with
    | through i =>
      obtain rfl := Option.some_inj.mp hx
      decide
    | link u v =>
      have h₁ := h u v ha
      have h₂ := h v u (link_symm ha)
      have hx : linkCost w useBaseCost requireReverse u v = some x := hx
      unfold linkCost at hx
      cases useBaseCost
      · rw [if_neg Bool.false_ne_true] at hx h₁ h₂
        have hu := int16_abs (w.cost_int16 u v) h₁
        have hv := int16_abs (w.cost_int16 v u) h₂
        split at hx
        · cases hx
        · obtain rfl := Option.some_inj.mp hx
          split <;> omega
      · rw [if_pos rfl] at hx h₁ h₂
        have hu := w.baseCost_int16 u v
        have hv := w.baseCost_int16 v u
        obtain rfl := Option.some_inj.mp hx
        split <;> omega

theorem passable_iff : Passable c w useBaseCost requireReverse u v ↔ .link u v ∈ usable c (arcCost w useBaseCost requireReverse) := by
  rw [mem_usable, Passable, Option.isSome_iff_exists]
  rfl

theorem testBit_mask {bag : List Arc} {i : Nat} :
    (bag.foldl (setBit c) mask).testBit i ↔ mask.testBit i ∨ ∃ s d, .link s d ∈ bag ∧ c.index s d = i := by
  induction bag generalizing mask with
  | nil => simp
  | cons a bag ih =>
    rw [List.foldl_cons, ih]
    cases a with
    | through j => simp [setBit]
    | link s d =>
      simp only [setBit, Nat.testBit_or, Nat.testBit_two_pow, Bool.or_eq_true, decide_eq_true_eq, List.mem_cons, Arc.link.injEq]
      rw [or_assoc]
      refine or_congr_right ⟨?_, ?_⟩
      · rintro (heq | ⟨s', d', hmem, heq⟩)
        · exact ⟨s, d, .inl ⟨rfl, rfl⟩, heq⟩
        · exact ⟨s', d', .inr hmem, heq⟩
      · rintro ⟨s', d', ⟨rfl, rfl⟩ | hmem, heq⟩
        · exact .inl heq
        · exact .inr ⟨s', d', hmem, heq⟩

theorem pathArcs_cost : ((pathArcs dest x path).map (weight (arcCost w useBaseCost requireReverse))).sum =
    lineCost w useBaseCost requireReverse (x :: path ++ [dest]) := by
  induction path generalizing x with
  | nil => rfl
  | cons y path ih =>
    rw [pathArcs, List.map_cons, List.map_cons, List.sum_cons, List.sum_cons, ih]
    show _ + (0 + lineCost w useBaseCost requireReverse (y :: path ++ [dest])) = _
    rw [zero_add]
    rfl

theorem familyArcs_cost {R : Nat → Nat → Prop} (h : DisjointPaths R c.myId dest paths) :
    ∑ a ∈ (familyArcs c dest paths).toFinset, weight (arcCost w useBaseCost requireReverse) a =
      totalCost c w useBaseCost requireReverse dest paths := by
  rw [List.sum_toFinset _ (familyArcs_nodup h), familyArcs, totalCost]
  clear h
  induction paths with
  | nil => rfl
  | cons q paths ih => rw [List.flatMap_cons, List.map_append, List.sum_append, pathArcs_cost, ih, List.map_cons, List.sum_cons]

/-- The edges of the paths of a flow are edges of the flow. -/
theorem familyArcs_used (h : LeastCost c cost dest used p) (hpaths : DisjointPaths (fun u v => .link u v ∈ used) c.myId dest paths) :
    (familyArcs c dest paths).toFinset ⊆ used := by
  intro a ha
  obtain ⟨q, hq, ha⟩ := List.mem_flatMap.mp (List.mem_toFinset.mp ha)
  have hdest : dest ∉ q := by
    have := hpaths.simple q hq
    rw [List.cons_append, List.nodup_cons, List.nodup_append] at this
    exact fun hd => this.2.2.2 dest hd dest (List.mem_singleton_self _) rfl
  have hchain := hpaths.chain q hq
  generalize c.myId = x at ha hchain
  clear hq
  induction q generalizing x with
  | nil =>
    obtain rfl := List.mem_singleton.mp ha
    simpa using hchain
  | cons y q ih =>
    rw [List.cons_append, List.cons_append, List.isChain_cons_cons] at hchain
    rcases List.mem_cons.mp ha with rfl | ha
    · exact hchain.1
    rcases List.mem_cons.mp ha with rfl | ha
    · -- the node is entered, so the flow goes through it
      have hone := throughCount_pos h (mem_usedLinks.mpr hchain.1) fun heq => hdest (heq ▸ List.mem_cons_self)
      obtain ⟨b, hb⟩ := Finset.card_pos.mp (hone.symm ▸ Nat.one_pos : 0 < throughCount used y)
      obtain ⟨hused, rfl⟩ := Finset.mem_filter.mp hb
      exact hused
    · exact ih (fun hd => hdest (List.mem_cons_of_mem _ hd)) y ha hchain.2

theorem weight_nonneg (hlegal : Legal c cost) {a : Arc} (ha : a ∈ usable c cost) : 0 ≤ weight cost a := by
  obtain ⟨harc, x, hx⟩ := mem_usable.mp ha
  rw [weight, hx]
  exact (hlegal.range a harc x hx).1

theorem leastCost_empty (hlegal : Legal c cost) : LeastCost c cost dest ∅ 0 :=
  Lib.UnitFlow.optimal_empty (fun _ ha => weight_nonneg hlegal ha) (by decide)

theorem mem_nodes_of_compute (hne : dest ≠ c.myId) (h : compute c w dest k useBaseCost requireReverse = .ok (p, mask)) : dest ∈ c.nodes := by
  by_contra hnot
  rw [compute, if_neg hne, if_pos hnot] at h
  cases h

/-- What is computed for a destination that is another node. -/
theorem compute_spec (requireReverse : Bool) (k : Nat) (hw : Usual c w useBaseCost) (hdest : dest ∈ c.nodes) (hne : dest ≠ c.myId) :
    ∃ p bag used, compute c w dest k useBaseCost requireReverse = .ok (p, bag.foldl (setBit c) 0) ∧ Holds bag used ∧
      LeastCost c (arcCost w useBaseCost requireReverse) dest used p ∧ p ≤ k ∧
      (p < k → Stuck c (arcCost w useBaseCost requireReverse) dest used) := by
  have hlegal : Legal c (arcCost w useBaseCost requireReverse) := legal_arcCost hw
  have hstart : LeastCost c (arcCost w useBaseCost requireReverse) dest ∅ 0 := leastCost_empty hlegal
  obtain ⟨p, bag, used, hfind, hbag, hbest, hle, hstuck⟩ := findPaths_spec (k := k) hlegal hdest agrees_start ⟨List.nodup_nil, by simp⟩ hstart
  rw [Nat.zero_add] at hle hstuck
  refine ⟨p, bag, used, ?_, hbag, hbest, hle, hstuck⟩
  rw [compute, if_neg hne, if_neg (by simpa using hdest), hfind]
  rfl

/-- The links of the paths are stamped on the mask. -/
theorem stamped_paths {bag : List Arc} (hbag : Holds bag used) (hsub : used ⊆ usable c (arcCost w useBaseCost requireReverse))
    (h : DisjointPaths (fun u v => .link u v ∈ used) c.myId dest paths) :
    DisjointPaths (fun u v => Passable c w useBaseCost requireReverse u v ∧ (bag.foldl (setBit c) 0).testBit (c.index u v))
      c.myId dest paths :=
  h.mono fun u v hused => ⟨passable_iff.mpr (hsub hused), testBit_mask.mpr (.inr ⟨u, v, (hbag.mem _).mpr hused, rfl⟩)⟩

variable (c w) in
/-- **As many paths as are returned are stamped on the mask**, they share no node between the ends, and no
other paths of their number cost less. -/
theorem compute_paths (hw : Usual c w useBaseCost) (hdest : dest ∈ c.nodes) (hne : dest ≠ c.myId) :
    ∃ p mask paths, compute c w dest k useBaseCost requireReverse = .ok (p, mask) ∧ p ≤ k ∧ paths.length = p ∧
      DisjointPaths (fun u v => Passable c w useBaseCost requireReverse u v ∧ mask.testBit (c.index u v)) c.myId dest paths ∧
      ∀ others, DisjointPaths (Passable c w useBaseCost requireReverse) c.myId dest others → others.length = p →
        totalCost c w useBaseCost requireReverse dest paths ≤ totalCost c w useBaseCost requireReverse dest others := by
  have hlegal : Legal c (arcCost w useBaseCost requireReverse) := legal_arcCost hw
  obtain ⟨p, bag, used, hcompute, hbag, hbest, hle, -⟩ := compute_spec requireReverse k hw hdest hne
  obtain ⟨paths, hpaths, hlen⟩ := LeastCost.exists_paths hbest hne
  refine ⟨p, _, paths, hcompute, hle, hlen, stamped_paths hbag hbest.sub hpaths, fun others hothers hsame => ?_⟩
  have hothers' := hothers.mono fun u v => passable_iff.mp
  rw [← familyArcs_cost hpaths, ← familyArcs_cost hothers']
  refine (Finset.sum_le_sum_of_subset_of_nonneg (familyArcs_used hbest hpaths) fun a ha _ => ?_).trans
    (hbest.cost_le (familyArcs_usable hlegal hothers') fun node => ?_)
  · exact weight_nonneg hlegal (hbest.sub ha)
  · rw [familyArcs_balance hothers', hsame]

/-- Four nodes in a circle. -/
def circle : Conf where
  nodes := [1, 2, 3, 4]
  edges := [(1, 2), (1, 3), (2, 4), (3, 4)]
  directed := false
  myId := 1
  maskBits := 64
  nodes_sorted := by decide
  edges_sorted := by decide
  ends := by decide
  keys := by decide
  myId_mem := by decide
  fits := by decide

/-- Edges that all cost the same, but one. -/
def evenCosts (x : Int) (h : -32768 ≤ x ∧ x ≤ 32767) : Costs where
  cost s d := if s = 2 ∧ d = 3 then x else 10
  baseCost _ _ := 10
  cost_int16 s d := by split <;> omega
  baseCost_int16 _ _ := by decide

theorem circle_paths : ∃ p mask paths, compute circle (evenCosts 10 (by decide)) 4 2 false false = .ok (p, mask) ∧ p ≤ 2 ∧
    paths.length = p ∧
    DisjointPaths (fun u v => Passable circle (evenCosts 10 (by decide)) false false u v ∧ mask.testBit (circle.index u v)) 1 4 paths ∧
    ∀ others, DisjointPaths (Passable circle (evenCosts 10 (by decide)) false false) 1 4 others → others.length = p →
      totalCost circle (evenCosts 10 (by decide)) false false 4 paths ≤ totalCost circle (evenCosts 10 (by decide)) false false 4 others :=
  compute_paths circle (evenCosts 10 (by decide)) (fun s d _ => by simp [evenCosts]) (by decide) (by decide)

/-- Every node bounds what it costs to come to it. -/
def nodeBound (C : Nat) : FlowNode → Int
  | .inbound _ => C
  | .outbound _ => 0

theorem sum_nodeBound_le (C : Nat) : ∑ v ∈ flowNodes c, nodeBound C v ≤ c.nodes.length * C := by
  have hdis : Disjoint (c.nodes.toFinset.image FlowNode.inbound) (c.nodes.toFinset.image .outbound) := by
    refine Finset.disjoint_left.mpr fun v hv hv' => ?_
    obtain ⟨i, -, rfl⟩ := Finset.mem_image.mp hv
    obtain ⟨j, -, hj⟩ := Finset.mem_image.mp hv'
    cases hj
  rw [flowNodes, Finset.sum_union hdis, Finset.sum_image fun _ _ _ _ h => FlowNode.inbound.inj h,
    Finset.sum_image fun _ _ _ _ h => FlowNode.outbound.inj h]
  simp only [nodeBound, Finset.sum_const, nsmul_eq_mul, smul_zero, add_zero]
  have := c.nodes.toFinset_card_le
  exact_mod_cast Nat.mul_le_mul_right C this

/-- Where no way has a cost that the distances do not hold, none is left when no path was found. -/
theorem Stuck.closed (hlegal : Legal c cost) (hbest : LeastCost c cost dest used p) {C : Nat}
    (hC : ∀ u v x, .link u v ∈ c.arcs → cost (.link u v) = some x → x ≤ C) (hlt : c.nodes.length * C < 65535) (h : Stuck c cost dest used) :
    ∃ R : Finset FlowNode, .outbound c.myId ∈ R ∧ .inbound dest ∉ R ∧
      ∀ e, Open (usable c cost) used e → startNode e ∈ R → endNode e ∈ R := by
  classical
  obtain ⟨d, hfeas, hself, hfar⟩ := h
  let Reached := fun v => ∃ w, Lib.BellmanFord.IsWalk startNode endNode (openEdges c cost used) (.outbound c.myId) v w
  refine ⟨(flowNodes c).filter Reached, ?_, ?_, fun e he hstart => ?_⟩
  · exact Finset.mem_filter.mpr ⟨by simp [flowNodes, c.myId_mem], [], rfl⟩
  · intro ht
    obtain ⟨hmem, w, hw⟩ := Finset.mem_filter.mp ht
    obtain ⟨w', hw', hnodup, -⟩ := Lib.BellmanFord.exists_simple_walk hfeas hw
    have hbound : (w'.map (edgeCost cost)).sum ≤ ∑ v ∈ flowNodes c, nodeBound C v :=
      Lib.BellmanFord.cost_le_of_simple openEdges_ends hmem hw' hnodup (fun v => by cases v <;> simp [nodeBound]) fun e he => ?_
    · have hsum := sum_nodeBound_le (c := c) C
      have hd := hfeas.walk hw'
      rw [hself, hfar] at hd
      have : ((c.nodes.length * C : Nat) : Int) < 65535 := by exact_mod_cast hlt
      push_cast at this
      omega
    · -- going back along an edge costs nothing, and forth along a link at most the bound
      obtain ⟨a, residual⟩ := e
      have harc : a ∈ c.arcs := mem_flowEdges.mp (List.mem_filter.mp he).1
      have hopen := (mem_openEdges hbest.sub).mp he
      cases residual
      · cases a with
        | through i =>
          show weight cost (.through i) ≤ 0
          rw [weight, hlegal.through]
          exact le_refl _
        | link u v =>
          obtain ⟨-, x, hx⟩ := mem_usable.mp hopen.1
          show weight cost (.link u v) ≤ C
          rw [weight, hx]
          exact hC u v x harc hx
      · obtain ⟨-, x, hx⟩ := mem_usable.mp (hbest.sub hopen)
        have hpos := (hlegal.range a harc x hx).1
        have hneg : edgeCost cost ⟨a, true⟩ = -x := by
          show -weight cost a = -x
          rw [weight, hx]
          rfl
        have : 0 ≤ nodeBound C (endNode ⟨a, true⟩) := by cases endNode ⟨a, true⟩ <;> simp [nodeBound]
        omega
  · obtain ⟨-, w, hw⟩ := Finset.mem_filter.mp hstart
    have hmem := (mem_openEdges hbest.sub).mpr he
    exact Finset.mem_filter.mpr ⟨(openEdges_ends e hmem).2, e :: w, hmem, rfl, hw⟩

/-- **When fewer paths are returned than were asked for, there are no more**, unless the cost of a way could
exceed the range of the distances. -/
theorem compute_most (hw : Usual c w useBaseCost) {C : Nat}
    (hC : ∀ u v x, .link u v ∈ c.arcs → linkCost w useBaseCost requireReverse u v = some x → x ≤ C)
    (hlt : c.nodes.length * C < 65535) (h : compute c w dest k useBaseCost requireReverse = .ok (p, mask)) (hp : p < k)
    {others : List (List Nat)} (hothers : DisjointPaths (Passable c w useBaseCost requireReverse) c.myId dest others) :
    others.length ≤ p := by
  have hlegal : Legal c (arcCost w useBaseCost requireReverse) := legal_arcCost hw
  have hne : dest ≠ c.myId := by
    rintro rfl
    rw [compute, if_pos rfl] at h
    exact hp.ne (Prod.mk.inj (Except.ok.inj h)).1.symm
  obtain ⟨p', bag, used, hcompute, -, hbest, -, hstuck⟩ := compute_spec requireReverse k hw (mem_nodes_of_compute hne h) hne
  rw [hcompute] at h
  obtain ⟨rfl, -⟩ := Prod.mk.inj (Except.ok.inj h)
  obtain ⟨R, hs, ht, hclosed⟩ := (hstuck hp).closed hlegal hbest hC hlt
  have hothers' := hothers.mono fun u v => passable_iff.mp
  exact hbest.worth_le hs ht hclosed (familyArcs_usable hlegal hothers') (familyArcs_balance hothers')

/-- Three nodes in a row. -/
def row : Conf where
  nodes := [1, 2, 3]
  edges := [(1, 2), (2, 3)]
  directed := false
  myId := 1
  maskBits := 64
  nodes_sorted := by decide
  edges_sorted := by decide
  ends := by decide
  keys := by decide
  myId_mem := by decide
  fits := by decide

theorem row_most : ([[2]] : List (List Nat)).length ≤ 1 := by
  have hcompute : compute row (evenCosts 10 (by decide)) 3 2 false false = .ok (1, 3) := by decide
  refine compute_most (c := row) (C := 10) (fun s d _ => by simp [evenCosts]) (fun u v x _ hx => ?_) (by decide) hcompute (by decide)
    ⟨by simp [Passable, row, Conf.arcs, Conf.linkArcs, linkCost, evenCosts], by decide, by decide, by simp⟩
  have hten : linkCost (evenCosts 10 (by decide)) false false u v = some 10 := by
    simp only [linkCost, evenCosts, ite_self]
    decide
  rw [hten] at hx
  obtain rfl := Option.some_inj.mp hx
  decide

/-! ## A cost without an absolute value -/

/-- Before anything is pushed no distance becomes negative, and that of this node stays zero. -/
structure Grounded (c : Conf) (l : Lib.BellmanFord.Labels FlowNode FlowEdge) : Prop where
  nonneg : ∀ v, 0 ≤ l.dist v
  self : l.dist (.outbound c.myId) = 0

theorem grounded_start : Grounded c (startLabels c) where
  nonneg v := by
    unfold startLabels
    dsimp only
    split <;> decide
  self := startLabels_self

theorem Grounded.relax {st : Lib.BellmanFord.Labels FlowNode FlowEdge × Bool} (hthrough : ∀ i, cost (.through i) = some 0)
    (h : Grounded c st.1) (e : FlowEdge) : Grounded c (relax cost startFlow st e).1 := by
  unfold MultiPath.relax
  split
  · exact h
  rename_i x hx
  split
  swap
  · exact h
  rename_i hboth
  have hself : .outbound c.myId ≠ endNode e := by
    obtain ⟨a, residual⟩ := e
    cases residual
    swap
    · exact absurd hboth.1 (lt_irrefl _)
    intro heq
    have ha : a = .through c.myId := head_eq_outbound.mp heq.symm
    subst ha
    obtain rfl : 0 = x := by simpa [flowCost, hthrough] using hx
    have hlt := hboth.2
    rw [← heq, h.self] at hlt
    have := h.nonneg (startNode ⟨.through c.myId, false⟩)
    omega
  refine ⟨fun v => ?_, (Function.update_of_ne hself _ _).trans h.self⟩
  dsimp only
  by_cases hv : v = endNode e
  · subst hv
    rw [Function.update_self]
    exact Int.emod_nonneg _ (by decide)
  · rw [Function.update_of_ne hv]
    exact h.nonneg v

/-- A pass without progress finds nothing to lower. -/
theorem fold_no_progress {st : Lib.BellmanFord.Labels FlowNode FlowEdge × Bool} {es : List FlowEdge} {flow : Flow}
    (h : (es.foldl (relax cost flow) st).2 = false) : st.2 = false ∧ (es.foldl (relax cost flow) st).1 = st.1 ∧
      ∀ e ∈ es, ∀ x, flowCost cost e = some x → flow e < capacity → st.1.dist (endNode e) ≤ st.1.dist (startNode e) + x := by
  induction es generalizing st with
  | nil => exact ⟨h, rfl, by simp⟩
  | cons e es ih =>
    obtain ⟨hstep, hsame, hrest⟩ := ih h
    have hstay : relax cost flow st e = st ∧
        ∀ x, flowCost cost e = some x → flow e < capacity → st.1.dist (endNode e) ≤ st.1.dist (startNode e) + x := by
      clear hsame hrest ih h
      unfold relax at hstep ⊢
      cases hx : flowCost cost e with
      | none => exact ⟨rfl, by simp⟩
      | some x =>
        rw [hx] at hstep
        dsimp only at hstep ⊢
        split at hstep
        · cases hstep
        · rename_i hnot
          refine ⟨if_neg hnot, fun y hy hflow => ?_⟩
          obtain rfl := Option.some_inj.mp hy
          by_contra hlt
          exact hnot ⟨hflow, by omega⟩
    rw [hstay.1] at hstep hrest
    rw [List.foldl_cons, hsame, hstay.1]
    exact ⟨hstep, rfl, List.forall_mem_cons.mpr ⟨hstay.2, hrest⟩⟩

/-- Rounds that end leave nothing to lower. -/
theorem rounds_end (hthrough : ∀ i, cost (.through i) = some 0) {n : Nat} {l l' : Lib.BellmanFord.Labels FlowNode FlowEdge}
    (h : Grounded c l) (hend : rounds c cost startFlow n l = some l') : Grounded c l' ∧
      ∀ a ∈ c.arcs, ∀ x, cost a = some x → l'.dist a.head ≤ l'.dist a.tail + x := by
  induction n generalizing l with
  | zero => cases hend
  | succ n ih =>
    have hfold : ∀ {es : List FlowEdge} {st : Lib.BellmanFord.Labels FlowNode FlowEdge × Bool}, Grounded c st.1 →
        Grounded c (es.foldl (relax cost startFlow) st).1 := by
      intro es st hst
      induction es generalizing st with
      | nil => exact hst
      | cons e es ih => exact ih (hst.relax hthrough e)
    have hground : Grounded c (c.flowEdges.foldl (relax cost startFlow) (l, false)).1 := hfold h
    unfold rounds at hend
    cases hpass : c.flowEdges.foldl (relax cost startFlow) (l, false) with
    | mk l₁ progress =>
      rw [hpass] at hend hground
      cases progress
      · obtain rfl := Option.some_inj.mp hend
        obtain ⟨-, hsame, hnone⟩ := fold_no_progress (congrArg Prod.snd hpass)
        rw [hpass] at hsame
        obtain rfl : l₁ = l := hsame
        refine ⟨h, fun a ha x hx => hnone ⟨a, false⟩ (mem_flowEdges.mpr ha) x ?_ Nat.one_pos⟩
        simp [flowCost, hx]
      · exact ih hground hend

/-- No distance is longer than a line of links that leads there. -/
theorem dist_le_lineCost {d : FlowNode → Int} (hd : ∀ a ∈ c.arcs, ∀ x, arcCost w useBaseCost requireReverse a = some x → d a.head ≤ d a.tail + x)
    (h : (x :: path).IsChain (Passable c w useBaseCost requireReverse)) :
    d (.outbound ((x :: path).getLast (List.cons_ne_nil _ _))) ≤ d (.outbound x) + lineCost w useBaseCost requireReverse (x :: path) := by
  induction path generalizing x with
  | nil => simp [lineCost]
  | cons y path ih =>
    obtain ⟨⟨harc, hsome⟩, hrest⟩ := List.isChain_cons_cons.mp h
    obtain ⟨z, hz⟩ := Option.isSome_iff_exists.mp hsome
    have hlink := hd _ harc z hz
    have hthrough := hd (.through y) (mem_arcs_through.mpr (mem_arcs_link harc).2.1) 0 rfl
    have hline : lineCost w useBaseCost requireReverse (x :: y :: path) = z + lineCost w useBaseCost requireReverse (y :: path) := by
      simp [lineCost, hz]
    have := ih hrest
    rw [List.getLast_cons (List.cons_ne_nil _ _), hline]
    dsimp only [Arc.head, Arc.tail] at hlink hthrough
    omega

/-- **A link that announces the least cost there is ends every daemon that is near enough to it**: the absolute
value of the cost is negative. -/
theorem compute_exits (hdest : dest ∈ c.nodes) (hne : dest ≠ c.myId) (hlink : .link u v ∈ c.arcs) (hcost : w.cost u v = -32768)
    (hchain : (c.myId :: path).IsChain (Passable c w false false)) (hlast : (c.myId :: path).getLast (List.cons_ne_nil _ _) = u)
    (hnear : lineCost w false false (c.myId :: path) < 32768) : compute c w dest (k + 1) false false = .error .negativeCycle := by
  have hnone : rounds c (arcCost w false false) startFlow (c.nodes.length * 2 + 1) (startLabels c) = none := by
    by_contra hsome
    obtain ⟨l, hl⟩ := Option.ne_none_iff_exists'.mp hsome
    obtain ⟨hground, hd⟩ := rounds_end (fun i => rfl) grounded_start hl
    have hline := dist_le_lineCost hd hchain
    rw [hlast, hground.self] at hline
    have hstep := hd _ hlink (-32768) (by simp [arcCost, linkCost, hcost, int16])
    have hpos := hground.nonneg (Arc.link u v).head
    dsimp only [Arc.head, Arc.tail] at hstep hpos
    omega
  unfold compute
  rw [if_neg hne, if_neg (by simpa using hdest), findPaths, hnone]
  rfl

theorem row_exits : compute row (evenCosts (-32768) (by decide)) 2 1 false false = .error .negativeCycle :=
  have hlink : .link 2 3 ∈ row.arcs := by decide
  have hchain : ([1, 2] : List Nat).IsChain (Passable row (evenCosts (-32768) (by decide)) false false) := by
    simp [Passable, row, Conf.arcs, Conf.linkArcs, linkCost, evenCosts]
  compute_exits (by decide) (by decide) hlink rfl hchain rfl (by decide)

end Spire.MultiPath
