import Spire.MultiPathSafety

/-!
# Flows and node-disjoint paths

The edges of a flow of the worth `p` make `p` paths from this node to the destination that share no
node between (`LeastCost.exists_paths`), and the edges of such paths make a flow
(`familyArcs_balance`).
-/

namespace Spire.MultiPath

open Lib (DisjointPaths Threads)
open Lib.UnitFlow (Open balance)

/-! ## The edges along a path -/

def pathArcs (dest : Nat) : Nat → List Nat → List Arc
  | x, [] => [.link x dest]
  | x, y :: p => .link x y :: .through y :: pathArcs dest y p

variable {c : Conf} {cost : Arc → Option Int} {used : Finset Arc} {dest p x y u v : Nat} {path path' : List Nat} {paths : List (List Nat)}

theorem through_mem_pathArcs : .through y ∈ pathArcs dest x path ↔ y ∈ path := by
  induction path generalizing x with
  | nil => simp [pathArcs]
  | cons z path ih => simp [pathArcs, ih]

theorem link_mem_pathArcs (h : .link u v ∈ pathArcs dest x path) : u ∈ x :: path ∧ v ∈ path ++ [dest] := by
  induction path generalizing x with
  | nil =>
    simp only [pathArcs, List.mem_singleton, Arc.link.injEq] at h
    simp [h]
  | cons z path ih =>
    simp only [pathArcs, List.mem_cons, Arc.link.injEq, reduceCtorEq, false_or] at h
    rcases h with ⟨rfl, rfl⟩ | h
    · simp
    · obtain ⟨hu, hv⟩ := ih h
      exact ⟨List.mem_cons_of_mem _ hu, List.mem_cons_of_mem _ hv⟩

theorem pathArcs_nodup (h : (x :: path ++ [dest]).Nodup) : (pathArcs dest x path).Nodup := by
  induction path generalizing x with
  | nil => simp [pathArcs]
  | cons y path ih =>
    have hx := (List.nodup_cons.mp h).1
    have hy := (List.nodup_cons.mp h.tail).1
    refine List.nodup_cons.mpr ⟨?_, List.nodup_cons.mpr ⟨?_, ih h.tail⟩⟩
    · rw [List.mem_cons, or_iff_right (by simp)]
      intro hmem
      exact hx (List.mem_append_left _ (link_mem_pathArcs hmem).1)
    · rw [through_mem_pathArcs]
      exact fun hmem => hy (List.mem_append_left _ hmem)

/-- Only a path without nodes between its ends has the direct hop. -/
theorem eq_nil_of_direct (h : (x :: path ++ [dest]).Nodup) (hmem : .link x dest ∈ pathArcs dest x path) : path = [] := by
  cases path with
  | nil => rfl
  | cons y path =>
    have hx := (List.nodup_cons.mp h).1
    simp only [pathArcs, List.mem_cons, Arc.link.injEq, true_and, reduceCtorEq, false_or] at hmem
    rcases hmem with rfl | hmem
    · simp at h
    · exact (hx (List.mem_append_left _ (link_mem_pathArcs hmem).1)).elim

theorem pathArcs_disjoint (h : (x :: path ++ [dest]).Nodup) (h' : (x :: path' ++ [dest]).Nodup) (hne : path ≠ path')
    (hdis : path.Disjoint path') : (pathArcs dest x path).Disjoint (pathArcs dest x path') := by
  intro a ha ha'
  have hends : ∀ {q : List Nat}, (x :: q ++ [dest]).Nodup → x ∉ q ∧ dest ∉ q := by
    intro q hq
    rw [List.cons_append, List.nodup_cons, List.nodup_append] at hq
    exact ⟨fun hx => hq.1 (List.mem_append_left _ hx), fun hd => hq.2.2.2 dest hd dest (List.mem_singleton_self _) rfl⟩
  cases a with
  | through y => exact hdis (through_mem_pathArcs.mp ha) (through_mem_pathArcs.mp ha')
  | link u v =>
    obtain ⟨hu, hv⟩ := link_mem_pathArcs ha
    obtain ⟨hu', hv'⟩ := link_mem_pathArcs ha'
    obtain ⟨hx, hd⟩ := hends h
    obtain ⟨hx', hd'⟩ := hends h'
    simp only [List.mem_append, List.mem_singleton] at hv hv'
    -- the common hop is the direct one
    obtain rfl : v = dest := by
      rcases hv with hv | hv
      · rcases hv' with hv' | rfl
        · exact (hdis hv hv').elim
        · exact (hd hv).elim
      · exact hv
    obtain rfl : u = x := by
      rcases List.mem_cons.mp hu with hu | hu
      · exact hu
      · rcases List.mem_cons.mp hu' with hu' | hu'
        · exact (hx (hu' ▸ hu)).elim
        · exact (hdis hu hu').elim
    exact hne ((eq_nil_of_direct h ha).trans (eq_nil_of_direct h' ha').symm)

/-! ## Paths as a flow -/

/-- All edges along some paths of this node. -/
def familyArcs (c : Conf) (dest : Nat) (paths : List (List Nat)) : List Arc := paths.flatMap (pathArcs dest c.myId)

theorem familyArcs_nodup {R : Nat → Nat → Prop} (h : DisjointPaths R c.myId dest paths) : (familyArcs c dest paths).Nodup := by
  refine List.nodup_flatMap.mpr ⟨fun q hq => pathArcs_nodup (h.simple q hq), ?_⟩
  refine (h.distinct.and h.disjoint).imp_of_mem fun {q q'} hq hq' hboth => ?_
  exact pathArcs_disjoint (h.simple q hq) (h.simple q' hq') hboth.1 hboth.2

theorem pathArcs_sum (node : FlowNode) : ((pathArcs dest x path).map fun a =>
    ((if a.tail = node then 1 else 0) - if a.head = node then 1 else 0 : Int)).sum =
    (if .outbound x = node then 1 else 0) - if .inbound dest = node then 1 else 0 := by
  induction path generalizing x with
  | nil =>
    rw [pathArcs, List.map_singleton, List.sum_singleton]
    rfl
  | cons y path ih =>
    rw [pathArcs, List.map_cons, List.map_cons, List.sum_cons, List.sum_cons, ih]
    show ((if .outbound x = node then 1 else 0) - if .inbound y = node then 1 else 0 : Int) +
      (((if .inbound y = node then 1 else 0) - if .outbound y = node then 1 else 0) + _) = _
    ring

/-- **Disjoint paths are a flow**, of the worth that they are many. -/
theorem familyArcs_balance {R : Nat → Nat → Prop} (h : DisjointPaths R c.myId dest paths) (node : FlowNode) :
    balance Arc.tail Arc.head (familyArcs c dest paths).toFinset node =
      paths.length * ((if .outbound c.myId = node then 1 else 0) - if .inbound dest = node then 1 else 0) := by
  unfold balance
  rw [List.sum_toFinset _ (familyArcs_nodup h)]
  clear h
  unfold familyArcs
  induction paths with
  | nil => simp
  | cons q paths ih =>
    rw [List.flatMap_cons, List.map_append, List.sum_append, pathArcs_sum, ih, List.length_cons]
    push_cast
    ring

theorem pathArcs_usable (hlegal : Legal c cost) (h : (x :: path ++ [dest]).IsChain fun u v => .link u v ∈ usable c cost) :
    ∀ a ∈ pathArcs dest x path, a ∈ usable c cost := by
  induction path generalizing x with
  | nil =>
    simp only [pathArcs, List.mem_singleton, forall_eq]
    simpa using h
  | cons y path ih =>
    rw [List.cons_append, List.cons_append, List.isChain_cons_cons] at h
    have hy := (mem_arcs_link (mem_usable.mp h.1).1).2.1
    refine List.forall_mem_cons.mpr ⟨h.1, List.forall_mem_cons.mpr ⟨?_, ih h.2⟩⟩
    exact mem_usable.mpr ⟨mem_arcs_through.mpr hy, 0, hlegal.through y⟩

theorem familyArcs_usable (hlegal : Legal c cost) (h : DisjointPaths (fun u v => .link u v ∈ usable c cost) c.myId dest paths) :
    (familyArcs c dest paths).toFinset ⊆ usable c cost := by
  intro a ha
  obtain ⟨q, hq, ha⟩ := List.mem_flatMap.mp (List.mem_toFinset.mp ha)
  exact pathArcs_usable hlegal (h.chain q hq) a ha

/-! ## A flow as paths -/

theorem link_injective : Function.Injective fun e : Nat × Nat => Arc.link e.1 e.2 :=
  fun _ _ h => Prod.ext (Arc.link.inj h).1 (Arc.link.inj h).2

/-- The links of a flow. -/
noncomputable def usedLinks (used : Finset Arc) : Finset (Nat × Nat) := used.preimage (fun e => .link e.1 e.2) link_injective.injOn

theorem mem_usedLinks : (u, v) ∈ usedLinks used ↔ .link u v ∈ used := by rw [usedLinks, Finset.mem_preimage]

theorem balance_eq_card (node : FlowNode) : balance Arc.tail Arc.head used node =
    ((used.filter fun a => a.tail = node).card : Int) - (used.filter fun a => a.head = node).card := by
  rw [balance, Finset.sum_sub_distrib, Finset.sum_boole, Finset.sum_boole]

theorem tail_eq_inbound {a : Arc} {i : Nat} : a.tail = .inbound i ↔ a = .through i := by cases a <;> simp [Arc.tail]

theorem head_eq_outbound {a : Arc} {i : Nat} : a.head = .outbound i ↔ a = .through i := by cases a <;> simp [Arc.head]

/-- How often a flow goes through a node. -/
def throughCount (used : Finset Arc) (i : Nat) : Nat := (used.filter fun a => a = .through i).card

theorem throughCount_le (i : Nat) : throughCount used i ≤ 1 :=
  Finset.card_le_one.mpr fun _ ha _ hb => (Finset.mem_filter.mp ha).2.trans (Finset.mem_filter.mp hb).2.symm

/-- What enters a node goes through it, but at the destination. -/
theorem inCount_eq (h : LeastCost c cost dest used p) {i : Nat} (hi : i ≠ dest) :
    (used.filter fun a => a.head = .inbound i).card = throughCount used i := by
  have := h.balanced (.inbound i)
  rw [balance_eq_card] at this
  simp only [tail_eq_inbound, reduceCtorEq, FlowNode.inbound.injEq, Ne.symm hi, ↓reduceIte, sub_zero, mul_zero] at this
  unfold throughCount
  omega

/-- What leaves a node went through it, but at this one. -/
theorem outCount_eq (h : LeastCost c cost dest used p) (i : Nat) :
    (used.filter fun a => a.tail = .outbound i).card = throughCount used i + if i = c.myId then p else 0 := by
  have := h.balanced (.outbound i)
  rw [balance_eq_card] at this
  simp only [head_eq_outbound, reduceCtorEq, FlowNode.outbound.injEq, ↓reduceIte, sub_zero, eq_comm (a := c.myId)] at this
  unfold throughCount
  split at this <;> simp_all <;> omega

theorem throughCount_self (h : LeastCost c cost dest used p) : throughCount used c.myId = 0 := by
  refine Finset.card_eq_zero.mpr (Finset.filter_eq_empty_iff.mpr fun a ha heq => ?_)
  exact h.source a ha (head_eq_outbound.mpr heq)

theorem throughCount_dest (h : LeastCost c cost dest used p) : throughCount used dest = 0 := by
  refine Finset.card_eq_zero.mpr (Finset.filter_eq_empty_iff.mpr fun a ha heq => ?_)
  exact h.sink a ha (tail_eq_inbound.mpr heq)

theorem throughCount_pos (h : LeastCost c cost dest used p) (hmem : (u, v) ∈ usedLinks used) (hv : v ≠ dest) : throughCount used v = 1 := by
  have hpos : 0 < (used.filter fun a => a.head = .inbound v).card :=
    Finset.card_pos.mpr ⟨_, Finset.mem_filter.mpr ⟨mem_usedLinks.mp hmem, rfl⟩⟩
  have := inCount_eq h hv
  have : throughCount used v ≤ 1 := throughCount_le v
  omega

theorem LeastCost.threads (h : LeastCost c cost dest used p) (hne : dest ≠ c.myId) : Threads (usedLinks used) c.myId dest where
  ends := hne.symm
  noneIn u hmem := by
    have := throughCount_pos h hmem hne.symm
    rw [throughCount_self h] at this
    cases this
  noneOut v hmem := by
    have hout := outCount_eq h dest
    rw [throughCount_dest h, if_neg hne] at hout
    exact Finset.filter_eq_empty_iff.mp (Finset.card_eq_zero.mp hout) (mem_usedLinks.mp hmem) rfl
  uniqueIn := by
    intro u u' v hu hu' hv
    have hone : (used.filter fun a => a.head = .inbound v).card ≤ 1 := (inCount_eq h hv).le.trans (throughCount_le v)
    have := Finset.card_le_one.mp hone _ (Finset.mem_filter.mpr ⟨mem_usedLinks.mp hu, rfl⟩) _
      (Finset.mem_filter.mpr ⟨mem_usedLinks.mp hu', rfl⟩)
    exact (Arc.link.inj this).1
  goesOn := by
    intro u v hmem hv
    have hpos : 0 < (used.filter fun a => a.tail = .outbound v).card := by
      rw [outCount_eq h v, throughCount_pos h hmem hv]
      omega
    obtain ⟨a, ha⟩ := Finset.card_pos.mp hpos
    obtain ⟨hused, htail⟩ := Finset.mem_filter.mp ha
    cases a with
    | through i => simp [Arc.tail] at htail
    | link u' v' =>
      obtain rfl : u' = v := by simpa [Arc.tail] using htail
      exact ⟨v', mem_usedLinks.mpr hused⟩

/-- **A flow is disjoint paths**, as many as it is worth. -/
theorem LeastCost.exists_paths (h : LeastCost c cost dest used p) (hne : dest ≠ c.myId) :
    ∃ paths, DisjointPaths (fun u v => .link u v ∈ used) c.myId dest paths ∧ paths.length = p := by
  obtain ⟨paths, hpaths, hlen⟩ := (LeastCost.threads h hne).paths
  refine ⟨paths, hpaths.mono fun u v hmem => mem_usedLinks.mp hmem, hlen.trans ?_⟩
  have hout := outCount_eq h c.myId
  rw [throughCount_self h, if_pos rfl, zero_add] at hout
  rw [← hout]
  refine Finset.card_bij (fun e _ => .link e.1 e.2) (fun e he => ?_) (fun e _ e' _ heq => ?_) fun a ha => ?_
  · obtain ⟨hmem, hsrc⟩ := Finset.mem_filter.mp he
    exact Finset.mem_filter.mpr ⟨mem_usedLinks.mp hmem, by rw [Arc.tail, hsrc]⟩
  · exact link_injective heq
  · obtain ⟨hmem, htail⟩ := Finset.mem_filter.mp ha
    cases a with
    | through i => simp [Arc.tail] at htail
    | link u v =>
      obtain rfl : u = c.myId := by simpa [Arc.tail] using htail
      exact ⟨(c.myId, v), Finset.mem_filter.mpr ⟨mem_usedLinks.mpr hmem, rfl⟩, rfl⟩

end Spire.MultiPath
