import Mathlib
import Spire.Lib.ShortestPaths
import Spire.Routing

/-!
# What the routes are

The loops of `RR_Init` overwrite the routes in place. A pass through one node reads only
routes that it does not write, so it improves every route by the routes that were there before
it (`relaxThrough_apply`). From this each route of the table describes the path that
`Lib.cheapest` chooses (`init_describes`): a cheapest one, the same at every daemon, with the
next hop after the daemon in `forwarder`.
-/

namespace Spire.Routing

open Spire.Lib

/-! ## Loops that overwrite in place -/

section InPlace

variable {α β : Type*} [DecidableEq α]

/-- A loop that overwrites one entry after the other, where what it writes to one does not
depend on what it wrote to another, overwrites all from the table it began with. -/
theorem foldl_update_apply {g : (α → β) → α → β}
    (hg : ∀ t x y, x ≠ y → g (Function.update t y (g t y)) x = g t x) {l : List α} (hnd : l.Nodup) (t : α → β) (x : α) :
    l.foldl (fun t y => Function.update t y (g t y)) t x = if x ∈ l then g t x else t x := by
  induction l generalizing t with
  | nil => simp
  | cons y l ih =>
    obtain ⟨hy, hnd⟩ := List.nodup_cons.mp hnd
    rw [List.foldl_cons, ih hnd]
    by_cases hxy : x = y
    · subst hxy
      simp [hy]
    · simp [hxy, hg t x y hxy]

end InPlace

/-- What the pass through the node of index `k` makes of a route. -/
def relaxed (ids : List NodeId) (k : Nat) (routes : Routes) (x : Nat × Nat) : Route :=
  if x.1 = k ∨ (routes (x.1, k)).cost < 0 then routes x else relaxRoute ids k x.1 routes x.2 x

section Pass

variable {ids : List NodeId} {k i j : Nat} {routes routes' : Routes} {x y : Nat × Nat}

theorem relaxRoute_eq_update :
    relaxRoute ids k i routes j = Function.update routes (i, j) (relaxRoute ids k i routes j (i, j)) := by
  unfold relaxRoute
  split
  · simp
  · split <;> simp

/-- The routes to and from the node itself are not overwritten. -/
theorem relaxed_self (h : i = k ∨ j = k) : relaxed ids k routes (i, j) = routes (i, j) := by
  unfold relaxed relaxRoute
  rcases h with h | h <;> simp [h]

theorem update_relaxed_apply (h : i = k ∨ j = k) :
    Function.update routes y (relaxed ids k routes y) (i, j) = routes (i, j) := by
  by_cases hxy : (i, j) = y
  · subst hxy
    rw [Function.update_self, relaxed_self h]
  · rw [Function.update_of_ne hxy]

/-- The pass reads the route itself and the two through the node. -/
theorem relaxed_congr (hx : routes' x = routes x) (hik : routes' (x.1, k) = routes (x.1, k))
    (hkj : routes' (k, x.2) = routes (k, x.2)) : relaxed ids k routes' x = relaxed ids k routes x := by
  obtain ⟨i, j⟩ := x
  simp only at hik hkj
  simp only [relaxed, relaxRoute, hx, hik, hkj]
  split
  · rfl
  · split
    · exact hx
    · split
      · simp
      · exact hx

theorem relaxRow_eq_foldl {js : List Nat} :
    (if i = k ∨ (routes (i, k)).cost < 0 then routes else js.foldl (relaxRoute ids k i) routes) =
      js.foldl (fun t j => Function.update t (i, j) (relaxed ids k t (i, j))) routes := by
  split
  · rename_i hskip
    rw [List.foldl_fixed']
    intro j
    simp [relaxed, hskip]
  · rename_i hskip
    induction js generalizing routes with
    | nil => rfl
    | cons j js ih =>
      have hstep : relaxRoute ids k i routes j = Function.update routes (i, j) (relaxed ids k routes (i, j)) := by
        rw [relaxed, if_neg hskip]
        exact relaxRoute_eq_update
      rw [List.foldl_cons, List.foldl_cons, hstep]
      apply ih
      rw [update_relaxed_apply (.inr rfl)]
      exact hskip

/-- **A pass improves every route by the routes that were there before it.** -/
theorem relaxThrough_apply :
    relaxThrough ids routes k x = if x.1 < ids.length ∧ x.2 < ids.length then relaxed ids k routes x else routes x := by
  have hrows : relaxThrough ids routes k =
      (List.range ids.length ×ˢ List.range ids.length).foldl
        (fun t x => Function.update t x (relaxed ids k t x)) routes := by
    rw [relaxThrough]
    show _ = List.foldl _ _ ((List.range ids.length).flatMap fun i => (List.range ids.length).map (Prod.mk i))
    rw [List.foldl_flatMap]
    congr 1
    funext t i
    rw [List.foldl_map]
    exact relaxRow_eq_foldl
  have hwrite : ∀ (t : Routes) (x y : Nat × Nat), x ≠ y →
      relaxed ids k (Function.update t y (relaxed ids k t y)) x = relaxed ids k t x := by
    intro t x y hxy
    exact relaxed_congr (Function.update_of_ne hxy _ _) (update_relaxed_apply (.inr rfl)) (update_relaxed_apply (.inl rfl))
  rw [hrows, foldl_update_apply hwrite (List.nodup_range.product List.nodup_range)]
  obtain ⟨i, j⟩ := x
  simp [List.mem_product]

end Pass

/-! ## What a route describes -/

/-- The cost that the link state gives to the hop from one node to another. -/
def LinkState.weight (s : LinkState) (u v : NodeId) : Option ℕ :=
  (s.edges.find? fun e => e.src = u ∧ e.dst = v ∧ e.cost ≠ -1).map fun e => e.cost.natAbs

/-- A route describes the path along these hops, as the daemon `here` sees it. -/
structure Describes (w : NodeId → NodeId → Option ℕ) (here : NodeId) (p : List (NodeId × NodeId)) (r : Route) :
    Prop where
  cost : r.cost = total w p
  distance : r.distance = p.length
  forwarder : r.forwarder = p.lookup here
  predecessor : r.predecessor ∈ p.map Prod.fst

def noRoute : Route := { cost := -1, distance := -1, forwarder := none, predecessor := 0 }

/-- The route for a path that was chosen, or for none. -/
def Shows (w : NodeId → NodeId → Option ℕ) (self : NodeId) : Option (List (NodeId × NodeId)) → Route → Prop
  | none, r => r = noRoute
  | some p, r => Describes w self p r

section Describes

variable {w : NodeId → NodeId → Option ℕ} {self : NodeId} {a b p : List (NodeId × NodeId)} {q : Option (List (NodeId × NodeId))} {r r' : Route}

theorem lookup_append_of_disjoint (h : ∀ v ∈ a.map Prod.fst, v ∉ b.map Prod.fst) :
    (a ++ b).lookup self =
      match b.lookup self with
      | some node => some node
      | none => a.lookup self := by
  rw [List.lookup_append]
  cases ha : a.lookup self with
  | none => cases b.lookup self <;> rfl
  | some node =>
    cases hb : b.lookup self with
    | none => rfl
    | some node' =>
      obtain ⟨_, _, rfl, _⟩ := List.lookup_eq_some_iff.mp ha
      obtain ⟨_, _, rfl, _⟩ := List.lookup_eq_some_iff.mp hb
      exact absurd (by simp) (h self (by simp))

theorem Shows.cost_neg_iff (h : Shows w self q r) : r.cost < 0 ↔ q = none := by
  cases q with
  | none =>
    obtain rfl := h
    simp [noRoute]
  | some p => simp [h.cost]

theorem Describes.append (ha : Describes w self a r) (hb : Describes w self b r')
    (hdis : ∀ v ∈ a.map Prod.fst, v ∉ b.map Prod.fst) {k : NodeId} (hk : k ∈ b.map Prod.fst) :
    Describes w self (a ++ b)
      { cost := r.cost + r'.cost
        distance := r.distance + r'.distance
        predecessor := k
        forwarder :=
          match r'.forwarder with
          | some node => some node
          | none => r.forwarder } where
  cost := by simp [ha.cost, hb.cost]
  distance := by simp [ha.distance, hb.distance]
  forwarder := by simp only [ha.forwarder, hb.forwarder, lookup_append_of_disjoint hdis]
  predecessor := by
    rw [List.map_append]
    exact List.mem_append_right _ hk

end Describes

/-! ## One pass -/

section Step

variable {w : NodeId → NodeId → Option ℕ} {here : NodeId} {ids ks : List NodeId} {routes : Routes} {i j k : Nat} {u v c : NodeId}

/-- The table shows what is chosen when the nodes of `ks` have been admitted. -/
def ShowsAll (w : NodeId → NodeId → Option ℕ) (here : NodeId) (ids ks : List NodeId) (routes : Routes) : Prop :=
  ∀ ⦃i j u v⦄, ids[i]? = some u → ids[j]? = some v → i ≠ j → Shows w here (cheapest w ks u v) (routes (i, j))

theorem index_eq (hnd : ids.Nodup) (hi : ids[i]? = some u) (hj : ids[j]? = some u) : i = j := by
  obtain ⟨hi, rfl⟩ := List.getElem?_eq_some_iff.mp hi
  obtain ⟨hj, heq⟩ := List.getElem?_eq_some_iff.mp hj
  exact ((hnd.getElem_inj_iff).mp heq).symm

/-- The pass through the node `c` admits it as a node in between. -/
theorem ShowsAll.relaxed (h : ShowsAll w here ids ks routes) (hnd : ids.Nodup) (hk : ids[k]? = some c)
    (hi : ids[i]? = some u) (hj : ids[j]? = some v) (hij : i ≠ j) :
    Shows w here (cheapest w (c :: ks) u v) (relaxed ids k routes (i, j)) := by
  have hne : u ≠ v := fun heq => hij (index_eq hnd hi (heq ▸ hj))
  have hold := h hi hj hij
  by_cases hik : i = k
  · subst hik
    rw [hk, Option.some.injEq] at hi
    rw [cheapest, if_pos (.inl hi.symm), relaxed_self (.inl rfl)]
    exact hold
  by_cases hjk : j = k
  · subst hjk
    rw [hk, Option.some.injEq] at hj
    rw [cheapest, if_pos (.inr hj.symm), relaxed_self (.inr rfl)]
    exact hold
  have huc : u ≠ c := fun heq => hik (index_eq hnd hi (heq ▸ hk))
  have hvc : v ≠ c := fun heq => hjk (index_eq hnd hj (heq ▸ hk))
  have hleft := h hi hk hik
  have hright := h hk hj (Ne.symm hjk)
  have hsimple := fun p (hp : cheapest w (c :: ks) u v = some p) => (cheapest_simple hne hp).1
  rw [cheapest, if_neg (by tauto)] at hsimple ⊢
  have hc : ids.getD k 0 = c := by simp [List.getD_eq_getElem?_getD, hk]
  simp only [Routing.relaxed, relaxRoute, hleft.cost_neg_iff, hright.cost_neg_iff, hold.cost_neg_iff, hij, hik, hjk,
    false_or, hc]
  cases ha : cheapest w ks u c with
  | none => simpa [improve] using hold
  | some a =>
    cases hb : cheapest w ks c v with
    | none => simpa [improve] using hold
    | some b =>
      rw [ha] at hleft
      rw [hb] at hright
      have hfirst : c ∈ b.map Prod.fst := (cheapest_via hb).start_mem
      have hdis : improve w (some a) (some b) (cheapest w ks u v) = some (a ++ b) →
          ∀ v ∈ a.map Prod.fst, v ∉ b.map Prod.fst := by
        intro hp v hv
        have hnodup := hsimple (a ++ b) (by rw [ha, hb]; exact hp)
        rw [List.map_append] at hnodup
        exact List.disjoint_of_nodup_append hnodup hv
      cases hq : cheapest w ks u v with
      | none =>
        rw [hq] at hdis
        simp only [improve, reduceCtorEq, if_false, true_or, if_true, Function.update_self]
        exact hleft.append hright (hdis rfl) hfirst
      | some q =>
        rw [hq] at hdis hold
        have hcost : (routes (i, k)).cost + (routes (k, j)).cost < (routes (i, j)).cost ↔ total w (a ++ b) < total w q := by
          rw [hleft.cost, hright.cost, hold.cost, total_append]
          omega
        by_cases hlt : total w (a ++ b) < total w q
        · have himp : improve w (some a) (some b) (some q) = some (a ++ b) := by
            simp only [improve, if_pos hlt]
          rw [himp]
          simp only [reduceCtorEq, false_or, if_false, hcost.mpr hlt, if_true, Function.update_self]
          exact hleft.append hright (hdis himp) hfirst
        · have himp : improve w (some a) (some b) (some q) = some q := by
            simp only [improve, if_neg hlt]
          rw [himp]
          simpa only [reduceCtorEq, false_or, if_false, mt hcost.mp hlt] using hold

/-- After the first `n` passes the first `n` nodes have been admitted. -/
theorem ShowsAll.passes (h : ShowsAll w here ids [] routes) (hnd : ids.Nodup) {n : Nat} (hn : n ≤ ids.length) :
    ShowsAll w here ids (ids.take n).reverse ((List.range n).foldl (relaxThrough ids) routes) := by
  induction n with
  | zero => exact h
  | succ n ih =>
    have hlt : n < ids.length := hn
    have hk : ids[n]? = some ids[n] := List.getElem?_eq_getElem hlt
    have htake : (ids.take (n + 1)).reverse = ids[n] :: (ids.take n).reverse := by
      rw [List.take_add_one, hk]
      simp
    rw [List.range_succ, List.foldl_append, htake]
    intro i j u v hi hj hij
    rw [List.foldl_cons, List.foldl_nil, relaxThrough_apply,
      if_pos ⟨(List.getElem?_eq_some_iff.mp hi).1, (List.getElem?_eq_some_iff.mp hj).1⟩]
    exact (ih (le_of_lt hlt)).relaxed hnd hk hi hj hij

end Step

/-! ## The edges, and the whole table -/

section Init

variable {s : LinkState} {self : NodeId} {i j : Nat} {u v : NodeId}

theorem LinkState.nodup (s : LinkState) : s.nodes.Nodup := s.sorted.imp fun h => Nat.ne_of_lt h

/-- A node's index leads to the entries of that node. -/
theorem idxOf_eq_iff {ids : List NodeId} (hnd : ids.Nodup) {x : NodeId} (hx : x ∈ ids) (hi : ids[i]? = some u) :
    ids.idxOf x = i ↔ x = u := by
  have hget : ids[ids.idxOf x]? = some x := by
    rw [List.getElem?_eq_getElem (List.idxOf_lt_length_of_mem hx), List.getElem_idxOf]
  constructor
  · rintro rfl
    rw [hget, Option.some.injEq] at hi
    exact hi
  · rintro rfl
    exact index_eq hnd hget hi

/-- The route that the edges, one of which may join the two nodes, give to a pair. -/
theorem fillEdge_foldl (hi : s.nodes[i]? = some u) (hj : s.nodes[j]? = some v) {es : List Edge}
    (hsub : es ⊆ s.edges) (hkeys : (es.map fun e => (e.src, e.dst)).Nodup) (routes : Routes) :
    es.foldl (fillEdge self s.nodes) routes (i, j) =
      ((es.find? fun e => e.src = u ∧ e.dst = v ∧ e.cost ≠ -1).map (edgeRoute self)).getD (routes (i, j)) := by
  induction es generalizing routes with
  | nil => rfl
  | cons e es ih =>
    rw [List.map_cons, List.nodup_cons] at hkeys
    rw [List.cons_subset] at hsub
    rw [List.foldl_cons, ih hsub.2 hkeys.2]
    obtain ⟨hsrc, hdst⟩ := s.ends e hsub.1
    have hentry : (i, j) = (s.nodes.idxOf e.src, s.nodes.idxOf e.dst) ↔ e.src = u ∧ e.dst = v := by
      rw [Prod.mk.injEq, eq_comm, idxOf_eq_iff s.nodup hsrc hi, eq_comm (a := j), idxOf_eq_iff s.nodup hdst hj]
    by_cases hmatch : e.src = u ∧ e.dst = v ∧ e.cost ≠ -1
    · obtain ⟨rfl, rfl, hcost⟩ := hmatch
      have hnone : es.find? (fun e' => e'.src = e.src ∧ e'.dst = e.dst ∧ e'.cost ≠ -1) = none := by
        rw [List.find?_eq_none]
        intro e' he' heq
        have : e'.src = e.src ∧ e'.dst = e.dst ∧ e'.cost ≠ -1 := by simpa using heq
        exact hkeys.1 (List.mem_map.mpr ⟨e', he', by rw [this.1, this.2.1]⟩)
      rw [hnone, List.find?_cons_of_pos (by simpa using hcost), fillEdge, if_neg hcost, hentry.mpr ⟨rfl, rfl⟩]
      simp
    · rw [List.find?_cons_of_neg (by simpa using hmatch)]
      congr 1
      unfold fillEdge
      split
      · rfl
      · rename_i hcost
        exact Function.update_of_ne (fun heq => hmatch ⟨(hentry.mp heq).1, (hentry.mp heq).2, hcost⟩) _ _

/-- Before the first pass the table shows the edges. -/
theorem showsAll_edges (s : LinkState) (self : NodeId) : ShowsAll s.weight self s.nodes [] (s.edges.foldl (fillEdge self s.nodes) initRoutes) := by
  intro i j u v hi hj hij
  rw [fillEdge_foldl hi hj (List.Subset.refl _) s.keys]
  cases he : s.edges.find? fun e => e.src = u ∧ e.dst = v ∧ e.cost ≠ -1 with
  | none =>
    have hw : s.weight u v = none := by
      rw [LinkState.weight, he]
      rfl
    simp [cheapest, hw, initRoutes, hij, Shows, noRoute]
  | some e =>
    have hmatch := List.find?_some he
    have hw : s.weight u v = some e.cost.natAbs := by
      rw [LinkState.weight, he]
      rfl
    have hends : e.src = u ∧ e.dst = v ∧ e.cost ≠ -1 := by simpa using hmatch
    obtain ⟨rfl, rfl, _⟩ := hends
    simp only [cheapest, hw, Option.isSome_some, if_true, Option.map_some, Option.getD_some]
    constructor
    · simp [edgeRoute, total, hw]
    · simp [edgeRoute]
    · by_cases hself : e.src = self
      · simp [edgeRoute, hself]
      · simp [edgeRoute, hself, List.lookup, beq_false_of_ne (Ne.symm hself)]
    · simp [edgeRoute]

/-- The path that is chosen between two nodes, if one leads from the first to the second. -/
def LinkState.path (s : LinkState) (u v : NodeId) : Option (List (NodeId × NodeId)) :=
  cheapest s.weight s.nodes.reverse u v

/-- **Each route of the table describes the path that is chosen.** -/
theorem init_shows (hi : s.nodes[i]? = some u) (hj : s.nodes[j]? = some v) (hij : i ≠ j) :
    Shows s.weight self (s.path u v) ((init self s).routes (i, j)) := by
  have h := (showsAll_edges s self).passes s.nodup (le_refl s.nodes.length)
  rw [List.take_length] at h
  exact h hi hj hij

/-- The route from a node to itself is the one it was before the first pass. -/
theorem init_self (hi : s.nodes[i]? = some u) (hw : s.weight u u = none) :
    ((init self s).routes (i, i)).forwarder = none := by
  have hpass : ∀ n routes, (List.range n).foldl (relaxThrough s.nodes) routes (i, i) = routes (i, i) := by
    intro n routes
    induction n with
    | zero => rfl
    | succ n ih =>
      rw [List.range_succ, List.foldl_append, List.foldl_cons, List.foldl_nil, relaxThrough_apply]
      split
      · simp [relaxed, relaxRoute, ih]
      · exact ih
  have hedge : s.edges.find? (fun e => e.src = u ∧ e.dst = u ∧ e.cost ≠ -1) = none := by
    simpa [LinkState.weight] using hw
  have hroute : (init self s).routes (i, i) = s.edges.foldl (fillEdge self s.nodes) initRoutes (i, i) := hpass _ _
  rw [hroute, fillEdge_foldl hi hi (List.Subset.refl _) s.keys, hedge]
  simp [initRoutes]

end Init

/-! ## Routes between nodes -/

section Paths

variable {s : LinkState} {self u v : NodeId} {p hs : List (NodeId × NodeId)} {S : Set NodeId}

theorem LinkState.mem_of_weight (h : (s.weight u v).isSome) : u ∈ s.nodes ∧ v ∈ s.nodes := by
  rw [LinkState.weight, Option.isSome_map] at h
  obtain ⟨e, he⟩ := Option.isSome_iff_exists.mp h
  have hmatch : e.src = u ∧ e.dst = v ∧ e.cost ≠ -1 := by simpa using List.find?_some he
  obtain ⟨rfl, rfl, _⟩ := hmatch
  exact s.ends e (List.mem_of_find?_eq_some he)

theorem via_mem (h : Via s.weight S u hs v) : u ∈ s.nodes ∧ v ∈ s.nodes := by
  induction h with
  | hop hw => exact LinkState.mem_of_weight hw
  | cons hw _ _ ih => exact ⟨(LinkState.mem_of_weight hw).1, ih.2⟩

/-- Every walk is one through nodes of the link state. -/
theorem via_nodes (h : Via s.weight S u hs v) : Via s.weight {x | x ∈ s.nodes.reverse} u hs v := by
  induction h with
  | hop hw => exact .hop hw
  | cons hw _ _ ih => exact .cons hw (List.mem_reverse.mpr (LinkState.mem_of_weight hw).2) ih

theorem LinkState.nodup_reverse (s : LinkState) : s.nodes.reverse.Nodup := List.nodup_reverse.mpr s.nodup

theorem path_via (h : s.path u v = some p) : Via s.weight {x | x ∈ s.nodes.reverse} u p v := cheapest_via h

theorem findRoute_eq (hu : u ∈ s.nodes) (hv : v ∈ s.nodes) :
    (init self s).findRoute u v = some ((init self s).routes (s.nodes.idxOf u, s.nodes.idxOf v)) := by
  simp [Regime.findRoute, Regime.getNodeIndex, init, hu, hv]

theorem getElem?_idxOf {x : NodeId} (hx : x ∈ s.nodes) : s.nodes[s.nodes.idxOf x]? = some x := by
  rw [List.getElem?_eq_getElem (List.idxOf_lt_length_of_mem hx), List.getElem_idxOf]

theorem findRoute_shows (self : NodeId) (hu : u ∈ s.nodes) (hv : v ∈ s.nodes) (hne : u ≠ v) :
    ∃ r, (init self s).findRoute u v = some r ∧ Shows s.weight self (s.path u v) r := by
  refine ⟨_, findRoute_eq hu hv, init_shows (getElem?_idxOf hu) (getElem?_idxOf hv) fun heq => hne ?_⟩
  have hu' := getElem?_idxOf hu
  rw [heq, getElem?_idxOf hv, Option.some.injEq] at hu'
  exact hu'.symm

/-- A path passes through each node once, and so has fewer hops than there are nodes. -/
theorem path_simple (hne : u ≠ v) (h : s.path u v = some p) :
    (p.map Prod.fst ++ [v]).Nodup ∧ p.length < s.nodes.length := by
  obtain ⟨hnd, hv⟩ := cheapest_simple hne h
  have hnodup : (p.map Prod.fst ++ [v]).Nodup := by
    rw [List.nodup_append']
    exact ⟨hnd, List.nodup_singleton v, by simpa using hv⟩
  refine ⟨hnodup, ?_⟩
  have hsub : p.map Prod.fst ++ [v] ⊆ s.nodes := by
    intro x hx
    rcases List.mem_append.mp hx with hx | hx
    · rcases (path_via h).mem_fst hx with rfl | hin
      · exact (via_mem (path_via h)).1
      · exact List.mem_reverse.mp hin
    · rw [List.mem_singleton.mp hx]
      exact (via_mem (path_via h)).2
  have := (List.subperm_of_subset hnodup hsub).length_le
  simp only [List.length_append, List.length_map, List.length_cons, List.length_nil] at this
  omega

/-- **Every daemon finds the same path between two nodes, and it is a cheapest one**; the next
hop it notes is the one after itself. Without a path every daemon notes that there is none. -/
theorem findRoute_cheapest (hu : u ∈ s.nodes) (hv : v ∈ s.nodes) (hne : u ≠ v) :
    ((∀ hs, ¬Via s.weight Set.univ u hs v) ∧ ∀ self, (init self s).findRoute u v = some noRoute) ∨
      ∃ p, Via s.weight Set.univ u p v ∧ (p.map Prod.fst ++ [v]).Nodup ∧ p.length < s.nodes.length ∧
        (∀ hs, Via s.weight Set.univ u hs v → total s.weight p ≤ total s.weight hs) ∧
        ∀ self, ∃ r, (init self s).findRoute u v = some r ∧ Describes s.weight self p r := by
  cases hp : s.path u v with
  | none =>
    refine .inl ⟨fun hs h => (cheapest_eq_none hne).mp hp hs (via_nodes h), fun self => ?_⟩
    obtain ⟨r, hr, hshow⟩ := findRoute_shows self hu hv hne
    rw [hp] at hshow
    rw [hr, show r = noRoute from hshow]
  | some p =>
    obtain ⟨hnd, hlen⟩ := path_simple hne hp
    refine .inr ⟨p, (path_via hp).mono (Set.subset_univ _), hnd, hlen, fun hs h => ?_, fun self => ?_⟩
    · obtain ⟨q, hq, hle⟩ := cheapest_le hne (via_nodes h)
      rw [← LinkState.path, hp, Option.some.injEq] at hq
      exact hq ▸ hle
    · obtain ⟨r, hr, hshow⟩ := findRoute_shows self hu hv hne
      rw [hp] at hshow
      exact ⟨r, hr, hshow⟩

section Examples

/-- The direct edge from 1 to 3 costs more than the way over 2, and the one back is down. -/
def triangle : LinkState where
  nodes := [1, 2, 3]
  edges := [⟨1, 3, 7⟩, ⟨1, 2, 1⟩, ⟨2, 3, -4⟩, ⟨3, 1, -1⟩]
  sorted := by decide
  ends := by decide
  keys := by decide

theorem triangle_cheapest :
    ((∀ hs, ¬Via triangle.weight Set.univ 1 hs 3) ∧ ∀ self, (init self triangle).findRoute 1 3 = some noRoute) ∨
      ∃ p, Via triangle.weight Set.univ 1 p 3 ∧ (p.map Prod.fst ++ [3]).Nodup ∧ p.length < triangle.nodes.length ∧
        (∀ hs, Via triangle.weight Set.univ 1 hs 3 → total triangle.weight p ≤ total triangle.weight hs) ∧
        ∀ self, ∃ r, (init self triangle).findRoute 1 3 = some r ∧ Describes triangle.weight self p r :=
  findRoute_cheapest (by decide) (by decide) (by decide)

example : (init 2 triangle).findRoute 1 3 = some ⟨2, 5, some 3, 2⟩ := by decide

end Examples

/-- The next hop of a daemon on the path is the one after it. -/
theorem getNextHop_eq (hne : u ≠ v) : (init self s).getNextHop u v = (s.path u v).bind fun p => p.lookup self := by
  by_cases hmem : u ∈ s.nodes ∧ v ∈ s.nodes
  · obtain ⟨r, hr, hshow⟩ := findRoute_shows self hmem.1 hmem.2 hne
    rw [Regime.getNextHop, hr, Option.bind_some]
    cases hp : s.path u v with
    | none =>
      rw [hp] at hshow
      rw [show r = noRoute from hshow]
      rfl
    | some p =>
      rw [hp] at hshow
      exact Describes.forwarder hshow
  · have hpath : s.path u v = none := by
      rw [LinkState.path, cheapest_eq_none hne]
      exact fun hs h => hmem (via_mem h)
    rw [hpath, Regime.getNextHop, Regime.findRoute, Regime.getNodeIndex, Regime.getNodeIndex]
    by_cases hu : u ∈ s.nodes
    · have hv : v ∉ s.nodes := fun hv => hmem ⟨hu, hv⟩
      simp [init, hu, hv]
    · simp [init, hu]

theorem getNextHop_self (hw : s.weight u u = none) : (init self s).getNextHop u u = none := by
  by_cases hu : u ∈ s.nodes
  · rw [Regime.getNextHop, findRoute_eq hu hu, Option.bind_some, init_self (getElem?_idxOf hu) hw]
  · simp [Regime.getNextHop, Regime.findRoute, Regime.getNodeIndex, init, hu]

end Paths

end Spire.Routing
