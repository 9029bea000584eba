import Spire.Lib.TreeCast
import Spire.RoutingTables

/-!
# Packets on minimum weight routes

Every daemon has computed its routes from the same link state. A packet that a client hands to
its daemon is then taken, sent on and delivered daemon by daemon, in any order, and copies of it
may be lost on the way. The daemons' next hops, for one source, lead down a tree, because a
path's first part is the path to where it ends. So a daemon takes a packet once at most, whether
it is sent to one node or to a group.
-/

namespace Spire.Routing

open Spire.Lib

/-- The copies of one packet that are on their way, those that were taken, and the daemons that
gave it to their clients. -/
structure Net where
  flying : Multiset (NodeId × Packet)
  taken : Multiset (NodeId × Packet)
  delivered : Multiset NodeId

section Runs

variable (s : LinkState) (nodeCost : NodeId → Int) (groups : Groups)

/-- `Is_Connected_Neighbor2`: there is an edge to the node, and it is not down. -/
def isConnectedNeighbor (self hop : NodeId) : Bool := (s.weight self hop).isSome

/-- The daemon `self` handles a packet. -/
def handle (self : NodeId) (pkt : Packet) : Option Handling :=
  deliverAndForward (init self s) self nodeCost (isConnectedNeighbor s self) groups pkt

inductive Step (lossy : Prop) : Net → Net → Prop
  | take {self : NodeId} {pkt : Packet} {rest taken : Multiset (NodeId × Packet)} {delivered : Multiset NodeId}
      {h : Handling} : handle s nodeCost groups self pkt = some h →
    Step lossy ⟨(self, pkt) ::ₘ rest, taken, delivered⟩
      ⟨rest + h.forwarded, (self, pkt) ::ₘ taken, if h.delivered then self ::ₘ delivered else delivered⟩
  | lose {x : NodeId × Packet} {rest taken : Multiset (NodeId × Packet)} {delivered : Multiset NodeId} : lossy →
    Step lossy ⟨x ::ₘ rest, taken, delivered⟩ ⟨rest, taken, delivered⟩

/-- A run, from the moment when a client of the source has handed over the packet. -/
abbrev Run (lossy : Prop) (pkt : Packet) (net : Net) : Prop :=
  Relation.ReflTransGen (Step s nodeCost groups lossy) ⟨{(pkt.source, pkt)}, 0, 0⟩ net

end Runs

/-! ## The tree of a source's next hops -/

section Tree

variable {s : LinkState} {src dst m m' u u' v here : NodeId}

/-- The hop from `u` to `v` is on the path that is chosen from the source to `m`. -/
def OnPath (s : LinkState) (src m u v : NodeId) : Prop :=
  src ≠ m ∧ ∃ a b, s.path src m = some (a ++ (u, v) :: b)

/-- The number of hops from the source. -/
def depth (s : LinkState) (src v : NodeId) : ℕ :=
  if v = src then 0 else ((s.path src v).map List.length).getD 0

theorem onPath_of_getNextHop (hne : src ≠ m) (h : (init here s).getNextHop src m = some v) : OnPath s src m here v := by
  rw [getNextHop_eq hne, Option.bind_eq_some_iff] at h
  obtain ⟨p, hp, hlook⟩ := h
  obtain ⟨a, b, rfl, _⟩ := List.lookup_eq_some_iff.mp hlook
  exact ⟨hne, a, b, hp⟩

theorem OnPath.getNextHop (h : OnPath s src m u v) : (init u s).getNextHop src m = some v := by
  obtain ⟨hne, a, b, hp⟩ := h
  rw [getNextHop_eq hne, hp, Option.bind_some]
  refine List.lookup_eq_some_iff.mpr ⟨a, b, rfl, fun x hx => ?_⟩
  have hnd := (cheapest_simple hne hp).1
  rw [List.map_append, List.map_cons] at hnd
  have hout := List.disjoint_of_nodup_append hnd (List.mem_map_of_mem hx)
  simp only [bne_iff_ne, ne_eq]
  rintro rfl
  exact hout List.mem_cons_self

theorem OnPath.hop (h : OnPath s src m u v) :
    v ≠ src ∧ ∃ a, s.path src v = some (a ++ [(u, v)]) ∧ (u = src ∧ a = [] ∨ u ≠ src ∧ s.path src u = some a) := by
  obtain ⟨hne, a, b, hp⟩ := h
  obtain ⟨hv, hpath, hu⟩ := cheapest_hop s.nodup_reverse hne hp
  exact ⟨hv, a, hpath, hu⟩

theorem OnPath.weight (h : OnPath s src m u v) : (s.weight u v).isSome := by
  obtain ⟨_, _, _, hp⟩ := h
  exact (path_via hp).weight (by simp)

/-- Whatever the paths lead to, a node is entered from one node only. -/
theorem OnPath.parent (h : OnPath s src m u v) (h' : OnPath s src m' u' v) : u = u' := by
  obtain ⟨_, a, hp, _⟩ := h.hop
  obtain ⟨_, a', hp', _⟩ := h'.hop
  rw [hp, Option.some.injEq] at hp'
  exact congrArg Prod.fst (List.singleton_inj.mp (List.append_inj' hp' rfl).2)

theorem OnPath.depth_eq (h : OnPath s src m u v) : depth s src v = depth s src u + 1 := by
  obtain ⟨hv, a, hp, hu⟩ := h.hop
  rcases hu with ⟨rfl, rfl⟩ | ⟨hu, hpu⟩
  · simp [depth, hv, hp]
  · simp [depth, hv, hu, hp, hpu]

/-- Next hops of one source, whichever destinations they are for, make a tree. -/
theorem isTree_of_onPath {children : NodeId → List NodeId} (hnd : ∀ u, (children u).Nodup)
    (h : ∀ u v, v ∈ children u → ∃ m, OnPath s src m u v) : TreeCast.IsTree children src (depth s src) where
  nodup := hnd
  parent := by
    intro u u' v hv hv'
    obtain ⟨_, hpath⟩ := h u v hv
    obtain ⟨_, hpath'⟩ := h u' v hv'
    exact hpath.parent hpath'
  not_child := by
    intro u hsrc
    obtain ⟨_, hpath⟩ := h u src hsrc
    exact hpath.hop.1 rfl
  depth_root := by simp [depth]
  depth_child := by
    intro u v hv
    obtain ⟨_, hpath⟩ := h u v hv
    exact hpath.depth_eq

end Tree

/-! ## What a daemon does with a packet -/

section Handle

variable {s : LinkState} {nodeCost : NodeId → Int} {groups : Groups} {src dest here : NodeId} {ttl : Nat}

/-- Where the daemon `here` sends packets between the two addresses. -/
def nextHops (s : LinkState) (nodeCost : NodeId → Int) (groups : Groups) (src dest here : NodeId) : List NodeId :=
  if !isMcastAddr dest && !isAcastAddr dest then
    if dest ≠ here then ((init here s).getNextHop src dest).toList else []
  else (getMcastNeighbors (init here s) here nodeCost groups src dest).getD []

/-- Whether the daemon `here` has clients that packets to the address are for. -/
def isFinal (groups : Groups) (dest here : NodeId) : Bool :=
  if !isMcastAddr dest && !isAcastAddr dest then dest == here else isMember here groups dest

theorem handle_eq (hself : here ∉ nextHops s nodeCost groups src dest here)
    (hup : ∀ v ∈ nextHops s nodeCost groups src dest here, isConnectedNeighbor s here v) :
    handle s nodeCost groups here ⟨src, dest, ttl⟩ =
      some { delivered := decide (0 < ttl) && isFinal groups dest here
             forwarded := (if 1 < ttl then nextHops s nodeCost groups src dest here else []).map fun hop => (hop, ⟨src, dest, ttl - 1⟩) } := by
  have hlt : 0 < ttl - 1 ↔ 1 < ttl := by omega
  unfold handle deliverAndForward
  by_cases hzero : ttl = 0
  · simp [hzero]
  rw [if_neg hzero]
  simp only [hlt, isFinal, decide_eq_true (Nat.pos_of_ne_zero hzero), Bool.true_and]
  by_cases haddr : (!isMcastAddr dest && !isAcastAddr dest) = true
  · have hhops : nextHops s nodeCost groups src dest here =
        if dest ≠ here then ((init here s).getNextHop src dest).toList else [] := by rw [nextHops, if_pos haddr]
    have heq : (if dest ≠ here ∧ 1 < ttl then ((init here s).getNextHop src dest).toList else []) =
        if 1 < ttl then nextHops s nodeCost groups src dest here else [] := by
      rw [hhops]
      split_ifs <;> simp_all
    rw [if_pos haddr, if_pos haddr, heq, if_neg]
    split
    · exact hself
    · simp
  · have hhops : nextHops s nodeCost groups src dest here =
        (getMcastNeighbors (init here s) here nodeCost groups src dest).getD [] := by rw [nextHops, if_neg haddr]
    rw [if_neg haddr, if_neg haddr, ← hhops, if_neg]
    · congr 2
      split
      · rw [List.filter_eq_self.mpr hup]
      · rfl
    · split
      · exact hself
      · simp

end Handle

/-! ## Neighbors for a group -/

section Neighbors

variable {rr : Regime} {self sender group v : NodeId} {nodeCost : NodeId → Int} {states : List GroupState}
  {neighbors : List NodeId} {best : Option NodeId}

theorem mem_put {hop : NodeId} : v ∈ put neighbors hop ↔ v ∈ neighbors ∨ v = hop := by
  unfold put
  split
  · constructor
    · exact .inl
    · rintro (h | rfl)
      · exact h
      · assumption
  · simp

theorem put_nodup {hop : NodeId} (h : neighbors.Nodup) : (put neighbors hop).Nodup := by
  unfold put
  split
  · exact h
  · rename_i hout
    rw [List.nodup_append']
    exact ⟨h, List.nodup_singleton hop, by simpa using hout⟩

theorem not_acast_of_mcast (h : isMcastAddr group = true) : isAcastAddr group = false := by
  simp only [isMcastAddr, isAcastAddr, Bool.or_eq_true, beq_iff_eq] at h ⊢
  rcases h with h | h
  · simp [h]
  · simp [h]

section Turns

variable {g : GroupState} {gs : List GroupState}

theorem neighborsLoop_inactive (h : g.active = false) :
    neighborsLoop rr self nodeCost sender group (g :: gs) neighbors best =
      neighborsLoop rr self nodeCost sender group gs neighbors best := by
  simp [neighborsLoop, h]

theorem neighborsLoop_final (ha : g.active = true) (h : isAcastAddr group = true) (hg : g.node = self) :
    neighborsLoop rr self nodeCost sender group (g :: gs) neighbors best = (neighbors, none) := by
  simp [neighborsLoop, ha, h, hg]

theorem neighborsLoop_no_hop (h : isAcastAddr group = true → g.node ≠ self) (hhop : rr.getNextHop sender g.node = none) :
    neighborsLoop rr self nodeCost sender group (g :: gs) neighbors best =
      neighborsLoop rr self nodeCost sender group gs neighbors best := by
  have : ¬(isAcastAddr group = true ∧ g.node = self) := fun hboth => h hboth.1 hboth.2
  simp [neighborsLoop, this, hhop]

theorem neighborsLoop_mcast_hop {hop : NodeId} (ha : g.active = true) (h : isMcastAddr group = true)
    (hhop : rr.getNextHop sender g.node = some hop) :
    neighborsLoop rr self nodeCost sender group (g :: gs) neighbors best =
      neighborsLoop rr self nodeCost sender group gs (put neighbors hop) best := by
  simp [neighborsLoop, ha, h, not_acast_of_mcast h, hhop]

theorem neighborsLoop_acast_hop {hop : NodeId} (ha : g.active = true) (h : isAcastAddr group = true)
    (hm : isMcastAddr group = false) (hg : g.node ≠ self) (hhop : rr.getNextHop sender g.node = some hop) :
    neighborsLoop rr self nodeCost sender group (g :: gs) neighbors best =
      neighborsLoop rr self nodeCost sender group gs neighbors (betterHop nodeCost best hop) := by
  simp [neighborsLoop, ha, h, hm, hg, hhop]

end Turns

/-- The neighbors for a multicast group are the next hops to its members. -/
theorem neighborsLoop_mcast (h : isMcastAddr group = true) (hnd : neighbors.Nodup) {r : List NodeId × Option NodeId}
    (hr : neighborsLoop rr self nodeCost sender group states neighbors best = r) :
    r.1.Nodup ∧ r.2 = best ∧
      ∀ v, v ∈ r.1 ↔ v ∈ neighbors ∨ ∃ g ∈ states, g.active = true ∧ rr.getNextHop sender g.node = some v := by
  subst hr
  induction states generalizing neighbors with
  | nil => simpa [neighborsLoop] using hnd
  | cons g gs ih =>
    cases hactive : g.active with
    | false =>
      rw [neighborsLoop_inactive hactive]
      simpa [hactive] using ih hnd
    | true =>
      cases hhop : rr.getNextHop sender g.node with
      | none =>
        rw [neighborsLoop_no_hop (fun ha => by simp [not_acast_of_mcast h] at ha) hhop]
        simpa [hhop] using ih hnd
      | some hop =>
        rw [neighborsLoop_mcast_hop hactive h hhop]
        obtain ⟨hn, hb, hm⟩ := ih (put_nodup hnd)
        refine ⟨hn, hb, fun v => ?_⟩
        rw [hm, mem_put]
        simp [hactive, hhop, or_assoc, eq_comm (a := hop)]

theorem betterHop_ne_none {hop : NodeId} : betterHop nodeCost best hop ≠ none := by
  unfold betterHop
  split
  · simp
  · split <;> simp

theorem betterHop_eq_some {hop : NodeId} (h : betterHop nodeCost best hop = some v) : best = some v ∨ hop = v := by
  unfold betterHop at h
  split at h
  · exact .inr (Option.some.inj h)
  · split at h
    · exact .inr (Option.some.inj h)
    · exact .inl h

section Acast

variable (h : isAcastAddr group = true) (hm : isMcastAddr group = false)

include h hm

/-- The loop for an anycast group, in the five ways a turn of it can go. -/
theorem neighborsLoop_acast {motive : List GroupState → Option NodeId → List NodeId × Option NodeId → Prop}
    (hnil : ∀ best, motive [] best (neighbors, best))
    (hfinal : ∀ g gs best, g.active = true → g.node = self → motive (g :: gs) best (neighbors, none))
    (hskip : ∀ g gs best r, (g.active = true → g.node ≠ self ∧ rr.getNextHop sender g.node = none) →
      motive gs best r → motive (g :: gs) best r)
    (hhop : ∀ g gs best hop r, g.active = true → g.node ≠ self → rr.getNextHop sender g.node = some hop →
      motive gs (betterHop nodeCost best hop) r → motive (g :: gs) best r) :
    motive states best (neighborsLoop rr self nodeCost sender group states neighbors best) := by
  induction states generalizing best with
  | nil => exact hnil best
  | cons g gs ih =>
    cases hactive : g.active with
    | false =>
      rw [neighborsLoop_inactive hactive]
      exact hskip g gs best _ (by simp [hactive]) ih
    | true =>
      by_cases hself : g.node = self
      · rw [neighborsLoop_final hactive h hself]
        exact hfinal g gs best hactive hself
      · cases hnext : rr.getNextHop sender g.node with
        | none =>
          rw [neighborsLoop_no_hop (fun _ => hself) hnext]
          exact hskip g gs best _ (fun _ => ⟨hself, hnext⟩) ih
        | some hop =>
          rw [neighborsLoop_acast_hop hactive h hm hself hnext]
          exact hhop g gs best hop _ hactive hself hnext ih

/-- Nothing is left at a member of an anycast group, and elsewhere one next hop to some member,
if one has a next hop. -/
theorem neighborsLoop_acast_spec {r : List NodeId × Option NodeId}
    (hr : neighborsLoop rr self nodeCost sender group states neighbors best = r) :
    r.1 = neighbors ∧ ((∃ g ∈ states, g.active = true ∧ g.node = self) → r.2 = none) ∧
      (r.2 = none → (∃ g ∈ states, g.active = true ∧ g.node = self) ∨
        best = none ∧ ∀ g ∈ states, g.active = true → rr.getNextHop sender g.node = none) ∧
      ∀ v, r.2 = some v → best = some v ∨ ∃ g ∈ states, g.active = true ∧ rr.getNextHop sender g.node = some v := by
  subst hr
  apply neighborsLoop_acast h hm
    (motive := fun states best r => r.1 = neighbors ∧
      ((∃ g ∈ states, g.active = true ∧ g.node = self) → r.2 = none) ∧
      (r.2 = none → (∃ g ∈ states, g.active = true ∧ g.node = self) ∨
        best = none ∧ ∀ g ∈ states, g.active = true → rr.getNextHop sender g.node = none) ∧
      ∀ v, r.2 = some v → best = some v ∨ ∃ g ∈ states, g.active = true ∧ rr.getNextHop sender g.node = some v)
  case hnil => simp
  case hfinal =>
    intro g gs best ha hself
    simp [ha, hself]
  case hskip =>
    intro g gs best r hg ⟨hsame, hfinal, hnone, hsome⟩
    refine ⟨hsame, ?_, ?_, ?_⟩
    · rintro ⟨g', hmem, ha, hself⟩
      rcases List.mem_cons.mp hmem with rfl | hmem
      · exact absurd hself (hg ha).1
      · exact hfinal ⟨g', hmem, ha, hself⟩
    · intro hr
      rcases hnone hr with ⟨g', hmem, hg'⟩ | ⟨hb, hall⟩
      · exact .inl ⟨g', List.mem_cons_of_mem g hmem, hg'⟩
      · refine .inr ⟨hb, fun g' hmem ha => ?_⟩
        rcases List.mem_cons.mp hmem with rfl | hmem
        · exact (hg ha).2
        · exact hall g' hmem ha
    · intro v hv
      rcases hsome v hv with hb | ⟨g', hmem, hg'⟩
      · exact .inl hb
      · exact .inr ⟨g', List.mem_cons_of_mem g hmem, hg'⟩
  case hhop =>
    intro g gs best hop r ha hself hnext ⟨hsame, hfinal, hnone, hsome⟩
    refine ⟨hsame, ?_, ?_, ?_⟩
    · rintro ⟨g', hmem, ha', hself'⟩
      rcases List.mem_cons.mp hmem with rfl | hmem
      · exact absurd hself' hself
      · exact hfinal ⟨g', hmem, ha', hself'⟩
    · intro hr
      rcases hnone hr with ⟨g', hmem, hg'⟩ | ⟨hb, _⟩
      · exact .inl ⟨g', List.mem_cons_of_mem g hmem, hg'⟩
      · exact absurd hb betterHop_ne_none
    · intro v hv
      rcases hsome v hv with hb | ⟨g', hmem, hg'⟩
      · rcases betterHop_eq_some hb with hb | rfl
        · exact .inl hb
        · exact .inr ⟨g, List.mem_cons_self, ha, hnext⟩
      · exact .inr ⟨g', List.mem_cons_of_mem g hmem, hg'⟩

end Acast

variable {groups : Groups}

theorem getMcastNeighbors_mcast (hg : groups group = some states) (h : isMcastAddr group = true) :
    ∃ hops, getMcastNeighbors rr self nodeCost groups sender group = some hops ∧ hops.Nodup ∧
      ∀ v, v ∈ hops ↔ ∃ g ∈ states, g.active = true ∧ rr.getNextHop sender g.node = some v := by
  rw [getMcastNeighbors, hg, Option.map_some]
  cases hr : neighborsLoop rr self nodeCost sender group states [] none with
  | mk hops best =>
    obtain ⟨hnd, rfl, hmem⟩ := neighborsLoop_mcast h List.nodup_nil hr
    exact ⟨hops, rfl, hnd, fun v => by simpa using hmem v⟩

theorem getMcastNeighbors_acast (hg : groups group = some states) (h : isAcastAddr group = true)
    (hm : isMcastAddr group = false) :
    ∃ best : Option NodeId, getMcastNeighbors rr self nodeCost groups sender group = some best.toList ∧
      ((∃ g ∈ states, g.active = true ∧ g.node = self) → best = none) ∧
      (best = none → (∃ g ∈ states, g.active = true ∧ g.node = self) ∨
        ∀ g ∈ states, g.active = true → rr.getNextHop sender g.node = none) ∧
      ∀ v, best = some v → ∃ g ∈ states, g.active = true ∧ rr.getNextHop sender g.node = some v := by
  rw [getMcastNeighbors, hg, Option.map_some]
  cases hr : neighborsLoop rr self nodeCost sender group states [] none with
  | mk hops best =>
    obtain ⟨rfl, hfinal, hnone, hsome⟩ := neighborsLoop_acast_spec h hm hr
    refine ⟨best, ?_, hfinal, fun hb => (hnone hb).imp_right And.right, fun v hv => ?_⟩
    · cases best with
      | none => rfl
      | some hop => simp [h, put]
    · simpa using hsome v hv

end Neighbors

/-! ## The next hops lead to the destinations -/

section NextHops

variable {s : LinkState} {nodeCost : NodeId → Int} {groups : Groups} {src dest here v m : NodeId}

theorem isFinal_group (h : (!isMcastAddr dest && !isAcastAddr dest) = false) :
    isFinal groups dest m = true ↔ ∃ states, groups dest = some states ∧ ∃ g ∈ states, g.active = true ∧ g.node = m := by
  rw [isFinal, h, if_neg (by simp), isMember]
  cases groups dest with
  | none => simp
  | some states => simp [and_comm]

/-- A next hop to another daemon is on the path to it. -/
theorem onPath_iff (hself : s.weight src src = none) : (init here s).getNextHop src m = some v ↔ OnPath s src m here v := by
  constructor
  · intro h
    refine onPath_of_getNextHop (fun heq => ?_) h
    rw [← heq, getNextHop_self hself] at h
    cases h
  · exact OnPath.getNextHop

/-- Packets for a node go along the path to it, and those for a multicast group along the paths
to its members. -/
theorem mem_nextHops (hself : s.weight src src = none) (hdest : isAcastAddr dest = false) :
    v ∈ nextHops s nodeCost groups src dest here ↔ ∃ m, isFinal groups dest m = true ∧ OnPath s src m here v := by
  cases hmcast : isMcastAddr dest with
  | false =>
    have hnode : (!isMcastAddr dest && !isAcastAddr dest) = true := by simp [hmcast, hdest]
    simp only [nextHops, isFinal, if_pos hnode]
    split
    · simp [Option.mem_toList, onPath_iff hself]
    · rename_i heq
      have heq : dest = here := not_not.mp heq
      subst heq
      simp only [List.not_mem_nil, beq_iff_eq, exists_eq_left', false_iff]
      rintro ⟨hne, a, b, hp⟩
      exact (cheapest_simple hne hp).2 (by simp)
  | true =>
    have hgroup : (!isMcastAddr dest && !isAcastAddr dest) = false := by simp [hmcast]
    simp only [isFinal_group hgroup, nextHops, hgroup, Bool.false_eq_true, if_false]
    cases hg : groups dest with
    | none => simp [getMcastNeighbors, hg]
    | some states =>
      have hlist : ∃ hops, getMcastNeighbors (init here s) here nodeCost groups src dest = some hops ∧ _ :=
        getMcastNeighbors_mcast hg hmcast
      obtain ⟨hops, heq, _, hmem⟩ := hlist
      rw [heq, Option.getD_some, hmem]
      constructor
      · rintro ⟨g, hin, ha, hhop⟩
        exact ⟨g.node, ⟨states, rfl, g, hin, ha, rfl⟩, (onPath_iff hself).mp hhop⟩
      · rintro ⟨_, ⟨_, ⟨⟩, g, hin, ha, rfl⟩, hpath⟩
        exact ⟨g, hin, ha, hpath.getNextHop⟩

/-- An anycast packet is not sent on by a member of the group. Another daemon sends it towards
one member, if the paths to some lead over it. -/
theorem nextHops_acast (hself : s.weight src src = none) (hdest : isAcastAddr dest = true) (hmcast : isMcastAddr dest = false) :
    ∃ best : Option NodeId, nextHops s nodeCost groups src dest here = best.toList ∧
      (isFinal groups dest here = true → best = none) ∧
      (best = none → isFinal groups dest here = true ∨ ∀ m v, isFinal groups dest m = true → ¬OnPath s src m here v) ∧
      ∀ v, best = some v → ∃ m, isFinal groups dest m = true ∧ OnPath s src m here v := by
  have hgroup : (!isMcastAddr dest && !isAcastAddr dest) = false := by simp [hdest]
  simp only [isFinal_group hgroup, nextHops, hgroup, Bool.false_eq_true, if_false]
  cases hg : groups dest with
  | none => exact ⟨none, by simp [getMcastNeighbors, hg]⟩
  | some states =>
    have hlist : ∃ best : Option NodeId, getMcastNeighbors (init here s) here nodeCost groups src dest = some best.toList ∧ _ :=
      getMcastNeighbors_acast hg hdest hmcast
    obtain ⟨best, heq, hfinal, hnone, hsome⟩ := hlist
    refine ⟨best, by rw [heq, Option.getD_some], ?_, ?_, ?_⟩
    · rintro ⟨_, ⟨⟩, hg⟩
      exact hfinal hg
    · intro hb
      refine (hnone hb).imp (fun hg => ⟨states, rfl, hg⟩) ?_
      rintro hall m v ⟨_, ⟨⟩, g, hin, ha, rfl⟩ hpath
      have := hall g hin ha
      rw [hpath.getNextHop] at this
      cases this
    · intro v hv
      obtain ⟨g, hin, ha, hhop⟩ := hsome v hv
      exact ⟨g.node, ⟨states, rfl, g, hin, ha, rfl⟩, (onPath_iff hself).mp hhop⟩

theorem option_toList_nodup {α : Type*} (o : Option α) : o.toList.Nodup := by
  cases o <;> simp

theorem nextHops_nodup : (nextHops s nodeCost groups src dest here).Nodup := by
  unfold nextHops
  split
  · split
    · exact option_toList_nodup _
    · exact List.nodup_nil
  · rename_i hnode
    cases hg : groups dest with
    | none => simp [getMcastNeighbors, hg]
    | some states =>
      cases hmcast : isMcastAddr dest with
      | true =>
        have hlist : ∃ hops, getMcastNeighbors (init here s) here nodeCost groups src dest = some hops ∧ _ :=
          getMcastNeighbors_mcast hg hmcast
        obtain ⟨hops, heq, hnd, _⟩ := hlist
        rw [heq]
        exact hnd
      | false =>
        have hlist : ∃ best : Option NodeId, getMcastNeighbors (init here s) here nodeCost groups src dest = some best.toList ∧ _ :=
          getMcastNeighbors_acast hg (by simpa [hmcast] using hnode) hmcast
        obtain ⟨best, heq, _⟩ := hlist
        rw [heq]
        exact option_toList_nodup best

/-- Whatever the address, a packet goes along paths from its source. -/
theorem onPath_of_mem_nextHops (hself : s.weight src src = none) (h : v ∈ nextHops s nodeCost groups src dest here) :
    ∃ m, isFinal groups dest m = true ∧ OnPath s src m here v := by
  cases hdest : isAcastAddr dest with
  | false => exact (mem_nextHops hself hdest).mp h
  | true =>
    cases hmcast : isMcastAddr dest with
    | true => simp [not_acast_of_mcast hmcast] at hdest
    | false =>
      have hbest : ∃ best : Option NodeId, nextHops s nodeCost groups src dest here = best.toList ∧ _ :=
        nextHops_acast hself hdest hmcast
      obtain ⟨best, heq, _, _, hsome⟩ := hbest
      rw [heq, Option.mem_toList] at h
      exact hsome v h

theorem isTree_nextHops (hself : s.weight src src = none) :
    TreeCast.IsTree (nextHops s nodeCost groups src dest) src (depth s src) := by
  refine isTree_of_onPath (fun u => nextHops_nodup) fun u v hv => ?_
  obtain ⟨m, _, hpath⟩ := onPath_of_mem_nextHops hself hv
  exact ⟨m, hpath⟩

end NextHops

/-! ## Runs -/

section Delivery

variable {s : LinkState} {nodeCost : NodeId → Int} {groups : Groups} {src dest : NodeId} {ttl : Nat} {lossy : Prop}
  {net net' : Net}

/-- The copies without what is the same in all of them. -/
def Net.toTree (net : Net) : TreeCast.Net NodeId where
  flying := net.flying.map fun x => (x.1, x.2.ttl)
  taken := net.taken.map fun x => (x.1, x.2.ttl)

/-- All copies are of one packet, and the daemons that delivered it took it and have clients for it. -/
structure Copies (groups : Groups) (src dest : NodeId) (net : Net) : Prop where
  same : ∀ x ∈ net.flying + net.taken, x.2 = ⟨src, dest, x.2.ttl⟩
  delivered : net.delivered = (net.taken.filter fun x => 0 < x.2.ttl ∧ isFinal groups dest x.1 = true).map Prod.fst

/-- A daemon handles a copy without failing an assertion. -/
theorem handle_copy (hself : s.weight src src = none) (here : NodeId) (t : Nat) :
    handle s nodeCost groups here ⟨src, dest, t⟩ =
      some { delivered := decide (0 < t) && isFinal groups dest here
             forwarded := (if 1 < t then nextHops s nodeCost groups src dest here else []).map fun hop => (hop, ⟨src, dest, t - 1⟩) } := by
  apply handle_eq
  · intro hmem
    obtain ⟨m, _, hpath⟩ := onPath_of_mem_nextHops hself hmem
    have := hpath.depth_eq
    omega
  · intro v hv
    obtain ⟨m, _, hpath⟩ := onPath_of_mem_nextHops hself hv
    exact hpath.weight

theorem toTree_sends {children : NodeId → List NodeId} (here : NodeId) (t : Nat) :
    Multiset.map (fun x : NodeId × Packet => (x.1, x.2.ttl))
        (((if 1 < t then children here else []).map fun hop => (hop, ⟨src, dest, t - 1⟩) : List (NodeId × Packet))) =
      TreeCast.sends children (here, t) := by
  unfold TreeCast.sends
  split
  · simp only [Multiset.map_coe, List.map_map]
    rfl
  · rfl

/-- A step of the daemons is one of copies that travel down the tree. -/
theorem Copies.step (hself : s.weight src src = none) (h : Copies groups src dest net)
    (hstep : Step s nodeCost groups lossy net net') :
    Copies groups src dest net' ∧
      TreeCast.Step (nextHops s nodeCost groups src dest) lossy net.toTree net'.toTree := by
  cases hstep with
  | @take here pkt rest taken delivered handled hhandle =>
    have hpkt := h.same (here, pkt) (by simp)
    simp only at hpkt
    rw [hpkt, handle_copy hself, Option.some.injEq] at hhandle
    subst hhandle
    refine ⟨⟨?_, ?_⟩, ?_⟩
    · intro x hx
      simp only [Multiset.mem_add, Multiset.mem_coe, List.mem_map] at hx
      rcases hx with (hx | ⟨hop, _, rfl⟩) | hx
      · exact h.same x (by simp [hx])
      · rfl
      · exact h.same x (by
          rcases Multiset.mem_cons.mp hx with rfl | hx
          · simp
          · simp [hx])
    · have hold := h.delivered
      simp only at hold
      simp only [Bool.and_eq_true, decide_eq_true_eq]
      rw [Multiset.filter_cons, hold]
      split <;> simp
    · simp only [Net.toTree, Multiset.map_cons, Multiset.map_add, toTree_sends]
      exact .take
  | @lose x rest taken delivered hlossy =>
    refine ⟨⟨fun x hx => h.same x ?_, h.delivered⟩, ?_⟩
    · simp only [Multiset.mem_add, Multiset.mem_cons] at hx ⊢
      tauto
    · simp only [Net.toTree, Multiset.map_cons]
      exact .lose hlossy

theorem Run.tree (hself : s.weight src src = none) (h : Run s nodeCost groups lossy ⟨src, dest, ttl⟩ net) :
    Copies groups src dest net ∧
      TreeCast.Run (nextHops s nodeCost groups src dest) lossy src ttl net.toTree := by
  induction h with
  | refl => exact ⟨⟨by simp, by simp⟩, .refl⟩
  | tail _ hstep ih =>
    obtain ⟨hcopies, hstep'⟩ := ih.1.step hself hstep
    exact ⟨hcopies, ih.2.tail hstep'⟩

/-- Where a copy was taken. -/
theorem toTree_taken : net.toTree.taken.map Prod.fst = net.taken.map Prod.fst := by
  simp [Net.toTree]

/-- **No daemon takes a packet twice, or delivers it twice or where nobody asked for it**,
whatever is lost; and no daemon fails an assertion, so that a copy that is on its way can be taken. -/
theorem taken_once (hself : s.weight src src = none) (h : Run s nodeCost groups lossy ⟨src, dest, ttl⟩ net) :
    (net.taken.map Prod.fst).Nodup ∧ net.delivered.Nodup ∧ (∀ v ∈ net.delivered, isFinal groups dest v = true) ∧
      (∀ x ∈ net.flying, ∃ net', Step s nodeCost groups lossy net net' ∧ x ∈ net'.taken) := by
  obtain ⟨hcopies, htree⟩ := h.tree hself
  have honce := htree.once (isTree_nextHops hself)
  rw [toTree_taken] at honce
  refine ⟨honce, ?_, ?_, ?_⟩
  · rw [hcopies.delivered]
    exact Multiset.nodup_of_le (Multiset.map_le_map (Multiset.filter_le _ _)) honce
  · intro v hv
    rw [hcopies.delivered] at hv
    obtain ⟨x, hx, rfl⟩ := Multiset.mem_map.mp hv
    exact (Multiset.mem_filter.mp hx).2.2
  · rintro ⟨here, pkt⟩ hx
    obtain ⟨flying, taken, delivered⟩ := net
    obtain ⟨rest, rfl⟩ := Multiset.exists_cons_of_mem hx
    have hpkt := hcopies.same (here, pkt) (by simp)
    simp only at hpkt
    refine ⟨_, .take (by rw [hpkt]; exact handle_copy hself here pkt.ttl), by simp⟩

/-! ## Where nothing is lost -/

/-- Next hops lead from the source over all of a path to a destination. -/
theorem OnPath.reach {m u v : NodeId} (hself : s.weight src src = none) (hdest : isAcastAddr dest = false)
    (hm : isFinal groups dest m = true) (h : OnPath s src m u v) :
    Relation.ReflTransGen (fun u v => v ∈ nextHops s nodeCost groups src dest u) src v := by
  -- on the hops before `u`
  obtain ⟨hne, a, b, hp⟩ := h
  induction a using List.reverseRecOn generalizing u v b with
  | nil =>
    have hstep : v ∈ nextHops s nodeCost groups src dest u := (mem_nextHops hself hdest).mpr ⟨m, hm, hne, [], b, hp⟩
    rw [← (path_via hp).first] at hstep
    exact .single hstep
  | append_singleton a x ih =>
    have hstep : v ∈ nextHops s nodeCost groups src dest u :=
      (mem_nextHops hself hdest).mpr ⟨m, hm, hne, a ++ [x], b, hp⟩
    obtain ⟨hsrc, hnil⟩ | ⟨_, hpath⟩ := (cheapest_hop s.nodup_reverse hne hp).2.2
    · simp at hnil
    · obtain rfl : u = x.2 := (path_via hpath).last
      exact (ih ((x.2, v) :: b) (by simpa using hp)).tail hstep

/-- The route to a node says how many hops the path has. -/
theorem short_iff {v : NodeId} (hne : src ≠ v) :
    (∃ r, (init src s).findRoute src v = some r ∧ 0 ≤ r.distance ∧ r.distance < ttl) ↔
      ∃ p, s.path src v = some p ∧ p.length < ttl := by
  constructor
  · rintro ⟨r, hr, hpos, hlt⟩
    have hmem : src ∈ s.nodes ∧ v ∈ s.nodes := by
      by_contra hno
      rw [not_and_or] at hno
      rcases hno with hno | hno
      · simp [Regime.findRoute, Regime.getNodeIndex, init, hno] at hr
      · by_cases hsrc : src ∈ s.nodes <;> simp [Regime.findRoute, Regime.getNodeIndex, init, hno, hsrc] at hr
    obtain ⟨r', hr', hshow⟩ := findRoute_shows src hmem.1 hmem.2 hne
    rw [hr, Option.some.injEq] at hr'
    subst hr'
    cases hp : s.path src v with
    | none =>
      rw [hp] at hshow
      rw [show r = noRoute from hshow] at hpos
      simp [noRoute] at hpos
    | some p =>
      rw [hp] at hshow
      have := Describes.distance hshow
      exact ⟨p, rfl, by omega⟩
  · rintro ⟨p, hp, hlt⟩
    obtain ⟨hsrc, hv⟩ := via_mem (path_via hp)
    obtain ⟨r, hr, hshow⟩ := findRoute_shows src hsrc hv hne
    rw [hp] at hshow
    have := Describes.distance hshow
    exact ⟨r, hr, by omega, by omega⟩

/-- A node that has been taken to is the source or has a path from it. -/
theorem path_of_reach {v : NodeId} (hself : s.weight src src = none) (hne : v ≠ src)
    (h : Relation.ReflTransGen (fun u v => v ∈ nextHops s nodeCost groups src dest u) src v) :
    ∃ m u, isFinal groups dest m = true ∧ OnPath s src m u v := by
  rcases Relation.ReflTransGen.cases_tail h with heq | ⟨u, _, hmem⟩
  · exact absurd heq hne
  · obtain ⟨m, hm, hpath⟩ := onPath_of_mem_nextHops hself hmem
    exact ⟨m, u, hm, hpath⟩

theorem mem_delivered_iff (hself : s.weight src src = none) (h : Run s nodeCost groups lossy ⟨src, dest, ttl⟩ net) {v : NodeId} :
    v ∈ net.delivered ↔ isFinal groups dest v = true ∧ 0 < ttl ∧ v ∈ net.taken.map Prod.fst := by
  obtain ⟨hcopies, htree⟩ := h.tree hself
  have hgood := htree.good (isTree_nextHops hself)
  rw [hcopies.delivered]
  simp only [Multiset.mem_map, Multiset.mem_filter]
  have hpos : ∀ x ∈ net.taken, (0 < x.2.ttl ↔ 0 < ttl) := by
    intro x hx
    have hx' : (x.1, x.2.ttl) ∈ net.toTree.flying + net.toTree.taken := by
      rw [Multiset.mem_add]
      exact .inr (Multiset.mem_map_of_mem (fun x : NodeId × Packet => (x.1, x.2.ttl)) hx)
    have hhops := hgood.hops _ hx'
    simp only at hhops
    rcases hgood.alive _ hx' with heq | halive
    · have : depth s src x.1 = 0 := by simp only at heq; simp [depth, heq]
      omega
    · simp only at halive
      omega
  constructor
  · rintro ⟨x, ⟨hx, ht, hfinal⟩, rfl⟩
    exact ⟨hfinal, (hpos x hx).mp ht, x, hx, rfl⟩
  · rintro ⟨hfinal, ht, x, hx, rfl⟩
    exact ⟨x, ⟨hx, (hpos x hx).mpr ht, hfinal⟩, rfl⟩

/-- **When nothing is on its way any more and nothing was lost, a node has got a packet that was
for it exactly if the route to it is short enough for the packet's time to live.** A multicast
packet reaches all members of its group, each in its own number of hops. -/
theorem delivered_in_reach (hself : s.weight src src = none) (hdest : isAcastAddr dest = false)
    (h : Run s nodeCost groups False ⟨src, dest, ttl⟩ net) (hrest : net.flying = 0) (v : NodeId) :
    v ∈ net.delivered ↔ isFinal groups dest v = true ∧ 0 < ttl ∧
      (v = src ∨ ∃ r, (init src s).findRoute src v = some r ∧ 0 ≤ r.distance ∧ r.distance < ttl) := by
  have htree := (h.tree hself).2
  have hrest' : net.toTree.flying = 0 := by simp [Net.toTree, hrest]
  rw [mem_delivered_iff hself h, ← toTree_taken, htree.taken_iff (isTree_nextHops hself) hrest']
  refine and_congr_right fun hfinal => and_congr_right fun _ => ?_
  by_cases hv : v = src
  · subst hv
    simp [Relation.ReflTransGen.refl]
  have hdepth : ∀ p, s.path src v = some p → depth s src v = p.length := fun p hp => by simp [depth, hv, hp]
  rw [short_iff (Ne.symm hv)]
  simp only [hv, false_or]
  constructor
  · rintro ⟨hreach, hlt⟩
    obtain ⟨_, _, _, hpath⟩ := path_of_reach hself hv hreach
    obtain ⟨_, a, hp, _⟩ := hpath.hop
    exact ⟨_, hp, (hdepth _ hp) ▸ hlt⟩
  · rintro ⟨p, hp, hlt⟩
    refine ⟨?_, (hdepth p hp).symm ▸ hlt⟩
    obtain rfl | ⟨a, ⟨u, v'⟩, rfl⟩ := List.eq_nil_or_concat' p
    · exact absurd rfl (path_via hp).ne_nil
    · obtain rfl := (path_via hp).last
      exact OnPath.reach hself hdest hfinal ⟨Ne.symm hv, a, [], hp⟩

/-- The nodes of a path come in the order of their depths. -/
theorem mem_vertices_iff {p : List (NodeId × NodeId)} {m v : NodeId} {n : Nat} (hne : src ≠ m) (hp : s.path src m = some p) :
    v ∈ (src :: p.map Prod.snd).take (n + 1) ↔ v = src ∨ (∃ u, OnPath s src m u v) ∧ depth s src v ≤ n := by
  have hpath : ∀ a b u, p = a ++ (u, v) :: b → v ≠ src ∧ depth s src v = a.length + 1 := by
    rintro a b u rfl
    obtain ⟨hv, hfront, _⟩ := cheapest_hop s.nodup_reverse hne hp
    refine ⟨hv, ?_⟩
    rw [← LinkState.path] at hfront
    simp [depth, hv, hfront]
  rw [List.take_succ_cons, List.mem_cons]
  refine or_congr_right ?_
  rw [← List.map_take, List.mem_map]
  constructor
  · rintro ⟨⟨u, x⟩, hmem, rfl⟩
    obtain ⟨a, b, hsplit⟩ := List.append_of_mem hmem
    have hall : p = a ++ (u, x) :: (b ++ p.drop n) := by
      rw [← List.cons_append, ← List.append_assoc, ← hsplit, List.take_append_drop]
    have hlen := congrArg List.length hsplit
    simp only [List.length_take, List.length_append, List.length_cons] at hlen
    have hdepth : depth s src x = a.length + 1 := (hpath a _ u hall).2
    refine ⟨⟨u, hne, a, _, hall ▸ hp⟩, ?_⟩
    show depth s src x ≤ n
    omega
  · rintro ⟨⟨u, _, a, b, hp'⟩, hle⟩
    rw [hp, Option.some.injEq] at hp'
    have := (hpath a b u hp').2
    refine ⟨(u, v), ?_, rfl⟩
    rw [hp', List.take_append]
    refine List.mem_append_right _ ?_
    rw [show n - a.length = n - a.length - 1 + 1 by omega, List.take_succ_cons]
    exact List.mem_cons_self

/-- **A packet for a node goes along a cheapest path to it**, as far as its time to live lasts:
the daemons that have taken it when it is no more on its way are the first ones of that path. -/
theorem taken_path (hself : s.weight src src = none) (hmcast : isMcastAddr dest = false) (hacast : isAcastAddr dest = false)
    (hne : src ≠ dest) (hreach : ∃ hs, Via s.weight Set.univ src hs dest)
    (h : Run s nodeCost groups False ⟨src, dest, ttl⟩ net) (hrest : net.flying = 0) :
    ∃ p, Via s.weight Set.univ src p dest ∧ (∀ hs, Via s.weight Set.univ src hs dest → total s.weight p ≤ total s.weight hs) ∧
      net.taken.map Prod.fst = ((src :: p.map Prod.snd).take (max ttl 1) : List NodeId) := by
  obtain ⟨hs, hwalk⟩ := hreach
  obtain ⟨p, hp, _⟩ := cheapest_le hne (via_nodes hwalk)
  have hcheapest : ∀ hs, Via s.weight Set.univ src hs dest → total s.weight p ≤ total s.weight hs := by
    intro hs hwalk
    obtain ⟨q, hq, hle⟩ := cheapest_le hne (via_nodes hwalk)
    rw [hp, Option.some.injEq] at hq
    exact hq ▸ hle
  rw [← LinkState.path] at hp
  refine ⟨p, (path_via hp).mono (Set.subset_univ _), hcheapest, ?_⟩
  have htree := (h.tree hself).2
  have hrest' : net.toTree.flying = 0 := by simp [Net.toTree, hrest]
  have hfinal : ∀ m, isFinal groups dest m = true ↔ m = dest := by
    intro m
    simp [isFinal, hmcast, hacast, eq_comm (a := m)]
  obtain ⟨n, hn⟩ : ∃ n, max ttl 1 = n + 1 := ⟨max ttl 1 - 1, by omega⟩
  have hvertices : (src :: p.map Prod.snd).Nodup := by
    rw [← (path_via hp).vertices]
    exact (path_simple hne hp).1
  rw [hn, Multiset.Nodup.ext (taken_once hself h).1 (Multiset.coe_nodup.mpr (hvertices.sublist (List.take_sublist _ _)))]
  intro v
  rw [Multiset.mem_coe, mem_vertices_iff hne hp, ← toTree_taken, htree.taken_iff (isTree_nextHops hself) hrest']
  by_cases hv : v = src
  · subst hv
    simp [Relation.ReflTransGen.refl]
  simp only [hv, false_or]
  constructor
  · rintro ⟨hr, hlt⟩
    obtain ⟨m, u, hm, hpath⟩ := path_of_reach hself hv hr
    rw [hfinal] at hm
    exact ⟨⟨u, hm ▸ hpath⟩, by omega⟩
  · rintro ⟨⟨u, hpath⟩, hle⟩
    have := hpath.depth_eq
    exact ⟨hpath.reach hself hacast ((hfinal dest).mpr rfl), by omega⟩

/-! ## Anycast -/

/-- A path ends after a hop, or goes on from where it leads. -/
theorem OnPath.next {m u v : NodeId} (h : OnPath s src m u v) : m = v ∨ ∃ x, OnPath s src m v x := by
  obtain ⟨hne, a, b, hp⟩ := h
  cases b with
  | nil => exact .inl (path_via hp).last
  | cons y b =>
    have hp' : s.path src m = some ((a ++ [(u, v)]) ++ (y.1, y.2) :: b) := by simpa using hp
    obtain ⟨_, _, hleft, hright⟩ := (path_via hp').cut rfl (by simp) (by simp)
    obtain rfl := hleft.last
    obtain hfirst := hright.first
    exact .inr ⟨y.2, hne, a ++ [(u, _)], b, by rw [hfirst]; exact hp'⟩

section Anycast

variable (hself : s.weight src src = none) (hacast : isAcastAddr dest = true) (hmcast : isMcastAddr dest = false)

include hself hacast hmcast

end Anycast

end Delivery

/-! ## Runs over three nodes -/

section Examples

/-- A multicast group that 2 and 3 are in, and an anycast group that 3 is in. -/
def meetings : Groups := fun group =>
  if group = 0xE0000001 then some [⟨3, true⟩, ⟨1, false⟩, ⟨2, true⟩]
  else if group = 0xF0000001 then some [⟨3, true⟩]
  else none

/-- What 1, 2 and 3 have taken, in this order, of a packet that 1 sent and that was for 3, and
for 2 as well or not. -/
def passed (dest : NodeId) (both : Bool) : Net where
  flying := 0
  taken := {(3, ⟨1, dest, 1⟩), (2, ⟨1, dest, 2⟩), (1, ⟨1, dest, 3⟩)}
  delivered := 3 ::ₘ if both then {2} else 0

theorem passed_run {dest : NodeId} {both : Bool}
    (h₁ : handle triangle (fun _ => -1) meetings 1 ⟨1, dest, 3⟩ = some ⟨false, [(2, ⟨1, dest, 2⟩)]⟩)
    (h₂ : handle triangle (fun _ => -1) meetings 2 ⟨1, dest, 2⟩ = some ⟨both, [(3, ⟨1, dest, 1⟩)]⟩)
    (h₃ : handle triangle (fun _ => -1) meetings 3 ⟨1, dest, 1⟩ = some ⟨true, []⟩) :
    Run triangle (fun _ => -1) meetings False ⟨1, dest, 3⟩ (passed dest both) := by
  have hstart : Run triangle (fun _ => -1) meetings False ⟨1, dest, 3⟩ ⟨{(1, ⟨1, dest, 3⟩)}, 0, 0⟩ := .refl
  have hfirst : Step triangle (fun _ => -1) meetings False ⟨{(1, ⟨1, dest, 3⟩)}, 0, 0⟩
      ⟨{(2, ⟨1, dest, 2⟩)}, {(1, ⟨1, dest, 3⟩)}, 0⟩ := .take h₁
  have hsecond : Step triangle (fun _ => -1) meetings False ⟨{(2, ⟨1, dest, 2⟩)}, {(1, ⟨1, dest, 3⟩)}, 0⟩
      ⟨{(3, ⟨1, dest, 1⟩)}, {(2, ⟨1, dest, 2⟩), (1, ⟨1, dest, 3⟩)}, if both then {2} else 0⟩ := .take h₂
  exact ((hstart.tail hfirst).tail hsecond).tail (.take h₃)

theorem mcast_run : Run triangle (fun _ => -1) meetings False ⟨1, 0xE0000001, 3⟩ (passed 0xE0000001 true) :=
  passed_run (by decide +kernel) (by decide +kernel) (by decide +kernel)

theorem unicast_run : Run triangle (fun _ => -1) meetings False ⟨1, 3, 3⟩ (passed 3 false) :=
  passed_run (by decide +kernel) (by decide +kernel) (by decide +kernel)

theorem mcast_run_once :
    ((passed 0xE0000001 true).taken.map Prod.fst).Nodup ∧ (passed 0xE0000001 true).delivered.Nodup ∧
      (∀ v ∈ (passed 0xE0000001 true).delivered, isFinal meetings 0xE0000001 v = true) ∧
      (∀ x ∈ (passed 0xE0000001 true).flying, ∃ net',
        Step triangle (fun _ => -1) meetings False (passed 0xE0000001 true) net' ∧ x ∈ net'.taken) :=
  taken_once (by decide) mcast_run

theorem mcast_run_delivered :
    3 ∈ (passed 0xE0000001 true).delivered ↔ isFinal meetings 0xE0000001 3 = true ∧ 0 < 3 ∧
      (3 = 1 ∨ ∃ r, (init 1 triangle).findRoute 1 3 = some r ∧ 0 ≤ r.distance ∧ r.distance < (3 : Nat)) :=
  delivered_in_reach (by decide) (by decide +kernel) mcast_run rfl 3

theorem unicast_run_path :
    ∃ p, Via triangle.weight Set.univ 1 p 3 ∧
      (∀ hs, Via triangle.weight Set.univ 1 hs 3 → total triangle.weight p ≤ total triangle.weight hs) ∧
      (passed 3 false).taken.map Prod.fst = ((1 :: p.map Prod.snd).take (max 3 1) : List NodeId) :=
  taken_path (by decide) (by decide +kernel) (by decide +kernel) (by decide)
    ⟨[(1, 3)], .hop (by decide)⟩ unicast_run rfl

end Examples

end Spire.Routing
