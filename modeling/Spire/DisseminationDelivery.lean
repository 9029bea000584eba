import Spire.Dissemination
import Spire.PathMasks
import Mathlib.Data.Multiset.AddSub
import Mathlib.Logic.Relation

/-!
# Packets on disjoint paths

A network of nodes, of which some pass nothing on. Packets are on their way from one node to the
next and arrive in any order. When a packet is stamped with the mask of `p` disjoint paths and
fewer than `p` nodes between are dead, it is delivered, exactly once, by the time no copy of it is on
its way any more (`packet_arrives`), unless its source sends so many more meanwhile that its slot
is used again.
-/

namespace Spire.Dissemination

open Function (update)
open MultiPath (Conf)

/-- The nodes' histories and numbers, the packets on their way with the nodes they come from and go to, and
the packets that were delivered, with the node, the source and the number. -/
structure Net where
  hist : Nat → History
  counter : Nat → SeqPair
  flying : Multiset (Nat × Nat × Packet)
  delivered : List (Nat × Nat × SeqPair)

namespace Net

def handle (c : Conf) (net : Net) (lastHop self : Nat) (pkt : Packet) : Net :=
  match deliverAndForward c self (net.hist self) lastHop pkt with
  | none => net
  | some out =>
    { net with
      hist := update net.hist self out.hist
      flying := net.flying + (out.copies : Multiset (Nat × Packet)).map fun x => (self, x.1, x.2)
      delivered := if out.mine then (self, pkt.source, pkt.seq) :: net.delivered else net.delivered }

/-- A client at the source sends a packet. -/
def send (c : Conf) (net : Net) (source dest ttl mask : Nat) : Net :=
  handle c { net with counter := update net.counter source (net.counter source).next } source source
    { source := source, dest := dest, ttl := ttl, seq := (net.counter source).next, mask := mask }

end Net

/-- One step, of a node that is not dead; what a dead one gets is lost. -/
inductive Step (c : Conf) (dead : Finset Nat) : Net → Net → Prop
  | send {net : Net} {source dest ttl mask : Nat} : source ∉ dead → Step c dead net (net.send c source dest ttl mask)
  | take {net : Net} {u v : Nat} {pkt : Packet} {rest : Multiset (Nat × Nat × Packet)} :
    v ∉ dead → net.flying = (u, v, pkt) ::ₘ rest → Step c dead net (Net.handle c { net with flying := rest } u v pkt)
  | ignore {net : Net} {u v : Nat} {pkt : Packet} {rest : Multiset (Nat × Nat × Packet)} :
    v ∈ dead → net.flying = (u, v, pkt) ::ₘ rest → Step c dead net { net with flying := rest }

/-- All daemons have just started; the incarnation is the time at which they did. -/
def start (inc : Nat → Nat) : Net where
  hist _ _ := { seq := 0, inc := 0 }
  counter s := { seq := 0, inc := inc s }
  flying := 0
  delivered := []

abbrev Run (c : Conf) (dead : Finset Nat) (inc : Nat → Nat) : Net → Prop := Relation.ReflTransGen (Step c dead) (start inc)

variable {c : Conf} {dead : Finset Nat} {inc : Nat → Nat} {net net' : Net} {lastHop self u v : Nat} {pkt q : Packet} {x : Nat × Nat × Packet}

theorem handle_taken (h : Taken c (net.hist self) pkt) : net.handle c lastHop self pkt =
    { net with
      hist := update net.hist self (update (net.hist self) pkt.slot pkt.seq)
      flying := net.flying + (nextHops c self lastHop pkt : Multiset Nat).map fun ngbr => (self, ngbr, pkt.hop)
      delivered := if pkt.dest = self then (self, pkt.source, pkt.seq) :: net.delivered else net.delivered } := by
  unfold Net.handle
  rw [deliverAndForward_eq, if_pos h]
  simp [Multiset.map_coe, Function.comp_def]

theorem handle_not_taken (h : ¬Taken c (net.hist self) pkt) : net.handle c lastHop self pkt = net := by
  unfold Net.handle
  rw [deliverAndForward_eq, if_neg h]

@[simp] theorem handle_counter : (net.handle c lastHop self pkt).counter = net.counter := by
  by_cases h : Taken c (net.hist self) pkt
  · rw [handle_taken h]
  · rw [handle_not_taken h]

/-! ## Nothing is delivered twice -/

/-- Every slot is at least as new as what was delivered from it. -/
structure Once (net : Net) : Prop where
  nodup : net.delivered.Nodup
  newer : ∀ v s a, (v, s, a) ∈ net.delivered → ¬(net.hist v (s, a.seq % histSize)).Older a

theorem Once.handle (h : Once net) : Once (net.handle c lastHop self pkt) := by
  by_cases htaken : Taken c (net.hist self) pkt
  swap
  · rwa [handle_not_taken htaken]
  rw [handle_taken htaken]
  have hold := htaken.2.2
  -- no slot gets older
  have hkeep : ∀ v s a, (v, s, a) ∈ net.delivered →
      ¬(update net.hist self (update (net.hist self) pkt.slot pkt.seq) v (s, a.seq % histSize)).Older a := by
    intro v s a hmem hnew
    have hnot := h.newer v s a hmem
    by_cases hv : v = self
    · subst hv
      rw [Function.update_self] at hnew
      by_cases hslot : (s, a.seq % histSize) = pkt.slot
      · rw [hslot] at hnew hnot
        rw [Function.update_self] at hnew
        exact hnot (hold.trans hnew)
      · rw [Function.update_of_ne hslot] at hnew
        exact hnot hnew
    · rw [Function.update_of_ne hv] at hnew
      exact hnot hnew
  split
  · refine ⟨List.nodup_cons.mpr ⟨fun hmem => h.newer _ _ _ hmem hold, h.nodup⟩, fun v s a hmem => ?_⟩
    rcases List.mem_cons.mp hmem with heq | hmem
    · obtain ⟨rfl, rfl, rfl⟩ : v = self ∧ s = pkt.source ∧ a = pkt.seq := by simpa using heq
      dsimp only
      rw [Function.update_self, show (pkt.source, pkt.seq.seq % histSize) = pkt.slot from rfl, Function.update_self]
      exact fun hself => hself.ne rfl
    · exact hkeep v s a hmem
  · exact ⟨h.nodup, hkeep⟩

theorem Once.step (h : Once net) (hstep : Step c dead net net') : Once net' := by
  cases hstep with
  | send => exact Once.handle ⟨h.nodup, h.newer⟩
  | take => exact Once.handle ⟨h.nodup, h.newer⟩
  | ignore => exact ⟨h.nodup, h.newer⟩

theorem Run.once (h : Run c dead inc net) : Once net := by
  induction h with
  | refl => exact ⟨List.nodup_nil, fun _ _ _ hmem => by cases hmem⟩
  | tail _ hstep ih => exact ih.step hstep

/-! ## The numbers in a run -/

/-- Numbers come from the counters of the sources. -/
structure Numbered (net : Net) : Prop where
  counter : ∀ s, (net.counter s).seq < 2 ^ 32 ∧ 0 < (net.counter s).inc
  flying : ∀ x ∈ net.flying, x.2.2.seq.Valid ∧ x.2.2.seq.position ≤ (net.counter x.2.2.source).position
  hist : ∀ v s i, net.hist v (s, i) = { seq := 0, inc := 0 } ∨
    (net.hist v (s, i)).Valid ∧ (net.hist v (s, i)).position ≤ (net.counter s).position

theorem numbered_start (hinc : ∀ s, 0 < inc s) : Numbered (start inc) where
  counter s := ⟨Nat.two_pow_pos 32, hinc s⟩
  flying x hx := by simp [start] at hx
  hist _ _ _ := .inl rfl

/-- A packet that arrives is handled. -/
theorem Numbered.handle {rest : Multiset (Nat × Nat × Packet)} (h : Numbered net) (hflying : net.flying = (u, v, pkt) ::ₘ rest) :
    Numbered (Net.handle c { net with flying := rest } u v pkt) := by
  obtain ⟨hvalid, hle⟩ := h.flying (u, v, pkt) (by rw [hflying]; exact Multiset.mem_cons_self _ _)
  have hrest : ∀ x ∈ rest, x.2.2.seq.Valid ∧ x.2.2.seq.position ≤ (net.counter x.2.2.source).position := fun x hx =>
    h.flying x (by rw [hflying]; exact Multiset.mem_cons_of_mem hx)
  by_cases htaken : Taken c (({ net with flying := rest } : Net).hist v) pkt
  swap
  · rw [handle_not_taken htaken]
    exact ⟨h.counter, hrest, h.hist⟩
  rw [handle_taken htaken]
  refine ⟨h.counter, fun x hx => ?_, fun w s i => ?_⟩
  · rcases Multiset.mem_add.mp hx with hx | hx
    · exact hrest x hx
    · obtain ⟨ngbr, -, rfl⟩ := Multiset.mem_map.mp hx
      exact ⟨hvalid, hle⟩
  · dsimp only
    by_cases hw : w = v
    · subst hw
      rw [Function.update_self]
      by_cases hslot : (s, i) = pkt.slot
      · obtain ⟨rfl, -⟩ := Prod.mk.inj hslot
        rw [hslot, Function.update_self]
        exact .inr ⟨hvalid, hle⟩
      · rw [Function.update_of_ne hslot]
        exact h.hist w s i
    · rw [Function.update_of_ne hw]
      exact h.hist w s i

/-- The net with a packet that waits at its source. -/
def Net.put (net : Net) (source dest ttl mask : Nat) : Net :=
  { net with
    counter := update net.counter source (net.counter source).next
    flying := (source, source, { source := source, dest := dest, ttl := ttl, seq := (net.counter source).next, mask := mask }) ::ₘ net.flying }

theorem send_eq (net : Net) (source dest ttl mask : Nat) : net.send c source dest ttl mask =
    Net.handle c { net.put source dest ttl mask with flying := net.flying } source source
      { source := source, dest := dest, ttl := ttl, seq := (net.counter source).next, mask := mask } := rfl

theorem put_counter_le (h : Numbered net) (source dest ttl mask s : Nat) :
    (net.counter s).position ≤ ((net.put source dest ttl mask).counter s).position := by
  unfold Net.put
  dsimp only
  by_cases hs : s = source
  · subst hs
    rw [Function.update_self, (position_next (h.counter s).1).1]
    exact Nat.le_succ _
  · rw [Function.update_of_ne hs]

theorem Numbered.put (h : Numbered net) (source dest ttl mask : Nat) : Numbered (net.put source dest ttl mask) where
  counter s := by
    unfold Net.put
    dsimp only
    by_cases hs : s = source
    · subst hs
      rw [Function.update_self]
      have hinc := (h.counter s).2
      unfold SeqPair.next
      split <;> dsimp only <;> omega
    · rw [Function.update_of_ne hs]
      exact h.counter s
  flying x hx := by
    rcases Multiset.mem_cons.mp hx with rfl | hx
    · refine ⟨(position_next (h.counter source).1).2, ?_⟩
      unfold Net.put
      dsimp only
      rw [Function.update_self]
    · obtain ⟨hvalid, hle⟩ := h.flying x hx
      exact ⟨hvalid, hle.trans (put_counter_le h source dest ttl mask _)⟩
  hist w s i := by
    rcases h.hist w s i with hzero | ⟨hvalid, hle⟩
    · exact .inl hzero
    · exact .inr ⟨hvalid, hle.trans (put_counter_le h source dest ttl mask _)⟩

theorem Numbered.step (h : Numbered net) (hstep : Step c dead net net') : Numbered net' := by
  cases hstep with
  | @send source dest ttl mask => exact (h.put source dest ttl mask).handle rfl
  | take _ hflying => exact h.handle hflying
  | ignore _ hflying => exact ⟨h.counter, fun x hx => h.flying x (by rw [hflying]; exact Multiset.mem_cons_of_mem hx), h.hist⟩

theorem Run.numbered (hinc : ∀ s, 0 < inc s) (h : Run c dead inc net) : Numbered net := by
  induction h with
  | refl => exact numbered_start hinc
  | tail _ hstep ih => exact ih.step hstep

/-! ## A packet spreads -/

/-- How far a packet has come. No node has a newer one in its slot, copies have hops left for every node that has
not taken it, and it is on its way to the neighbors on the mask of those that have. -/
structure Spread (c : Conf) (dead : Finset Nat) (pkt : Packet) (net : Net) : Prop where
  sent : pkt.seq.position ≤ (net.counter pkt.source).position
  below : ∀ v, net.hist v pkt.slot = pkt.seq ∨ (net.hist v pkt.slot).Older pkt.seq
  copies : ∀ x ∈ net.flying, x.2.2.source = pkt.source → x.2.2.seq = pkt.seq →
    x.2.2 = { pkt with ttl := x.2.2.ttl } ∧ (net.hist x.1 pkt.slot = pkt.seq ∨ x.1 = pkt.source) ∧ x.2.1 ∈ c.nodes ∧
      ∃ trail : List Nat, trail.Nodup ∧ (∀ w ∈ trail, w ∈ c.nodes ∧ net.hist w pkt.slot = pkt.seq) ∧ x.2.2.ttl + trail.length = pkt.ttl
  spread : ∀ u, net.hist u pkt.slot = pkt.seq → u ≠ pkt.dest → ∀ v ∈ c.neighbors u, c.neighborOnPath u pkt.mask v = true →
    v ≠ pkt.source → v ∉ dead → net.hist v pkt.slot = pkt.seq ∨ ∃ q, (u, v, q) ∈ net.flying ∧ q.source = pkt.source ∧ q.seq = pkt.seq
  mine : net.hist pkt.dest pkt.slot = pkt.seq → (pkt.dest, pkt.source, pkt.seq) ∈ net.delivered

/-- What there is to know of the packet that is followed. -/
structure Followed (c : Conf) (pkt : Packet) (net : Net) : Prop where
  source : pkt.source ∈ c.nodes
  ttl : c.nodes.length ≤ pkt.ttl
  valid : pkt.seq.Valid
  recent : (net.counter pkt.source).position < pkt.seq.position + window

variable {rest : Multiset (Nat × Nat × Packet)}

/-- No other packet in its slot is newer. -/
theorem Followed.not_newer (hf : Followed c pkt net) (hnum : Numbered net) (hx : x ∈ net.flying) (hslot : x.2.2.slot = pkt.slot) :
    x.2.2.seq = pkt.seq ∨ x.2.2.seq.Older pkt.seq := by
  obtain ⟨hvalid, hle⟩ := hnum.flying x hx
  obtain ⟨hsource, hmod⟩ := Prod.mk.inj hslot
  rw [hsource] at hle
  refine SeqPair.eq_or_older fun hnewer => ?_
  have := window_le hf.valid hvalid hmod.symm ((older_iff_position hf.valid hvalid).mp hnewer)
  have := hf.recent
  omega

theorem onPath_iff {mask : Nat} : c.neighborOnPath u mask v = true ↔ mask.testBit (c.index u v) = true := by
  unfold Conf.neighborOnPath Conf.neighborMask
  rw [decide_eq_true_iff, Nat.and_two_pow]
  cases mask.testBit (c.index u v) <;> simp

theorem neighbors_subset {ngbr : Nat} (h : ngbr ∈ c.neighbors u) : ngbr ∈ c.nodes := (List.mem_filter.mp h).1

/-- A copy finds the packet taken, or is taken. -/
theorem Spread.taken_or (h : Spread c dead pkt net) (hf : Followed c pkt net) (hx : x ∈ net.flying) (hsource : x.2.2.source = pkt.source)
    (hseq : x.2.2.seq = pkt.seq) (hnot : ¬Taken c (net.hist x.2.1) x.2.2) : net.hist x.2.1 pkt.slot = pkt.seq := by
  obtain ⟨heq, -, hmem, trail, hnodup, htrail, hlen⟩ := h.copies x hx hsource hseq
  rcases h.below x.2.1 with hold | hold
  · exact hold
  exfalso
  have hnew : x.2.1 ∉ trail := fun hin => hold.ne (htrail _ hin).2
  -- the nodes that have taken it are fewer than there are
  have hlt : trail.length < c.nodes.length := by
    have hsub : (x.2.1 :: trail).toFinset ⊆ c.nodes.toFinset := by
      intro w hw
      rw [List.mem_toFinset] at hw ⊢
      rcases List.mem_cons.mp hw with rfl | hw
      · exact hmem
      · exact (htrail w hw).1
    have hcard := (Finset.card_le_card hsub).trans c.nodes.toFinset_card_le
    rwa [List.toFinset_card_of_nodup (List.nodup_cons.mpr ⟨hnew, hnodup⟩), List.length_cons] at hcard
  have := hf.ttl
  refine hnot ⟨by omega, by rw [hsource]; exact hf.source, ?_⟩
  rw [heq]
  exact hold

/-- What has taken the packet keeps it. -/
theorem handle_keeps (hf : Followed c pkt net) (hnum : Numbered net) (hflying : net.flying = (u, v, q) ::ₘ rest)
    {w : Nat} (hw : net.hist w pkt.slot = pkt.seq) : (Net.handle c { net with flying := rest } u v q).hist w pkt.slot = pkt.seq := by
  by_cases htaken : Taken c (({ net with flying := rest } : Net).hist v) q
  swap
  · rwa [handle_not_taken htaken]
  rw [handle_taken htaken]
  dsimp only
  by_cases hwv : w = v
  · subst hwv
    rw [Function.update_self]
    by_cases hslot : pkt.slot = q.slot
    · -- it would have to be newer than the packet
      have hold : (net.hist w q.slot).Older q.seq := htaken.2.2
      rw [← hslot, hw] at hold
      have hx : (u, w, q) ∈ net.flying := by
        rw [hflying]
        exact Multiset.mem_cons_self _ _
      rcases hf.not_newer hnum hx hslot.symm with heq | holder
      · exact absurd heq.symm hold.ne
      · exact absurd rfl (hold.trans holder).ne
    · rw [Function.update_of_ne hslot]
      exact hw
  · rw [Function.update_of_ne hwv]
    exact hw

/-- What a slot has after a packet was taken. -/
theorem hist_slot (net : Net) (v : Nat) (q pkt : Packet) (w : Nat) :
    update net.hist v (update (net.hist v) q.slot q.seq) w pkt.slot = if w = v ∧ q.slot = pkt.slot then q.seq else net.hist w pkt.slot := by
  by_cases hw : w = v
  · subst hw
    rw [Function.update_self]
    by_cases hslot : q.slot = pkt.slot
    · rw [if_pos ⟨rfl, hslot⟩, ← hslot, Function.update_self]
    · rw [if_neg fun h => hslot h.2, Function.update_of_ne (Ne.symm hslot)]
  · rw [if_neg fun h => hw h.1, Function.update_of_ne hw]

/-- Where a packet goes that is not the first in the list, or it is the first. -/
theorem flying_cases (hflying : net.flying = (u, v, q) ::ₘ rest) {u' w : Nat} {q' : Packet} (h : (u', w, q') ∈ net.flying) :
    (u' = u ∧ w = v ∧ q' = q) ∨ (u', w, q') ∈ rest := by
  rw [hflying] at h
  exact (Multiset.mem_cons.mp h).imp_left fun heq => by simpa using heq

theorem mem_of_rest (hflying : net.flying = (u, v, q) ::ₘ rest) (h : x ∈ rest) : x ∈ net.flying := by
  rw [hflying]
  exact Multiset.mem_cons_of_mem h

/-- A packet is dropped, by a dead node or where nothing is left to do. -/
theorem Spread.drop (h : Spread c dead pkt net) (hflying : net.flying = (u, v, q) ::ₘ rest)
    (hdone : q.source = pkt.source → q.seq = pkt.seq → v ∉ dead → net.hist v pkt.slot = pkt.seq) :
    Spread c dead pkt { net with flying := rest } where
  sent := h.sent
  below := h.below
  copies x hx := h.copies x (mem_of_rest hflying hx)
  spread u' hu' hdest w hw hpath hne hdead := by
    rcases h.spread u' hu' hdest w hw hpath hne hdead with hold | ⟨q', hq', hsource, hseq⟩
    · exact .inl hold
    · rcases flying_cases hflying hq' with ⟨rfl, rfl, rfl⟩ | hq'
      · exact .inl (hdone hsource hseq hdead)
      · exact .inr ⟨q', hq', hsource, hseq⟩
  mine := h.mine

/-- A node takes its first copy of the packet. -/
theorem Spread.take_copy (h : Spread c dead pkt net) (hf : Followed c pkt net) (hnum : Numbered net)
    (hflying : net.flying = (u, v, q) ::ₘ rest) (htaken : Taken c (({ net with flying := rest } : Net).hist v) q)
    (hsource : q.source = pkt.source) (hseq : q.seq = pkt.seq) :
    Spread c dead pkt (Net.handle c { net with flying := rest } u v q) := by
  have hkeep := fun w hw => handle_keeps (w := w) hf hnum hflying hw
  rw [handle_taken htaken] at hkeep ⊢
  dsimp only at hkeep
  have hslot : q.slot = pkt.slot := by
    unfold Packet.slot
    rw [hsource, hseq]
  obtain ⟨heq, hfrom, hmem, trail, hnodup, htrail, hlen⟩ :=
    h.copies (u, v, q) (by rw [hflying]; exact Multiset.mem_cons_self _ _) hsource hseq
  dsimp only at heq hfrom hmem hlen
  have hdestq : q.dest = pkt.dest := by rw [heq]
  have hmask : q.mask = pkt.mask := by rw [heq]
  have hself : update net.hist v (update (net.hist v) q.slot q.seq) v pkt.slot = pkt.seq := by rw [hist_slot, if_pos ⟨rfl, hslot⟩, hseq]
  have hold : (net.hist v pkt.slot).Older pkt.seq := by
    have := htaken.2.2
    rwa [hslot, hseq] at this
  refine ⟨h.sent, fun w => ?_, fun x hx hs hq => ?_, fun u' hu' hdest w hw hpath hne hdead => ?_, fun hdest => ?_⟩
  · dsimp only
    rw [hist_slot]
    split
    · exact .inl hseq
    · exact h.below w
  · rcases Multiset.mem_add.mp hx with hx | hx
    · obtain ⟨heq', hfrom', hmem', trail', hnodup', htrail', hlen'⟩ := h.copies x (mem_of_rest hflying hx) hs hq
      exact ⟨heq', hfrom'.imp_left (hkeep _), hmem', trail', hnodup', fun w hw => ⟨(htrail' w hw).1, hkeep w (htrail' w hw).2⟩, hlen'⟩
    · -- the copies it sends have this node too on their trail
      obtain ⟨ngbr, hngbr, rfl⟩ := Multiset.mem_map.mp hx
      have hngbr := (List.mem_filter.mp (Multiset.mem_coe.mp hngbr)).1
      refine ⟨?_, .inl hself, neighbors_subset hngbr, v :: trail, ?_, ?_, ?_⟩
      · show q.hop = { pkt with ttl := q.hop.ttl }
        unfold Packet.hop
        rw [heq]
      · exact List.nodup_cons.mpr ⟨fun hv => hold.ne (htrail v hv).2, hnodup⟩
      · exact List.forall_mem_cons.mpr ⟨⟨hmem, hself⟩, fun w hw => ⟨(htrail w hw).1, hkeep w (htrail w hw).2⟩⟩
      · have := htaken.1
        show q.ttl - 1 + (trail.length + 1) = pkt.ttl
        omega
  · by_cases hu : u' = v
    · subst hu
      by_cases hback : w = u
      · subst hback
        exact .inl (hkeep w (hfrom.resolve_right hne))
      · refine .inr ⟨q.hop, Multiset.mem_add.mpr (.inr (Multiset.mem_map.mpr ⟨w, ?_, rfl⟩)), hsource, hseq⟩
        refine Multiset.mem_coe.mpr (List.mem_filter.mpr ⟨hw, ?_⟩)
        simp [hback, hsource, hne, hdestq, hdest, hmask, hpath]
    · dsimp only at hu'
      rw [hist_slot, if_neg fun h => hu h.1] at hu'
      rcases h.spread u' hu' hdest w hw hpath hne hdead with hdone | ⟨q', hq', hs, hq⟩
      · exact .inl (hkeep w hdone)
      · rcases flying_cases hflying hq' with ⟨-, rfl, -⟩ | hq'
        · exact .inl hself
        · exact .inr ⟨q', Multiset.mem_add.mpr (.inl hq'), hs, hq⟩
  · dsimp only at hdest ⊢
    by_cases hv : pkt.dest = v
    · rw [if_pos (hdestq.trans hv), hsource, hseq, hv]
      exact List.mem_cons_self
    · rw [hist_slot, if_neg fun h => hv h.1] at hdest
      have := h.mine hdest
      split
      · exact List.mem_cons_of_mem _ this
      · exact this

/-- A node takes some other packet. -/
theorem Spread.take_other (h : Spread c dead pkt net) (hf : Followed c pkt net) (hnum : Numbered net)
    (hflying : net.flying = (u, v, q) ::ₘ rest) (htaken : Taken c (({ net with flying := rest } : Net).hist v) q)
    (hcopy : ¬(q.source = pkt.source ∧ q.seq = pkt.seq)) : Spread c dead pkt (Net.handle c { net with flying := rest } u v q) := by
  have hkeep := fun w hw => handle_keeps (w := w) hf hnum hflying hw
  rw [handle_taken htaken] at hkeep ⊢
  dsimp only at hkeep
  have hiff : ∀ w, update net.hist v (update (net.hist v) q.slot q.seq) w pkt.slot = pkt.seq ↔ net.hist w pkt.slot = pkt.seq := by
    refine fun w => ⟨fun hw => ?_, hkeep w⟩
    rw [hist_slot] at hw
    split at hw
    · rename_i hboth
      exact absurd ⟨(Prod.mk.inj hboth.2).1, hw⟩ hcopy
    · exact hw
  refine ⟨h.sent, fun w => ?_, fun x hx hs hq => ?_, fun u' hu' hdest w hw hpath hne hdead => ?_, fun hdest => ?_⟩
  · dsimp only
    rw [hist_slot]
    split
    · rename_i hboth
      exact hf.not_newer hnum (by rw [hflying]; exact Multiset.mem_cons_self (u, v, q) _) hboth.2
    · exact h.below w
  · rcases Multiset.mem_add.mp hx with hx | hx
    · obtain ⟨heq', hfrom', hmem', trail', hnodup', htrail', hlen'⟩ := h.copies x (mem_of_rest hflying hx) hs hq
      exact ⟨heq', hfrom'.imp_left (hkeep _), hmem', trail', hnodup', fun w hw => ⟨(htrail' w hw).1, hkeep w (htrail' w hw).2⟩, hlen'⟩
    · obtain ⟨ngbr, -, rfl⟩ := Multiset.mem_map.mp hx
      exact absurd ⟨hs, hq⟩ hcopy
  · rcases h.spread u' ((hiff u').mp hu') hdest w hw hpath hne hdead with hdone | ⟨q', hq', hs, hq⟩
    · exact .inl (hkeep w hdone)
    · rcases flying_cases hflying hq' with ⟨-, -, rfl⟩ | hq'
      · exact absurd ⟨hs, hq⟩ hcopy
      · exact .inr ⟨q', Multiset.mem_add.mpr (.inl hq'), hs, hq⟩
  · have := h.mine ((hiff _).mp hdest)
    dsimp only
    split
    · exact List.mem_cons_of_mem _ this
    · exact this

theorem Spread.handle (h : Spread c dead pkt net) (hf : Followed c pkt net) (hnum : Numbered net) (hflying : net.flying = (u, v, q) ::ₘ rest) :
    Spread c dead pkt (Net.handle c { net with flying := rest } u v q) := by
  by_cases htaken : Taken c (({ net with flying := rest } : Net).hist v) q
  swap
  · rw [handle_not_taken htaken]
    refine h.drop hflying fun hsource hseq _ => ?_
    exact h.taken_or hf (x := (u, v, q)) (by rw [hflying]; exact Multiset.mem_cons_self _ _) hsource hseq htaken
  by_cases hcopy : q.source = pkt.source ∧ q.seq = pkt.seq
  · exact h.take_copy hf hnum hflying htaken hcopy.1 hcopy.2
  · exact h.take_other hf hnum hflying htaken hcopy

/-- Whoever handles a copy has taken the packet. -/
theorem handle_copy_hist (h : Spread c dead pkt net) (hf : Followed c pkt net) (hflying : net.flying = (u, v, q) ::ₘ rest)
    (hsource : q.source = pkt.source) (hseq : q.seq = pkt.seq) :
    (Net.handle c { net with flying := rest } u v q).hist v pkt.slot = pkt.seq := by
  by_cases htaken : Taken c (({ net with flying := rest } : Net).hist v) q
  · rw [handle_taken htaken]
    dsimp only
    rw [hist_slot, if_pos ⟨rfl, by unfold Packet.slot; rw [hsource, hseq]⟩, hseq]
  · rw [handle_not_taken htaken]
    exact h.taken_or hf (x := (u, v, q)) (by rw [hflying]; exact Multiset.mem_cons_self _ _) hsource hseq htaken

/-! ## Over a run -/

theorem step_counter_le (hnum : Numbered net) (hstep : Step c dead net net') (s : Nat) :
    (net.counter s).position ≤ (net'.counter s).position := by
  cases hstep with
  | @send source dest ttl mask =>
    rw [send_eq, handle_counter]
    exact put_counter_le hnum source dest ttl mask s
  | take => rw [handle_counter]
  | ignore => exact le_refl _

theorem Followed.before (hf : Followed c pkt net') (hle : (net.counter pkt.source).position ≤ (net'.counter pkt.source).position) :
    Followed c pkt net := ⟨hf.source, hf.ttl, hf.valid, hle.trans_lt hf.recent⟩

/-- A packet that waits at its source is a later one. -/
theorem Spread.put (h : Spread c dead pkt net) (hnum : Numbered net) (source dest ttl mask : Nat) :
    Spread c dead pkt (net.put source dest ttl mask) where
  sent := h.sent.trans (put_counter_le hnum source dest ttl mask _)
  below := h.below
  copies x hx hs hq := by
    rcases Multiset.mem_cons.mp hx with rfl | hx
    · exfalso
      dsimp only at hs hq
      have hpos := (position_next (hnum.counter source).1).1
      have := h.sent
      rw [hs] at hpos hq
      rw [hq] at hpos
      omega
    · exact h.copies x hx hs hq
  spread u hu hdest v hv hpath hne hdead := by
    rcases h.spread u hu hdest v hv hpath hne hdead with hdone | ⟨q, hq, hs, hseq⟩
    · exact .inl hdone
    · exact .inr ⟨q, Multiset.mem_cons_of_mem hq, hs, hseq⟩
  mine := h.mine

theorem Spread.step (h : Spread c dead pkt net) (hnum : Numbered net) (hf : Followed c pkt net') (hstep : Step c dead net net') :
    Spread c dead pkt net' := by
  cases hstep with
  | @send source dest ttl mask =>
    rw [send_eq] at hf ⊢
    exact (h.put hnum source dest ttl mask).handle (hf.before (by rw [handle_counter])) (hnum.put source dest ttl mask) rfl
  | take _ hflying => exact h.handle (hf.before (by rw [handle_counter])) hnum hflying
  | ignore hdead hflying => exact h.drop hflying fun _ _ hlive => absurd hdead hlive

/-- What has taken the packet keeps it in every step. -/
theorem step_keeps (hnum : Numbered net) (hf : Followed c pkt net') (hstep : Step c dead net net') {w : Nat}
    (hw : net.hist w pkt.slot = pkt.seq) : net'.hist w pkt.slot = pkt.seq := by
  cases hstep with
  | @send source dest ttl mask =>
    rw [send_eq] at hf ⊢
    exact handle_keeps (hf.before (by rw [handle_counter])) (hnum.put source dest ttl mask) rfl hw
  | take _ hflying => exact handle_keeps (hf.before (by rw [handle_counter])) hnum hflying hw
  | ignore => exact hw

theorem spread_run (hnum : Numbered net) (hrun : Relation.ReflTransGen (Step c dead) net net') (hf : Followed c pkt net')
    (h : Followed c pkt net → Spread c dead pkt net ∧ net.hist pkt.source pkt.slot = pkt.seq) :
    Spread c dead pkt net' ∧ net'.hist pkt.source pkt.slot = pkt.seq := by
  have hnumbered : ∀ {net'}, Relation.ReflTransGen (Step c dead) net net' → Numbered net' := by
    intro net' hrun
    induction hrun with
    | refl => exact hnum
    | tail _ hstep ih => exact ih.step hstep
  induction hrun with
  | refl => exact h hf
  | tail hrun hstep ih =>
    obtain ⟨hspread, hsource⟩ := ih (hf.before (step_counter_le (hnumbered hrun) hstep _))
    exact ⟨hspread.step (hnumbered hrun) hf hstep, step_keeps (hnumbered hrun) hf hstep hsource⟩

/-- A packet that was just given its number. -/
theorem spread_start (hnum : Numbered net) {source dest ttl mask : Nat} (hsource : source ∈ c.nodes) :
    Spread c dead { source := source, dest := dest, ttl := ttl, seq := (net.counter source).next, mask := mask }
      (net.put source dest ttl mask) := by
  obtain ⟨hpos, hvalid⟩ := position_next (hnum.counter source).1
  have hinc : 0 < (net.counter source).next.inc := by
    have := (hnum.counter source).2
    unfold SeqPair.next
    split <;> dsimp only <;> omega
  have hold : ∀ v i, (net.hist v (source, i)).Older (net.counter source).next := by
    intro v i
    rcases hnum.hist v source i with hzero | ⟨hv, hle⟩
    · rw [hzero]
      exact .inl hinc
    · exact (older_iff_position hv hvalid).mpr (by omega)
  refine ⟨?_, fun v => .inr (hold v _), fun x hx hs hq => ?_, fun u hu => absurd hu (hold u _).ne, fun hd => absurd hd (hold _ _).ne⟩
  · unfold Net.put
    dsimp only
    rw [Function.update_self]
  · rcases Multiset.mem_cons.mp hx with rfl | hx
    · exact ⟨rfl, .inr rfl, hsource, [], List.nodup_nil, by simp, rfl⟩
    · exfalso
      have hle := (hnum.flying x hx).2
      dsimp only at hs hq
      rw [hs, hq] at hle
      omega

/-- Along a path on the mask whose nodes are not dead, every node takes the packet. -/
theorem Spread.along_path (h : Spread c dead pkt net)
    (hrest : ∀ x ∈ net.flying, ¬(x.2.2.source = pkt.source ∧ x.2.2.seq = pkt.seq)) {path : List Nat}
    (hchain : (u :: path ++ [pkt.dest]).IsChain fun a b => .link a b ∈ c.arcs ∧ pkt.mask.testBit (c.index a b) = true)
    (hsimple : (u :: path ++ [pkt.dest]).Nodup) (hsource : pkt.source ∉ path ++ [pkt.dest]) (hlive : ∀ v ∈ path, v ∉ dead) (hdest : pkt.dest ∉ dead)
    (hu : net.hist u pkt.slot = pkt.seq) : net.hist pkt.dest pkt.slot = pkt.seq := by
  -- no copy is on its way, so the next node has taken it
  have hnext : ∀ {u v}, net.hist u pkt.slot = pkt.seq → u ≠ pkt.dest → .link u v ∈ c.arcs → pkt.mask.testBit (c.index u v) = true →
      v ≠ pkt.source → v ∉ dead → net.hist v pkt.slot = pkt.seq := by
    intro u v hu hud hlink hbit hne hdead
    have hngbr : v ∈ c.neighbors u := List.mem_filter.mpr ⟨(MultiPath.mem_arcs_link hlink).2.1, by simpa using hlink⟩
    rcases h.spread u hu hud v hngbr (onPath_iff.mpr hbit) hne hdead with hdone | ⟨q, hq, hs, hseq⟩
    · exact hdone
    · exact absurd ⟨hs, hseq⟩ (hrest _ hq)
  induction path generalizing u with
  | nil =>
    obtain ⟨⟨hlink, hbit⟩, -⟩ := List.isChain_cons_cons.mp hchain
    have hud : u ≠ pkt.dest := fun heq => by simp [heq] at hsimple
    exact hnext hu hud hlink hbit (fun heq => hsource (by simp [← heq])) hdest
  | cons v path ih =>
    obtain ⟨⟨hlink, hbit⟩, hchain⟩ := List.isChain_cons_cons.mp hchain
    have hud : u ≠ pkt.dest := fun heq => (List.nodup_cons.mp hsimple).1 (by simp [heq])
    have hv := hnext hu hud hlink hbit (fun heq => hsource (by simp [← heq])) (hlive v List.mem_cons_self)
    exact ih hchain hsimple.tail (fun hs => hsource (List.mem_cons_of_mem _ hs)) (fun w hw => hlive w (List.mem_cons_of_mem _ hw)) hv

/-- A packet whose mask has a path of nodes that are not dead is delivered, and once. -/
theorem delivered_along_path {source dest ttl mask : Nat} (hinc : ∀ s, 0 < inc s) (hsource : source ∈ c.nodes) (httl : c.nodes.length ≤ ttl)
    (h₁ : Run c dead inc net) (h₂ : Relation.ReflTransGen (Step c dead) (net.send c source dest ttl mask) net') (hself : source ∉ dead)
    (hdest : dest ∉ dead) (hwindow : (net'.counter source).position < (net.counter source).position + 1 + window)
    (hrest : ∀ x ∈ net'.flying, ¬(x.2.2.source = source ∧ x.2.2.seq = (net.counter source).next)) {path : List Nat}
    (hchain : (source :: path ++ [dest]).IsChain fun a b => .link a b ∈ c.arcs ∧ mask.testBit (c.index a b) = true)
    (hsimple : (source :: path ++ [dest]).Nodup) (hlive : ∀ v ∈ path, v ∉ dead) :
    net'.delivered.count (dest, source, (net.counter source).next) = 1 := by
  have hnum := h₁.numbered hinc
  obtain ⟨hpos, hvalid⟩ := position_next (hnum.counter source).1
  have hput := hnum.put source dest ttl mask
  have hfollowed : Followed c { source := source, dest := dest, ttl := ttl, seq := (net.counter source).next, mask := mask } net' :=
    ⟨hsource, httl, hvalid, by dsimp only; omega⟩
  obtain ⟨hspread, hown⟩ := spread_run (hnum.step (.send hself)) h₂ hfollowed fun hf => by
    rw [send_eq] at hf ⊢
    have hf : Followed c _ (net.put source dest ttl mask) := hf.before (by rw [handle_counter])
    have hstart : Spread c dead _ (net.put source dest ttl mask) := spread_start hnum hsource
    exact ⟨hstart.handle hf hput rfl, handle_copy_hist hstart hf rfl rfl rfl⟩
  have hdone := hspread.along_path hrest hchain hsimple (List.nodup_cons.mp hsimple).1 hlive hdest hown
  exact List.count_eq_one_of_mem (Run.once ((h₁.tail (.send hself)).trans h₂)).nodup (hspread.mine hdone)

/-- **A packet arrives**, and once, that was stamped with more disjoint paths than nodes are dead. -/
theorem packet_arrives {w : MultiPath.Costs} (hw : MultiPath.Usual c w false) {dest k p mask ttl : Nat}
    (hcompute : MultiPath.compute c w dest k false false = .ok (p, mask)) (hne : dest ≠ c.myId) (hinc : ∀ s, 0 < inc s)
    (hself : c.myId ∉ dead) (hdest : dest ∉ dead) (hdead : dead.card < p) (httl : c.nodes.length ≤ ttl)
    (h₁ : Run c dead inc net) (h₂ : Relation.ReflTransGen (Step c dead) (net.send c c.myId dest ttl mask) net')
    (hwindow : (net'.counter c.myId).position < (net.counter c.myId).position + 1 + window)
    (hrest : ∀ x ∈ net'.flying, ¬(x.2.2.source = c.myId ∧ x.2.2.seq = (net.counter c.myId).next)) :
    net'.delivered.count (dest, c.myId, (net.counter c.myId).next) = 1 := by
  obtain ⟨p', bag, used, hcompute', hbag, hbest, -⟩ := MultiPath.compute_spec false k hw (MultiPath.mem_nodes_of_compute hne hcompute) hne
  rw [hcompute'] at hcompute
  obtain ⟨rfl, rfl⟩ := Prod.mk.inj (Except.ok.inj hcompute)
  obtain ⟨paths, hpaths, hlen⟩ := MultiPath.LeastCost.exists_paths hbest hne
  have hstamped := MultiPath.stamped_paths hbag hbest.sub hpaths
  obtain ⟨path, hpath, hlive⟩ := hstamped.exists_avoiding (by rwa [hlen])
  exact delivered_along_path hinc c.myId_mem httl h₁ h₂ hself hdest hwindow hrest
    ((hstamped.chain path hpath).imp fun u v huv => ⟨huv.1.1, huv.2⟩) (hstamped.simple path hpath) hlive

/-- The first packet of node 1 of the circle, for node 4. -/
def circlePacket (mask ttl : Nat) : Packet where
  source := 1
  dest := 4
  ttl := ttl
  seq := { seq := 1, inc := 1 }
  mask := mask

/-- Node 3 has taken the packet, and the copy for node 2, which is dead, was lost. -/
def circleHalfway (mask : Nat) : Net :=
  Net.handle MultiPath.circle { (start fun _ => 1).send MultiPath.circle 1 4 64 mask with flying := 0 } 1 3 (circlePacket mask 63)

def circleEnd (mask : Nat) : Net := Net.handle MultiPath.circle { circleHalfway mask with flying := 0 } 3 4 (circlePacket mask 62)

theorem circle_run {mask : Nat}
    (h₁ : ((start fun _ => 1).send MultiPath.circle 1 4 64 mask).flying = (1, 2, circlePacket mask 63) ::ₘ {(1, 3, circlePacket mask 63)})
    (h₂ : (circleHalfway mask).flying = {(3, 4, circlePacket mask 62)}) :
    Relation.ReflTransGen (Step MultiPath.circle {2}) ((start fun _ => 1).send MultiPath.circle 1 4 64 mask) (circleEnd mask) :=
  ((Relation.ReflTransGen.single (.ignore (by decide) h₁)).tail (.take (by decide) rfl)).tail (.take (by decide) h₂)

theorem circle_arrives : (circleEnd 15).delivered.count (4, 1, ⟨1, 1⟩) = 1 := by
  have hcompute : MultiPath.compute MultiPath.circle (MultiPath.evenCosts 10 (by decide)) 4 2 false false = .ok (2, 15) := by decide
  have hrun : Run MultiPath.circle {2} (fun _ => 1) (start fun _ => 1) := .refl
  exact packet_arrives (fun s d _ => by simp [MultiPath.evenCosts]) hcompute (by decide) (fun _ => Nat.one_pos) (by decide) (by decide)
    (by decide) (by decide) hrun (circle_run (by decide) (by decide)) (by decide) (by decide)

/-- **A packet that is flooded arrives**, and once, while there is any way of nodes that are not dead. -/
theorem flood_arrives {source dest ttl : Nat} (hinc : ∀ s, 0 < inc s) (hself : source ∉ dead) (hdest : dest ∉ dead) (httl : c.nodes.length ≤ ttl)
    (h₁ : Run c dead inc net) (h₂ : Relation.ReflTransGen (Step c dead) (net.send c source dest ttl (2 ^ c.maskBits - 1)) net')
    (hwindow : (net'.counter source).position < (net.counter source).position + 1 + window)
    (hrest : ∀ x ∈ net'.flying, ¬(x.2.2.source = source ∧ x.2.2.seq = (net.counter source).next)) {path : List Nat}
    (hchain : (source :: path ++ [dest]).IsChain fun a b => .link a b ∈ c.arcs) (hsimple : (source :: path ++ [dest]).Nodup)
    (hlive : ∀ v ∈ path, v ∉ dead) : net'.delivered.count (dest, source, (net.counter source).next) = 1 := by
  have hsource : source ∈ c.nodes := by
    cases path <;> exact (MultiPath.mem_arcs_link (List.isChain_cons_cons.mp hchain).1).1
  refine delivered_along_path hinc hsource httl h₁ h₂ hself hdest hwindow hrest (hchain.imp fun u v hlink => ⟨hlink, ?_⟩) hsimple hlive
  rw [Nat.testBit_two_pow_sub_one, decide_eq_true_iff]
  exact (List.idxOf_lt_length_of_mem (MultiPath.key_mem hlink)).trans_le c.fits

theorem circle_floods : (circleEnd (2 ^ 64 - 1)).delivered.count (4, 1, ⟨1, 1⟩) = 1 := by
  have hrun : Run MultiPath.circle {2} (fun _ => 1) (start fun _ => 1) := .refl
  have hchain : (1 :: [3] ++ [4] : List Nat).IsChain fun a b => .link a b ∈ MultiPath.circle.arcs := by decide
  have hsimple : (1 :: [3] ++ [4] : List Nat).Nodup := by decide
  exact flood_arrives (fun _ => Nat.one_pos) (by decide) (by decide) (by decide) hrun (circle_run (by decide) (by decide)) (by decide)
    (by decide) hchain hsimple (by decide)

end Spire.Dissemination
