import Spire.QueueBooks

/-!
# The handlers and the queues

Every handler that marks flows as queued keeps the books of the queues (`Kept`), with whatever is asked of
the nodes (`P`) as long as new ones have it, and takes no flow out of a list (`Leaves`). What is known of a
handler of `Flood` is how it changes the marks of its flow.
-/

namespace Spire.Flood

open Function (update update_self update_of_ne)
open Lib

namespace Flow

variable {c : Conf} {k : Nat} {f g : Flow}

/-! ## The marks of a flow -/

/-- The handler marks the flow as queued on this link at most, and takes no mark back. -/
def Marks (k : Nat) (f g : Flow) : Prop := ∀ j, g.inFlowQueue j = f.inFlowQueue j ∨ j = k ∧ g.inFlowQueue j = true

/-- The marks are as they were. -/
def SameMarks (f g : Flow) : Prop := g.inFlowQueue = f.inFlowQueue

/-- The handler marks the flow as queued on links to neighbours, and takes no mark back. -/
def MarksSome (c : Conf) (f g : Flow) : Prop :=
  ∀ j, g.inFlowQueue j = f.inFlowQueue j ∨ j ∈ c.neighbors ∧ g.inFlowQueue j = true

theorem SameMarks.marks (h : SameMarks f g) : Marks k f g := fun j => .inl (congrFun h j)

theorem SameMarks.marksSome (h : SameMarks f g) : MarksSome c f g := fun j => .inl (congrFun h j)

theorem SameMarks.trans {h : Flow} (hf : SameMarks f g) (hg : SameMarks g h) : SameMarks f h := Eq.trans hg hf

theorem SameMarks.trans_marks {h : Flow} (hf : SameMarks f g) (hg : Marks k g h) : Marks k f h := by
  intro j
  rw [← congrFun hf j]
  exact hg j

theorem marks_enqueue : Yields (Marks k f) (f.enqueue c k) := by
  have hself : Marks k f f := SameMarks.marks rfl
  unfold enqueue
  split
  · have hmask : Yields (fun _ => True) (f.nextMask k) := fun _ _ => trivial
    refine hmask.map fun mask _ => ?_
    split
    · intro j
      by_cases hj : j = k
      · subst hj
        exact .inr ⟨rfl, update_self ..⟩
      · exact .inl (update_of_ne hj _ _)
    · exact hself
  · exact .ok hself

theorem sameMarks_clearRange (b : Bool) (n seq : Nat) (f : Flow) : SameMarks f (clearRange c b n seq f) := by
  induction n generalizing seq f with
  | zero => rfl
  | succ n ih =>
    unfold clearRange
    split
    · exact ih _ _
    · exact ih _ _

theorem sameMarks_release (b : Bool) (min : Nat) : Yields (SameMarks f) (f.release c b min) := by
  unfold release
  split
  · exact .error
  · exact .ok (sameMarks_clearRange b _ _ f)

theorem sameMarks_acknowledge (new : Cell) : Yields (SameMarks f) (f.acknowledge c new) :=
  (sameMarks_release true new.aru).map fun _ h => h

theorem marks_block (lastHop : Nat) : Yields (Marks lastHop f) (f.block c lastHop) := by
  unfold block
  dsimp only
  split
  · exact marks_enqueue
  · exact .ok (SameMarks.marks rfl)

theorem marks_onCell (lastHop : Nat) (old new : Cell) : Yields (Marks lastHop f) (f.onCell c lastHop old new) := by
  unfold onCell
  split
  · have hclear : SameMarks f ((clearRange c false (f.headSeq - f.sow) f.sow f).restart c new) :=
      sameMarks_clearRange false _ _ f
    exact (marks_block lastHop).imp fun g hg => hclear.trans_marks hg
  · split
    · exact marks_block lastHop
    · split
      · exact (sameMarks_acknowledge new).bind fun g hg => (marks_block lastHop).imp fun h hh => hg.trans_marks hh
      · exact .ok (SameMarks.marks rfl)

theorem sameMarks_ackUpTo (aru n : Nat) (f : Flow) : SameMarks f (ackUpTo k aru n f) := by
  induction n generalizing f with
  | zero => rfl
  | succ n ih =>
    unfold ackUpTo
    dsimp only
    split
    · exact ih _
    · split
      · exact ih _
      · rfl

theorem sameMarks_onAru (lastHop aru : Nat) : Yields (SameMarks f) (f.onAru c lastHop aru) := by
  unfold onAru
  dsimp only
  set aru' := if aru = 2 ^ 64 - 1 then 2 ^ 64 - 2 else aru
  set f' : Flow := { f with flowAru := update f.flowAru lastHop aru' }
  have hup : SameMarks f (if c.hbhOpt = true ∧ f'.nextSeq lastHop ≤ aru' then
      ackUpTo lastHop aru' (f'.headSeq - f'.nextSeq lastHop) f' else f') := by
    split
    · exact sameMarks_ackUpTo aru' _ f'
    · rfl
  split
  · exact (sameMarks_release true _).map fun g hg => hup.trans hg
  · exact .ok hup

theorem marks_onAck (lastHop : Nat) (a : HbhAck) : Yields (Marks lastHop f) (f.onAck c lastHop a) := by
  unfold onAck
  split
  · exact .ok (SameMarks.marks rfl)
  · dsimp only
    set f' : Flow := { f with flowSow := update f.flowSow lastHop (max (f.flowSow lastHop) a.sow) }
    have hsame : Yields (SameMarks f') (if f'.flowAru lastHop < a.aru then f'.onAru c lastHop a.aru else .ok f') := by
      split
      · exact sameMarks_onAru lastHop a.aru
      · exact .ok rfl
    refine hsame.bind fun g hg => ?_
    have hg : SameMarks f g := hg
    split
    · exact marks_enqueue.imp fun h hh => hg.trans_marks hh
    · exact .ok hg.marks

theorem sameMarks_unsend (n seq : Nat) (f : Flow) : SameMarks f (unsend k n seq f) := by
  induction n generalizing seq f with
  | zero => rfl
  | succ n ih => exact ih _ _

theorem marks_onTransfer (blocked : Bool) : Yields (Marks k f) (f.onTransfer c k blocked) := by
  unfold onTransfer
  dsimp only
  set f' : Flow := if blocked = true then { f with flowBlock := update f.flowBlock k true } else f with hf'
  have hblock : SameMarks f f' := by
    rw [hf']
    split <;> rfl
  have hunsend : SameMarks f (unsend k (f'.headSeq - f'.sow) f'.sow f') := hblock.trans (sameMarks_unsend _ _ _)
  exact marks_enqueue.imp fun g hg => SameMarks.trans_marks hunsend hg

theorem marks_unblock : Yields (Marks k f) (f.unblock c k) := marks_enqueue

theorem marks_resend :
    Yields (fun y => Marks k f y.2 ∧ y.1 = (y.2.inFlowQueue k && !f.inFlowQueue k)) (f.resend c k) := by
  unfold resend
  split
  · exact .error
  · exact marks_enqueue.map fun g hg => ⟨hg, rfl⟩

theorem sameMarks_restampFrom (r : Stamps) (n seq : Nat) (flag : Bool) (f : Flow) :
    Yields (fun y => SameMarks f y.1) (restampFrom c r n seq flag f) := by
  induction n generalizing seq flag f with
  | zero => exact .ok rfl
  | succ n ih =>
    unfold restampFrom
    split
    · exact .ok rfl
    · exact .error
    · split
      · exact ih _ _ _
      · dsimp only
        split
        · exact .ok rfl
        · exact ih _ _ _

theorem sameMarks_onSent (k : Nat) : Yields (SameMarks f) (f.onSent c k) := by
  unfold onSent
  dsimp only
  split
  · exact (sameMarks_release true _).map fun g hg => hg
  · exact .ok rfl

/-! ### A message -/

theorem marksSome_spread (lastHop : Nat) (m : Message) : MarksSome c f (f.spread c lastHop m) := by
  intro j
  simp only [spread, Conf.each]
  by_cases hj : 1 ≤ j ∧ j ≤ c.degree
  · rw [if_pos hj]
    split
    · refine .inr ⟨List.mem_range'_1.mpr ⟨hj.1, ?_⟩, rfl⟩
      have := hj.2
      omega
    · exact .inl rfl
  · rw [if_neg hj]
    exact .inl rfl

theorem sameMarks_store (lastHop paths : Nat) (restamped : Bool) (m : Message) :
    SameMarks f (f.store c lastHop paths restamped m) := by
  unfold store
  dsimp only
  split
  · rfl
  · rfl

theorem sameMarks_afterStore (restamped : Bool) (m : Message) : Yields (SameMarks f) (f.afterStore c restamped m) := by
  unfold afterStore
  split
  · exact (sameMarks_release false _).map fun g hg => hg
  · split
    · exact .ok rfl
    · exact .ok rfl

theorem marks_accept (lastHop paths : Nat) (m : Message) : Yields (MarksSome c f) (f.accept c lastHop paths m) := by
  have hcount : ∀ b : Bool, SameMarks f (if b = true then f else { f with headSeq := f.headSeq + 1 }) := by
    intro b
    cases b <;> rfl
  unfold accept
  dsimp only
  set g := if decide (m.seqNum ≠ f.headSeq) = true then f else { f with headSeq := f.headSeq + 1 }
  have hg : SameMarks f g := hcount _
  have hstored : Yields (SameMarks f) (if m.dest = c.myId then
      .ok (if decide (m.seqNum ≠ f.headSeq) = true then g
        else { g with sow := g.sow + 1, nextSeq := c.each g.nextSeq fun _ => g.headSeq })
      else (g.store c lastHop paths (decide (m.seqNum ≠ f.headSeq)) m).afterStore c (decide (m.seqNum ≠ f.headSeq)) m) := by
    split
    · split
      · exact .ok hg
      · exact .ok hg
    · exact (sameMarks_afterStore _ m).imp fun h hh => (hg.trans (sameMarks_store lastHop paths _ m)).trans hh
  refine hstored.map fun h hh j => ?_
  rw [← congrFun hh j]
  exact marksSome_spread lastHop m j

theorem sameMarks_onEqual (lastHop i : Nat) : SameMarks f (f.onEqual c lastHop i) := by
  unfold onEqual
  dsimp only
  split
  · rfl
  · split
    · rfl
    · rfl

/-- Only a message that is accepted makes marks. -/
theorem marks_onData (lastHop paths : Nat) (m : Message) :
    Yields (fun y => (y.1 = .buffOk ∨ SameMarks f y.2) ∧ MarksSome c f y.2) (f.onData c lastHop paths m) := by
  have hsame : ∀ g, SameMarks f g → Yields (fun y : Ret × Flow => (y.1 = .buffOk ∨ SameMarks f y.2) ∧ MarksSome c f y.2)
      (.ok (.noRoute, g) : Except Fault (Ret × Flow)) := fun g hg => .ok ⟨.inr hg, hg.marksSome⟩
  have hroom : Yields (fun y : Ret × Flow => (y.1 = .buffOk ∨ SameMarks f y.2) ∧ MarksSome c f y.2)
      (if add64 f.sow maxMessPerFlow ≤ m.seqNum then .ok (.noRoute, f)
        else (f.accept c lastHop paths m).map fun f => (.buffOk, f)) := by
    split
    · exact hsame f rfl
    · exact (marks_accept lastHop paths m).map fun g hg => ⟨.inl rfl, hg⟩
  unfold onData
  dsimp only
  split
  · exact hsame f rfl
  · split
    · exact hsame f rfl
    · split
      · exact hroom
      · split
        · exact .error
        · split
          · exact hroom
          · split
            · exact hsame _ (sameMarks_onEqual lastHop _)
            · exact hsame f rfl

end Flow

/-! ## What a handler guarantees -/

open Halt (lift follow)

/-- The daemon ends because of a fault of the handlers, not of the queues. -/
def Halt.IsFlood (h : Halt) : Prop := ∃ f, h = .flood f

theorem ends_lift {β : Type} {Q : β → Prop} {x : Except Fault β} (h : Yields Q x) : Ends Halt.IsFlood Q (lift x) := by
  cases x with
  | ok b => exact h b rfl
  | error f => exact ⟨f, rfl⟩

namespace Daemon

variable {c : Conf} {P : FlowQueue → Prop} {x y z : Daemon} {K : Nat → Prop} {w : Which} {k s d : Nat} {f : Flow}
  {queued : Nat → Nat → Nat → Bool}

/-- `in_flow_queue`. -/
def marks (x : Daemon) (k s d : Nat) : Bool := (x.node.flow s d).inFlowQueue k

/-- The books are kept, with these marks for the flows that are queued. -/
def KeptWith (P : FlowQueue → Prop) (queued : Nat → Nat → Nat → Bool) (x : Daemon) : Prop :=
  ∃ ls, Books x.queues ls queued x.unsentState x.unsentStateCount ∧ Nodes P ls

/-- The books of the queues are kept. -/
def Kept (P : FlowQueue → Prop) (x : Daemon) : Prop := x.KeptWith P x.marks

/-- A flow leaves the lists of these links at most. -/
structure Leaves (K : Nat → Prop) (x y : Daemon) : Prop where
  queued : ∀ k s d, x.marks k s d = true → y.marks k s d = true ∨ K k
  unsent : ∀ k s d, x.unsentState k s d = true → y.unsentState k s d = true ∨ K k

/-- What a handler makes of a daemon whose books are kept. -/
structure Post (P : FlowQueue → Prop) (K : Nat → Prop) (x y : Daemon) : Prop extends Leaves K x y where
  kept : y.Kept P

theorem Leaves.refl : Leaves K x x := ⟨fun _ _ _ h => .inl h, fun _ _ _ h => .inl h⟩

theorem Leaves.trans (hxy : Leaves K x y) (hyz : Leaves K y z) : Leaves K x z where
  queued k s d h := (hxy.queued k s d h).elim (hyz.queued k s d) .inr
  unsent k s d h := (hxy.unsent k s d h).elim (hyz.unsent k s d) .inr

theorem Leaves.mono {L : Nat → Prop} (h : Leaves K x y) (himp : ∀ k, K k → L k) : Leaves L x y where
  queued k s d hq := (h.queued k s d hq).imp_right (himp k)
  unsent k s d hu := (h.unsent k s d hu).imp_right (himp k)

theorem Post.refl (h : x.Kept P) : Post P K x x := ⟨.refl, h⟩

theorem Post.trans (hxy : Post P K x y) (hyz : Post P K y z) : Post P K x z := ⟨hxy.toLeaves.trans hyz.toLeaves, hyz.kept⟩

/-- A step behind others. -/
theorem Post.then {m : Except Halt Daemon} (hxy : Post P K x y) (h : Ends Halt.IsFlood (Post P K y) m) :
    Ends Halt.IsFlood (Post P K x) m :=
  h.imp (fun _ hz => hxy.trans hz) fun _ h => h

/-- A loop. -/
theorem post_foldlM {α : Type} {g : Daemon → α → Except Halt Daemon} {xs : List α}
    (hround : ∀ a ∈ xs, ∀ y, y.Kept P → Ends Halt.IsFlood (Post P K y) (g y a)) (h : x.Kept P) :
    Ends Halt.IsFlood (Post P K x) (xs.foldlM g x) :=
  Ends.foldlM (fun a ha y hy => hy.then (hround a ha y hy.kept)) (Post.refl h)

/-- The node may change, if the marks do not. -/
theorem Kept.node {n : Node} (h : x.Kept P) (hmarks : ∀ k s d, (n.flow s d).inFlowQueue k = x.marks k s d) :
    Post P K x { x with node := n } := by
  have heq : { x with node := n }.marks = x.marks := by
    funext k s d
    exact hmarks k s d
  refine ⟨⟨fun k s d hq => .inl ?_, fun k s d hu => .inl hu⟩, ?_⟩
  · rw [heq]
    exact hq
  · unfold Kept
    rw [heq]
    exact h

/-! ### A flow -/

theorem marks_setFlow (k' s' d' : Nat) :
    (x.setFlow s d f).marks k' s' d' = if s' = s ∧ d' = d then f.inFlowQueue k' else x.marks k' s' d' := by
  unfold marks setFlow Node.setFlow
  by_cases hs : s' = s
  · subst hs
    by_cases hd : d' = d
    · subst hd
      simp
    · simp [hd]
  · simp [hs]

theorem setFlow_of_sameMarks (h : Flow.SameMarks (x.node.flow s d) f) : (x.setFlow s d f).marks = x.marks := by
  funext k' s' d'
  rw [marks_setFlow]
  split
  · next heq =>
    obtain ⟨rfl, rfl⟩ := heq
    exact congrFun h k'
  · rfl

/-- A handler of a flow marks it on the link, or not. -/
theorem setFlow_of_marks (h : Flow.Marks k (x.node.flow s d) f) :
    (x.setFlow s d f).marks =
      if (x.node.flow s d).inFlowQueue k = false ∧ f.inFlowQueue k = true then setEntry x.marks k s d true else x.marks := by
  funext k' s' d'
  rw [marks_setFlow]
  split
  · next heq =>
    obtain ⟨rfl, rfl⟩ := heq
    split
    · next hrise =>
      rw [setEntry_eq]
      split
      · next heq =>
        obtain ⟨rfl, -, -⟩ := heq
        exact hrise.2
      · next hne =>
        exact (h k').resolve_right fun hk => hne ⟨hk.1, rfl, rfl⟩
    · next hrise =>
      rcases h k' with h' | ⟨rfl, h'⟩
      · exact h'
      · -- The mark was there before.
        rw [not_and, Bool.not_eq_true] at hrise
        cases hold : (x.node.flow s' d').inFlowQueue k' with
        | true => exact h'.trans hold.symm
        | false => exact Bool.noConfusion (h'.symm.trans (hrise hold))
  · next hne =>
    split
    · rw [setEntry_eq, if_neg fun h => hne h.2]
    · rfl

/-! ### The flows whose state a neighbour is to hear of -/

/-- More of them may be noted, and the node is as it was. -/
structure Noted (P : FlowQueue → Prop) (queued : Nat → Nat → Nat → Bool) (x y : Daemon) : Prop where
  kept : y.KeptWith P queued
  node : y.node = x.node
  unsent : ∀ k s d, x.unsentState k s d = true → y.unsentState k s d = true

theorem Noted.refl (h : x.KeptWith P queued) : Noted P queued x x := ⟨h, rfl, fun _ _ _ h => h⟩

theorem Noted.trans (hxy : Noted P queued x y) (hyz : Noted P queued y z) : Noted P queued x z where
  kept := hyz.kept
  node := hyz.node.trans hxy.node
  unsent k s d h := hyz.unsent k s d (hxy.unsent k s d h)

theorem noteUnsent_ends (h : x.KeptWith P queued) : Ends Halt.IsFlood (Noted P queued x) (x.noteUnsent k s d) := by
  obtain ⟨ls, hbooks, hnodes⟩ := h
  unfold noteUnsent
  split
  · exact Ends.ok (.refl ⟨ls, hbooks, hnodes⟩)
  · next hmark =>
    obtain ⟨q, hpush, hbooks'⟩ := hbooks.pushUnsent (Bool.not_eq_true _ ▸ hmark) 0
    rw [hpush]
    refine Ends.ok ⟨⟨_, hbooks', hnodes.concat fun h => absurd rfl h⟩, rfl, fun k' s' d' hu => ?_⟩
    dsimp only
    rw [setEntry_eq]
    split
    · rfl
    · exact hu

theorem noteAll_ends (h : x.KeptWith P queued) : Ends Halt.IsFlood (Noted P queued x) (noteAll c x s d) :=
  Ends.foldlM (fun _ _ _ hy => (noteUnsent_ends hy.kept).imp (fun _ hz => hy.trans hz) fun _ h => h) (Noted.refl h)

theorem marks_answer (n : Node) (new : E2E) (now k s d : Nat) :
    ((n.answer c new now).flow s d).inFlowQueue k = (n.flow s d).inFlowQueue k := by
  simp only [Node.answer, Node.setFlow]
  by_cases hs : s = new.dest
  · subst hs
    by_cases hd : d = c.myId
    · subst hd
      simp
    · simp [hd]
  · simp [hs]

/-- The marks as they were before a message, on the links that the loop has not come to. -/
def hide (old : Flow) (s d : Nat) (ks : List Nat) (m : Nat → Nat → Nat → Bool) (k' s' d' : Nat) : Bool :=
  if s' = s ∧ d' = d ∧ k' ∈ ks then old.inFlowQueue k' else m k' s' d'

theorem hide_of_not_mem {old : Flow} {ks : List Nat} {m : Nat → Nat → Nat → Bool} (hk : k ∉ ks) :
    hide old s d ks m k s d = m k s d :=
  if_neg fun h => hk h.2.2

theorem hide_cons {old : Flow} {ks : List Nat} {m : Nat → Nat → Nat → Bool} {k' s' d' : Nat} :
    hide old s d (k :: ks) m k' s' d' =
      if k' = k ∧ s' = s ∧ d' = d then old.inFlowQueue k else hide old s d ks m k' s' d' := by
  unfold hide
  by_cases hfor : k' = k ∧ s' = s ∧ d' = d
  · obtain ⟨rfl, rfl, rfl⟩ := hfor
    simp
  · rw [if_neg hfor]
    by_cases hflow : s' = s ∧ d' = d
    · have hne : k' ≠ k := fun h => hfor ⟨h, hflow⟩
      simp [hne]
    · rw [if_neg fun h => hflow ⟨h.1, h.2.1⟩, if_neg fun h => hflow ⟨h.1, h.2.1⟩]

/-! ## The handlers that mark flows -/

section Handlers

variable (hP : ∀ s d, P ⟨s, d, 1⟩)

include hP

/-- A new node at the end of a queue, for a flow that is not marked. -/
theorem enqueue_eq (hw : w ≠ .hbhUnsent) (h : x.KeptWith P queued) (hmark : queued k s d = false) :
    ∃ q, x.enqueue w k s d = .ok { x with queues := q } ∧
      { x with queues := q }.KeptWith P (setEntry queued k s d true) := by
  obtain ⟨ls, hbooks, hnodes⟩ := h
  obtain ⟨q, hpush, hbooks'⟩ := hbooks.pushQueued hw hmark 1
  refine ⟨q, ?_, _, hbooks', hnodes.concat fun _ => hP s d⟩
  unfold enqueue
  rw [hpush]
  rfl

/-! ### A flow that a handler may have marked -/

/-- The node that goes with the mark. -/
theorem rise_ends (hw : w ≠ .hbhUnsent) (hf : Flow.Marks k (x.node.flow s d) f)
    (hy : Noted P x.marks (x.setFlow s d f) y) :
    Ends Halt.IsFlood (Post P K x)
      (if (x.node.flow s d).inFlowQueue k = false ∧ f.inFlowQueue k = true then y.enqueue w k s d else .ok y) := by
  have hmarks := setFlow_of_marks hf
  have hnode : y.marks = (x.setFlow s d f).marks := by
    unfold marks
    rw [hy.node]
  split
  · next hrise =>
    rw [if_pos hrise] at hmarks
    obtain ⟨q, henqueue, hkept⟩ := enqueue_eq hP hw hy.kept hrise.1
    have heq : { y with queues := q }.marks = setEntry x.marks k s d true := hnode.trans hmarks
    rw [henqueue]
    refine Ends.ok ⟨⟨fun k' s' d' hq => .inl ?_, fun k' s' d' hu => .inl (hy.unsent k' s' d' hu)⟩, ?_⟩
    · rw [heq, setEntry_eq]
      split
      · rfl
      · exact hq
    · unfold Kept
      rw [heq]
      exact hkept
  · next hrise =>
    rw [if_neg hrise] at hmarks
    have heq : y.marks = x.marks := hnode.trans hmarks
    refine Ends.ok ⟨⟨fun k' s' d' hq => .inl ?_, fun k' s' d' hu => .inl (hy.unsent k' s' d' hu)⟩, ?_⟩
    · rw [heq]
      exact hq
    · unfold Kept
      rw [heq]
      exact hy.kept

theorem onFlow_ends {g : Flow → Except Fault Flow} (hw : w ≠ .hbhUnsent)
    (hg : Yields (Flow.Marks k (x.node.flow s d)) (g (x.node.flow s d))) (h : x.Kept P) :
    Ends Halt.IsFlood (Post P K x) (x.onFlow w k s d g) :=
  (ends_lift hg).bind fun _ hf => rise_ends hP hw hf (Noted.refl h)

/-! ### The handlers -/

theorem apply_ends (lastHop : Nat) (new : E2E) (h : x.Kept P) :
    Ends Halt.IsFlood (Post P K x) (x.apply c lastHop new) := by
  unfold apply
  refine Ends.map (Q := Post P K x) ?_ fun y hy => hy.trans (hy.kept.node fun _ _ _ => rfl)
  exact post_foldlM (fun i _ y hy => onFlow_ends hP (by simp) (Flow.marks_onCell lastHop _ _) hy) h

theorem processE2E_ends (lastHop : Nat) (new : E2E) (now : Nat) (h : x.Kept P) :
    Ends Halt.IsFlood (Post P K x) (x.processE2E c lastHop new now) := by
  unfold processE2E
  split
  · exact Ends.ok (.refl h)
  split
  · exact Ends.ok (.refl h)
  dsimp only
  set n := if x.node.Opens c new then x.node.answer c new now else x.node with hn
  have hmarks : ∀ k s d, (n.flow s d).inFlowQueue k = x.marks k s d := by
    intro k s d
    rw [hn]
    split
    · exact marks_answer x.node new now k s d
    · rfl
  have happly : ∀ n' : Node, n'.flow = n.flow →
      Ends Halt.IsFlood (Post P K x) (apply c { x with node := n' } lastHop new) := by
    intro n' hflow
    have hpost : Post P K x { x with node := n' } := h.node (by rw [hflow]; exact hmarks)
    exact hpost.then (apply_ends hP lastHop new hpost.kept)
  split
  · split
    · exact Ends.ok (h.node hmarks)
    · exact happly _ rfl
  · exact happly _ rfl

theorem neighborTransfer_ends (k : Nat) (unsent : Nat → Bool) (h : x.Kept P) :
    Ends Halt.IsFlood (Post P K x) (x.neighborTransfer c k unsent) :=
  post_foldlM (fun _ _ _ hy => post_foldlM (fun _ _ _ hz => onFlow_ends hP (by simp) (Flow.marks_onTransfer _) hz) hy) h

/-! ### Hop-by-hop acknowledgements -/

theorem onAck_ends (lastHop : Nat) (a : HbhAck) (h : x.Kept P) :
    Ends Halt.IsFlood (Post P K x) (x.onAck c lastHop a) := by
  unfold onAck
  dsimp only
  refine (ends_lift (Flow.marks_onAck lastHop a)).bind fun f hf => ?_
  -- The state of the flow is noted before the flow is queued, so that its mark comes before its node.
  have hnoted : Ends Halt.IsFlood (Noted P x.marks (x.setFlow a.src a.dest f))
      (if (x.node.flow a.src a.dest).sow < f.sow then
        noteAll c { x.setFlow a.src a.dest f with rfStateChange := true } a.src a.dest
      else .ok (x.setFlow a.src a.dest f)) := by
    split
    · have hkept : KeptWith P x.marks { x.setFlow a.src a.dest f with rfStateChange := true } := h
      exact (noteAll_ends hkept).imp (fun y hy => ⟨hy.kept, hy.node, hy.unsent⟩) fun _ h => h
    · exact Ends.ok (.refl h)
  exact hnoted.bind fun y hy => rise_ends hP (by simp) hf hy

theorem processAcks_ends (lastHop : Nat) (acks : List HbhAck) (h : x.Kept P) :
    Ends Halt.IsFlood (Post P K x) (processAcks c lastHop acks x) := by
  induction acks generalizing x with
  | nil => exact Ends.ok (.refl h)
  | cons a acks ih =>
    unfold processAcks
    split
    · exact Ends.ok (.refl h)
    · exact (onAck_ends hP lastHop a h).bind fun y hy => hy.then (ih hy.kept)

/-! ### Messages -/

theorem spreadTo_ends {old : Flow} {ks : List Nat} (hk : k ∉ ks)
    (hold : old.inFlowQueue k = true → x.marks k s d = true)
    (h : x.KeptWith P (hide old s d (k :: ks) x.marks)) :
    Ends Halt.IsFlood (Noted P (hide old s d ks x.marks) x) (spreadTo old s d x k) := by
  have henqueued : Ends Halt.IsFlood (Noted P (hide old s d ks x.marks) x)
      (if old.inFlowQueue k = false ∧ (x.node.flow s d).inFlowQueue k = true then x.enqueue .urgent k s d
        else .ok x) := by
    split
    · next hrise =>
      have hmark : hide old s d (k :: ks) x.marks k s d = false := by
        rw [hide_cons, if_pos ⟨rfl, rfl, rfl⟩]
        exact hrise.1
      obtain ⟨q, henqueue, hkept⟩ := enqueue_eq hP (w := .urgent) (by simp) h hmark
      have heq : setEntry (hide old s d (k :: ks) x.marks) k s d true = hide old s d ks x.marks := by
        funext k' s' d'
        rw [setEntry_eq, hide_cons]
        split
        · next heq =>
          obtain ⟨rfl, rfl, rfl⟩ := heq
          rw [hide_of_not_mem hk]
          exact hrise.2.symm
        · rfl
      rw [henqueue]
      exact Ends.ok ⟨heq ▸ hkept, rfl, fun _ _ _ h => h⟩
    · next hrise =>
      have heq : hide old s d (k :: ks) x.marks = hide old s d ks x.marks := by
        funext k' s' d'
        rw [hide_cons]
        split
        · next heq =>
          obtain ⟨rfl, rfl, rfl⟩ := heq
          rw [hide_of_not_mem hk]
          cases hqueue : old.inFlowQueue k' with
          | true => exact (hold hqueue).symm
          | false => exact (Bool.not_eq_true _ ▸ fun h => hrise ⟨hqueue, h⟩ : x.marks k' s' d' = false).symm
        · rfl
      exact Ends.ok (.refl (heq ▸ h))
  refine henqueued.bind fun y hy => ?_
  split
  · exact (noteUnsent_ends hy.kept).imp (fun z hz => hy.trans hz) fun _ h => h
  · exact Ends.ok hy

theorem spread_ends {old : Flow} {ks : List Nat} (hnodup : ks.Nodup)
    (hold : ∀ k, old.inFlowQueue k = true → x.marks k s d = true) (h : x.KeptWith P (hide old s d ks x.marks)) :
    Ends Halt.IsFlood (Noted P x.marks x) (ks.foldlM (spreadTo old s d) x) := by
  induction ks generalizing x with
  | nil =>
    have heq : hide old s d [] x.marks = x.marks := by
      funext k' s' d'
      exact if_neg fun h => List.not_mem_nil h.2.2
    exact Ends.ok (.refl (heq ▸ h))
  | cons k ks ih =>
    obtain ⟨hk, hks⟩ := List.nodup_cons.mp hnodup
    rw [List.foldlM_cons]
    refine (spreadTo_ends hP hk (hold k) h).bind fun y hy => ?_
    have hmarks : y.marks = x.marks := by
      unfold marks
      rw [hy.node]
    refine (ih hks (hmarks ▸ hold) (hmarks ▸ hy.kept)).imp (fun z hz => ?_) fun _ h => h
    rw [hmarks] at hz
    exact ⟨hz.kept, hz.node.trans hy.node, fun k s d hu => hz.unsent k s d (hy.unsent k s d hu)⟩

theorem processData_ends (lastHop : Nat) (m : Message) (h : x.Kept P) :
    Ends Halt.IsFlood (Post P K x) (x.processData c lastHop m) := by
  unfold processData
  dsimp only
  set old := x.node.flow m.src m.dest with hold
  have hdata : Yields (fun y : Ret × Node => ∃ f, (∀ s d, y.2.flow s d = (x.node.setFlow m.src m.dest f).flow s d) ∧
      (y.1 = .buffOk ∨ Flow.SameMarks old f) ∧ Flow.MarksSome c old f) (x.node.processData c lastHop m) := by
    unfold Node.processData
    dsimp only
    split
    · exact (Flow.marks_onData lastHop _ m).map fun y hy => ⟨y.2, fun _ _ => rfl, hy⟩
    · exact (Flow.marks_onData lastHop _ m).map fun y hy => ⟨y.2, fun _ _ => rfl, hy⟩
  refine (ends_lift hdata).bind fun y hy => ?_
  obtain ⟨f, hflow, hsame, hsome⟩ := hy
  have hmarks : { x with node := y.2 }.marks = (x.setFlow m.src m.dest f).marks := by
    funext k s d
    exact congrArg (fun g => Flow.inFlowQueue g k) (hflow s d)
  split
  · set x' : Daemon := { x with
      node := y.2, rfStateChange := x.rfStateChange || decide (m.seqNum = old.headSeq) } with hx'
    have hmarks' : x'.marks = (x.setFlow m.src m.dest f).marks := hmarks
    have hrose : ∀ k, old.inFlowQueue k = true → x'.marks k m.src m.dest = true := by
      intro k hk
      rw [hmarks', marks_setFlow, if_pos ⟨rfl, rfl⟩]
      exact (hsome k).elim (fun heq => heq.trans hk) And.right
    have hhide : hide old m.src m.dest c.neighbors x'.marks = x.marks := by
      funext k s d
      unfold hide
      rw [hmarks', marks_setFlow]
      by_cases hflow : s = m.src ∧ d = m.dest
      · obtain ⟨rfl, rfl⟩ := hflow
        by_cases hk : k ∈ c.neighbors
        · rw [if_pos ⟨rfl, rfl, hk⟩]
          rfl
        · rw [if_neg fun h => hk h.2.2, if_pos ⟨rfl, rfl⟩]
          exact (hsome k).resolve_right fun h => hk h.1
      · rw [if_neg fun h => hflow ⟨h.1, h.2.1⟩, if_neg hflow]
    have hkept : x'.KeptWith P (hide old m.src m.dest c.neighbors x'.marks) := hhide ▸ h
    refine (spread_ends hP List.nodup_range' hrose hkept).imp (fun z hz => ?_) fun _ h => h
    have hz' : z.marks = x'.marks := by
      unfold marks
      rw [hz.node]
    refine ⟨⟨fun k s d hq => .inl ?_, fun k s d hu => .inl (hz.unsent k s d hu)⟩, ?_⟩
    · rw [hz']
      by_cases hflow : s = m.src ∧ d = m.dest
      · obtain ⟨rfl, rfl⟩ := hflow
        exact hrose k hq
      · rw [hmarks', marks_setFlow, if_neg hflow]
        exact hq
    · unfold Kept
      rw [hz']
      exact hz.kept
  · next hret =>
    have hmarks := hmarks.trans (setFlow_of_sameMarks (hsame.resolve_left hret))
    exact Ends.ok (h.node fun k s d => congrFun (congrFun (congrFun hmarks k) s) d)

end Handlers

end Daemon

end Spire.Flood
