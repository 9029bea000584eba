import Mathlib
import Spire.FlowWindow

/-!
# Windows along the runs of a node

The handlers of a node keep the window of each of its flows, so that what is looked at is there and
none of the exits is taken. While a node restamps, the marks of a flow are right only for the
neighbours that the loop has been at, and links may send in between.
-/

namespace Spire.Flood

open Function (update update_self update_of_ne)
open Lib

namespace Node

variable {c : Conf} {P : Nat → Nat → Nat → Prop} {n : Node}

/-! ## Handlers of flows -/

/-- All flows keep their windows, with the marks that `P` tells. -/
def Kept (c : Conf) (P : Nat → Nat → Nat → Prop) (n : Node) : Prop := ∀ s d, Flow.Inv c (P s d) d (n.flow s d)

theorem kept_setFlow {s d : Nat} {f : Flow}
    (h : ∀ s' d', ¬ (s' = s ∧ d' = d) → Flow.Inv c (P s' d') d' (n.flow s' d')) (hf : Flow.Inv c (P s d) d f) :
    (n.setFlow s d f).Kept c P := by
  intro s' d'
  unfold setFlow
  dsimp only
  by_cases hs : s' = s
  · subst hs
    rw [update_self]
    by_cases hd : d' = d
    · subst hd
      rw [update_self]
      exact hf
    · rw [update_of_ne hd]
      exact h s' d' fun heq => hd heq.2
  · rw [update_of_ne hs]
    exact h s' d' fun heq => hs heq.1

theorem Kept.setFlow {s d : Nat} {f : Flow} (h : n.Kept c P) (hf : Flow.Inv c (P s d) d f) : (n.setFlow s d f).Kept c P :=
  kept_setFlow (fun s' d' _ => h s' d') hf

theorem Kept.onFlow {s d : Nat} {g : Flow → Except Fault Flow} (h : n.Kept c P)
    (hg : ∃ f, g (n.flow s d) = .ok f ∧ Flow.Inv c (P s d) d f) : ∃ n', n.onFlow s d g = .ok n' ∧ n'.Kept c P := by
  obtain ⟨f, hf, hinv⟩ := hg
  unfold Node.onFlow
  rw [hf]
  exact ⟨_, rfl, h.setFlow hinv⟩

theorem Kept.processData (h : n.Kept c P) (lastHop : Nat) (m : Message) :
    ∃ ret n', n.processData c lastHop m = .ok (ret, n') ∧ n'.Kept c P := by
  obtain ⟨n', hn', hflow⟩ : ∃ n', n' = (if c.e2eOpt then n else { n with e2eStop := true }) ∧ n'.flow = n.flow :=
    ⟨_, rfl, by split <;> rfl⟩
  have hkept : n'.Kept c P := fun s d => hflow ▸ h s d
  obtain ⟨ret, f, hf, hinv⟩ := (hkept m.src m.dest).onData lastHop n'.numPathsSnapshot
  unfold Node.processData
  rw [← hn']
  dsimp only
  rw [hf]
  exact ⟨ret, _, rfl, hkept.setFlow hinv⟩

theorem Kept.processAcks {lastHop : Nat} {acks : List HbhAck} (h : n.Kept c P) (hk : c.Ngbr lastHop ∨ acks = []) :
    ∃ n', Node.processAcks c lastHop acks n = .ok n' ∧ n'.Kept c P := by
  induction acks generalizing n with
  | nil => exact ⟨n, rfl, h⟩
  | cons a acks ih =>
    have hk := hk.resolve_right (List.cons_ne_nil a acks)
    unfold Node.processAcks
    split
    · exact ⟨n, rfl, h⟩
    · obtain ⟨m, hm, hkept⟩ := h.onFlow (g := fun f => f.onAck c lastHop a) ((h a.src a.dest).onAck hk)
      obtain ⟨n', hn', hkept⟩ := ih hkept (Or.inl hk)
      exact ⟨n', bind_eq_ok.mpr ⟨m, hm, hn'⟩, hkept⟩

theorem Kept.answer {new : E2E} {now : Nat} (h : n.Kept c P) : (n.answer c new now).Kept c P := by
  refine h.setFlow (Flow.Inv.of_empty (le_refl _) ?_ rfl fun k hk => ?_)
  · show (1 : Nat) < 2 ^ 64
    decide
  · exact Conf.each_of_ngbr (g := (n.flow new.dest c.myId).nextSeq) (h := fun _ => 1) hk

theorem Kept.apply {lastHop : Nat} {new : E2E} (h : n.Kept c P) (haru : ∀ i ∈ nodes, (new.cell i).aru < 2 ^ 64 - 1) :
    ∃ n', n.apply c lastHop new = .ok n' ∧ n'.Kept c P := by
  obtain ⟨m, hm, hkept⟩ := foldlM_ok (I := Node.Kept c P) (f := fun (m : Node) i => m.onFlow i new.dest fun f =>
    f.onCell c lastHop ((n.e2e new.dest).cell i) (new.cell i)) (fun i hi m hm => hm.onFlow ((hm i new.dest).onCell (haru i hi))) h
  unfold Node.apply
  dsimp only
  rw [hm]
  exact ⟨_, rfl, hkept⟩

theorem Kept.processE2E {lastHop now : Nat} {new : E2E} (h : n.Kept c P) (haru : ∀ i ∈ nodes, (new.cell i).aru < 2 ^ 64 - 1) :
    ∃ n', n.processE2E c lastHop new now = .ok n' ∧ n'.Kept c P := by
  unfold Node.processE2E
  split
  · exact ⟨n, rfl, h⟩
  split
  · exact ⟨n, rfl, h⟩
  dsimp only
  obtain ⟨m, hm, hkept⟩ : ∃ m, m = (if n.Opens c new then n.answer c new now else n) ∧ m.Kept c P := by
    refine ⟨_, rfl, ?_⟩
    split
    · exact h.answer
    · exact h
  rw [← hm]
  split
  · split
    · exact ⟨m, rfl, hkept⟩
    · exact Kept.apply (n := { m with handshakeComplete := update m.handshakeComplete new.dest true }) hkept haru
  · exact hkept.apply haru

theorem Kept.genE2E (h : n.Kept c P) : (n.genE2E c).Kept c P := by
  unfold Node.genE2E
  split
  · exact h
  · split <;> exact h

theorem Kept.neighborTransfer {k : Nat} {unsent : Nat → Bool} (h : n.Kept c P) (hk : c.Ngbr k) :
    ∃ n', n.neighborTransfer c k unsent = .ok n' ∧ n'.Kept c P := by
  refine foldlM_ok (I := Node.Kept c P) (fun d _ m hm => ?_) h
  exact foldlM_ok (I := Node.Kept c P) (fun s _ m hm => hm.onFlow ((hm s d).onTransfer hk)) hm

/-! ## Sending and restamping -/

/-- A link has a neighbour at its other end. -/
def Slot.Valid (c : Conf) : Slot → Prop
  | .data k _ _ _ => c.Ngbr k
  | .e2e k _ => c.Ngbr k

/-- The minimum that sending takes is below the head. -/
def SlotNarrow (c : Conf) (n : Node) : Slot → Prop
  | .data k s d t => (n.flow s d).Narrow c s k (n.handshakeComplete d) t
  | .e2e _ _ => True

theorem Kept.sendOne {x : Slot} (h : n.Kept c P) (hx : x.Valid c) (hnarrow : n.SlotNarrow c x) :
    ∃ n', n.sendOne c x = .ok n' ∧ n'.Kept c P := by
  cases x with
  | data k s d t =>
    exact h.onFlow (g := fun f => f.onSend c s k (n.handshakeComplete d) t) ((h s d).onSend hx hnarrow)
  | e2e k d => exact foldlM_ok (I := Node.Kept c P) (fun s _ m hm => hm.onFlow ((hm s d).unblock hx)) h

/-- What the links send while a node restamps is narrow. -/
def ResendFine (c : Conf) (r : Restamp) (i : Nat) (n : Node) (k : Nat) : Prop :=
  ∀ f, (n.flow c.myId i).resend c k = .ok (true, f) →
    Rounds (Node.sendOne c) (SlotNarrow c) (n.setFlow c.myId i f) (r.slots i k)

/-- Restamping a flow is not interrupted when messages behind `next_seq` were restamped. -/
def RestampFine (c : Conf) (r : Restamp) (n : Node) (i : Nat) : Prop :=
  let f := n.flow c.myId i
  i ≠ c.myId → f.sow ≠ f.headSeq →
    ¬ f.Interrupted c (r.stamps i) ∧
      ∀ g, f.restampFrom c (r.stamps i) (f.headSeq - f.sow) f.sow false = .ok (g, true, false) →
        Rounds (resendTo c r i) (ResendFine c r i) (n.setFlow c.myId i g) c.neighbors

/-- The marks of the flow that is being restamped are right for some of the neighbours. -/
def Partly (c : Conf) (i : Nat) (done : List Nat) (s d k : Nat) : Prop := s = c.myId ∧ d = i → k ∈ done

/-- **The loop over the neighbours.** -/
theorem Kept.resend {r : Restamp} {i : Nat} {ks done : List Nat} (h : n.Kept c (Partly c i done))
    (hks : ∀ k ∈ ks, c.Ngbr k) (hslots : ∀ i k, ∀ x ∈ r.slots i k, x.Valid c)
    (hfine : Rounds (resendTo c r i) (ResendFine c r i) n ks) :
    ∃ n', ks.foldlM (resendTo c r i) n = .ok n' ∧ n'.Kept c (Partly c i (done ++ ks)) := by
  induction ks generalizing n done with
  | nil => exact ⟨n, rfl, by rwa [List.append_nil]⟩
  | cons k ks ih =>
    obtain ⟨b, f, hf, hinv⟩ := (h c.myId i).resend (hks k List.mem_cons_self)
    have hset : (n.setFlow c.myId i f).Kept c (Partly c i (done ++ [k])) := by
      refine kept_setFlow (fun s d hne => (h s d).mono fun _ _ _ hsd => absurd hsd hne) (hinv.mono fun k' _ hk' => ?_)
      rcases List.mem_append.mp (hk' ⟨rfl, rfl⟩) with hold | hnew
      · exact Or.inl fun _ => hold
      · exact Or.inr (List.mem_singleton.mp hnew)
    have hround : ∃ m, n.resendTo c r i k = .ok m ∧ m.Kept c (Partly c i (done ++ [k])) := by
      cases b with
      | false => exact ⟨_, bind_eq_ok.mpr ⟨_, hf, rfl⟩, hset⟩
      | true =>
        obtain ⟨m, hm, hkept⟩ := foldlM_ok_of (fun x hx m hm => hm.sendOne (hslots i k x hx)) (hfine.1 f hf) hset
        exact ⟨m, bind_eq_ok.mpr ⟨_, hf, hm⟩, hkept⟩
    obtain ⟨m, hm, hkept⟩ := hround
    obtain ⟨n', hn', hkept⟩ := ih hkept (fun k' hk' => hks k' (List.mem_cons_of_mem k hk')) (hfine.2 m hm)
    rw [List.foldlM_cons]
    refine ⟨n', bind_eq_ok.mpr ⟨m, hm, hn'⟩, ?_⟩
    rwa [List.append_assoc] at hkept

/-- All marks of all flows. -/
abbrev All : Nat → Nat → Nat → Prop := fun _ _ _ => True

theorem mem_neighbors {k : Nat} : k ∈ c.neighbors ↔ c.Ngbr k := by
  unfold Conf.neighbors Conf.Ngbr
  rw [List.mem_range'_1]
  omega

/-- A round of `Reliable_Flood_Restamp`. -/
theorem Kept.restampTo {r : Restamp} {i : Nat} (h : n.Kept c All) (hslots : ∀ i k, ∀ x ∈ r.slots i k, x.Valid c)
    (hfine : RestampFine c r n i) : ∃ n', Node.restampTo c r n i = .ok n' ∧ n'.Kept c All := by
  unfold Node.restampTo
  dsimp only
  split
  · exact ⟨n, rfl, h⟩
  next hskip =>
    rw [not_or] at hskip
    obtain ⟨hinterrupted, hrounds⟩ := hfine hskip.1 hskip.2
    obtain ⟨g, flag, err, hg, hnone, hall⟩ := (h c.myId i).restampFrom hinterrupted
    by_cases hagain : err = false ∧ flag = true
    · obtain ⟨rfl, rfl⟩ := hagain
      have hpartly : (n.setFlow c.myId i g).Kept c (Partly c i []) := by
        refine kept_setFlow (fun s d _ => (h s d).mono fun _ _ _ => trivial) (hnone.mono fun k _ hk => ?_)
        exact absurd (hk ⟨rfl, rfl⟩) List.not_mem_nil
      obtain ⟨n', hn', hkept⟩ := hpartly.resend (fun k hk => mem_neighbors.mp hk) hslots (hrounds g hg)
      refine ⟨n', bind_eq_ok.mpr ⟨_, hg, ?_⟩, fun s d => (hkept s d).mono fun k hk _ _ => mem_neighbors.mpr hk⟩
      rw [if_pos ⟨rfl, rfl⟩]
      exact hn'
    · refine ⟨_, bind_eq_ok.mpr ⟨_, hg, if_neg hagain⟩, h.setFlow (hall hagain)⟩

/-! ## Runs -/

end Node

/-- The arguments that the code gives its handlers, and end-to-end acknowledgements that do not have
the largest number as their `aru`. A client sends no acknowledgements. -/
def Action.Valid (c : Conf) : Action → Prop
  | .data _ _ | .gen | .fill _ _ => True
  | .acks lastHop l => c.Ngbr lastHop ∨ l = []
  | .e2e _ new _ => ∀ i ∈ nodes, (new.cell i).aru < 2 ^ 64 - 1
  | .transfer k _ => c.Ngbr k
  | .send x => x.Valid c
  | .restamp r => ∀ i k, ∀ x ∈ r.slots i k, x.Valid c

namespace Node

/-- What sending and restamping need. -/
def Fine (c : Conf) (n : Node) : Action → Prop
  | .send x => n.SlotNarrow c x
  | .restamp r => Rounds (restampTo c r) (RestampFine c r) n nodes
  | _ => True

variable {c : Conf} {n : Node} {a : Action}

/-- **One step.** -/
theorem Kept.step (h : n.Kept c All) (ha : a.Valid c) (hfine : n.Fine c a) : ∃ n', n.step c a = .ok n' ∧ n'.Kept c All := by
  cases a with
  | data lastHop m =>
    obtain ⟨ret, n', hn', hkept⟩ := h.processData lastHop m
    refine ⟨n', ?_, hkept⟩
    show (n.processData c lastHop m).map Prod.snd = .ok n'
    rw [hn']
    rfl
  | acks lastHop acks => exact h.processAcks ha
  | e2e lastHop new now => exact h.processE2E ha
  | gen => exact ⟨_, rfl, h.genE2E⟩
  | transfer k unsent => exact h.neighborTransfer ha
  | send x => exact h.sendOne ha hfine
  | restamp r => exact foldlM_ok_of (fun i _ m hm hi => hm.restampTo ha hi) hfine h
  | fill m numPaths => exact ⟨_, rfl, h⟩

theorem kept_init (c : Conf) (t : Nat) : (init c t).Kept c All := by
  intro s d
  unfold init
  dsimp only
  split
  · exact (Flow.inv_init c _ d).same ⟨rfl, rfl, rfl, rfl, rfl⟩
  · exact Flow.inv_init c _ d

end Node

/-- The window of a flow to `d`. -/
structure Flow.Window (c : Conf) (d : Nat) (f : Flow) : Prop where
  order : ∀ k, c.Ngbr k → f.sow ≤ f.nextSeq k ∧ f.nextSeq k ≤ f.headSeq
  sow_le : f.sow ≤ f.headSeq
  head_le : f.headSeq ≤ f.sow + maxMessPerFlow
  stored : d ≠ c.myId → ∀ j, f.sow ≤ j → j < f.headSeq → ∃ m, f.msg (slot j) = some m ∧ m.seqNum = j
  sent : d ≠ c.myId → ∀ k, c.Ngbr k → ∀ j, f.sow ≤ j → j < f.nextSeq k → f.sentTo k j = true

/-- The daemon as its runs leave it, unless a fault ended it. -/
def run (c : Conf) (x : Except Fault Node) (a : Action) : Except Fault Node := x >>= fun n => n.step c a

/-- The daemon goes on, and all flows have their windows. -/
def Sound (c : Conf) (x : Except Fault Node) : Prop := ∃ n, x = .ok n ∧ ∀ s d, (n.flow s d).Window c d

def Fine (c : Conf) (x : Except Fault Node) (a : Action) : Prop := ∀ n, x = .ok n → n.Fine c a

/-- In every run whose steps are fine all flows keep their windows. -/
theorem kept_along {c : Conf} {t : Nat} {as : List Action} (hvalid : ∀ a ∈ as, a.Valid c)
    (h : Steps (run c) (Fine c) (.ok (Node.init c t)) as) :
    Always (run c) (fun x => ∃ n, x = .ok n ∧ n.Kept c Node.All) (.ok (Node.init c t)) as := by
  refine always_of_steps ?_ hvalid h ⟨_, rfl, Node.kept_init c t⟩
  rintro x a ha ⟨n, rfl, hn⟩ hfine
  obtain ⟨n', hn', hkept⟩ := hn.step ha (hfine n rfl)
  exact ⟨n', bind_eq_ok.mpr ⟨n, rfl, hn'⟩, hkept⟩

/-- **Windows are kept.** In every run in which sending takes minima below the head, and restamping is
not interrupted when messages behind `next_seq` were restamped, the daemon goes on and all flows
have their windows, whatever comes in. -/
theorem window_kept (c : Conf) (t : Nat) (as : List Action) (hvalid : ∀ a ∈ as, a.Valid c)
    (h : Steps (run c) (Fine c) (.ok (Node.init c t)) as) : Always (run c) (Sound c) (.ok (Node.init c t)) as := by
  refine (kept_along hvalid h).imp ?_
  rintro x ⟨n, rfl, hn⟩
  refine ⟨n, rfl, fun s d => ?_⟩
  have hinv := hn s d
  exact ⟨fun k hk => ⟨hinv.le_next k hk, hinv.next_le k hk⟩, hinv.sow_le, hinv.head_le, fun _ => hinv.stored,
    fun _ k hk => hinv.sent k hk trivial⟩

/-! ## A number from 2^31 on -/

/-- A node with one neighbour, whose windows move with hop-by-hop acknowledgements. -/
def farConf : Conf :=
  { myId := 1, myId_mem := one_mem_nodes, neighborIds := [2], neighborMask := fun _ => 1
    hbhAdvance := true, hbhOpt := false, e2eOpt := false, crypto := false }

/-- The destination has the messages of its source up to 2^31. -/
def farE2E : E2E := { dest := 3, cell := fun i => if i = 2 then ⟨1, 7, 2 ^ 31⟩ else ⟨0, 0, 0⟩ }

def farTurn : Flow.Turn := ⟨true, 0, true⟩

/-- The next message arrives. -/
def farRun : List Action := [.e2e 1 farE2E 100, .data 1 ⟨2, 3, 7, 2 ^ 31 + 1, 1⟩]

theorem farRun_valid : ∀ a ∈ farRun, a.Valid farConf := by
  intro a ha
  rcases List.mem_pair.mp ha with rfl | rfl
  · show ∀ i ∈ nodes, (farE2E.cell i).aru < 2 ^ 64 - 1
    decide
  · trivial

theorem farRun_fine (t : Nat) : Steps (run farConf) (Fine farConf) (.ok (Node.init farConf t)) farRun :=
  ⟨fun _ _ => trivial, fun _ _ => trivial, trivial⟩

theorem window_kept_farRun :
    Always (run farConf) (Sound farConf) (.ok (Node.init farConf 100)) farRun :=
  window_kept farConf 100 farRun farRun_valid (farRun_fine 100)

/-- The flow is queued, can be sent, and its minimum in an `int` is not below the head. -/
def Node.Wide (c : Conf) (n : Node) : Prop :=
  (n.flow 2 3).inFlowQueue 1 = true ∧ (n.flow 2 3).headSeq ≤ ((n.flow 2 3).markSent 1).leastInt c ∧
    ((n.flow 2 3).held c 2 1 (n.handshakeComplete 3)).toOption = some false

instance (c : Conf) (n : Node) : Decidable (n.Wide c) := by
  unfold Node.Wide
  infer_instance

theorem farRun_wide :
    ∃ n ∈ (farRun.foldl (run farConf) (.ok (Node.init farConf 100))).toOption, n.Wide farConf := by
  decide +kernel

/-- Sending the message moves `sow` past the head, or does not end. -/
theorem window_lost :
    ¬ ∀ (c : Conf) (t : Nat) (as : List Action), (∀ a ∈ as, a.Valid c) →
      Always (run c) (Sound c) (.ok (Node.init c t)) as := by
  intro hall
  have hvalid : ∀ a ∈ farRun ++ [.send (.data 1 2 3 farTurn)], a.Valid farConf := by
    intro a ha
    rcases List.mem_append.mp ha with hrun | hsend
    · exact farRun_valid a hrun
    · rw [List.mem_singleton.mp hsend]
      exact ⟨le_refl 1, le_refl 1⟩
  obtain ⟨n', hn', hsound⟩ := Always.of_prefix (hall farConf 100 _ hvalid) (List.prefix_refl _)
  obtain ⟨n, hn, hkept⟩ := Always.of_prefix (kept_along farRun_valid (farRun_fine 100)) (List.prefix_refl _)
  obtain ⟨m, hm, hqueue, hleast, hheld⟩ := farRun_wide
  rw [List.foldl_append, hn] at hn'
  rw [hn] at hm
  cases hm
  have hsend : ((n.flow 2 3).onSend farConf 2 1 (n.handshakeComplete 3) farTurn).map (n.setFlow 2 3) = .ok n' := hn'
  cases hg : (n.flow 2 3).onSend farConf 2 1 (n.handshakeComplete 3) farTurn with
  | error e =>
    rw [hg] at hsend
    cases hsend
  | ok g =>
    have hlost : g.headSeq < g.sow := by
      refine (hkept 2 3).not_narrow ⟨le_refl 1, le_refl 1⟩ (fun hnarrow => ?_) g hg
      refine absurd (hnarrow rfl rfl hqueue rfl ?_ rfl) (not_lt.mpr hleast)
      cases hfree : (n.flow 2 3).held farConf 2 1 (n.handshakeComplete 3) with
      | error e =>
        rw [hfree] at hheld
        cases hheld
      | ok b =>
        rw [hfree] at hheld
        cases hheld
        rfl
    rw [hg] at hsend
    cases hsend
    have hwindow := (hsound 2 3).sow_le
    unfold Node.setFlow at hwindow
    dsimp only at hwindow
    rw [update_self, update_self] at hwindow
    exact absurd hwindow (not_le.mpr hlost)

end Spire.Flood
