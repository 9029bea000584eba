import Mathlib.Data.Finset.Card
import Spire.Lib.Network
import Spire.TransferReplay

/-!
# What a state transfer rests on

A transfer should be applied where Prime has signaled one that the replica needs, and with a state
that enough others have signed for it. `ITRC_Insert_ST_ID` tells the signal of Prime from the
states of the others by the sender alone, and never looks at the replica a state is for. So a
state that the replica itself has signed for another, and that comes back to it, is taken for a
signal, and states for another replica are collected like its own.

`Backed` is what holds of a replica, against the states that were signed, as long as neither
happens.
-/

namespace Spire.Itrc

open Lib
open Spire.Scada (PrimeMsg numProgress)

variable {P S G : Type}

deriving instance DecidableEq for TcShare

/-! ## What a replica rests on -/

/-- A state that enough others have signed for this replica and this ordinal. -/
structure StXfer.Supported (c : Site) (signed : Nat → StXfer → Prop) (key : Nat ×ₗ Nat) (x : StXfer) : Prop where
  target : x.body.target = c.myId
  ord : x.ord.key = key
  signers : ∃ senders : Finset Nat, c.numF + 1 ≤ senders.card ∧ ∀ j ∈ senders, j ≠ c.myId ∧ signed j x

/-- Prime has signaled a transfer at this ordinal that the replica needs. -/
def Signaled (signals : List Ordinal) (key : Nat ×ₗ Nat) : Prop := ∃ o ∈ signals, o.key = key

structure StNode.Backed (c : Site) (signed : Nat → StXfer → Prop) (signals : List Ordinal) (n : StNode) : Prop where
  signaled : n.signaled = true → Signaled signals n.key
  stored : ∀ j, n.recvd j = true → j ≠ c.myId ∧ ∃ st, n.state j = some st ∧ st.ord.key = n.key ∧ signed j st
  collected : n.collected = true → ∃ x, n.result = some x ∧ x.Supported c signed n.key

structure Master.Backed (c : Site) (signed : Nat → StXfer → Prop) (s : Master P S) : Prop where
  queued : s.Queued
  nodes : ∀ n ∈ s.stq, n.Backed c signed s.signals
  transfers : ∀ t ∈ s.transfers, Signaled s.signals t.1.key ∧ t.2.Supported c signed t.1.key

section Nodes

variable [DecidableEq G] {v : Setting P S G} {signed signed' : Nat → StXfer → Prop} {signals signals' : List Ordinal}
  {n : StNode} {sender : Nat} {st x : StXfer} {o : Ordinal} {key : Nat ×ₗ Nat} {c : Site}

theorem Signaled.mono (h : Signaled signals key) (himp : signals ⊆ signals') : Signaled signals' key := by
  obtain ⟨o, ho, hkey⟩ := h
  exact ⟨o, himp ho, hkey⟩

theorem StXfer.Supported.mono (h : x.Supported c signed key) (himp : ∀ j st, signed j st → signed' j st) :
    x.Supported c signed' key := by
  obtain ⟨senders, hcard, hall⟩ := h.signers
  exact ⟨h.target, h.ord, senders, hcard, fun j hj => ⟨(hall j hj).1, himp j x (hall j hj).2⟩⟩

theorem StNode.Backed.mono (h : n.Backed c signed signals) (himp : ∀ j st, signed j st → signed' j st)
    (hsignals : signals ⊆ signals') : n.Backed c signed' signals' where
  signaled hs := (h.signaled hs).mono hsignals
  stored j hj := by
    obtain ⟨hne, st, hst, hkey, hsigned⟩ := h.stored j hj
    exact ⟨hne, st, hst, hkey, himp j st hsigned⟩
  collected hc := by
    obtain ⟨x, hx, hsupported⟩ := h.collected hc
    exact ⟨x, hx, hsupported.mono himp⟩

theorem StNode.backed_new (o : Ordinal) : (StNode.new o).Backed c signed signals where
  signaled h := by cases h
  stored j h := by cases h
  collected h := by cases h

/-- Matching states are the same one, and each is from a replica of its own. -/
theorem StNode.Backed.supported (h : n.Backed v.site signed signals) (hdigest : Function.Injective v.stateDigest)
    (hmatch : v.site.reqShares ≤ n.matchCount v st) (htarget : st.body.target = v.site.myId) (hord : st.ord.key = n.key) :
    st.Supported v.site signed n.key := by
  refine ⟨htarget, hord, ((List.range' 1 v.site.numSm).filter fun i =>
    n.recvd i && (n.state i).any fun stored => v.stateDigest stored = v.stateDigest st).toFinset, ?_, fun j hj => ?_⟩
  · rw [List.toFinset_card_of_nodup (List.Nodup.filter _ List.nodup_range')]
    exact hmatch
  · rw [List.mem_toFinset, List.mem_filter, Bool.and_eq_true, Option.any_eq_true] at hj
    obtain ⟨-, hrecvd, stored, hstored, hsame⟩ := hj
    obtain ⟨hne, st', hst', -, hsigned⟩ := h.stored j hrecvd
    obtain rfl : stored = st' := Option.some.inj (hstored.symm.trans hst')
    exact ⟨hne, hdigest (of_decide_eq_true hsame) ▸ hsigned⟩

/-- What a state must not do to the node it belongs to: stand for a signal that Prime has not
given, or complete a collection for another replica. -/
def Addressed (v : Setting P S G) (n : StNode) (sender : Nat) (st : StXfer) : Prop :=
  (sender = v.site.myId → n.signaled = true) ∧
    (sender ≠ v.site.myId → n.recvd sender = false → n.collected = false →
      v.site.reqShares ≤ (n.store sender st).matchCount v st → st.body.target = v.site.myId)

instance : Decidable (Addressed v n sender st) := by
  unfold Addressed
  infer_instance

/-- A state of another replica. -/
theorem StNode.Backed.receive (h : n.Backed v.site signed signals) (hdigest : Function.Injective v.stateDigest)
    (hkey : st.ord.key = n.key) (hsigned : signed sender st) (ho : Addressed v n sender st) :
    (n.receive v sender st).Backed v.site signed signals := by
  unfold StNode.receive
  split_ifs with hme hrecvd
  · exact ⟨fun _ => h.signaled (ho.1 hme), h.stored, h.collected⟩
  · exact h
  have hstore : (n.store sender st).Backed v.site signed signals := by
    refine ⟨h.signaled, fun j hj => ?_, h.collected⟩
    by_cases hjs : j = sender
    · subst hjs
      exact ⟨hme, st, Function.update_self .., hkey, hsigned⟩
    · have hrecvd' : (n.store sender st).recvd j = n.recvd j := Function.update_of_ne hjs _ _
      obtain ⟨hne, st', hst', hrest⟩ := h.stored j (hrecvd' ▸ hj)
      exact ⟨hne, st', (Function.update_of_ne hjs _ _).trans hst', hrest⟩
  unfold StNode.collect
  split_ifs with hcollect
  · obtain ⟨hnot, -, hmatch⟩ := hcollect
    have htarget := ho.2 hme (Bool.eq_false_iff.mpr hrecvd) hnot hmatch
    exact ⟨hstore.signaled, hstore.stored, fun _ => ⟨st, rfl, hstore.supported hdigest hmatch htarget hkey⟩⟩
  · exact hstore

/-- A signal of Prime. -/
theorem StNode.Backed.signal (h : n.Backed v.site signed signals) (hkey : Signaled signals n.key) :
    (n.receive v v.site.myId st).Backed v.site signed signals := by
  unfold StNode.receive
  rw [if_pos rfl]
  exact ⟨fun _ => hkey, h.stored, h.collected⟩

end Nodes

/-! ## Rounds of a replica -/

section Frames

variable {v : Setting P S G} {signed signed' : Nat → StXfer → Prop} {s s' : Master P S} {o : Ordinal} {c : Site}

theorem Master.Backed.mono (h : s.Backed c signed) (himp : ∀ j st, signed j st → signed' j st) :
    s.Backed c signed' where
  queued := h.queued
  nodes n hn := (h.nodes n hn).mono himp (List.Subset.refl _)
  transfers t ht := ⟨(h.transfers t ht).1, (h.transfers t ht).2.mono himp⟩

/-- Nothing else matters. -/
theorem Master.Backed.frame (h : s.Backed c signed) (hstq : s'.stq = s.stq) (hsignals : s'.signals = s.signals)
    (htransfers : s'.transfers = s.transfers) : s'.Backed c signed where
  queued := ⟨hstq ▸ h.queued.keyed, hstq ▸ h.queued.result⟩
  nodes := hstq ▸ hsignals ▸ h.nodes
  transfers := htransfers ▸ hsignals ▸ h.transfers

theorem Master.Backed.stNode (h : s.Backed c signed) (o : Ordinal) :
    (s.stNode o).Backed c signed s.signals ∧ (s.stNode o).key = o.key := by
  refine ⟨?_, key_entry rfl⟩
  rcases entry_mem_or StNode.key o.key (StNode.new o) s.stq with hmem | ⟨-, hfresh⟩
  · exact h.nodes _ hmem
  · rw [Master.stNode, hfresh]
    exact StNode.backed_new o

theorem Master.Backed.insertTc (h : s.Backed v.site signed) (f : TcNode P S → TcNode P S) :
    (s.insertTc v o f).Backed v.site signed := by
  obtain ⟨q, handed, heq⟩ := insertTc_frame (v := v) s o f
  rw [heq]
  exact h.frame rfl rfl rfl

theorem Master.Backed.onPrimeReset (h : s.Backed c signed) : (s.onPrimeReset o).Backed c signed := by
  unfold Master.onPrimeReset
  split_ifs
  · exact h.frame rfl rfl rfl
  · exact ⟨⟨List.Pairwise.nil, List.forall_mem_nil _⟩, List.forall_mem_nil _, List.forall_mem_nil _⟩

theorem Master.Backed.onReply (h : s.Backed v.site signed) (r : Scada.Reply) : (s.onReply v r).Backed v.site signed := by
  unfold Master.onReply
  split
  · exact h.frame rfl rfl rfl
  · dsimp only
    split
    · exact h.frame rfl rfl rfl
    · refine Master.Backed.insertTc ?_ _
      exact h.frame rfl rfl rfl

end Frames

section Rounds

variable [DecidableEq G] {v : Setting P S G} {signed : Nat → StXfer → Prop} {s : Master P S} {sender : Nat} {st : StXfer}
  {o : Ordinal} {m : PrimeMsg}

/-- A state that changes a node well is inserted, and applied only if it may be. -/
theorem Master.Backed.offerState (h : s.Backed v.site signed)
    (hnode : (s.stNode st.ord).receive v sender st |>.Backed v.site signed s.signals) :
    (s.offerState v sender st).Backed v.site signed := by
  have hinsert : (s.insertStId v sender st).Backed v.site signed := by
    refine ⟨h.queued.insertStId, ?_, ?_⟩
    · unfold Master.insertStId
      split_ifs
      · exact h.nodes
      · intro n hn
        rcases (mem_upsert h.queued.keyed).mp hn with rfl | ⟨hn, -⟩
        · exact hnode
        · exact h.nodes n hn
    · obtain ⟨q, hq⟩ := insertStId_frame (v := v) s sender st
      rw [hq]
      exact h.transfers
  have hqueued := h.queued.offerState (v := v) sender st
  obtain ⟨hc, x, tcq, stq, hx, -, hstq, heq⟩ | ⟨-, heq⟩ := offerState_cases (v := v) h.queued sender st
  · obtain ⟨-, -, hcollected, hsignaled⟩ := hc
    have hkey : ((s.stNode st.ord).receive v sender st).key = st.ord.key :=
      (congrArg Ordinal.key (StNode.receive_ord _)).trans (h.stNode st.ord).2
    obtain ⟨y, hy, hsupported⟩ := hnode.collected hcollected
    obtain rfl : x = y := Option.some.inj (hx.symm.trans hy)
    obtain ⟨q, hq⟩ := insertStId_frame (v := v) s sender st
    have hnodes := hinsert.nodes
    rw [hq] at hnodes hstq
    rw [heq] at hqueued ⊢
    refine ⟨hqueued, fun n hn => hnodes n (hstq.subset hn), fun t ht => ?_⟩
    rcases List.mem_append.mp ht with ht | ht
    · exact h.transfers t ht
    · rw [List.mem_singleton.mp ht]
      exact ⟨hkey ▸ hnode.signaled hsignaled, hkey ▸ hsupported⟩
  · rw [heq]
    exact hinsert

theorem Master.Backed.ownTransfer (h : s.Backed v.site signed) : (s.ownTransfer v o).Backed v.site signed := by
  by_cases hnext : OrdConsec s.recvdOrd o
  · rw [Master.ownTransfer, if_pos hnext]
    have hsub : (s.stq.dropWhile fun n => ordCompare n.ord o ≤ 0).Sublist s.stq := List.dropWhile_sublist _
    obtain ⟨hkeyed, hresult⟩ := h.queued.sublist hsub
    exact ⟨⟨hkeyed, hresult⟩, fun n hn => h.nodes n (hsub.subset hn), h.transfers⟩
  · rw [Master.ownTransfer, if_neg hnext]
    have hsub : s.signals ⊆ s.signals ++ [o] := List.subset_append_left _ _
    have hsignal : ({ s with collectingSignal := true, signals := s.signals ++ [o] } : Master P S).Backed v.site signed :=
      ⟨⟨h.queued.keyed, h.queued.result⟩, fun n hn => (h.nodes n hn).mono (fun _ _ => id) hsub,
        fun t ht => ⟨(h.transfers t ht).1.mono hsub, (h.transfers t ht).2⟩⟩
    obtain ⟨hnode, hkey⟩ := hsignal.stNode (StXfer.dummy o).ord
    refine hsignal.offerState (hnode.signal ⟨o, List.mem_append_right _ List.mem_cons_self, hkey.symm⟩)

theorem Master.Backed.takeOrdinal (h : s.Backed v.site signed) : (s.takeOrdinal v o m).Backed v.site signed := by
  have hskipped : (s.skipOrdinal v o m).Backed v.site signed := by
    unfold Master.skipOrdinal
    split_ifs
    · exact h.insertTc _
    · exact h
  have hrecord : ∀ {s' : Master P S}, s'.Backed v.site signed → (s'.record o m).Backed v.site signed := fun h' =>
    h'.frame rfl rfl rfl
  have htaken : ((if m.transfersTo v.site.myId then (s.skipOrdinal v o m).ownTransfer v o
      else s.skipOrdinal v o m).record o m).Backed v.site signed := by
    split_ifs
    · exact hrecord hskipped.ownTransfer
    · exact hrecord hskipped
  by_cases hsilent : (quiet v.site.myId s.progress m || m.transfersTo v.site.myId) = true
  · rw [Master.takeOrdinal, if_pos hsilent]
    exact htaken
  · obtain ⟨ordQueue, progress, toSm, heq⟩ := forward_frame ((if m.transfersTo v.site.myId then
      (s.skipOrdinal v o m).ownTransfer v o else s.skipOrdinal v o m).record o m) o m
    rw [Master.takeOrdinal, if_neg hsilent, heq]
    exact htaken.frame rfl rfl rfl

theorem Master.Backed.processPrimeOrdinal (h : s.Backed v.site signed) :
    (s.processPrimeOrdinal v o m).Backed v.site signed := by
  unfold Master.processPrimeOrdinal
  split_ifs
  · exact h.frame rfl rfl rfl
  · exact h.frame rfl rfl rfl
  · exact h.takeOrdinal

theorem Master.Backed.replay (h : s.Backed v.site signed) (l : List (Ordinal × PrimeMsg)) :
    (s.replay v l).Backed v.site signed := by
  induction l generalizing s with
  | nil => exact h
  | cons x l ih =>
    obtain ⟨o, m⟩ := x
    unfold Master.replay
    split_ifs
    · exact h.frame rfl rfl rfl
    · exact ih h.processPrimeOrdinal
    · exact ih h

theorem Master.Backed.afterTransfer (h : s.Backed v.site signed) : (s.afterTransfer v).Backed v.site signed := by
  unfold Master.afterTransfer
  split_ifs
  · exact h.frame rfl rfl rfl
  · refine Master.Backed.replay ?_ _
    exact h.frame rfl rfl rfl
  · exact h

theorem Master.Backed.onPrime (h : s.Backed v.site signed) : (s.onPrime v o m).Backed v.site signed := by
  unfold Master.onPrime
  dsimp only
  split_ifs
  · exact h.frame rfl rfl rfl
  · exact h.frame rfl rfl rfl
  all_goals
    refine Master.Backed.afterTransfer (Master.Backed.processPrimeOrdinal ?_)
    exact h.frame rfl rfl rfl

/-- **A round.** -/
theorem Master.Backed.step (h : s.Backed v.site signed) (hdigest : Function.Injective v.stateDigest) (x : MasterInput P S)
    (hx : ∀ sender st, x = .stateXfer sender st → signed sender st ∧
      (s.fault = none → ¬s.OldSt st.ord → Addressed v (s.stNode st.ord) sender st)) :
    (s.step v x).Backed v.site signed := by
  unfold Master.step
  split_ifs with hfault
  · exact h
  cases x with
  | prime o m => exact h.onPrime
  | primeReset o => exact h.onPrimeReset
  | reply r => exact h.onReply r
  | share sender tcm => exact h.insertTc _
  | stateXfer sender st =>
    obtain ⟨hsigned, hgood⟩ := hx sender st rfl
    by_cases hold : s.OldSt st.ord
    · have hsame : s.offerState v sender st = s := by
        rw [Master.offerState, if_neg fun hc => hc.1 hold, Master.insertStId, if_pos hold]
      show ((s.offerState v sender st).afterTransfer v).Backed v.site signed
      rw [hsame]
      exact h.afterTransfer
    · obtain ⟨hnode, hkey⟩ := h.stNode st.ord
      exact (h.offerState (hnode.receive hdigest hkey.symm hsigned (hgood (not_not.mp hfault) hold))).afterTransfer

end Rounds

/-! ## The replicas together -/

/-- What replicas send to each other. -/
inductive ItrcMsg (P S : Type)
  | share (sender : Nat) (tcm : TcShare P S)
  | stateXfer (sender : Nat) (st : StXfer)
deriving DecidableEq

/-- Who has signed a message. -/
def ItrcMsg.sender : ItrcMsg P S → Nat
  | .share i _ => i
  | .stateXfer i _ => i

/-- What happens at a replica: its own Prime delivers, or its own master replies. -/
inductive Local
  | prime (o : Ordinal) (m : PrimeMsg)
  | primeReset (o : Ordinal)
  | reply (r : Scada.Reply)

def asInput : Lib.Input (ItrcMsg P S) Local → MasterInput P S
  | .msg (.share i tcm) => .share i tcm
  | .msg (.stateXfer i st) => .stateXfer i st
  | .act (.prime o m) => .prime o m
  | .act (.primeReset o) => .primeReset o
  | .act (.reply r) => .reply r

/-- What `ITRC_Master` signs and sends for a reply. -/
def Master.sends (v : Setting P S G) (s : Master P S) : MasterInput P S → List (ItrcMsg P S)
  | .reply r =>
    if s.fault ≠ none then []
    else
      match s.ordQueue with
      | [] => []
      | o :: _ =>
        match r with
        | .stateXfer body => [.stateXfer v.site.myId { ord := o, body := body }]
        | r => [.share v.site.myId (v.tcShare o r)]
  | _ => []

/-- The setting of a replica. -/
def Setting.at (v : Setting P S G) (i : Nat) : Setting P S G := { v with site := { v.site with myId := i } }

/-- A correct replica. -/
def handler [DecidableEq G] (v : Setting P S G) : Handler (Master P S) (ItrcMsg P S) Local := fun i s x =>
  (s.step (v.at i) (asInput x), s.sends (v.at i) (asInput x))

/-- Replicas that are not correct send what they like under their own names. A message of a
correct one may reach any replica, any number of times. -/
def network (correct : Nat → Bool) : Env (ItrcMsg P S) where
  correct := correct
  forge _ m := !correct m.sender

/-- Before the first message. -/
def boot : World (Master P S) (ItrcMsg P S) := { node := fun _ => Master.init, sent := [] }

section Worlds

variable [DecidableEq P] [DecidableEq S] [DecidableEq G] {v : Setting P S G}

/-- A state that arrives at a replica changes the node it belongs to as it should. -/
def StateAddressed (v : Setting P S G) (w : World (Master P S) (ItrcMsg P S)) (i : Nat) : Lib.Input (ItrcMsg P S) Local → Prop
  | .msg (.stateXfer sender st) =>
    (w.node i).fault = none → ¬(w.node i).OldSt st.ord → Addressed (v.at i) ((w.node i).stNode st.ord) sender st
  | _ => True

/-- What is expected of every transfer that a replica has applied: its own Prime had signaled it,
and enough others have signed the state for this replica and this ordinal. -/
def TransfersSound (v : Setting P S G) (w : World (Master P S) (ItrcMsg P S)) : Prop :=
  ∀ i, ∀ t ∈ (w.node i).transfers, Signaled (w.node i).signals t.1.key ∧
    t.2.Supported (v.at i).site (fun j st => .stateXfer j st ∈ w.sent) t.1.key

/-- **Transfers are sound** in every run in which no replica takes a state of its own for a
signal, or completes a collection with states for another. A digest stands for one state. -/
theorem transfers_sound (v : Setting P S G) (hdigest : Function.Injective v.stateDigest) (correct : Nat → Bool)
    (evs : List (Event (ItrcMsg P S) Local))
    (h : World.Along (network correct) (handler v) (StateAddressed v) boot evs) :
    TransfersSound v ((boot : World (Master P S) (ItrcMsg P S)).run (network correct) (handler v) evs) := by
  have hall := run_inv_along (E := network correct) (H := handler v) (w := boot)
    (P := fun w => ∀ i, (w.node i).Backed (v.at i).site fun j st => .stateXfer j st ∈ w.sent)
    (fun i => ⟨⟨List.Pairwise.nil, List.forall_mem_nil _⟩, List.forall_mem_nil _, List.forall_mem_nil _⟩)
    (fun w i x hw hx _ ha => ?_)
    (fun w m hw _ i => (hw i).mono fun j st hst => List.mem_cons_of_mem _ hst) h
  · exact fun i => (hall i).transfers
  · have hsub : ∀ j st, ItrcMsg.stateXfer j st ∈ w.sent →
        ItrcMsg.stateXfer j st ∈ (w.move i (handler v i (w.node i) x)).sent := by
      intro j st hst
      rw [World.move_sent]
      exact List.mem_append_right _ hst
    refine World.move_node_inv (I := fun (j : Nat) (s : Master P S) => s.Backed (v.at j).site fun k st =>
      ItrcMsg.stateXfer k st ∈ (w.move i (handler v i (w.node i) x)).sent) (fun j => (hw j).mono hsub) ?_
    refine ((hw i).step hdigest (asInput x) fun sender st heq => ?_).mono hsub
    -- A state comes from the network.
    cases x with
    | act t => cases t <;> cases heq
    | msg m =>
      cases m with
      | share j tcm => cases heq
      | stateXfer j st' =>
        cases heq
        exact ⟨World.available_msg.mp ha, hx⟩

end Worlds

/-! ## A state that comes back -/

section Examples

/-- A command of a client, and what a master replies to it. -/
def command : PrimeMsg := .hmiCommand { seq := ⟨1, 1⟩, hmiId := 101, scenType := .jhu, type := 0, ttipPos := 0 }

def feedback : Scada.Reply := .rtuFeedback ⟨1, 1⟩ .jhu 0 0 0 0 1

/-- The state that replicas have for `target`. -/
def stateFor (target : Nat) : Scada.StateXfer :=
  { target := target, latestUpdate := [], numClients := numProgress, state := [] }

def ordered (i : Nat) (o : Ordinal) (m : PrimeMsg) : Event (ItrcMsg Unit Unit) Local := .handle i (.act (.prime o m))

def replied (i : Nat) (r : Scada.Reply) : Event (ItrcMsg Unit Unit) Local := .handle i (.act (.reply r))

def hears (i sender target : Nat) : Event (ItrcMsg Unit Unit) Local :=
  .handle i (.msg (.stateXfer sender { ord := ⟨1, 2, 2⟩, body := stateFor target }))

/-- The first ordinal is a command and a transfer to `target`. Three replicas execute both, and
their masters reply to both. -/
def serving (target : Nat) : List (Event (ItrcMsg Unit Unit) Local) :=
  [1, 2, 3].flatMap fun i =>
    [ordered i ⟨1, 1, 2⟩ command, ordered i ⟨1, 2, 2⟩ (.stateTransfer target), replied i feedback,
      replied i (.stateXfer (stateFor target))]

/-- The fourth replica was not there for the command. -/
def transferToFourth : List (Event (ItrcMsg Unit Unit) Local) :=
  serving 4 ++ [ordered 4 ⟨1, 2, 2⟩ (.stateTransfer 4), hears 4 1 4, hears 4 2 4]

/-- The sixth replica, which is faulty, sends what it was given to the first. -/
def transferToSixth : List (Event (ItrcMsg Unit Unit) Local) := serving 6 ++ [hears 1 1 6, hears 1 2 6, hears 1 3 6]

def onlySixthFaulty (i : Nat) : Bool := i != 6

instance [DecidableEq G] (v : Setting P S G) (w : World (Master P S) (ItrcMsg P S)) (i : Nat)
    (x : Lib.Input (ItrcMsg P S) Local) : Decidable (StateAddressed v w i x) := by
  unfold StateAddressed
  split <;> infer_instance

theorem transfers_sound_fourth :
    TransfersSound replicaOne (boot.run (network onlySixthFaulty) (handler replicaOne) transferToFourth) := by
  refine transfers_sound replicaOne (fun _ _ h => h) onlySixthFaulty transferToFourth ?_
  exact World.along_of_check (k := fun w i x => decide (StateAddressed replicaOne w i x))
    (fun _ _ _ => of_decide_eq_true) (by decide +kernel)

/-- The first replica applies a transfer to the sixth, of which its Prime had signaled none to
itself. -/
theorem transfer_unsound :
    ¬TransfersSound replicaOne (boot.run (network onlySixthFaulty) (handler replicaOne) transferToSixth) := by
  intro h
  have hrun : ∃ t ∈ ((boot.run (network onlySixthFaulty) (handler replicaOne) transferToSixth).node 1).transfers,
      t.2.body.target ≠ 1 := by decide +kernel
  obtain ⟨t, ht, htarget⟩ := hrun
  exact htarget (h 1 t ht).2.target

end Examples

end Spire.Itrc
