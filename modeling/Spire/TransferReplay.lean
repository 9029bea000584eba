import Mathlib.Data.List.Chain
import Spire.Lib.Runs
import Spire.ItrcMaster
import Spire.TcDelivery

/-!
# Messages around a state transfer

While a replica collects the state of others, `ITRC_Process_Prime_Ordinal` parks what Prime
delivers, and what follows the transfer replays it. `accepted` is what a replica would take if it
never had to wait: the next ordinals, and the transfers to itself. That nothing is lost or repeated
is that the parking does not show: what was taken, and what will be taken of what is parked, is
what would have been taken.

This holds of every run. But the flag of a completed transfer is cleared before the replay, and a
transfer that completes in the replay leaves it set; if the replica then waits for another one, an
assertion fails at the next message.
-/

namespace Spire.Itrc

open Lib
open Spire.Scada (PrimeMsg numProgress)

variable {P S G : Type}

/-! ## What there is to take -/

/-- What a replica takes after the ordinal `p` that does not have to wait for any state. -/
def accepted (me : Nat) : Ordinal → List (Ordinal × PrimeMsg) → List (Ordinal × PrimeMsg)
  | _, [] => []
  | p, (o, m) :: rest =>
    if 0 < ordCompare o p ∧ (OrdConsec p o ∨ m.transfersTo me = true) then (o, m) :: accepted me o rest
    else accepted me p rest

/-- The last ordinal of some messages after the ordinal `p`. -/
def endOf (p : Ordinal) : List (Ordinal × PrimeMsg) → Ordinal
  | [] => p
  | x :: l => endOf x.1 l

section Accepted

variable {me : Nat} {p o : Ordinal} {m : PrimeMsg} {x : Ordinal × PrimeMsg} {k l l' : List (Ordinal × PrimeMsg)}

@[simp] theorem endOf_nil : endOf p [] = p := rfl

@[simp] theorem endOf_cons : endOf p (x :: l) = endOf x.1 l := rfl

@[simp] theorem endOf_append : endOf p (l ++ l') = endOf (endOf p l) l' := by
  induction l generalizing p with
  | nil => rfl
  | cons x l ih => exact ih

theorem endOf_mem : endOf p l ∈ p :: l.map Prod.fst := by
  induction l generalizing p with
  | nil => exact List.mem_cons_self
  | cons x l ih => exact List.mem_cons_of_mem _ ih

theorem accepted_append : accepted me p (l ++ l') = accepted me p l ++ accepted me (endOf p (accepted me p l)) l' := by
  induction l generalizing p with
  | nil => rfl
  | cons x l ih =>
    rw [List.cons_append, accepted, accepted]
    split_ifs
    · rw [ih, List.cons_append]
      rfl
    · exact ih

theorem accepted_sublist : (accepted me p l).Sublist l := by
  induction l generalizing p with
  | nil => exact List.Sublist.refl _
  | cons x l ih =>
    rw [accepted]
    split_ifs
    · exact ih.cons_cons x
    · exact ih.cons x

/-- What is taken is later, and in order. -/
theorem accepted_keyed : Keyed Ordinal.key (p :: (accepted me p l).map Prod.fst) := by
  induction l generalizing p with
  | nil => exact List.pairwise_singleton _ _
  | cons x l ih =>
    rw [accepted]
    split_ifs with htake
    · have hlt : p.key < x.1.key := ordCompare_pos.mp htake.1
      have hrest : Keyed Ordinal.key (x.1 :: (accepted me x.1 l).map Prod.fst) := ih
      refine List.pairwise_cons.mpr ⟨fun o ho => ?_, hrest⟩
      rcases List.mem_cons.mp ho with rfl | ho
      · exact hlt
      · exact hlt.trans (hrest.head_lt ho)
    · exact ih

/-- The last of ordinals in order is the largest. -/
theorem le_endOf (h : Keyed Ordinal.key (p :: l.map Prod.fst)) : ∀ o ∈ p :: l.map Prod.fst, o.key ≤ (endOf p l).key := by
  induction l generalizing p with
  | nil =>
    intro o ho
    rw [List.mem_singleton.mp ho]
    rfl
  | cons x l ih =>
    intro o ho
    rcases List.mem_cons.mp ho with rfl | ho
    · exact (h.head_lt List.mem_cons_self).le.trans (ih h.tail x.1 List.mem_cons_self)
    · exact ih h.tail o ho

theorem le_endOf_accepted : p.key ≤ (endOf p (accepted me p l)).key := le_endOf accepted_keyed p List.mem_cons_self

/-- What is not later is not taken. -/
theorem accepted_old (h : ¬0 < ordCompare o p) : accepted me p ((o, m) :: l) = accepted me p l :=
  if_neg fun hand => h hand.1

theorem accepted_old_concat (h : ¬0 < ordCompare o p) : accepted me p (l ++ [(o, m)]) = accepted me p l := by
  have hle : ¬0 < ordCompare o (endOf p (accepted me p l)) := by
    intro hpos
    exact h (ordCompare_pos.mpr (lt_of_le_of_lt le_endOf_accepted (ordCompare_pos.mp hpos)))
  rw [accepted_append, accepted_old hle, accepted, List.append_nil]

/-- The next ordinals are all taken. -/
theorem accepted_chain (h : (p :: l.map Prod.fst).IsChain OrdConsec) : accepted me p l = l := by
  induction l generalizing p with
  | nil => rfl
  | cons x l ih =>
    rw [List.map_cons, List.isChain_cons_cons] at h
    rw [accepted, if_pos ⟨ordCompare_pos.mpr h.1.key_lt, .inl h.1⟩, ih h.2]

end Accepted

/-- In a chain every element follows the end of those before it. -/
theorem isChain_at {p : Ordinal} {x : Ordinal × PrimeMsg} {l l' : List (Ordinal × PrimeMsg)}
    (h : (p :: (l ++ x :: l').map Prod.fst).IsChain OrdConsec) : OrdConsec (endOf p l) x.1 := by
  induction l generalizing p with
  | nil => exact (List.isChain_cons_cons.mp h).1
  | cons y l ih => exact ih (List.isChain_cons_cons.mp h).2

/-! ## Rounds -/

/-- A signal of Prime or a state from another replica does not start a collection, nor meet one
that is under way, as long as the flag of an earlier transfer is set. A state completes only the
transfer the replica collects. -/
def Orderly [DecidableEq G] (v : Setting P S G) (s : Master P S) : MasterInput P S → Prop
  | .prime o m => s.completedTransfer = true → 0 < ordCompare o s.recvdOrd →
    s.collectingSignal = false ∧ ¬(s.Needs v o m ∧ ¬s.Collected v o)
  | .stateXfer sender st =>
    (s.completedTransfer = true → s.collectingSignal = true → s.Completes v sender st) ∧
      (s.Completes v sender st → s.collectingSignal = true ∧ st.ord = s.recvdOrd)
  | _ => True

instance [DecidableEq G] (v : Setting P S G) (s : Master P S) (x : MasterInput P S) : Decidable (Orderly v s x) := by
  cases x <;> unfold Orderly <;> infer_instance

/-- What holds in the course of a round, when `l` is what is still parked. -/
structure Master.Course (me : Nat) (s : Master P S) (l : List (Ordinal × PrimeMsg)) : Prop where
  queued : s.Queued
  whole : s.processed ++ accepted me s.recvdOrd l = accepted me zeroOrd s.arrived
  last : s.recvdOrd = endOf zeroOrd s.processed
  point : ∀ t ∈ s.transfers, ∃ m : PrimeMsg, (t.1, m) ∈ s.processed ∧ m.transfersTo me = true
  ahead : s.collectingSignal = true → ∃ init m, s.processed = init ++ [(s.recvdOrd, m)] ∧
    m.transfersTo me = true ∧ ¬OrdConsec (endOf zeroOrd init) s.recvdOrd ∧
      ∀ t ∈ s.transfers.getLast?, t.1.key < s.recvdOrd.key

section Between

variable {v : Setting P S G} {s : Master P S} {o : Ordinal}

/-- What holds between the rounds: nothing is parked unless the replica waits. -/
structure Master.Receives (v : Setting P S G) (s : Master P S) : Prop where
  course : s.Course v.site.myId s.pendingUpdates
  idle : s.collectingSignal = false → s.pendingUpdates = []

theorem Master.receives_init : (Master.init : Master P S).Receives v where
  course := ⟨⟨List.Pairwise.nil, List.forall_mem_nil _⟩, rfl, rfl, List.forall_mem_nil _, nofun⟩
  idle _ := rfl

/-- Shares are not among what the replica receives from Prime. -/
theorem Master.Receives.insertTc (h : s.Receives v) (f : TcNode P S → TcNode P S) :
    (s.insertTc v o f).Receives v ∧ (s.insertTc v o f).fault = s.fault ∧
      s.processed <+: (s.insertTc v o f).processed := by
  obtain ⟨q, handed, heq⟩ := insertTc_frame (v := v) s o f
  obtain ⟨hcourse, hidle⟩ := h
  rw [heq]
  exact ⟨⟨⟨⟨hcourse.queued.keyed, hcourse.queued.result⟩, hcourse.whole, hcourse.last, hcourse.point, hcourse.ahead⟩,
    hidle⟩, rfl, List.prefix_refl _⟩

/-- A run that is reset starts again. -/
theorem Master.Receives.onPrimeReset (h : s.Receives v) : (s.onPrimeReset o).Receives v := by
  obtain ⟨hcourse, hidle⟩ := h
  unfold Master.onPrimeReset
  split_ifs
  · exact ⟨⟨⟨hcourse.queued.keyed, hcourse.queued.result⟩, hcourse.whole, hcourse.last, hcourse.point, hcourse.ahead⟩,
      hidle⟩
  · exact ⟨⟨⟨List.Pairwise.nil, List.forall_mem_nil _⟩, rfl, rfl, List.forall_mem_nil _, nofun⟩, fun _ => rfl⟩

end Between

section Rounds

variable [DecidableEq G] {v : Setting P S G} {s s' : Master P S} {o : Ordinal} {m : PrimeMsg}
  {l : List (Ordinal × PrimeMsg)}

theorem Master.Course.increasing {me : Nat} (h : s.Course me l) :
    Keyed Ordinal.key (zeroOrd :: s.processed.map Prod.fst) := by
  have hall : Keyed Ordinal.key (zeroOrd :: (accepted me zeroOrd s.arrived).map Prod.fst) := accepted_keyed
  rw [← h.whole, List.map_append, ← List.cons_append] at hall
  exact (List.pairwise_append.mp hall).1

/-- No transfer is later than what was taken. -/
theorem Master.Course.point_le {me : Nat} (h : s.Course me l) : ∀ t ∈ s.transfers, t.1.key ≤ s.recvdOrd.key := by
  intro t ht
  obtain ⟨m, hm, -⟩ := h.point t ht
  rw [h.last]
  exact le_endOf h.increasing t.1 (List.mem_cons_of_mem _ (List.mem_map_of_mem hm))

/-- An ordinal is taken that is the next one or a transfer. -/
theorem Master.Course.take (h : s.Course v.site.myId ((o, m) :: l)) (hidle : s.collectingSignal = false)
    (hlt : s.recvdOrd.key < o.key) (hnext : OrdConsec s.recvdOrd o ∨ m.transfersTo v.site.myId = true)
    (ht : s.Taken v o m s') : s'.Course v.site.myId l := by
  have hpoint : ∀ t ∈ s.transfers, ∃ m' : PrimeMsg, (t.1, m') ∈ s'.processed ∧ m'.transfersTo v.site.myId = true := by
    intro t hmem
    obtain ⟨m', hm', hto⟩ := h.point t hmem
    exact ⟨m', ht.processed ▸ List.mem_append_left _ hm', hto⟩
  have hself : (o, m) ∈ s'.processed := ht.processed ▸ List.mem_append_right _ List.mem_cons_self
  have hwhole : s'.processed ++ accepted v.site.myId s'.recvdOrd l = accepted v.site.myId zeroOrd s'.arrived := by
    rw [ht.processed, ht.recvdOrd, ht.arrived, ← h.whole, accepted, if_pos ⟨ordCompare_pos.mpr hlt, hnext⟩,
      List.append_assoc, List.singleton_append]
  have hlast : s'.recvdOrd = endOf zeroOrd s'.processed := by
    rw [ht.processed, ht.recvdOrd, endOf_append]
    rfl
  by_cases hneeds : s.Needs v o m
  · by_cases hcollected : s.Collected v o
    · obtain ⟨hnot, -, ⟨st, htrans⟩, -⟩ := ht.applies hneeds hcollected
      refine ⟨ht.queued, hwhole, hlast, fun t hmem => ?_, fun hc => ?_⟩
      · rw [htrans] at hmem
        rcases List.mem_append.mp hmem with hmem | hmem
        · exact hpoint t hmem
        · rw [List.mem_singleton.mp hmem]
          exact ⟨m, hself, hneeds.1⟩
      · rw [hnot] at hc
        cases hc
    · obtain ⟨-, -, htrans, -⟩ := ht.waits hneeds hcollected
      refine ⟨ht.queued, hwhole, hlast, fun t hmem => hpoint t (htrans ▸ hmem), fun _ => ?_⟩
      refine ⟨s.processed, m, ?_, hneeds.1, ?_, fun t hmem => ?_⟩
      · rw [ht.recvdOrd]
        exact ht.processed
      · rw [ht.recvdOrd, ← h.last]
        exact hneeds.2
      · rw [htrans] at hmem
        rw [ht.recvdOrd]
        exact lt_of_le_of_lt (h.point_le t (List.mem_of_getLast? hmem)) hlt
  · obtain ⟨hsame, -, htrans, -⟩ := ht.goesOn hneeds
    refine ⟨ht.queued, hwhole, hlast, fun t hmem => hpoint t (htrans ▸ hmem), fun hc => ?_⟩
    rw [hsame, hidle] at hc
    cases hc

/-- A message that the replica does not park is taken, or there is a gap before it. -/
theorem Master.Course.process (h : s.Course v.site.myId ((o, m) :: l)) (hidle : s.collectingSignal = false)
    (hlt : s.recvdOrd.key < o.key) :
    (s.processPrimeOrdinal v o m).Course v.site.myId l ∧
      (s.processPrimeOrdinal v o m).pendingUpdates = s.pendingUpdates ∧
      (s.processPrimeOrdinal v o m).fault = s.fault ∧
      (s.processPrimeOrdinal v o m).arrived = s.arrived ∧ s.processed <+: (s.processPrimeOrdinal v o m).processed := by
  have hopen : ¬s.collectingSignal = true := by
    rw [hidle]
    exact Bool.false_ne_true
  rw [Master.processPrimeOrdinal, if_neg hopen]
  by_cases hgap : ¬OrdConsec s.recvdOrd o ∧ m.transfersTo v.site.myId = false
  · rw [if_pos hgap]
    have hskip : accepted v.site.myId s.recvdOrd ((o, m) :: l) = accepted v.site.myId s.recvdOrd l := by
      refine if_neg fun hand => ?_
      rcases hand.2 with hnext | hto
      · exact hgap.1 hnext
      · rw [hgap.2] at hto
        cases hto
    have hwhole := h.whole
    rw [hskip] at hwhole
    exact ⟨⟨⟨h.queued.keyed, h.queued.result⟩, hwhole, h.last, h.point, h.ahead⟩, rfl, rfl, rfl, List.prefix_refl _⟩
  · rw [if_neg hgap]
    have ht := takeOrdinal_taken (v := v) h.queued o m
    have hnext : OrdConsec s.recvdOrd o ∨ m.transfersTo v.site.myId = true := by
      by_contra hnot
      obtain ⟨hno, hto⟩ := not_or.mp hnot
      exact hgap ⟨hno, Bool.eq_false_iff.mpr hto⟩
    exact ⟨h.take hidle hlt hnext ht, ht.pending, ht.fault, ht.arrived, ht.processed ▸ List.prefix_append _ _⟩

/-- What was parked is replayed, up to the next collection. -/
theorem Master.Course.replay (h : s.Course v.site.myId l) (hempty : s.pendingUpdates = []) :
    (s.replay v l).Course v.site.myId (s.replay v l).pendingUpdates ∧
      ((s.replay v l).collectingSignal = false → (s.replay v l).pendingUpdates = []) ∧
      (s.replay v l).fault = s.fault ∧ s.processed <+: (s.replay v l).processed := by
  induction l generalizing s with
  | nil =>
    rw [Master.replay, hempty]
    exact ⟨h, fun _ => rfl, rfl, List.prefix_refl _⟩
  | cons x l ih =>
    obtain ⟨o, m⟩ := x
    rw [Master.replay]
    by_cases hc : s.collectingSignal = true
    · rw [if_pos hc]
      refine ⟨⟨⟨h.queued.keyed, h.queued.result⟩, h.whole, h.last, h.point, h.ahead⟩, fun hn => ?_, rfl,
        List.prefix_refl _⟩
      rw [hc] at hn
      cases hn
    · rw [if_neg hc]
      by_cases hlt : 0 < ordCompare o s.recvdOrd
      · rw [if_pos hlt]
        obtain ⟨hcourse, hpending, hfault, -, hprefix⟩ := h.process (Bool.eq_false_iff.mpr hc) (ordCompare_pos.mp hlt)
        obtain ⟨hrest, hidle, hfault', hprefix'⟩ := ih hcourse (hpending.trans hempty)
        exact ⟨hrest, hidle, hfault'.trans hfault, hprefix.trans hprefix'⟩
      · rw [if_neg hlt]
        have hwhole := h.whole
        rw [accepted_old hlt] at hwhole
        exact ih ⟨h.queued, hwhole, h.last, h.point, h.ahead⟩ hempty

theorem Master.Course.afterTransfer (h : s.Course v.site.myId s.pendingUpdates)
    (hidle : s.completedTransfer = false → s.collectingSignal = false → s.pendingUpdates = [])
    (horderly : s.completedTransfer = true → s.collectingSignal = false) :
    (s.afterTransfer v).Receives v ∧ (s.afterTransfer v).fault = s.fault ∧
      s.processed <+: (s.afterTransfer v).processed := by
  unfold Master.afterTransfer
  by_cases hdone : s.completedTransfer = true
  · have hc : ¬s.collectingSignal = true := Bool.eq_false_iff.mp (horderly hdone)
    rw [if_pos hdone, if_neg hc]
    have hcourse : ({ s with completedTransfer := false, pendingUpdates := [] } : Master P S).Course v.site.myId
        s.pendingUpdates := ⟨⟨h.queued.keyed, h.queued.result⟩, h.whole, h.last, h.point, h.ahead⟩
    obtain ⟨hrest, hrestIdle, hfault, hprefix⟩ := hcourse.replay rfl
    exact ⟨⟨hrest, hrestIdle⟩, hfault, hprefix⟩
  · rw [if_neg hdone]
    exact ⟨⟨h, hidle (Bool.eq_false_iff.mpr hdone)⟩, rfl, List.prefix_refl _⟩

/-- A message from Prime. -/
theorem Master.Receives.onPrime (h : s.Receives v) (ho : Orderly v s (.prime o m)) :
    (s.onPrime v o m).Receives v ∧ (s.onPrime v o m).fault = s.fault ∧
      s.processed <+: (s.onPrime v o m).processed := by
  obtain ⟨hcourse, hidle⟩ := h
  unfold Master.onPrime
  dsimp only
  set i := if s.recvdFirstOrdinal = false ∧ ¬OrdConsec s.recvdOrd o then s.injected + 1 else s.injected
  by_cases hold : ordCompare o s.recvdOrd ≤ 0
  · rw [if_pos hold]
    have hwhole : s.processed ++ accepted v.site.myId s.recvdOrd s.pendingUpdates =
        accepted v.site.myId zeroOrd (s.arrived ++ [(o, m)]) := by
      rw [← accepted_old_concat (l := s.pendingUpdates) (m := m) (not_lt.mpr hold), accepted_append, accepted_append,
        ← hcourse.whole, endOf_append, ← hcourse.last, List.append_assoc]
    exact ⟨⟨⟨⟨hcourse.queued.keyed, hcourse.queued.result⟩, hwhole, hcourse.last, hcourse.point, hcourse.ahead⟩, hidle⟩,
      rfl, List.prefix_refl _⟩
  rw [if_neg hold]
  have hlt : s.recvdOrd.key < o.key := ordCompare_pos.mp (not_le.mp hold)
  set a : Master P S := { s with injected := i, recvdFirstOrdinal := true, arrived := s.arrived ++ [(o, m)] }
  -- With the new message, what has arrived is what was taken and what is parked, the new one last.
  have hnew : a.Course v.site.myId (s.pendingUpdates ++ [(o, m)]) := by
    refine ⟨⟨hcourse.queued.keyed, hcourse.queued.result⟩, ?_, hcourse.last, hcourse.point, hcourse.ahead⟩
    show s.processed ++ accepted v.site.myId s.recvdOrd (s.pendingUpdates ++ [(o, m)]) =
      accepted v.site.myId zeroOrd (s.arrived ++ [(o, m)])
    rw [accepted_append, accepted_append, ← hcourse.whole, endOf_append, ← hcourse.last, List.append_assoc]
  by_cases hc : s.collectingSignal = true
  · have hparked : a.processPrimeOrdinal v o m = { a with pendingUpdates := s.pendingUpdates ++ [(o, m)] } := if_pos hc
    rw [hparked]
    have hcourse' : ({ a with pendingUpdates := s.pendingUpdates ++ [(o, m)] } : Master P S).Course v.site.myId
        (s.pendingUpdates ++ [(o, m)]) :=
      ⟨⟨hcourse.queued.keyed, hcourse.queued.result⟩, hnew.whole, hnew.last, hnew.point, hnew.ahead⟩
    refine hcourse'.afterTransfer (fun _ hn => ?_) fun hdone => (ho hdone (not_le.mp hold)).1
    rw [show s.collectingSignal = false from hn] at hc
    cases hc
  · have hopen : s.collectingSignal = false := Bool.eq_false_iff.mpr hc
    rw [hidle hopen, List.nil_append] at hnew
    obtain ⟨hcourse', hpending, hfault, -, hprefix⟩ := hnew.process hopen hlt
    have hempty : (a.processPrimeOrdinal v o m).pendingUpdates = [] := hpending.trans (hidle hopen)
    have hchecked : (a.processPrimeOrdinal v o m).completedTransfer = true →
        (a.processPrimeOrdinal v o m).collectingSignal = false := by
      rw [Master.processPrimeOrdinal, if_neg hc]
      split_ifs with hgap
      · exact fun _ => hopen
      · have ht := takeOrdinal_taken (v := v) (s := a) hnew.queued o m
        have hsame : s.Collected v o ↔ a.Collected v o := by
          unfold Master.Collected Master.insertTc
          split_ifs <;> exact Iff.rfl
        by_cases hneeds : s.Needs v o m
        · by_cases hcollected : a.Collected v o
          · exact fun _ => (ht.applies hneeds hcollected).1
          · obtain ⟨-, hflag, -, -⟩ := ht.waits hneeds hcollected
            intro hdone
            rw [hflag] at hdone
            exact absurd ⟨hneeds, mt hsame.mp hcollected⟩ (ho hdone (not_le.mp hold)).2
        · intro _
          rw [(ht.goesOn hneeds).1]
          exact hopen
    rw [← hempty] at hcourse'
    obtain ⟨hreceives, hfault', hprefix'⟩ := hcourse'.afterTransfer (fun _ _ => hempty) hchecked
    exact ⟨hreceives, hfault'.trans hfault, hprefix.trans hprefix'⟩

/-- A state from another replica. -/
theorem Master.Receives.onStateXfer {sender : Nat} {st : StXfer} (h : s.Receives v)
    (ho : Orderly v s (.stateXfer sender st)) :
    (s.onStateXfer v sender st).Receives v ∧ (s.onStateXfer v sender st).fault = s.fault ∧
      s.processed <+: (s.onStateXfer v sender st).processed := by
  obtain ⟨hcourse, hidle⟩ := h
  have hqueued := hcourse.queued.offerState (v := v) sender st
  unfold Master.onStateXfer
  obtain ⟨hc, x, tcq, stq, -, -, -, heq⟩ | ⟨hc, heq⟩ := offerState_cases (v := v) hcourse.queued sender st
  · -- The state is that of the transfer the replica waits for.
    obtain ⟨hcollecting, hord⟩ := ho.2 hc
    obtain ⟨init, m, hprocessed, hto, -, -⟩ := hcourse.ahead hcollecting
    rw [heq] at hqueued ⊢
    refine Master.Course.afterTransfer ⟨hqueued, hcourse.whole, hcourse.last, fun t ht => ?_, nofun⟩ nofun fun _ => rfl
    rcases List.mem_append.mp ht with ht | ht
    · exact hcourse.point t ht
    · rw [List.mem_singleton.mp ht]
      refine ⟨m, ?_, hto⟩
      show (st.ord, m) ∈ s.processed
      rw [hprocessed, hord]
      exact List.mem_append_right _ List.mem_cons_self
  · rw [heq] at hqueued ⊢
    obtain ⟨q, hq⟩ := insertStId_frame (v := v) s sender st
    rw [hq] at hqueued ⊢
    refine Master.Course.afterTransfer ⟨hqueued, hcourse.whole, hcourse.last, hcourse.point, hcourse.ahead⟩
      (fun _ => hidle) fun hdone => ?_
    exact Bool.eq_false_iff.mpr fun hcollecting => hc (ho.1 hdone hcollecting)

def MasterInput.isReset : MasterInput P S → Bool
  | .primeReset _ => true
  | _ => false

/-- What a round must not do: fail the assertion about a collection, or, unless it is a reset,
take back an ordinal. -/
structure Master.Follows (s : Master P S) (x : MasterInput P S) (s' : Master P S) : Prop where
  running : s.fault ≠ some .stillCollecting → s'.fault ≠ some .stillCollecting
  grows : x.isReset = false → s.processed <+: s'.processed

/-- **A round.** -/
theorem Master.Receives.step (h : s.Receives v) (x : MasterInput P S) (ho : Orderly v s x) :
    (s.step v x).Receives v ∧ s.Follows x (s.step v x) := by
  unfold Master.step
  split_ifs with hfault
  · exact ⟨h, id, fun _ => List.prefix_refl _⟩
  have hrunning : ∀ {s' : Master P S}, s'.fault = s.fault →
      s.fault ≠ some .stillCollecting → s'.fault ≠ some .stillCollecting := fun heq hne => heq.symm ▸ hne
  cases x with
  | prime o m =>
    obtain ⟨hreceives, hsame, hprefix⟩ := h.onPrime ho
    exact ⟨hreceives, hrunning hsame, fun _ => hprefix⟩
  | primeReset o =>
    refine ⟨h.onPrimeReset, fun hne => ?_, nofun⟩
    dsimp only [Master.onPrimeReset]
    split_ifs
    · exact nofun
    · exact hne
  | reply r =>
    obtain ⟨hcourse, hidle⟩ := id h
    dsimp only [Master.onReply]
    split
    · exact ⟨⟨⟨⟨hcourse.queued.keyed, hcourse.queued.result⟩, hcourse.whole, hcourse.last, hcourse.point,
        hcourse.ahead⟩, hidle⟩, fun _ => nofun, fun _ => List.prefix_refl _⟩
    · rename_i rest _
      have hpopped : ({ s with ordQueue := rest } : Master P S).Receives v :=
        ⟨⟨⟨hcourse.queued.keyed, hcourse.queued.result⟩, hcourse.whole, hcourse.last, hcourse.point, hcourse.ahead⟩, hidle⟩
      split
      · exact ⟨hpopped, id, fun _ => List.prefix_refl _⟩
      · obtain ⟨hreceives, hsame, hprefix⟩ := hpopped.insertTc (o := (v.tcShare _ _).ord) (TcNode.receive v.crypto v.site
          v.site.myId (v.tcShare _ _))
        exact ⟨hreceives, hrunning hsame, fun _ => hprefix⟩
  | share sender tcm =>
    obtain ⟨hreceives, hsame, hprefix⟩ := h.insertTc (o := tcm.ord) (TcNode.receive v.crypto v.site sender tcm)
    exact ⟨hreceives, hrunning hsame, fun _ => hprefix⟩
  | stateXfer sender st =>
    obtain ⟨hreceives, hsame, hprefix⟩ := h.onStateXfer ho
    exact ⟨hreceives, hrunning hsame, fun _ => hprefix⟩

end Rounds

/-! ## After a transfer -/

section After

variable {v : Setting P S G} {s : Master P S}

/-- The last applied transfer point, or the start. -/
def Master.lastPoint (s : Master P S) : Ordinal := (s.transfers.getLast?.map Prod.fst).getD zeroOrd

/-- The messages `mid` are those that Prime delivers after an ordinal, up to a gap. -/
structure Between (s : Master P S) (p : Ordinal) (pre mid post : List (Ordinal × PrimeMsg)) : Prop where
  arrived : s.arrived = pre ++ (mid ++ post)
  before : ∀ x ∈ pre, x.1.key ≤ p.key
  chain : (p :: mid.map Prod.fst).IsChain OrdConsec

theorem Master.Course.lastPoint_le {me : Nat} {l : List (Ordinal × PrimeMsg)} (h : s.Course me l) :
    s.lastPoint.key ≤ s.recvdOrd.key := by
  unfold Master.lastPoint
  cases hlast : s.transfers.getLast? with
  | none =>
    rw [h.last]
    exact le_endOf h.increasing zeroOrd List.mem_cons_self
  | some t => exact h.point_le t (List.mem_of_getLast? hlast)

/-- What was taken up to a point ends at it. -/
theorem Between.endOf_accepted {me : Nat} {l pre mid post : List (Ordinal × PrimeMsg)} (hb : Between s s.lastPoint pre mid post)
    (h : s.Course me l) (hordered : Keyed Ordinal.key (s.arrived.map Prod.fst)) (hmid : mid ≠ []) :
    endOf zeroOrd (accepted me zeroOrd pre) = s.lastPoint := by
  have hbefore := hb.before
  have hchain := keyed_of_next hb.chain
  unfold Master.lastPoint at hbefore hchain ⊢
  cases hlast : s.transfers.getLast? with
  | none =>
    rw [hlast] at hbefore
    have hnone : accepted me zeroOrd pre = [] := by
      refine List.eq_nil_iff_forall_not_mem.mpr fun x hx => ?_
      have hlt := accepted_keyed.head_lt (List.mem_map_of_mem hx)
      exact absurd hlt (not_lt.mpr (hbefore x (accepted_sublist.subset hx)))
    rw [hnone]
    rfl
  | some t =>
    rw [hlast] at hbefore hchain
    obtain ⟨m, hm, hto⟩ := h.point t (List.mem_of_getLast? hlast)
    have htaken : (t.1, m) ∈ accepted me zeroOrd s.arrived := h.whole ▸ List.mem_append_left _ hm
    have hpos : zeroOrd.key < t.1.key := accepted_keyed.head_lt (List.mem_map_of_mem htaken)
    rw [hb.arrived, List.map_append, List.map_append] at hordered
    obtain ⟨hpre, hrest, -⟩ := List.pairwise_append.mp hordered
    -- What comes later is past the point, so its message is the last one before.
    have hlater : ∀ x ∈ mid ++ post, t.1.key < x.1.key := by
      intro x hx
      rcases List.mem_append.mp hx with hx | hx
      · exact hchain.head_lt (List.mem_map_of_mem hx)
      · obtain ⟨y, hy⟩ := List.exists_mem_of_ne_nil mid hmid
        exact (hchain.head_lt (List.mem_map_of_mem hy)).trans
          ((List.pairwise_append.mp hrest).2.2 _ (List.mem_map_of_mem hy) _ (List.mem_map_of_mem hx))
    have hin : (t.1, m) ∈ pre := by
      have harrived : (t.1, m) ∈ pre ++ (mid ++ post) := hb.arrived ▸ accepted_sublist.subset htaken
      rcases List.mem_append.mp harrived with hin | hin
      · exact hin
      · exact absurd (hlater _ hin) (lt_irrefl _)
    obtain ⟨a, b, rfl⟩ := List.append_of_mem hin
    have hb : b = [] := by
      refine List.eq_nil_iff_forall_not_mem.mpr fun x hx => ?_
      rw [List.map_append, List.map_cons] at hpre
      have hlt := (List.pairwise_cons.mp (List.pairwise_append.mp hpre).2.1).1 _ (List.mem_map_of_mem hx)
      exact absurd hlt (not_lt.mpr (hbefore x (by simp [hx])))
    subst hb
    have hend : (endOf zeroOrd (accepted me zeroOrd a)).key < t.1.key := by
      rcases List.mem_cons.mp (endOf_mem (p := zeroOrd) (l := accepted me zeroOrd a)) with heq | hmem
      · rw [heq]
        exact hpos
      · obtain ⟨y, hy, hyend⟩ := List.mem_map.mp hmem
        rw [List.map_append, List.map_cons] at hpre
        rw [← hyend]
        exact (List.pairwise_append.mp hpre).2.2 _ (List.mem_map_of_mem (accepted_sublist.subset hy)) _ List.mem_cons_self
    rw [accepted_append, accepted, if_pos ⟨ordCompare_pos.mpr hend, .inr hto⟩, endOf_append]
    rfl

/-- **Nothing is lost after a transfer**: what Prime delivers after the last transfer that was
applied, up to the next gap, has been taken, and without anything in between. -/
theorem Between.taken {me : Nat} {pre mid post : List (Ordinal × PrimeMsg)} (hb : Between s s.lastPoint pre mid post)
    (h : s.Course me s.pendingUpdates) (hidle : s.collectingSignal = false → s.pendingUpdates = [])
    (hordered : Keyed Ordinal.key (s.arrived.map Prod.fst)) : mid <:+: s.processed := by
  by_cases hmid : mid = []
  · rw [hmid]
    exact List.nil_infix
  have hend := hb.endOf_accepted h hordered hmid
  have hlastPoint := hb.chain
  -- The messages are in a row among all that is to be taken.
  have hall : s.processed ++ accepted me s.recvdOrd s.pendingUpdates =
      accepted me zeroOrd pre ++ (mid ++ accepted me (endOf s.lastPoint mid) post) := by
    rw [h.whole, hb.arrived, accepted_append, hend, accepted_append, accepted_chain hlastPoint]
  cases hc : s.collectingSignal with
  | false =>
    rw [hidle hc, accepted, List.append_nil] at hall
    exact ⟨_, _, (hall.trans (List.append_assoc _ _ _).symm).symm⟩
  | true =>
    -- The transfer that is collected comes after a gap, so it is not one of them.
    obtain ⟨init, m, hprocessed, -, hgap, hpoint⟩ := h.ahead hc
    have hrecvd : s.recvdOrd ∈ s.processed.map Prod.fst := by
      rw [hprocessed]
      exact List.mem_map_of_mem (List.mem_append_right _ List.mem_cons_self)
    have hafter : s.lastPoint.key < s.recvdOrd.key := by
      unfold Master.lastPoint
      cases hlast : s.transfers.getLast? with
      | none => exact h.increasing.head_lt hrecvd
      | some t => exact hpoint t hlast
    rw [hprocessed, List.append_assoc, List.singleton_append] at hall
    suffices hinit : mid <:+: init by
      rw [hprocessed]
      exact hinit.trans (List.prefix_append _ _).isInfix
    rcases List.append_eq_append_iff.mp hall with ⟨a, hpre, hmore⟩ | ⟨c, hinit, hmore⟩
    · cases a with
      | nil =>
        obtain ⟨y, mid, rfl⟩ := List.exists_cons_of_ne_nil hmid
        rw [List.nil_append, List.cons_append, List.cons.injEq] at hmore
        rw [List.append_nil] at hpre
        have hnext : OrdConsec s.lastPoint y.1 := (List.isChain_cons_cons.mp hb.chain).1
        rw [← hend, hpre, ← hmore.1] at hnext
        exact absurd hnext hgap
      | cons x a =>
        rw [List.cons_append, List.cons.injEq] at hmore
        have hmem : s.recvdOrd ∈ (accepted me zeroOrd pre).map Prod.fst := by
          rw [hpre, ← hmore.1]
          exact List.mem_map_of_mem (List.mem_append_right _ List.mem_cons_self)
        have hkeyed : Keyed Ordinal.key (zeroOrd :: (accepted me zeroOrd pre).map Prod.fst) := accepted_keyed
        have hle := le_endOf hkeyed s.recvdOrd (List.mem_cons_of_mem _ hmem)
        rw [hend] at hle
        exact absurd hafter (not_lt.mpr hle)
    · rcases List.append_eq_append_iff.mp hmore with ⟨b, hmid', -⟩ | ⟨b, hmid', hmore'⟩
      · rw [hinit, hmid', ← List.append_assoc]
        exact ⟨_, _, rfl⟩
      · cases b with
        | nil =>
          rw [List.append_nil] at hmid'
          rw [hinit, hmid']
          exact (List.suffix_append _ _).isInfix
        | cons x b =>
          rw [List.cons_append, List.cons.injEq] at hmore'
          have hnext := isChain_at (hmid' ▸ hb.chain)
          rw [hinit, endOf_append, hend] at hgap
          rw [← hmore'.1] at hnext
          exact absurd hnext hgap

/-- What is expected in every state: the assertion about a collection has not failed, what was
taken is, in its order, what Prime delivered that there was to take, but for what is parked, which
is nothing unless the replica waits, and nothing is missing after the last transfer. -/
structure Master.Complete (v : Setting P S G) (s : Master P S) : Prop where
  running : s.fault ≠ some .stillCollecting
  whole : s.processed ++ accepted v.site.myId s.recvdOrd s.pendingUpdates = accepted v.site.myId zeroOrd s.arrived
  idle : s.collectingSignal = false → s.pendingUpdates = []
  increasing : Keyed Ordinal.key (zeroOrd :: s.processed.map Prod.fst)
  last : s.recvdOrd = endOf zeroOrd s.processed
  taken : Keyed Ordinal.key (s.arrived.map Prod.fst) → ∀ pre mid post, Between s s.lastPoint pre mid post →
    mid <:+: s.processed

theorem Master.Receives.complete (h : s.Receives v) (hrunning : s.fault ≠ some .stillCollecting) : s.Complete v where
  running := hrunning
  whole := h.course.whole
  idle := h.idle
  increasing := h.course.increasing
  last := h.course.last
  taken hordered _ _ _ hb := hb.taken h.course h.idle hordered

/-- **Nothing is lost or repeated** in an orderly run. Every state is complete, and between resets
what was taken only grows. -/
theorem nothing_lost [DecidableEq G] (v : Setting P S G) (xs : List (MasterInput P S))
    (h : Steps (Master.step v) (Orderly v) Master.init xs) :
    Always (Master.step v) (Master.Complete v) Master.init xs ∧
      Steps (Master.step v) (fun s x => x.isReset = false → s.processed <+: (s.step v x).processed) Master.init xs := by
  suffices hfrom : ∀ s : Master P S, s.Receives v → s.fault ≠ some .stillCollecting →
      Steps (Master.step v) (Orderly v) s xs → Always (Master.step v) (Master.Complete v) s xs ∧
        Steps (Master.step v) (fun s x => x.isReset = false → s.processed <+: (s.step v x).processed) s xs by
    exact hfrom Master.init Master.receives_init nofun h
  clear h
  induction xs with
  | nil => exact fun s hs hrunning _ => ⟨hs.complete hrunning, trivial⟩
  | cons x xs ih =>
    rintro s hs hrunning ⟨ho, hrest⟩
    obtain ⟨hs', hfollows⟩ := hs.step x ho
    obtain ⟨halways, hsteps⟩ := ih _ hs' (hfollows.running hrunning) hrest
    exact ⟨⟨hs.complete hrunning, halways⟩, hfollows.grows, hsteps⟩

end After

/-! ## Two runs -/

section Examples

/-- The first of six replicas, one of which may be faulty. A state is its own digest. -/
def replicaOne : Setting Unit Unit StXfer where
  crypto :=
    { makeDigest := fun o _ => StXfer.dummy o, combineShares := fun _ _ => (), verifySignature := fun _ _ => true }
  site := sites
  controlCenter := true
  sendOk _ := true
  stateDigest st := st
  tcShare o _ := ⟨o, (), ()⟩

/-- The state at an ordinal, for the replica. -/
def stateAt (n : Nat) : StXfer :=
  { ord := ⟨n, 1, 1⟩, body := { target := 1, latestUpdate := [], numClients := numProgress, state := [] } }

def prime (n : Nat) (m : PrimeMsg) : MasterInput Unit Unit := .prime ⟨n, 1, 1⟩ m

/-- A transfer, with a message of Prime before, during and after the collection. -/
def waitingRun : List (MasterInput Unit Unit) :=
  [prime 1 (.noOp 1), prime 3 (.stateTransfer 1), prime 4 (.noOp 1), .stateXfer 2 (stateAt 3), .stateXfer 3 (stateAt 3),
    prime 5 (.noOp 1)]

/-- Prime signals three transfers. The states for the second come before its signal is replayed. -/
def nestedRun : List (MasterInput Unit Unit) :=
  [prime 3 (.stateTransfer 1), .stateXfer 2 (stateAt 5), .stateXfer 3 (stateAt 5), prime 5 (.stateTransfer 1),
    .stateXfer 2 (stateAt 3), .stateXfer 3 (stateAt 3), prime 7 (.stateTransfer 1)]

theorem nothing_lost_waiting :
    Always (Master.step replicaOne) (Master.Complete replicaOne) Master.init waitingRun ∧
      Steps (Master.step replicaOne) (fun s x => x.isReset = false → s.processed <+: (s.step replicaOne x).processed)
        Master.init waitingRun :=
  nothing_lost replicaOne waitingRun (by decide)

/-- The assertion fails at the third signal. -/
theorem collection_asserts :
    ¬Always (Master.step replicaOne) (Master.Complete replicaOne) Master.init nestedRun := by
  intro h
  have hfault : (nestedRun.foldl (Master.step replicaOne) Master.init).fault = some .stillCollecting := by decide
  exact (h.of_prefix (List.prefix_refl _)).running hfault

end Examples

end Spire.Itrc
