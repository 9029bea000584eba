import Spire.FloodNode

/-!
# The window of a flow

`Inv` is what the handlers keep of each flow: `sow`, `next_seq` and `head_seq` stand in this order and
not further apart than the ring has slots, each number of the window has its message in its slot, and
what is before `next_seq` is marked as sent. It has also that `next_seq` stands at a message that is
not sent yet, from which it follows that restamping finds it where it looks for it.

Two steps break it. `Reliable_Flood_Send_Data` puts sequence numbers into an `int`, so that from 2^31
on `sow` can run past the head. `Reliable_Flood_Restamp` leaves a flow as it is when it fails in the
middle, with messages to be sent again behind `next_seq`. A run that does neither keeps the window.
-/

namespace Spire.Flood

open Function (update update_self update_of_ne)
open Lib

/-! ## Neighbours, slots and loops -/

/-- An index of the arrays for the neighbours. -/
def Conf.Ngbr (c : Conf) (k : Nat) : Prop := 1 ≤ k ∧ k ≤ c.degree

theorem Conf.each_of_ngbr {α : Type} {c : Conf} {g h : Nat → α} {k : Nat} (hk : c.Ngbr k) : c.each g h k = h k :=
  if_pos hk

theorem slot_ne {i j : Nat} (h : i < j) (hsize : j < i + maxMessPerFlow) : slot j ≠ slot i := mod_ne_of_lt h hsize

theorem pred64_eq {x : Nat} (h : 1 ≤ x) (hlt : x < 2 ^ 64) : pred64 x = x - 1 := by
  unfold pred64
  omega

theorem add64_le (x y : Nat) : add64 x y ≤ x + y := Nat.mod_le _ _

theorem add64_lt (x y : Nat) : add64 x y < 2 ^ 64 := Nat.mod_lt _ (by decide)

namespace Flow

variable {c : Conf} {P : Nat → Prop} {d : Nat} {f g : Flow} {k seq n min : Nat}

section FirstUnsent

theorem le_firstUnsent : seq ≤ f.firstUnsent k seq := le_skipWhile _ _ _

theorem firstUnsent_le (h : seq ≤ f.headSeq) : f.firstUnsent k seq ≤ f.headSeq := by
  have := skipWhile_le (f.sentTo k) (f.headSeq - seq) seq
  unfold firstUnsent
  omega

theorem sentTo_of_lt_firstUnsent {j : Nat} (h₁ : seq ≤ j) (h₂ : j < f.firstUnsent k seq) : f.sentTo k j = true :=
  of_lt_skipWhile h₁ h₂

theorem firstUnsent_stop (h : f.firstUnsent k seq < f.headSeq) : f.sentTo k (f.firstUnsent k seq) = false := by
  refine skipWhile_stop ?_
  have := le_skipWhile (f.sentTo k) (f.headSeq - seq) seq
  unfold firstUnsent at h
  omega

end FirstUnsent

/-! ## The invariant -/

/-- What holds of a flow to `d`, with the marks for the neighbours in `P`, while `next_seq` is still
to be moved up. -/
structure Loose (c : Conf) (P : Nat → Prop) (d : Nat) (f : Flow) : Prop where
  pos : 1 ≤ f.sow
  sow_le : f.sow ≤ f.headSeq
  head_le : f.headSeq ≤ f.sow + maxMessPerFlow
  head_lt : f.headSeq < 2 ^ 64
  next_le : ∀ k, c.Ngbr k → f.nextSeq k ≤ f.headSeq
  stored : ∀ j, f.sow ≤ j → j < f.headSeq → ∃ m, f.msg (slot j) = some m ∧ m.seqNum = j
  sent : ∀ k, c.Ngbr k → P k → ∀ j, f.sow ≤ j → j < f.nextSeq k → f.sentTo k j = true
  own : d = c.myId → f.sow = f.headSeq

/-- `next_seq` stands where something is still to be sent. -/
def Settled (f : Flow) (k : Nat) : Prop := f.nextSeq k < f.headSeq → f.sentTo k (f.nextSeq k) = false

structure Inv (c : Conf) (P : Nat → Prop) (d : Nat) (f : Flow) : Prop extends Loose c P d f where
  le_next : ∀ k, c.Ngbr k → f.sow ≤ f.nextSeq k
  settled : ∀ k, c.Ngbr k → f.Settled k

/-- The flows differ only in what the invariant does not speak of. -/
structure Same (f g : Flow) : Prop where
  msg : g.msg = f.msg
  status : g.status = f.status
  sow : g.sow = f.sow
  nextSeq : g.nextSeq = f.nextSeq
  headSeq : g.headSeq = f.headSeq

theorem Same.trans {h : Flow} (hf : Same f g) (hg : Same g h) : Same f h :=
  ⟨hg.msg.trans hf.msg, hg.status.trans hf.status, hg.sow.trans hf.sow, hg.nextSeq.trans hf.nextSeq,
    hg.headSeq.trans hf.headSeq⟩

theorem Same.sentTo (h : Same f g) (k j : Nat) : g.sentTo k j = f.sentTo k j := by
  unfold Flow.sentTo
  rw [h.status]

theorem Inv.same (h : Inv c P d f) (hs : Same f g) : Inv c P d g where
  pos := hs.sow ▸ h.pos
  sow_le := hs.sow ▸ hs.headSeq ▸ h.sow_le
  head_le := hs.sow ▸ hs.headSeq ▸ h.head_le
  head_lt := hs.headSeq ▸ h.head_lt
  next_le k hk := hs.nextSeq ▸ hs.headSeq ▸ h.next_le k hk
  stored j hlo hhi := hs.msg ▸ h.stored j (hs.sow ▸ hlo) (hs.headSeq ▸ hhi)
  sent k hk hP j hlo hhi := by
    rw [hs.sentTo]
    exact h.sent k hk hP j (hs.sow ▸ hlo) (hs.nextSeq ▸ hhi)
  own hd := hs.sow ▸ hs.headSeq ▸ h.own hd
  le_next k hk := hs.sow ▸ hs.nextSeq ▸ h.le_next k hk
  settled k hk := by
    unfold Settled
    rw [hs.sentTo, hs.nextSeq, hs.headSeq]
    exact h.settled k hk

theorem Inv.mono {R : Nat → Prop} (h : Inv c P d f) (hR : ∀ k, c.Ngbr k → R k → P k) : Inv c R d f :=
  { h with sent := fun k hk hr => h.sent k hk (hR k hk hr) }

/-- An empty window has nothing to keep. -/
theorem Loose.of_empty (hpos : 1 ≤ f.sow) (hlt : f.headSeq < 2 ^ 64) (heq : f.headSeq = f.sow)
    (hnext : ∀ k, c.Ngbr k → f.nextSeq k ≤ f.sow) : Loose c P d f where
  pos := hpos
  sow_le := heq ▸ le_refl _
  head_le := by omega
  head_lt := hlt
  next_le k hk := heq ▸ hnext k hk
  stored j hlo hhi := by omega
  sent k hk _ j hlo hhi := absurd (hnext k hk) (by omega)
  own _ := heq.symm

theorem Inv.of_empty (hpos : 1 ≤ f.sow) (hlt : f.headSeq < 2 ^ 64) (heq : f.headSeq = f.sow)
    (hnext : ∀ k, c.Ngbr k → f.nextSeq k = f.sow) : Inv c P d f :=
  { Loose.of_empty (P := P) (d := d) hpos hlt heq fun k hk => (hnext k hk).le with
    le_next := fun k hk => (hnext k hk).ge
    settled := fun k hk hlt => absurd (hnext k hk) (by omega) }

theorem inv_init (c : Conf) (P : Nat → Prop) (d : Nat) : Inv c P d init :=
  Inv.of_empty (le_refl _) (by decide) rfl fun _ _ => rfl

/-! ## The shared loops keep it -/

theorem catchUp_nextSeq (hk : c.Ngbr k) : (f.catchUp c).nextSeq k = f.firstUnsent k (max (f.nextSeq k) f.sow) :=
  Conf.each_of_ngbr (g := f.nextSeq) (h := fun k => f.firstUnsent k (max (f.nextSeq k) f.sow)) hk

theorem advanceAll_nextSeq (hk : c.Ngbr k) : (f.advanceAll c).nextSeq k = f.firstUnsent k (f.nextSeq k) :=
  Conf.each_of_ngbr (g := f.nextSeq) (h := fun k => f.firstUnsent k (f.nextSeq k)) hk

/-- After the loop over all neighbours `next_seq` is where it should be. -/
theorem Loose.catchUp (h : Loose c P d f) : Inv c P d (f.catchUp c) := by
  have hnext : ∀ k, c.Ngbr k → (f.catchUp c).nextSeq k = f.firstUnsent k (max (f.nextSeq k) f.sow) := fun k hk =>
    catchUp_nextSeq hk
  have hle : ∀ k, c.Ngbr k → max (f.nextSeq k) f.sow ≤ f.headSeq := fun k hk => max_le (h.next_le k hk) h.sow_le
  refine ⟨⟨h.pos, h.sow_le, h.head_le, h.head_lt, ?_, h.stored, ?_, h.own⟩, ?_, ?_⟩
  · intro k hk
    rw [hnext k hk]
    exact firstUnsent_le (hle k hk)
  · intro k hk hP j hlo hhi
    rw [hnext k hk] at hhi
    by_cases hj : j < f.nextSeq k
    · exact h.sent k hk hP j hlo hj
    · exact sentTo_of_lt_firstUnsent (max_le (not_lt.mp hj) hlo) hhi
  · intro k hk
    rw [hnext k hk]
    exact (le_max_right _ _).trans le_firstUnsent
  · intro k hk hlt
    rw [hnext k hk] at hlt ⊢
    exact firstUnsent_stop hlt

theorem advanceAll_eq (h : ∀ k, c.Ngbr k → f.sow ≤ f.nextSeq k) : f.advanceAll c = f.catchUp c := by
  unfold advanceAll Flow.catchUp
  congr 1
  funext k
  unfold Conf.each
  split
  next hk =>
    dsimp only
    rw [max_eq_left (h k hk)]
  next => rfl

theorem Loose.advanceAll (h : Loose c P d f) (hle : ∀ k, c.Ngbr k → f.sow ≤ f.nextSeq k) : Inv c P d (f.advanceAll c) := by
  rw [advanceAll_eq hle]
  exact h.catchUp

/-- The loop for one neighbour, when the others are where they should be. -/
theorem Loose.advance (h : Loose c P d f) (hle : ∀ k, c.Ngbr k → f.sow ≤ f.nextSeq k)
    (hset : ∀ k', c.Ngbr k' → k' ≠ k → f.Settled k') : Inv c P d (f.advance k) := by
  have hself : (f.advance k).nextSeq k = f.firstUnsent k (f.nextSeq k) := update_self _ _ _
  have hother : ∀ k', k' ≠ k → (f.advance k).nextSeq k' = f.nextSeq k' := fun k' hk' => update_of_ne hk' _ _
  refine ⟨⟨h.pos, h.sow_le, h.head_le, h.head_lt, ?_, h.stored, ?_, h.own⟩, ?_, ?_⟩
  · intro k' hk'
    by_cases heq : k' = k
    · subst heq
      rw [hself]
      exact firstUnsent_le (h.next_le k' hk')
    · rw [hother k' heq]
      exact h.next_le k' hk'
  · intro k' hk' hP j hlo hhi
    by_cases hj : j < f.nextSeq k'
    · exact h.sent k' hk' hP j hlo hj
    · by_cases heq : k' = k
      · subst heq
        rw [hself] at hhi
        exact sentTo_of_lt_firstUnsent (not_lt.mp hj) hhi
      · rw [hother k' heq] at hhi
        exact absurd hhi hj
  · intro k' hk'
    by_cases heq : k' = k
    · subst heq
      rw [hself]
      exact (hle k' hk').trans le_firstUnsent
    · rw [hother k' heq]
      exact hle k' hk'
  · intro k' hk' hlt
    by_cases heq : k' = k
    · subst heq
      rw [hself] at hlt ⊢
      exact firstUnsent_stop hlt
    · rw [hother k' heq] at hlt ⊢
      exact hset k' hk' heq hlt

/-! ### Slots are cleared -/

/-- Clearing leaves the indices alone. -/
theorem clearRange_fields (c : Conf) (b : Bool) (n seq : Nat) (f : Flow) : (clearRange c b n seq f).sow = f.sow ∧
    (clearRange c b n seq f).headSeq = f.headSeq ∧ (clearRange c b n seq f).nextSeq = f.nextSeq := by
  induction n generalizing seq f with
  | zero => exact ⟨rfl, rfl, rfl⟩
  | succ n ih =>
    unfold clearRange
    obtain ⟨h₁, h₂, h₃⟩ := ih (seq + 1) (if b && (f.msg (slot seq)).isNone then f else f.clearSlot c (slot seq))
    rw [h₁, h₂, h₃]
    split <;> exact ⟨rfl, rfl, rfl⟩

/-- Clearing leaves the slots of other numbers alone. -/
theorem clearRange_slot {b : Bool} {i : Nat} (h : ∀ j, seq ≤ j → j < seq + n → i ≠ slot j) :
    (clearRange c b n seq f).msg i = f.msg i ∧ (clearRange c b n seq f).status i = f.status i := by
  induction n generalizing seq f with
  | zero => exact ⟨rfl, rfl⟩
  | succ n ih =>
    unfold clearRange
    obtain ⟨hmsg, hstatus⟩ := @ih (if b && (f.msg (slot seq)).isNone then f else f.clearSlot c (slot seq)) (seq + 1)
      fun j hlo hhi => h j (by omega) (by omega)
    have hne := h seq (le_refl _) (by omega)
    rw [hmsg, hstatus]
    split
    · exact ⟨rfl, rfl⟩
    · exact ⟨update_of_ne hne _ _, update_of_ne hne _ _⟩

/-- What is released is below the head, and the rest of the window stays. -/
theorem Loose.release {b : Bool} (h : Loose c P d f) (hmin : min < f.headSeq) :
    ∃ g, f.release c b min = .ok g ∧ Loose c P d g ∧ g.headSeq = f.headSeq := by
  have hlt := h.head_lt
  have hsow := h.sow_le
  have hhead := h.head_le
  obtain ⟨-, hheadSeq, hnextSeq⟩ := clearRange_fields c b (min + 1 - f.sow) f.sow f
  have hslot : ∀ j, max f.sow (min + 1) ≤ j → j < f.headSeq →
      (clearRange c b (min + 1 - f.sow) f.sow f).msg (slot j) = f.msg (slot j) ∧
        (clearRange c b (min + 1 - f.sow) f.sow f).status (slot j) = f.status (slot j) := by
    intro j hlo hhi
    exact clearRange_slot fun i hi₁ hi₂ => slot_ne (by omega) (by omega)
  refine ⟨_, if_neg (by omega), ?_, hheadSeq⟩
  refine ⟨h.pos.trans (le_max_left _ _), ?_, ?_, ?_, ?_, ?_, ?_, ?_⟩
  · dsimp only
    rw [hheadSeq]
    exact max_le hsow hmin
  · dsimp only
    rw [hheadSeq]
    omega
  · dsimp only
    rw [hheadSeq]
    exact hlt
  · intro k hk
    dsimp only
    rw [hheadSeq, hnextSeq]
    exact h.next_le k hk
  · intro j hlo hhi
    dsimp only at hlo hhi ⊢
    rw [hheadSeq] at hhi
    rw [(hslot j hlo hhi).1]
    exact h.stored j ((le_max_left _ _).trans hlo) hhi
  · intro k hk hP j hlo hhi
    dsimp only at hlo hhi
    rw [hnextSeq] at hhi
    unfold sentTo
    dsimp only
    rw [(hslot j hlo (hhi.trans_le (h.next_le k hk))).2]
    exact h.sent k hk hP j ((le_max_left _ _).trans hlo) hhi
  · intro hd
    have := h.own hd
    dsimp only
    rw [hheadSeq]
    omega

/-- The window moves with the hop-by-hop acknowledgements. -/
theorem leastKnown_lt (hpos : 1 ≤ f.headSeq) (hlt : f.headSeq < 2 ^ 64) : f.leastKnown c < f.headSeq := by
  have hle : f.leastKnown c ≤ pred64 f.headSeq := by
    refine foldl_le (fun m j => ?_) _ _
    dsimp only
    split <;> split <;> omega
  rw [pred64_eq hpos hlt] at hle
  omega

theorem Loose.release_catchUp {b : Bool} (h : Loose c P d f) (hmin : min < f.headSeq) :
    ∃ g, (f.release c b min).map (fun f => f.catchUp c) = .ok g ∧ Inv c P d g := by
  obtain ⟨g, hg, hloose, -⟩ := h.release (b := b) hmin
  exact ⟨_, by rw [hg]; rfl, hloose.catchUp⟩

/-! ### The queue -/

/-- Where something is still to be sent, there is a message to look at. -/
theorem Inv.nextMask (h : Inv c P d f) (hk : c.Ngbr k) (hlt : f.nextSeq k < f.headSeq) :
    ∃ m, f.msg (slot (f.nextSeq k)) = some m ∧ f.nextMask k = .ok m.mask := by
  obtain ⟨m, hm, -⟩ := h.stored _ (h.le_next k hk) hlt
  exact ⟨m, hm, by rw [Flow.nextMask, hm]⟩

theorem Inv.enqueue (h : Inv c P d f) (hk : c.Ngbr k) : ∃ g, f.enqueue c k = .ok g ∧ Same f g := by
  unfold Flow.enqueue
  split
  next hq =>
    obtain ⟨m, -, hmask⟩ := h.nextMask hk hq.2
    rw [hmask]
    refine ⟨_, rfl, ?_⟩
    dsimp only
    split <;> exact ⟨rfl, rfl, rfl, rfl, rfl⟩
  next => exact ⟨f, rfl, rfl, rfl, rfl, rfl, rfl⟩

/-! ## Acknowledgements from the destination -/

theorem inv_restart {new : Cell} (haru : new.aru < 2 ^ 64 - 1) : Inv c P d (f.restart c new) := by
  have hadd : add64 new.aru 1 = new.aru + 1 := Nat.mod_eq_of_lt (by omega)
  unfold restart
  rw [hadd]
  dsimp only
  refine Inv.of_empty (Nat.le_add_left 1 _) (by dsimp only; omega) rfl fun k hk => ?_
  dsimp only
  rw [Conf.each_of_ngbr hk]
  unfold firstUnsent
  dsimp only
  rw [Nat.sub_self]
  rfl

/-- Where the `aru` is not in the window, the window starts anew behind it. -/
theorem Inv.acknowledge {new : Cell} (h : Inv c P d f) (haru : new.aru < 2 ^ 64 - 1) :
    ∃ g, f.acknowledge c new = .ok g ∧ Inv c P d g := by
  suffices hraise : ∃ g, f.release c true new.aru = .ok g ∧
      Loose c P d { g with headSeq := max g.headSeq g.sow } by
    obtain ⟨g, hg, hloose⟩ := hraise
    unfold Flow.acknowledge
    rw [hg]
    exact ⟨_, rfl, hloose.catchUp.same ⟨rfl, rfl, rfl, rfl, rfl⟩⟩
  by_cases hmin : new.aru < f.headSeq
  · obtain ⟨g, hg, hloose, -⟩ := h.toLoose.release (b := true) hmin
    refine ⟨g, hg, ?_⟩
    rw [max_eq_left hloose.sow_le]
    exact hloose
  · obtain ⟨-, hheadSeq, hnextSeq⟩ :=
      clearRange_fields c true (new.aru + 1 - f.sow) f.sow f
    have hsow : max f.sow (new.aru + 1) = new.aru + 1 := max_eq_right (by have := h.sow_le; omega)
    refine ⟨_, if_neg (by omega), Loose.of_empty ?_ ?_ ?_ ?_⟩
    · dsimp only
      omega
    · dsimp only
      rw [hheadSeq]
      omega
    · dsimp only
      rw [hheadSeq]
      omega
    · intro k hk
      have := h.next_le k hk
      dsimp only
      rw [hnextSeq]
      omega

theorem Inv.block {lastHop : Nat} (h : Inv c P d f) : ∃ g, f.block c lastHop = .ok g ∧ Inv c P d g := by
  have hblocked : Inv c P d { f with
      flowBlock := c.each f.flowBlock fun j => if j = lastHop then f.flowBlock j else true } :=
    h.same ⟨rfl, rfl, rfl, rfl, rfl⟩
  unfold Flow.block
  dsimp only
  split
  next hk =>
    obtain ⟨g, hg, hsame⟩ := hblocked.enqueue hk
    exact ⟨g, hg, hblocked.same hsame⟩
  next => exact ⟨_, rfl, hblocked⟩

theorem Inv.onCell {lastHop : Nat} {old new : Cell} (h : Inv c P d f) (haru : new.aru < 2 ^ 64 - 1) :
    ∃ g, f.onCell c lastHop old new = .ok g ∧ Inv c P d g := by
  unfold Flow.onCell
  split
  · exact (inv_restart haru).block
  · split
    · exact (inv_restart haru).block
    · split
      · obtain ⟨g, hg, hinv⟩ := h.acknowledge haru
        rw [hg]
        exact hinv.block
      · exact ⟨f, rfl, h⟩

/-! ## Messages -/

theorem mark_slot {lastHop : Nat} {restamped : Bool} {m : Message} {i : Nat} (h : i ≠ slot m.seqNum) :
    (f.mark c lastHop restamped m).msg i = f.msg i ∧ (f.mark c lastHop restamped m).status i = f.status i :=
  ⟨update_of_ne h _ _, update_of_ne h _ _⟩

theorem same_store (lastHop paths : Nat) (restamped : Bool) (m : Message) :
    Same ((f.mark c lastHop restamped m).advanceAll c) (f.store c lastHop paths restamped m) := by
  unfold store
  dsimp only
  split <;> exact ⟨rfl, rfl, rfl, rfl, rfl⟩

/-- The messages of the window, when one of them is stored. -/
theorem mark_stored {lastHop : Nat} {restamped : Bool} {m : Message} {lo : Nat} (hi : Nat) (hsize : hi ≤ lo + maxMessPerFlow)
    (hlo : lo ≤ m.seqNum) (hhi : m.seqNum < hi)
    (h : ∀ j, lo ≤ j → j < hi → j ≠ m.seqNum → ∃ m', f.msg (slot j) = some m' ∧ m'.seqNum = j) :
    ∀ j, lo ≤ j → j < hi → ∃ m', (f.mark c lastHop restamped m).msg (slot j) = some m' ∧ m'.seqNum = j := by
  intro j hj₁ hj₂
  by_cases heq : j = m.seqNum
  · exact ⟨m, heq ▸ update_self _ _ _, heq.symm⟩
  · have hne : slot j ≠ slot m.seqNum := fun hslot => heq (eq_of_mod_eq hsize hj₁ hj₂ hlo hhi hslot)
    rw [(mark_slot hne).1]
    exact h j hj₁ hj₂ heq

/-- A message that is next in the flow, and has room. -/
theorem Inv.store_new {m : Message} (h : Inv c P d f) (lastHop paths : Nat) (hd : d ≠ c.myId)
    (hseq : m.seqNum = f.headSeq) (hroom : f.headSeq < add64 f.sow maxMessPerFlow) :
    Inv c P d (Flow.store c { f with headSeq := f.headSeq + 1 } lastHop paths false m) := by
  have hsow := h.sow_le
  have hle : f.headSeq < f.sow + maxMessPerFlow := hroom.trans_le (add64_le _ _)
  have hlt := hroom.trans (add64_lt _ _)
  have hold : ∀ j, f.sow ≤ j → j < f.headSeq → slot j ≠ slot m.seqNum := fun j hlo hhi =>
    hseq ▸ (slot_ne hhi (by omega)).symm
  suffices hloose : Loose c P d (Flow.mark c { f with headSeq := f.headSeq + 1 } lastHop false m) from
    (hloose.advanceAll h.le_next).same (same_store lastHop paths false m)
  refine ⟨h.pos, Nat.le_succ_of_le hsow, hle, ?_, ?_, ?_, ?_, fun hme => absurd hme hd⟩
  · have := add64_lt f.sow maxMessPerFlow
    show f.headSeq + 1 < 2 ^ 64
    omega
  · exact fun k hk => Nat.le_succ_of_le (h.next_le k hk)
  · refine mark_stored (f.headSeq + 1) hle (hseq ▸ hsow) (by omega) fun j hlo hhi hne => ?_
    exact h.stored j hlo (by omega)
  · intro k hk hP j hlo hhi
    have hj : j < f.headSeq := hhi.trans_le (h.next_le k hk)
    unfold sentTo
    rw [(mark_slot (hold j hlo hj)).2]
    exact h.sent k hk hP j hlo hhi

/-- `next_seq` goes back to a message, before which all marks are as they were. -/
theorem rewind_inv (h : Loose c (fun _ => False) d f) (hle : ∀ k, c.Ngbr k → f.sow ≤ f.nextSeq k) (hlo : f.sow ≤ seq)
    (hhi : seq < f.headSeq)
    (hsent : ∀ k, c.Ngbr k → P k → ∀ j, f.sow ≤ j → j < f.nextSeq k → j < seq → f.sentTo k j = true) :
    Inv c P d (f.rewind c seq) := by
  obtain ⟨g, hg⟩ : ∃ g, g = { f with nextSeq := c.each f.nextSeq fun k => min (f.nextSeq k) seq } := ⟨_, rfl⟩
  have hnext : ∀ k, c.Ngbr k → g.nextSeq k = min (f.nextSeq k) seq := by
    intro k hk
    rw [hg]
    dsimp only
    rw [Conf.each_of_ngbr hk]
  have heq : f.rewind c seq = g.advanceAll c := by
    rw [hg]
    unfold rewind Flow.advanceAll firstUnsent
    congr 1
    funext k
    unfold Conf.each
    dsimp only
    split <;> rfl
  rw [heq]
  refine Loose.advanceAll ?_ fun k hk => ?_
  · subst hg
    refine ⟨h.pos, h.sow_le, h.head_le, h.head_lt, fun k hk => ?_, h.stored, fun k hk hP j hj₁ hj₂ => ?_, h.own⟩
    · rw [hnext k hk]
      exact (min_le_right _ _).trans hhi.le
    · rw [hnext k hk, lt_min_iff] at hj₂
      exact hsent k hk hP j hj₁ hj₂.1 hj₂.2
  · rw [hnext k hk]
    subst hg
    exact le_min (hle k hk) hlo

/-- A message that is stored again with a larger bitmask. -/
theorem Inv.store_restamped {m : Message} (h : Inv c P d f) (lastHop paths : Nat) (hlo : f.sow ≤ m.seqNum)
    (hhi : m.seqNum < f.headSeq) : Inv c P d ((f.store c lastHop paths true m).rewind c m.seqNum) := by
  have hsize := h.head_le
  have hloose : Loose c (fun _ => False) d (f.mark c lastHop true m) := by
    refine ⟨h.pos, h.sow_le, h.head_le, h.head_lt, h.next_le, ?_, fun _ _ hP => hP.elim, h.own⟩
    exact mark_stored f.headSeq hsize hlo hhi fun j hj₁ hj₂ _ => h.stored j hj₁ hj₂
  have hinv := (hloose.advanceAll h.le_next).same (same_store lastHop paths true m)
  refine rewind_inv hinv.toLoose hinv.le_next ?_ ?_ ?_
  · rw [(same_store lastHop paths true m).sow]
    exact hlo
  · rw [(same_store lastHop paths true m).headSeq]
    exact hhi
  · intro k hk hP j hj₁ hj₂ hj
    rw [(same_store lastHop paths true m).sow] at hj₁
    rw [(same_store lastHop paths true m).nextSeq, advanceAll_nextSeq hk] at hj₂
    rw [(same_store lastHop paths true m).sentTo]
    by_cases hold : j < f.nextSeq k
    · have hsow : f.sow ≤ j := hj₁
      unfold sentTo Flow.advanceAll
      dsimp only
      rw [(mark_slot (slot_ne hj (by omega)).symm).2]
      exact h.sent k hk hP j hsow hold
    · exact sentTo_of_lt_firstUnsent (not_lt.mp hold) hj₂

theorem same_spread {lastHop : Nat} {m : Message} : Same f (f.spread c lastHop m) := ⟨rfl, rfl, rfl, rfl, rfl⟩

theorem Inv.accept {m : Message} (h : Inv c P m.dest f) (lastHop paths : Nat) (hlo : f.sow ≤ m.seqNum)
    (hhi : m.seqNum ≤ f.headSeq) (hroom : m.seqNum < add64 f.sow maxMessPerFlow) :
    ∃ g, f.accept c lastHop paths m = .ok g ∧ Inv c P m.dest g := by
  unfold Flow.accept
  by_cases hnew : m.seqNum = f.headSeq
  · have hrestamped : decide (m.seqNum ≠ f.headSeq) = false := decide_eq_false (not_not.mpr hnew)
    rw [hrestamped]
    rw [hnew] at hroom
    by_cases hd : m.dest = c.myId
    · -- the message is delivered here, and the window stays empty
      have hempty := h.own hd
      have hlt := hroom.trans (add64_lt _ _)
      have := add64_lt f.sow maxMessPerFlow
      simp only [hd, if_true]
      refine ⟨_, rfl, Inv.same (Inv.of_empty ?_ ?_ ?_ ?_) same_spread⟩
      · exact Nat.le_succ_of_le h.pos
      · show f.headSeq + 1 < 2 ^ 64
        omega
      · show f.headSeq + 1 = f.sow + 1
        omega
      · intro k hk
        show c.each f.nextSeq (fun _ => f.headSeq + 1) k = f.sow + 1
        rw [Conf.each_of_ngbr hk, hempty]
    · have hinv := h.store_new lastHop paths hd hnew hroom
      simp only [if_neg hd, Bool.false_eq_true, if_false]
      suffices hafter : ∃ g, Flow.afterStore c (Flow.store c { f with headSeq := f.headSeq + 1 } lastHop paths false m)
          false m = .ok g ∧ Inv c P m.dest g by
        obtain ⟨g, hg, hinv⟩ := hafter
        exact ⟨_, by rw [hg]; rfl, hinv.same same_spread⟩
      unfold afterStore
      split
      · exact hinv.toLoose.release_catchUp (leastKnown_lt (hinv.pos.trans hinv.sow_le) hinv.head_lt)
      · exact ⟨_, rfl, hinv⟩
  · have hrestamped : decide (m.seqNum ≠ f.headSeq) = true := decide_eq_true hnew
    rw [hrestamped]
    have hlt : m.seqNum < f.headSeq := by omega
    have hd : m.dest ≠ c.myId := fun hd => by
      have := h.own hd
      omega
    simp only [if_neg hd, if_true]
    have hinv := h.store_restamped lastHop paths hlo hlt
    unfold afterStore
    rw [if_neg fun hadv => Bool.noConfusion hadv.2]
    exact ⟨_, rfl, hinv.same same_spread⟩

/-! ### Marks are set -/

/-- A mark for a neighbour in one of the slots. -/
def setStatus (f : Flow) (i k : Nat) (x : Status) : Flow := { f with status := update f.status i (update (f.status i) k x) }

theorem setStatus_status {i : Nat} {x : Status} (i' k' : Nat) :
    (f.setStatus i k x).status i' k' = if i' = i ∧ k' = k then x else f.status i' k' := by
  unfold setStatus
  dsimp only
  by_cases hi : i' = i
  · subst hi
    rw [update_self]
    by_cases hk : k' = k
    · subst hk
      rw [update_self, if_pos ⟨rfl, rfl⟩]
    · rw [update_of_ne hk, if_neg fun h => hk h.2]
  · rw [update_of_ne hi, if_neg fun h => hi h.1]

/-- Where a mark says sent that did not before, nothing is lost. -/
theorem Loose.setStatus {i : Nat} {x : Status} (h : Loose c P d f) (hx : (f.status i k).isSent = true → x.isSent = true) :
    Loose c P d (f.setStatus i k x) := by
  refine ⟨h.pos, h.sow_le, h.head_le, h.head_lt, h.next_le, h.stored, fun k' hk' hP j hlo hhi => ?_, h.own⟩
  have hsent := h.sent k' hk' hP j hlo hhi
  unfold sentTo at hsent ⊢
  rw [setStatus_status]
  split
  next heq =>
    rw [heq.1, heq.2] at hsent
    exact hx hsent
  next => exact hsent

theorem settled_setStatus {i k' : Nat} {x : Status} (h : f.Settled k') (hk : k' ≠ k) : (f.setStatus i k x).Settled k' := by
  intro hlt
  have hunsent := h hlt
  unfold sentTo at hunsent ⊢
  rw [setStatus_status, if_neg fun h => hk h.2]
  exact hunsent

/-- A mark says sent, and the loop for the neighbour follows. -/
theorem Inv.setStatus_advance {i : Nat} {x : Status} (h : Inv c P d f)
    (hx : (f.status i k).isSent = true → x.isSent = true) : Inv c P d ((f.setStatus i k x).advance k) :=
  (h.toLoose.setStatus hx).advance h.le_next fun k' hk' hne => settled_setStatus (h.settled k' hk') hne

theorem Inv.onEqual {lastHop i : Nat} (h : Inv c P d f) : Inv c P d (f.onEqual c lastHop i) := by
  unfold Flow.onEqual
  dsimp only
  split
  · exact h.setStatus_advance fun _ => rfl
  · split
    · exact h.setStatus_advance fun _ => rfl
    · exact h.toLoose.advance h.le_next fun k' hk' _ => h.settled k' hk'

/-- **`Reliable_Flood_Process_Data`.** The message between `sow` and the head is always there. -/
theorem Inv.onData {m : Message} (h : Inv c P m.dest f) (lastHop paths : Nat) :
    ∃ ret g, f.onData c lastHop paths m = .ok (ret, g) ∧ Inv c P m.dest g := by
  unfold Flow.onData
  dsimp only
  split
  · exact ⟨_, f, rfl, h⟩
  split
  · exact ⟨_, f, rfl, h⟩
  next hrange =>
    rw [not_or, not_lt, not_lt] at hrange
    have hroom : ∃ ret g, (if add64 f.sow maxMessPerFlow ≤ m.seqNum then Except.ok (Ret.noRoute, f)
        else (f.accept c lastHop paths m).map fun f => (Ret.buffOk, f)) = .ok (ret, g) ∧ Inv c P m.dest g := by
      split
      · exact ⟨_, f, rfl, h⟩
      next hroom =>
        obtain ⟨g, hg, hinv⟩ := h.accept lastHop paths hrange.1 hrange.2 (not_le.mp hroom)
        exact ⟨_, g, by rw [hg]; rfl, hinv⟩
    split
    · exact hroom
    next hnew =>
      obtain ⟨stored, hstored, -⟩ := h.stored m.seqNum hrange.1 (by omega)
      rw [hstored]
      dsimp only
      split
      · exact hroom
      · split
        · exact ⟨_, _, rfl, h.onEqual⟩
        · exact ⟨_, f, rfl, h⟩

/-! ## Acknowledgements from the neighbours -/

/-- The loop over what the neighbour has ends at something that it does not have, or at the head. -/
theorem Inv.ackUpTo {aru : Nat} (h : Loose c P d f) (hle : ∀ k, c.Ngbr k → f.sow ≤ f.nextSeq k)
    (hset : ∀ k', c.Ngbr k' → k' ≠ k → f.Settled k') (hn : f.nextSeq k + n = f.headSeq) :
    Inv c P d (f.ackUpTo k aru n) := by
  induction n generalizing f with
  | zero =>
    refine ⟨h, hle, fun k' hk' => ?_⟩
    by_cases heq : k' = k
    · subst heq
      intro hlt
      exact absurd hn hlt.ne
    · exact hset k' hk' heq
  | succ n ih =>
    -- a message that is marked as sent is passed over
    have hpass : ∀ g : Flow, Loose c P d g → g.nextSeq = f.nextSeq → g.sow = f.sow → g.headSeq = f.headSeq →
        (∀ k', c.Ngbr k' → k' ≠ k → g.Settled k') → g.sentTo k (f.nextSeq k) = true →
        Inv c P d (Flow.ackUpTo k aru n { g with nextSeq := update g.nextSeq k (f.nextSeq k + 1) }) := by
      intro g hg hnext hsow hhead hgset hsent
      refine ih ?_ ?_ ?_ ?_
      · refine ⟨hg.pos, hg.sow_le, hg.head_le, hg.head_lt, fun k' hk' => ?_, hg.stored, fun k' hk' hP j hlo hhi => ?_,
          hg.own⟩
        · dsimp only
          by_cases heq : k' = k
          · subst heq
            rw [update_self, hhead]
            omega
          · rw [update_of_ne heq]
            exact hg.next_le k' hk'
        · dsimp only at hhi
          by_cases heq : k' = k
          · subst heq
            rw [update_self] at hhi
            rcases Nat.eq_or_lt_of_le (Nat.lt_succ_iff.mp hhi) with rfl | hlt
            · exact hsent
            · exact hg.sent k' hk' hP j hlo (hnext ▸ hlt)
          · rw [update_of_ne heq] at hhi
            exact hg.sent k' hk' hP j hlo hhi
      · intro k' hk'
        dsimp only
        by_cases heq : k' = k
        · subst heq
          rw [update_self, hsow]
          exact Nat.le_succ_of_le (hle k' hk')
        · rw [update_of_ne heq, hnext, hsow]
          exact hle k' hk'
      · intro k' hk' hne hlt
        dsimp only at hlt ⊢
        rw [update_of_ne hne] at hlt ⊢
        exact hgset k' hk' hne hlt
      · dsimp only
        rw [update_self, hhead]
        omega
    unfold Flow.ackUpTo
    dsimp only
    split
    next hsent => exact hpass f h rfl rfl rfl hset hsent
    next hsent =>
      split
      next hnew =>
        refine hpass (f.setStatus (slot (f.nextSeq k)) k .newSent) (h.setStatus fun _ => rfl) rfl rfl rfl
          (fun k' hk' hne => settled_setStatus (hset k' hk' hne) hne) ?_
        unfold sentTo
        rw [setStatus_status, if_pos ⟨rfl, rfl⟩]
        rfl
      next =>
        refine ⟨h, hle, fun k' hk' => ?_⟩
        by_cases heq : k' = k
        · subst heq
          exact fun _ => Bool.eq_false_iff.mpr hsent
        · exact hset k' hk' heq

theorem Inv.onAru {lastHop : Nat} (h : Inv c P d f) (aru : Nat) (hk : c.Ngbr lastHop) :
    ∃ g, f.onAru c lastHop aru = .ok g ∧ Inv c P d g := by
  unfold Flow.onAru
  dsimp only
  obtain ⟨a, ha⟩ : ∃ a, a = if aru = 2 ^ 64 - 1 then 2 ^ 64 - 2 else aru := ⟨_, rfl⟩
  rw [← ha]
  have hlearned : Inv c P d { f with flowAru := update f.flowAru lastHop a } := h.same ⟨rfl, rfl, rfl, rfl, rfl⟩
  obtain ⟨g, hg, hinv⟩ : ∃ g, g = (if c.hbhOpt = true ∧ f.nextSeq lastHop ≤ a then
      Flow.ackUpTo lastHop a (f.headSeq - f.nextSeq lastHop) { f with flowAru := update f.flowAru lastHop a }
      else { f with flowAru := update f.flowAru lastHop a }) ∧ Inv c P d g := by
    refine ⟨_, rfl, ?_⟩
    split
    · have hnext := h.next_le lastHop hk
      refine Inv.ackUpTo hlearned.toLoose hlearned.le_next (fun k' hk' _ => hlearned.settled k' hk') ?_
      show f.nextSeq lastHop + (f.headSeq - f.nextSeq lastHop) = f.headSeq
      omega
    · exact hlearned
  rw [← hg]
  split
  · exact hinv.toLoose.release_catchUp (leastKnown_lt (hinv.pos.trans hinv.sow_le) hinv.head_lt)
  · exact ⟨g, rfl, hinv⟩

theorem Inv.onAck {lastHop : Nat} {a : HbhAck} (h : Inv c P d f) (hk : c.Ngbr lastHop) :
    ∃ g, f.onAck c lastHop a = .ok g ∧ Inv c P d g := by
  unfold Flow.onAck
  split
  · exact ⟨f, rfl, h⟩
  have hlearned : Inv c P d { f with flowSow := update f.flowSow lastHop (max (f.flowSow lastHop) a.sow) } :=
    h.same ⟨rfl, rfl, rfl, rfl, rfl⟩
  dsimp only
  have hreset : ∀ g, Inv c P d g → ∃ g', (if g.nextSeq lastHop < add64 (g.flowSow lastHop) maxMessPerFlow then
      g.enqueue c lastHop else Except.ok g) = .ok g' ∧ Inv c P d g' := by
    intro g hg
    split
    · obtain ⟨g', hg', hsame⟩ := hg.enqueue hk
      exact ⟨g', hg', hg.same hsame⟩
    · exact ⟨g, rfl, hg⟩
  split
  · obtain ⟨g, hg, hinv⟩ := hlearned.onAru a.aru hk
    obtain ⟨g', hg', hinv'⟩ := hreset g hinv
    exact ⟨g', bind_eq_ok.mpr ⟨g, hg, hg'⟩, hinv'⟩
  · obtain ⟨g', hg', hinv'⟩ := hreset _ hlearned
    exact ⟨g', bind_eq_ok.mpr ⟨_, rfl, hg'⟩, hinv'⟩

/-! ## A neighbour that lost its state -/

theorem isSent_unsent {x : Status} : (match x with
    | .newSent => Status.newUnsent
    | .restampedSent => .restampedUnsent
    | x => x).isSent = false := by
  cases x <;> rfl

/-- The marks for the neighbour are taken back, and nothing else changes. -/
theorem unsend_spec (k n seq : Nat) (f : Flow) : (unsend k n seq f).msg = f.msg ∧ (unsend k n seq f).sow = f.sow ∧
    (unsend k n seq f).headSeq = f.headSeq ∧ (unsend k n seq f).nextSeq = f.nextSeq ∧
      (∀ i k', k' ≠ k → (unsend k n seq f).status i k' = f.status i k') ∧
        (∀ i, (f.status i k).isSent = false → ((unsend k n seq f).status i k).isSent = false) ∧
          ∀ j, seq ≤ j → j < seq + n → (unsend k n seq f).sentTo k j = false := by
  induction n generalizing seq f with
  | zero => exact ⟨rfl, rfl, rfl, rfl, fun _ _ _ => rfl, fun _ h => h, fun j h₁ h₂ => absurd h₂ (not_lt.mpr h₁)⟩
  | succ n ih =>
    obtain ⟨g, hg⟩ : ∃ g, g = f.setStatus (slot seq) k (match f.status (slot seq) k with
      | .newSent => .newUnsent
      | .restampedSent => .restampedUnsent
      | s => s) := ⟨_, rfl⟩
    have hunsend : unsend k (n + 1) seq f = unsend k n (seq + 1) g := by
      rw [hg]
      rfl
    have hstatus : ∀ i k', g.status i k' = if i = slot seq ∧ k' = k then (match f.status (slot seq) k with
      | .newSent => Status.newUnsent
      | .restampedSent => .restampedUnsent
      | s => s) else f.status i k' := fun i k' => hg ▸ setStatus_status i k'
    obtain ⟨hmsg, hsow, hhead, hnext, hother, hkeep, hrange⟩ := ih (seq + 1) g
    rw [hunsend]
    refine ⟨hmsg.trans (hg ▸ rfl), hsow.trans (hg ▸ rfl), hhead.trans (hg ▸ rfl), hnext.trans (hg ▸ rfl), ?_, ?_, ?_⟩
    · intro i k' hne
      rw [hother i k' hne, hstatus, if_neg fun h => hne h.2]
    · intro i hi
      refine hkeep i ?_
      rw [hstatus]
      split
      · exact isSent_unsent
      · exact hi
    · intro j hlo hhi
      rcases Nat.eq_or_lt_of_le hlo with rfl | hlt
      · refine hkeep _ ?_
        rw [hstatus, if_pos ⟨rfl, rfl⟩]
        exact isSent_unsent
      · exact hrange j hlt (by omega)

/-- **`Reliable_Flood_Neighbor_Transfer`.** -/
theorem Inv.onTransfer {blocked : Bool} (h : Inv c P d f) (hk : c.Ngbr k) :
    ∃ g, f.onTransfer c k blocked = .ok g ∧ Inv c P d g := by
  unfold Flow.onTransfer
  dsimp only
  obtain ⟨f', hf', hsame⟩ : ∃ f', f' = (if blocked then { f with flowBlock := update f.flowBlock k true } else f) ∧
      Same f f' := ⟨_, rfl, by split <;> exact ⟨rfl, rfl, rfl, rfl, rfl⟩⟩
  rw [← hf']
  have h := h.same hsame
  obtain ⟨hmsg, hsow, hhead, hnext, hother, -, hrange⟩ := unsend_spec k (f'.headSeq - f'.sow) f'.sow f'
  obtain ⟨u, hu⟩ : ∃ u, u = unsend k (f'.headSeq - f'.sow) f'.sow f' := ⟨_, rfl⟩
  rw [← hu] at hmsg hsow hhead hnext hother hrange ⊢
  suffices hinv : Inv c P d { u with nextSeq := update u.nextSeq k u.sow } by
    obtain ⟨g, hg, hsame⟩ := hinv.enqueue hk
    exact ⟨g, hg, hinv.same hsame⟩
  have hnext' : ∀ k', k' ≠ k → (update u.nextSeq k u.sow) k' = f'.nextSeq k' := fun k' hne => by
    rw [update_of_ne hne, hnext]
  refine ⟨⟨?_, ?_, ?_, ?_, fun k' hk' => ?_, fun j hlo hhi => ?_, fun k' hk' hP j hlo hhi => ?_, fun hd => ?_⟩,
    fun k' hk' => ?_, fun k' hk' hlt => ?_⟩
  · exact hsow ▸ h.pos
  · exact hsow ▸ hhead ▸ h.sow_le
  · exact hsow ▸ hhead ▸ h.head_le
  · exact hhead ▸ h.head_lt
  · dsimp only
    by_cases heq : k' = k
    · rw [heq, update_self, hsow, hhead]
      exact h.sow_le
    · rw [hnext' k' heq, hhead]
      exact h.next_le k' hk'
  · exact hmsg ▸ h.stored j (hsow ▸ hlo) (hhead ▸ hhi)
  · dsimp only at hlo hhi
    by_cases heq : k' = k
    · rw [heq, update_self] at hhi
      exact absurd hhi (not_lt.mpr hlo)
    · rw [hnext' k' heq] at hhi
      unfold sentTo
      dsimp only
      rw [hother _ k' heq]
      exact h.sent k' hk' hP j (hsow ▸ hlo) hhi
  · exact hsow ▸ hhead ▸ h.own hd
  · dsimp only
    by_cases heq : k' = k
    · rw [heq, update_self]
    · rw [hnext' k' heq, hsow]
      exact h.le_next k' hk'
  · dsimp only at hlt ⊢
    by_cases heq : k' = k
    · rw [heq, update_self] at hlt ⊢
      exact hrange _ (by omega) (by omega)
    · rw [hnext' k' heq] at hlt ⊢
      rw [hhead] at hlt
      have hunsent := h.settled k' hk' hlt
      unfold sentTo at hunsent ⊢
      dsimp only
      rw [hother _ k' heq]
      exact hunsent

theorem Inv.unblock (h : Inv c P d f) (hk : c.Ngbr k) : ∃ g, f.unblock c k = .ok g ∧ Inv c P d g := by
  have hinv : Inv c P d { f with flowBlock := update f.flowBlock k false } := h.same ⟨rfl, rfl, rfl, rfl, rfl⟩
  obtain ⟨g, hg, hsame⟩ := hinv.enqueue hk
  exact ⟨g, hg, hinv.same hsame⟩

/-! ## Sending -/

/-- Where a packet goes out that moves the window, the minimum that was put into an `int` is below
the head. It is if the head is at most 2^31. -/
def Narrow (c : Conf) (f : Flow) (src k : Nat) (handshake : Bool) (t : Turn) : Prop :=
  c.hbhAdvance = true → c.hbhOpt = false → f.inFlowQueue k = true → t.penalty = 0 →
    f.held c src k handshake = .ok false → t.forwarded = true → (f.markSent k).leastInt c < f.headSeq

theorem isSent_sent {x : Status} : x.isSent = true → (match x with
    | .newUnsent => Status.newSent
    | .restampedUnsent => .restampedSent
    | x => x).isSent = true := by
  cases x <;> simp [Status.isSent]

theorem Inv.markSent (h : Inv c P d f) : Inv c P d (f.markSent k) := h.setStatus_advance isSent_sent

/-- What the queues offer can be looked at, and where it is not held there is something to send. -/
theorem Inv.held (h : Inv c P d f) (src : Nat) (handshake : Bool) (hk : c.Ngbr k) :
    ∃ b, f.held c src k handshake = .ok b ∧ (b = false → f.nextSeq k < f.headSeq) := by
  unfold Flow.held
  split
  · exact ⟨true, rfl, fun hb => by cases hb⟩
  next hfree =>
    have hlt : f.nextSeq k < f.headSeq := by
      by_contra hge
      exact hfree (Or.inr (Or.inl (not_lt.mp hge)))
    obtain ⟨m, -, hmask⟩ := h.nextMask hk hlt
    rw [hmask]
    exact ⟨_, rfl, fun _ => hlt⟩

/-- **`Reliable_Flood_Send_Data`.** -/
theorem Inv.onSend {src : Nat} {handshake : Bool} {t : Turn} (h : Inv c P d f) (hk : c.Ngbr k)
    (hnarrow : f.Narrow c src k handshake t) : ∃ g, f.onSend c src k handshake t = .ok g ∧ Inv c P d g := by
  unfold Flow.onSend
  split
  · exact ⟨f, rfl, h⟩
  next hqueue =>
  split
  · exact ⟨f, rfl, h⟩
  next hpenalty =>
  obtain ⟨b, hheld, hlt⟩ := h.held src handshake hk
  suffices hsend : ∃ g, (if b then Except.ok (if t.urgent then f else { f with inFlowQueue := update f.inFlowQueue k false })
      else if (f.msg (slot (f.nextSeq k))).isNone then .error .assertion
      else if t.forwarded then f.onSent c k else .ok f) = .ok g ∧ Inv c P d g by
    obtain ⟨g, hg, hinv⟩ := hsend
    exact ⟨g, bind_eq_ok.mpr ⟨b, hheld, hg⟩, hinv⟩
  cases b with
  | true =>
    refine ⟨_, rfl, h.same ?_⟩
    split <;> exact ⟨rfl, rfl, rfl, rfl, rfl⟩
  | false =>
    obtain ⟨m, hm, -⟩ := h.nextMask hk (hlt rfl)
    rw [if_neg Bool.false_ne_true, hm, if_neg (by simp)]
    split
    next hforwarded =>
      unfold onSent
      dsimp only
      split
      next hadvance =>
        refine h.markSent.toLoose.release_catchUp ?_
        exact hnarrow hadvance.1 hadvance.2 (Bool.not_eq_false _ ▸ hqueue) (Nat.eq_zero_of_not_pos hpenalty) hheld hforwarded
      next => exact ⟨_, rfl, h.markSent⟩
    next => exact ⟨f, rfl, h⟩

/-! ## Restamping -/

/-- The message with this number gets a larger bitmask. -/
def Changes (f : Flow) (r : Stamps) (j : Nat) : Prop :=
  ∃ mask m, r.mask (f.numPaths (slot j)) = some mask ∧ f.msg (slot j) = some m ∧ m.mask ≠ mask ||| m.mask

/-- The loop ends in an error at this number. -/
def Fails (c : Conf) (f : Flow) (r : Stamps) (j : Nat) : Prop :=
  r.mask (f.numPaths (slot j)) = none ∨ f.Changes r j ∧ c.crypto = true ∧ r.signs j = false

/-- The loop ends in an error after it restamped a message that had gone out to a neighbour. -/
def Interrupted (c : Conf) (f : Flow) (r : Stamps) : Prop :=
  ∃ i j, f.sow ≤ i ∧ i < j ∧ j < f.headSeq ∧ f.Changes r i ∧ f.Fails c r j ∧
    (∀ i', f.sow ≤ i' → i' < j → ¬ f.Fails c r i') ∧ ∃ k, c.Ngbr k ∧ i < f.nextSeq k

/-- What restamping leaves: the messages have other bitmasks, and some are to be sent again. -/
structure Restamped (f g : Flow) : Prop where
  sow : g.sow = f.sow
  headSeq : g.headSeq = f.headSeq
  nextSeq : g.nextSeq = f.nextSeq
  numPaths : g.numPaths = f.numPaths
  seqNum : ∀ i, (g.msg i).map Message.seqNum = (f.msg i).map Message.seqNum
  unsent : ∀ i k, (g.status i k).isSent = true → (f.status i k).isSent = true

theorem Restamped.trans {h : Flow} (hf : Restamped f g) (hg : Restamped g h) : Restamped f h :=
  ⟨hg.sow.trans hf.sow, hg.headSeq.trans hf.headSeq, hg.nextSeq.trans hf.nextSeq, hg.numPaths.trans hf.numPaths,
    fun i => (hg.seqNum i).trans (hf.seqNum i), fun i k hs => hf.unsent i k (hg.unsent i k hs)⟩

/-- What comes later in the loop depends on the slots of later numbers. -/
theorem changes_congr {r : Stamps} {j : Nat} (hmsg : g.msg (slot j) = f.msg (slot j)) (hpaths : g.numPaths = f.numPaths) :
    g.Changes r j ↔ f.Changes r j := by
  unfold Changes
  rw [hmsg, hpaths]

theorem fails_congr {r : Stamps} {j : Nat} (hmsg : g.msg (slot j) = f.msg (slot j)) (hpaths : g.numPaths = f.numPaths) :
    g.Fails c r j ↔ f.Fails c r j := by
  unfold Fails
  rw [changes_congr hmsg hpaths, hpaths]

/-- How the loop went: where it restamped nothing the marks are as they were, where it ended in an
error only those of messages before it are not, and what it restamped is to be sent again. -/
structure Outcome (c : Conf) (r : Stamps) (n seq : Nat) (f g : Flow) (flag flag' err : Bool) : Prop where
  restamped : Restamped f g
  flag : flag = true → flag' = true
  none : flag' = false → g.status = f.status
  error : err = true → ∃ j, seq ≤ j ∧ j < seq + n ∧ f.Fails c r j ∧ (∀ i, seq ≤ i → i < j → ¬ f.Fails c r i) ∧
    ∀ i k, g.status i k ≠ f.status i k → ∃ i', seq ≤ i' ∧ i' < j ∧ slot i' = i ∧ f.Changes r i'
  again : ∀ i, seq ≤ i → i < seq + n → f.Changes r i → (∀ i', seq ≤ i' → i' ≤ i → ¬ f.Fails c r i') →
    ∀ k, c.Ngbr k → g.sentTo k i = false
  stops : ∀ j, seq ≤ j → j < seq + n → f.Fails c r j → err = true

/-- A round that went well comes before the others. -/
theorem Outcome.cons {r : Stamps} {f' : Flow} {flag₀ flag flag' err : Bool} (h : Outcome c r n (seq + 1) f' g flag flag' err)
    (hsize : n + 1 ≤ maxMessPerFlow) (hrestamped : Restamped f f') (hmsg : ∀ i, i ≠ slot seq → f'.msg i = f.msg i)
    (hstatus : ∀ i k, f'.status i k ≠ f.status i k → i = slot seq ∧ f.Changes r seq ∧ flag = true)
    (hagain : f.Changes r seq → ∀ k, c.Ngbr k → f'.sentTo k seq = false) (hflag : flag₀ = true → flag = true)
    (hfine : ¬ f.Fails c r seq) : Outcome c r (n + 1) seq f g flag₀ flag' err := by
  have hlater : ∀ j, seq + 1 ≤ j → j < seq + 1 + n → f'.msg (slot j) = f.msg (slot j) := fun j h₁ h₂ =>
    hmsg _ (slot_ne (by omega) (by omega))
  refine ⟨hrestamped.trans h.restamped, fun h₀ => h.flag (hflag h₀), fun hno => ?_, fun herr => ?_,
    fun i hi₁ hi₂ hchanges hfirst k hk => ?_, fun j h₁ h₂ hfails => ?_⟩
  · rw [h.none hno]
    funext i k
    by_contra hne
    have := h.flag (hstatus i k hne).2.2
    rw [hno] at this
    cases this
  · obtain ⟨j, h₁, h₂, hfails, hfirst, hchanged⟩ := h.error herr
    refine ⟨j, by omega, by omega, (fails_congr (hlater j h₁ h₂) hrestamped.numPaths).mp hfails, fun i hi₁ hi₂ => ?_,
      fun i k hne => ?_⟩
    · rcases Nat.eq_or_lt_of_le hi₁ with rfl | hlt
      · exact hfine
      · rw [← fails_congr (hlater i hlt (by omega)) hrestamped.numPaths]
        exact hfirst i hlt hi₂
    · by_cases hgf : g.status i k = f'.status i k
      · rw [hgf] at hne
        obtain ⟨hi, hchanges, -⟩ := hstatus i k hne
        exact ⟨seq, le_refl _, by omega, hi.symm, hchanges⟩
      · obtain ⟨i', hi₁, hi₂, hi, hchanges⟩ := hchanged i k hgf
        exact ⟨i', by omega, hi₂, hi, (changes_congr (hlater i' hi₁ (by omega)) hrestamped.numPaths).mp hchanges⟩
  · rcases Nat.eq_or_lt_of_le hi₁ with rfl | hlt
    · have hunsent := hagain hchanges k hk
      rw [Bool.eq_false_iff] at hunsent ⊢
      exact fun hs => hunsent (h.restamped.unsent _ k hs)
    · refine h.again i hlt (by omega) ((changes_congr (hlater i hlt (by omega)) hrestamped.numPaths).mpr hchanges)
        (fun i' h₁ h₂ => ?_) k hk
      rw [fails_congr (hlater i' h₁ (by omega)) hrestamped.numPaths]
      exact hfirst i' (by omega) h₂
  · rcases Nat.eq_or_lt_of_le h₁ with rfl | hlt
    · exact absurd hfails hfine
    · exact h.stops j hlt (by omega) ((fails_congr (hlater j hlt (by omega)) hrestamped.numPaths).mpr hfails)

/-- An error in the first round, before which no mark was touched. -/
theorem Outcome.fail {r : Stamps} {flag flag' : Bool} (hrestamped : Restamped f g) (hstatus : g.status = f.status)
    (hflag : flag = true → flag' = true) (hfails : f.Fails c r seq) : Outcome c r (n + 1) seq f g flag flag' true := by
  refine ⟨hrestamped, hflag, fun _ => hstatus, fun _ => ⟨seq, le_refl _, by omega, hfails, ?_, ?_⟩, ?_,
    fun _ _ _ _ => rfl⟩
  · exact fun i h₁ h₂ => absurd h₂ (not_lt.mpr h₁)
  · exact fun i k hne => absurd (congrFun (congrFun hstatus i) k) hne
  · exact fun i h₁ _ _ hfirst => absurd hfails (hfirst seq (le_refl _) h₁)

/-- **The loop over the window.** It looks only at messages that are there. -/
theorem restampFrom_spec (r : Stamps) (flag : Bool) (hsize : n ≤ maxMessPerFlow)
    (hstored : ∀ j, seq ≤ j → j < seq + n → ∃ m, f.msg (slot j) = some m) :
    ∃ g flag' err, f.restampFrom c r n seq flag = .ok (g, flag', err) ∧ Outcome c r n seq f g flag flag' err := by
  induction n generalizing seq flag f with
  | zero =>
    refine ⟨f, flag, false, rfl, ⟨rfl, rfl, rfl, rfl, fun _ => rfl, fun _ _ => id⟩, id, fun _ => rfl, fun he => ?_,
      fun i h₁ h₂ => absurd h₂ (not_lt.mpr h₁), fun j h₁ h₂ => absurd h₂ (not_lt.mpr h₁)⟩
    cases he
  | succ n ih =>
    have hself : Restamped f f := ⟨rfl, rfl, rfl, rfl, fun _ => rfl, fun _ _ => id⟩
    obtain ⟨m, hm⟩ := hstored seq (le_refl _) (by omega)
    unfold restampFrom
    cases hmask : r.mask (f.numPaths (slot seq)) with
    | none => exact ⟨f, flag, true, rfl, Outcome.fail hself rfl id (Or.inl hmask)⟩
    | some mask =>
      simp only [hm]
      split
      next hequal =>
        -- the bitmask is the same
        have hchanges : ¬ f.Changes r seq := by
          rintro ⟨mask', m', hmask', hm', hne⟩
          rw [hmask, Option.some.injEq] at hmask'
          rw [hm, Option.some.injEq] at hm'
          exact hne (hm' ▸ hmask' ▸ hequal)
        obtain ⟨g, flag', err, hg, hout⟩ := @ih f (seq + 1) flag (by omega)
          fun j h₁ h₂ => hstored j (by omega) (by omega)
        refine ⟨g, flag', err, hg, hout.cons hsize hself (fun _ _ => rfl) (fun _ _ hne => absurd rfl hne)
          (fun h => absurd h hchanges) id ?_⟩
        rintro (hno | hfails)
        · rw [hmask] at hno
          cases hno
        · exact hchanges hfails.1
      next hnew =>
        have hchanges : f.Changes r seq := ⟨mask, m, hmask, hm, hnew⟩
        have hseqNum : ∀ i, (update f.msg (slot seq) (some { m with mask := mask ||| m.mask }) i).map Message.seqNum =
            (f.msg i).map Message.seqNum := by
          intro i
          by_cases hi : i = slot seq
          · rw [hi, update_self, hm]
            rfl
          · rw [update_of_ne hi]
        split
        next hsign =>
          refine ⟨_, true, true, rfl, Outcome.fail ⟨rfl, rfl, rfl, rfl, hseqNum, fun _ _ => id⟩ rfl (fun _ => rfl) ?_⟩
          exact Or.inr ⟨hchanges, hsign⟩
        next hsign =>
          obtain ⟨f', hf'⟩ : ∃ f', f' = { f with
            msg := update f.msg (slot seq) (some { m with mask := mask ||| m.mask })
            status := update f.status (slot seq) (c.each (f.status (slot seq)) fun _ => .restampedUnsent) } := ⟨_, rfl⟩
          have hmsg : ∀ i, i ≠ slot seq → f'.msg i = f.msg i := fun i hi => hf' ▸ update_of_ne hi _ _
          obtain ⟨g, flag', err, hg, hout⟩ := @ih f' (seq + 1) true (by omega) fun j h₁ h₂ => by
            rw [hmsg _ (slot_ne (by omega) (by omega))]
            exact hstored j (by omega) (by omega)
          refine ⟨g, flag', err, hf' ▸ hg, hout.cons hsize ?_ hmsg ?_ (fun _ k hk => ?_) (fun _ => rfl) ?_⟩
          · subst hf'
            refine ⟨rfl, rfl, rfl, rfl, hseqNum, fun i k hs => ?_⟩
            dsimp only at hs
            by_cases hi : i = slot seq
            · rw [hi, update_self] at hs
              unfold Conf.each at hs
              split at hs
              · cases hs
              · rw [hi]
                exact hs
            · rwa [update_of_ne hi] at hs
          · intro i k hne
            refine ⟨?_, hchanges, rfl⟩
            by_contra hi
            exact hne (by rw [hf']; exact congrFun (update_of_ne hi _ _) k)
          · rw [hf']
            unfold sentTo
            dsimp only
            rw [update_self, Conf.each_of_ngbr hk]
            rfl
          · rintro (hno | hfails)
            · rw [hmask] at hno
              cases hno
            · exact hsign hfails.2

/-- A flow with larger bitmasks keeps the marks that are still there. -/
theorem Inv.restamped {R : Nat → Prop} (h : Inv c P d f) (hr : Restamped f g) (hsent : ∀ k, c.Ngbr k → R k →
    ∀ j, f.sow ≤ j → j < f.nextSeq k → g.sentTo k j = true) : Inv c R d g := by
  refine ⟨⟨hr.sow ▸ h.pos, hr.sow ▸ hr.headSeq ▸ h.sow_le, hr.sow ▸ hr.headSeq ▸ h.head_le, hr.headSeq ▸ h.head_lt,
    fun k hk => hr.nextSeq ▸ hr.headSeq ▸ h.next_le k hk, fun j hlo hhi => ?_, fun k hk hR j hlo hhi => ?_,
    fun hd => hr.sow ▸ hr.headSeq ▸ h.own hd⟩, fun k hk => hr.sow ▸ hr.nextSeq ▸ h.le_next k hk, fun k hk hlt => ?_⟩
  · obtain ⟨m, hm, hseq⟩ := h.stored j (hr.sow ▸ hlo) (hr.headSeq ▸ hhi)
    have hmap := hr.seqNum (slot j)
    rw [hm, Option.map_some, Option.map_eq_some_iff] at hmap
    obtain ⟨m', hm', hseq'⟩ := hmap
    exact ⟨m', hm', hseq'.trans hseq⟩
  · exact hsent k hk hR j (hr.sow ▸ hlo) (hr.nextSeq ▸ hhi)
  · rw [hr.nextSeq, hr.headSeq] at hlt
    have hunsent := h.settled k hk hlt
    rw [hr.nextSeq]
    rw [Bool.eq_false_iff] at hunsent ⊢
    exact fun hs => hunsent (hr.unsent _ k hs)

theorem Inv.outcome (h : Inv c P d f) (r : Stamps) :
    ∃ g flag err, f.restampFrom c r (f.headSeq - f.sow) f.sow false = .ok (g, flag, err) ∧
      Outcome c r (f.headSeq - f.sow) f.sow f g false flag err := by
  have hhead := h.head_le
  refine restampFrom_spec r false (by omega) fun j h₁ h₂ => ?_
  obtain ⟨m, hm, -⟩ := h.stored j h₁ (by omega)
  exact ⟨m, hm⟩

/-- The loop leaves the marks for no neighbour as they were, unless nothing is to be sent again. -/
theorem Inv.restampFrom {r : Stamps} (h : Inv c P d f) (hfine : ¬ f.Interrupted c r) :
    ∃ g flag err, f.restampFrom c r (f.headSeq - f.sow) f.sow false = .ok (g, flag, err) ∧
      Inv c (fun _ => False) d g ∧ (¬ (err = false ∧ flag = true) → Inv c P d g) := by
  have hsow := h.sow_le
  have hhead := h.head_le
  obtain ⟨g, flag, err, hg, hout⟩ := h.outcome r
  refine ⟨g, flag, err, hg, h.restamped hout.restamped fun _ _ hR => hR.elim, fun hstop => ?_⟩
  refine h.restamped hout.restamped fun k hk hP j hlo hhi => ?_
  have hsent := h.sent k hk hP j hlo hhi
  by_contra hlost
  have hne : g.status (slot j) k ≠ f.status (slot j) k := by
    intro heq
    unfold sentTo at hsent hlost
    exact hlost (heq ▸ hsent)
  cases herr : err with
  | false =>
    cases hflag : flag with
    | false => exact hne (by rw [hout.none hflag])
    | true => exact hstop ⟨herr, hflag⟩
  | true =>
    obtain ⟨j', h₁, h₂, hfails, hfirst, hchanged⟩ := hout.error herr
    obtain ⟨i, hi₁, hi₂, hi, hchanges⟩ := hchanged _ k hne
    have hj := h.next_le k hk
    have heq : i = j := eq_of_mod_eq hhead hi₁ (by omega) hlo (by omega) hi
    exact hfine ⟨i, j', hi₁, hi₂, by omega, hchanges, hfails, hfirst, k, hk, heq ▸ hhi⟩

/-- `next_seq` is not before the first message that is to be sent again. -/
theorem Inv.resend (h : Inv c P d f) (hk : c.Ngbr k) :
    ∃ b g, f.resend c k = .ok (b, g) ∧ Inv c (fun k' => P k' ∨ k' = k) d g := by
  have hle : f.firstUnsent k f.sow ≤ f.nextSeq k := by
    by_contra hlt
    rw [not_le] at hlt
    have hhead := firstUnsent_le (k := k) h.sow_le
    have hunsent := h.settled k hk (by omega)
    rw [sentTo_of_lt_firstUnsent (h.le_next k hk) hlt] at hunsent
    cases hunsent
  have hback : Inv c (fun k' => P k' ∨ k' = k) d { f with nextSeq := update f.nextSeq k (f.firstUnsent k f.sow) } := by
    refine ⟨⟨h.pos, h.sow_le, h.head_le, h.head_lt, fun k' hk' => ?_, h.stored, fun k' hk' hP j hlo hhi => ?_, h.own⟩,
      fun k' hk' => ?_, fun k' hk' hlt => ?_⟩
    · dsimp only
      by_cases heq : k' = k
      · rw [heq, update_self]
        exact firstUnsent_le h.sow_le
      · rw [update_of_ne heq]
        exact h.next_le k' hk'
    · dsimp only at hhi
      by_cases heq : k' = k
      · rw [heq, update_self] at hhi
        rw [heq]
        exact sentTo_of_lt_firstUnsent hlo hhi
      · rw [update_of_ne heq] at hhi
        exact h.sent k' hk' (hP.resolve_right heq) j hlo hhi
    · dsimp only
      by_cases heq : k' = k
      · rw [heq, update_self]
        exact le_firstUnsent
      · rw [update_of_ne heq]
        exact h.le_next k' hk'
    · dsimp only at hlt ⊢
      by_cases heq : k' = k
      · rw [heq, update_self] at hlt ⊢
        exact firstUnsent_stop hlt
      · rw [update_of_ne heq] at hlt ⊢
        exact h.settled k' hk' hlt
  obtain ⟨g, hg, hsame⟩ := hback.enqueue hk
  unfold Flow.resend
  rw [if_neg (not_lt.mpr hle)]
  dsimp only
  rw [hg]
  exact ⟨_, g, rfl, hback.same hsame⟩

/-! ## What breaks it -/

/-- Where the minimum that was put into an `int` is not below the head, `sow` runs past it. -/
theorem Inv.not_narrow {src : Nat} {handshake : Bool} {t : Turn} (h : Inv c P d f) (hk : c.Ngbr k)
    (hwide : ¬ f.Narrow c src k handshake t) : ∀ g, f.onSend c src k handshake t = .ok g → g.headSeq < g.sow := by
  unfold Narrow at hwide
  push Not at hwide
  obtain ⟨hadvance, hopt, hqueue, hpenalty, hheld, hforwarded, hleast⟩ := hwide
  intro g hg
  obtain ⟨b, hb, hlt⟩ := h.held src handshake hk
  rw [hheld, Except.ok.injEq] at hb
  obtain ⟨m, hm, -⟩ := h.nextMask hk (hlt hb.symm)
  unfold Flow.onSend at hg
  rw [if_neg (by rw [hqueue]; exact Bool.true_eq_false_eq_False), if_neg (by rw [hpenalty]; exact lt_irrefl _)] at hg
  obtain ⟨b', hb', hg⟩ := bind_eq_ok.mp hg
  rw [hheld, Except.ok.injEq] at hb'
  rw [← hb', if_neg Bool.false_ne_true, hm, if_neg (by simp), if_pos hforwarded, onSent] at hg
  rw [if_pos ⟨hadvance, hopt⟩] at hg
  unfold Flow.release at hg
  split at hg
  · cases hg
  · cases hg
    obtain ⟨-, hhead, -⟩ := clearRange_fields c true ((f.markSent k).leastInt c + 1 - (f.markSent k).sow)
      (f.markSent k).sow (f.markSent k)
    show (clearRange c true _ _ (f.markSent k)).headSeq < max _ ((f.markSent k).leastInt c + 1)
    rw [hhead]
    exact lt_max_of_lt_right (Nat.lt_succ_of_le hleast)

/-- A loop that is interrupted leaves a message behind `next_seq` that is to be sent again. -/
theorem Inv.interrupted {r : Stamps} (h : Inv c P d f) (hr : f.Interrupted c r) :
    ∃ g flag, f.restampFrom c r (f.headSeq - f.sow) f.sow false = .ok (g, flag, true) ∧
      ∃ k i, c.Ngbr k ∧ g.sow ≤ i ∧ i < g.nextSeq k ∧ g.sentTo k i = false := by
  obtain ⟨i, j, hi, hij, hj, hchanges, hfails, hfirst, k, hk, hnext⟩ := hr
  have hhead := h.head_le
  obtain ⟨g, flag, err, hg, hout⟩ := h.outcome r
  have herr : err = true := hout.stops j (by omega) (by omega) hfails
  have hlost := hout.again i hi (by omega) hchanges (fun i' h₁ h₂ => hfirst i' h₁ (by omega)) k hk
  refine ⟨g, flag, herr ▸ hg, k, i, hk, ?_, ?_, hlost⟩
  · rw [hout.restamped.sow]
    exact hi
  · rw [hout.restamped.nextSeq]
    exact hnext

end Flow

end Spire.Flood
