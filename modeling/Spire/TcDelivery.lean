import Mathlib.Data.Finset.Card
import Mathlib.Data.List.Chain
import Spire.Lib.Runs
import Spire.TcQueue

/-!
# Delivering with threshold signatures

Which ordinals leave the queue of a control-center replica, when other replicas send what
they like. `Admissible` says what the replica itself and the correct ones insert.

Every message that leaves the queue has a signature that verifies. But the ordinals only
leave it in order, and all of them, if each entry is opened for an ordinal that exists and
with the total it has (`StepInOrder`), and only with their messages if the one attempt to
combine finds shares that match (`StepCombines`).
-/

namespace Spire.Itrc

open Lib

variable {P S G : Type}

/-! ## What is inserted -/

/-- Later than all ordinals of a list. -/
def Beyond (os : List Ordinal) (o : Ordinal) : Prop := ∀ p ∈ os, p.key < o.key

/-- One of the ordinals, or later than all of them. -/
def Genuine (os : List Ordinal) (o : Ordinal) : Prop := o ∈ os ∨ Beyond os o

/-- What the replica itself inserts are the ordinals of Prime, and it passes over those it
skips. -/
def FromPrime (c : Site) (os : List Ordinal) (skipped : Nat ×ₗ Nat → Prop) : Input P S → Prop
  | .share i tcm => i = c.myId → Genuine os tcm.ord ∧ ¬skipped tcm.ord.key
  | .skip o => Genuine os o ∧ skipped o.key
  | .deliver => True

/-- A share for an ordinal, with the payload all correct replicas have for it. -/
def Shared (payload : Ordinal → P) (xs : List (Input P S)) (i : Nat) (o : Ordinal) : Prop :=
  ∃ tcm : TcShare P S, .share i tcm ∈ xs ∧ tcm.ord = o ∧ tcm.payload = payload o

/-- The shares that arrive while `os` are the next ordinals: at most `NUM_F` replicas are
faulty, the replica inserts what Prime gives it, and for each of the ordinals it has skipped
it or inserted its own share and those of `NUM_F` others. -/
structure Admissible (c : Site) (applied : Ordinal) (os : List Ordinal) (skipped : Nat ×ₗ Nat → Prop)
    (payload : Ordinal → P) (faulty : Finset Nat) (xs : List (Input P S)) : Prop where
  next : (applied :: os).IsChain OrdConsec
  own : ∀ x ∈ xs, FromPrime c os skipped x
  faulty_card : faulty.card ≤ c.numF
  correct : c.myId ∉ faulty
  others : ∀ i tcm, i ∉ faulty → .share i tcm ∈ xs →
    Beyond os tcm.ord ∨ tcm.ord ∈ os ∧ tcm.payload = payload tcm.ord
  complete : ∀ o ∈ os, (skipped o.key ∧ .skip o ∈ xs) ∨
    ¬skipped o.key ∧ Shared payload xs c.myId o ∧
      ∃ senders : Finset Nat, c.numF ≤ senders.card ∧ c.myId ∉ senders ∧ Disjoint senders faulty ∧
        ∀ i ∈ senders, Shared payload xs i o

/-! ## Conditions on a step -/

/-- The share opens an entry. -/
def Opens (s : Tcq P S) (o : Ordinal) : Prop :=
  s.appliedOrd.key < o.key ∧ ∀ n ∈ s.queue, n.key ≠ o.key

/-- An ordinal of the list, with its total where the next ordinal has another number, or a
later ordinal. -/
def Fits (os : List Ordinal) (p : Ordinal) : Prop :=
  Beyond os p ∨ ∃ o ∈ os, o.key = p.key ∧
    ∀ o', [o, o'] <:+: os → o.ordNum ≠ o'.ordNum → p.eventTot = o.eventTot

/-- The ordinal has left the queue. -/
def Released (s : Tcq P S) (o : Ordinal) : Prop := ∃ n ∈ s.removed, n.key = o.key

/-- Only ordinals that fit open an entry, and none leaves the queue before an earlier one. -/
def StepInOrder (c : Site) (os : List Ordinal) (s : Tcq P S) : Input P S → Prop
  | .share _ tcm => Opens s tcm.ord → Fits os tcm.ord
  | .skip o => Opens s o → Fits os o
  | .deliver => ∀ n ∈ s.queue.head?, Ready c s.appliedOrd n → ∀ o ∈ os, o.key < n.key → Released s o

/-- The entry of an ordinal. -/
def Tcq.node (s : Tcq P S) (o : Ordinal) : TcNode P S := entry TcNode.key o.key (TcNode.new o) s.queue

/-- A share that makes the entry of one of the ordinals complete can be combined with those
that are there. -/
def StepCombines (k : Crypto P S G) (c : Site) (os : List Ordinal) (skipped : Nat ×ₗ Nat → Prop) (s : Tcq P S) :
    Input P S → Prop
  | .share i tcm =>
    s.appliedOrd.key < tcm.ord.key → (∃ o ∈ os, o.key = tcm.ord.key) → ¬skipped tcm.ord.key →
      (s.node tcm.ord).done = false → (s.node tcm.ord).recvd i = false →
      c.reqShares ≤ ((s.node tcm.ord).store i tcm).count →
      ((s.node tcm.ord).store i tcm).recvd c.myId = true →
      (constructTcFinal k c tcm.ord ((s.node tcm.ord).store i tcm)).isSome
  | _ => True

/-! ## Entries -/

section Nodes

variable {k : Crypto P S G} {c : Site} {n : TcNode P S} {i : Nat} {tcm : TcShare P S} {o : Ordinal}

/-- A message that left the queue verifies. -/
def TcFinal.Verifies (k : Crypto P S G) (t : TcFinal P S) : Prop :=
  k.verifySignature t.threshSig (k.makeDigest t.ord t.payload) = true

theorem constructTcFinal_verifies {t : TcFinal P S} (h : constructTcFinal k c o n = some t) : t.Verifies k := by
  unfold constructTcFinal at h
  split_ifs at h
  dsimp only at h
  split at h
  · cases h
  · split_ifs at h with hcount hverify
    cases h
    exact hverify

/-- What holds of an entry at any time: it is done as soon as enough shares are there, but
never without the replica itself. -/
structure TcNode.Sound (k : Crypto P S G) (c : Site) (n : TcNode P S) : Prop where
  own : n.done = true → n.recvd c.myId = true
  tried : n.done = true ∨ ¬(c.reqShares ≤ n.count ∧ n.recvd c.myId = true)
  counted : ∃ senders : Finset Nat, (∀ i, n.recvd i = true ↔ i ∈ senders) ∧ n.count = senders.card
  signed : n.done = true → n.skip = false → ∃ t, n.tcf = some t ∧ t.Verifies k
  skips : n.skip = true → n.done = true

theorem TcNode.sound_new (o : Ordinal) : (TcNode.new o : TcNode P S).Sound k c where
  own h := by cases h
  tried := .inr fun h => by cases h.2
  counted := ⟨∅, fun i => by simp [TcNode.new], rfl⟩
  signed h := by cases h
  skips h := by cases h

theorem mark_counted (h : ∃ senders : Finset Nat, (∀ i, n.recvd i = true ↔ i ∈ senders) ∧ n.count = senders.card)
    (hi : n.recvd i = false) :
    ∃ senders : Finset Nat, (∀ j, (n.mark i).recvd j = true ↔ j ∈ senders) ∧ (n.mark i).count = senders.card := by
  obtain ⟨senders, hmem, hcard⟩ := h
  have hnot : i ∉ senders := fun hin => by simp [(hmem i).mpr hin] at hi
  refine ⟨senders.cons i hnot, fun j => ?_, (congrArg (· + 1) hcard).trans (Finset.card_cons hnot).symm⟩
  rw [Finset.mem_cons, ← hmem]
  by_cases hj : j = i <;> simp [TcNode.mark, hj]

theorem TcNode.Sound.receive (h : n.Sound k c) : (n.receive k c i tcm).Sound k c := by
  unfold TcNode.receive
  split_ifs with hskip
  · exact h
  rw [not_or, Bool.not_eq_true, Bool.not_eq_true] at hskip
  obtain ⟨hdone, hi⟩ := hskip
  have hcounted := mark_counted h.counted hi
  have hnd : (n.store i tcm).done = false := hdone
  unfold TcNode.combine
  split_ifs with hready
  · split
    · rename_i t ht
      exact ⟨fun _ => hready.2, .inl rfl, hcounted, fun _ _ => ⟨t, rfl, constructTcFinal_verifies ht⟩, fun _ => rfl⟩
    · exact ⟨fun _ => hready.2, .inl rfl, hcounted, fun _ hs => (by cases hs), fun _ => rfl⟩
  · exact ⟨fun hd => by simp [hnd] at hd, .inr hready, hcounted, fun hd => by simp [hnd] at hd, h.skips⟩

theorem TcNode.Sound.pass (h : n.Sound k c) : (n.pass c).Sound k c := by
  unfold TcNode.pass
  split_ifs with hskip
  · exact h
  rw [not_or, Bool.not_eq_true, Bool.not_eq_true] at hskip
  exact ⟨fun _ => by simp [TcNode.mark], .inl rfl, mark_counted h.counted hskip.2, fun _ hs => (by cases hs), fun _ => rfl⟩

@[simp] theorem TcNode.combine_recvd : (n.combine k c o).recvd = n.recvd := by
  unfold TcNode.combine
  split_ifs
  · split <;> rfl
  · rfl

theorem TcNode.receive_recvd {j : Nat} (hj : j ≠ i) : (n.receive k c i tcm).recvd j = n.recvd j := by
  unfold TcNode.receive
  split_ifs
  · rfl
  · simp [TcNode.store, TcNode.mark, hj]

theorem TcNode.receive_of_done (h : n.done = true) : n.receive k c i tcm = n := if_pos (.inl h)

theorem TcNode.pass_of_done (h : n.done = true) : n.pass c = n := if_pos (.inl h)

/-- Once received, always received. -/
theorem TcNode.receive_keeps {j : Nat} (h : n.recvd j = true) : (n.receive k c i tcm).recvd j = true := by
  by_cases hj : j = i
  · rw [TcNode.receive, if_pos (.inr (hj ▸ h)), h]
  · rw [TcNode.receive_recvd hj, h]

theorem TcNode.pass_keeps {j : Nat} (h : n.recvd j = true) : (n.pass c).recvd j = true := by
  unfold TcNode.pass
  split_ifs
  · exact h
  · by_cases hj : j = c.myId <;> simp [TcNode.mark, hj, h]

/-- The replica of a share has been received, unless the entry was done before. -/
theorem TcNode.receive_self : (n.receive k c i tcm).recvd i = true ∨ (n.receive k c i tcm).done = true := by
  unfold TcNode.receive
  split_ifs with h
  · exact h.symm
  · exact .inl (by simp [TcNode.store, TcNode.mark])

end Nodes

/-! ## The queue -/

section Queue

variable {k : Crypto P S G} {c : Site} {applied : Ordinal} {os : List Ordinal} {skipped : Nat ×ₗ Nat → Prop}
  {s : Tcq P S}

/-- What holds of the queue at any time, whoever sends shares. -/
structure Tcq.Inv (k : Crypto P S G) (c : Site) (applied : Ordinal) (os : List Ordinal)
    (skipped : Nat ×ₗ Nat → Prop) (s : Tcq P S) : Prop where
  keyed : Keyed TcNode.key s.queue
  sorted : Keyed TcNode.key s.removed
  above : ∀ n ∈ s.queue, s.appliedOrd.key < n.key
  below : ∀ n ∈ s.removed, n.key ≤ s.appliedOrd.key
  last : s.appliedOrd = applied ∧ s.removed = [] ∨ ∃ n ∈ s.removed, n.ord = s.appliedOrd
  follows : ∀ n ∈ s.removed, n.ord = s.appliedOrd ∨ ∃ m ∈ s.removed, OrdConsec n.ord m.ord
  ready : ∀ n ∈ s.removed, n.done = true
  sound : ∀ n ∈ s.removed ++ s.queue, n.Sound k c
  genuine : ∀ n ∈ s.removed ++ s.queue, n.recvd c.myId = true →
    (∃ o ∈ os, o.key = n.key) ∨ Beyond os n.ord
  waits : ∀ n ∈ s.queue, n.recvd c.myId = true → n.done = false → ¬skipped n.key

theorem Tcq.inv_start : (Tcq.start applied : Tcq P S).Inv k c applied os skipped where
  keyed := List.Pairwise.nil
  sorted := List.Pairwise.nil
  above n hn := by cases hn
  below n hn := by cases hn
  last := .inl ⟨rfl, rfl⟩
  follows n hn := by cases hn
  ready n hn := by cases hn
  sound n hn := by cases hn
  genuine n hn := by cases hn
  waits n hn := by cases hn

/-- What inserting does to an entry, as far as the invariant is concerned. -/
structure Inserts (k : Crypto P S G) (c : Site) (os : List Ordinal) (skipped : Nat ×ₗ Nat → Prop) (o : Ordinal)
    (f : TcNode P S → TcNode P S) : Prop where
  ord : ∀ n, (f n).ord = n.ord
  sound : ∀ n, n.Sound k c → (f n).Sound k c
  own : ∀ n, (f n).recvd c.myId = true → n.recvd c.myId = true ∨ Genuine os o
  waits : ∀ n, (f n).recvd c.myId = true → (f n).done = false →
    n.recvd c.myId = true ∧ n.done = false ∨ ¬skipped o.key

theorem Genuine.among {o : Ordinal} (h : Genuine os o) : (∃ p ∈ os, p.key = o.key) ∨ Beyond os o :=
  h.imp (fun ho => ⟨o, ho, rfl⟩) id

theorem Tcq.Inv.insert {o : Ordinal} {f : TcNode P S → TcNode P S} (h : s.Inv k c applied os skipped)
    (hf : Inserts k c os skipped o f) : (insertTcId s o f).Inv k c applied os skipped := by
  rw [insertTcId_eq]
  split_ifs with hlt
  swap
  · exact h
  have hfkey : ∀ n, TcNode.key (f n) = TcNode.key n := fun n => congrArg Ordinal.key (hf.ord n)
  have hkey : (s.node o).key = o.key := key_entry rfl
  -- the entry of the ordinal was there before, or is a fresh one
  have hnode : s.node o ∈ s.queue ∨ s.node o = TcNode.new o :=
    (entry_mem_or TcNode.key o.key (TcNode.new o) s.queue).imp id And.right
  have hmem : ∀ n ∈ upsert TcNode.key o.key (TcNode.new o) f s.queue, n = f (s.node o) ∨ n ∈ s.queue :=
    fun n hn => ((mem_upsert h.keyed).mp hn).imp id And.left
  refine ⟨h.keyed.upsert hfkey rfl, h.sorted, fun n hn => ?_, h.below, h.last, h.follows, h.ready, fun n hn => ?_,
    fun n hn hown => ?_, fun n hn hown hdone => ?_⟩
  · rcases hmem n hn with rfl | hn
    · rw [hfkey, hkey]
      exact hlt
    · exact h.above n hn
  · rcases List.mem_append.mp hn with hn | hn
    · exact h.sound n (List.mem_append_left _ hn)
    · rcases hmem n hn with rfl | hn
      · rcases hnode with hnode | hnode
        · exact hf.sound _ (h.sound _ (List.mem_append_right _ hnode))
        · rw [hnode]
          exact hf.sound _ (TcNode.sound_new o)
      · exact h.sound n (List.mem_append_right _ hn)
  · rcases List.mem_append.mp hn with hn | hn
    · exact h.genuine n (List.mem_append_left _ hn) hown
    · rcases hmem n hn with rfl | hn
      · have hord : (∃ p ∈ os, p.key = o.key) ∨ Beyond os o := by
          rcases hf.own _ hown with hold | hnew
          · rcases hnode with hnode | hnode
            · have := h.genuine _ (List.mem_append_right _ hnode) hold
              rw [hkey] at this
              exact this.imp id fun hb p hp => (hb p hp).trans_eq hkey
            · rw [hnode] at hold
              cases hold
          · exact hnew.among
        rw [hfkey, hkey]
        exact hord.imp id fun hb p hp => (hb p hp).trans_eq ((hfkey _).trans hkey).symm
      · exact h.genuine n (List.mem_append_right _ hn) hown
  · rcases hmem n hn with rfl | hn
    · rw [hfkey, hkey]
      rcases hf.waits _ hown hdone with ⟨hold, hnd⟩ | hnew
      · rcases hnode with hnode | hnode
        · have := h.waits _ hnode hold hnd
          rwa [hkey] at this
        · rw [hnode] at hold
          cases hold
      · exact hnew
    · exact h.waits n hn hown hdone

theorem receive_inserts {i : Nat} {tcm : TcShare P S} (h : FromPrime c os skipped (.share i tcm)) :
    Inserts k c os skipped tcm.ord (TcNode.receive k c i tcm) where
  ord n := TcNode.receive_ord
  sound n hn := hn.receive
  own n hn := by
    by_cases hi : i = c.myId
    · exact .inr (h hi).1
    · exact .inl (TcNode.receive_recvd (Ne.symm hi) ▸ hn)
  waits n hn hdone := by
    by_cases hi : i = c.myId
    · exact .inr (h hi).2
    · refine .inl ⟨TcNode.receive_recvd (Ne.symm hi) ▸ hn, ?_⟩
      by_contra hd
      rw [TcNode.receive_of_done (Bool.not_eq_false _ ▸ hd)] at hdone
      exact hd hdone

theorem pass_inserts {o : Ordinal} (h : FromPrime c os skipped (.skip o : Input P S)) :
    Inserts k c os skipped o (TcNode.pass c : TcNode P S → TcNode P S) where
  ord n := TcNode.pass_ord
  sound n hn := hn.pass
  own n _ := .inr h.1
  waits n hn hdone := by
    unfold TcNode.pass at hn hdone
    split_ifs at hn hdone with hskip
    exact .inl ⟨hn, hdone⟩

theorem Tcq.Inv.deliver (h : s.Inv k c applied os skipped) : (deliverHead c s).Inv k c applied os skipped := by
  unfold deliverHead
  split
  · exact h
  rename_i n ns hq
  split_ifs with hready
  swap
  · exact h
  have hkeyed : Keyed TcNode.key (n :: ns) := hq ▸ h.keyed
  have hn : n ∈ s.queue := hq ▸ List.mem_cons_self
  have hlt := h.above n hn
  have hperm : ∀ m, m ∈ (s.removed ++ [n]) ++ ns ↔ m ∈ s.removed ++ s.queue := by
    intro m
    rw [hq, List.append_assoc, List.singleton_append]
  have hsorted : Keyed TcNode.key (s.removed ++ [n]) := by
    refine List.pairwise_append.mpr ⟨h.sorted, List.pairwise_singleton _ _, fun m hm m' hm' => ?_⟩
    rw [List.mem_singleton.mp hm']
    exact (h.below m hm).trans_lt hlt
  refine ⟨hkeyed.tail, hsorted, fun m hm => hkeyed.head_lt hm, fun m hm => ?_, .inr ⟨n, by simp, rfl⟩, fun m hm => ?_,
    fun m hm => ?_, fun m hm => h.sound m ((hperm m).mp hm), fun m hm => h.genuine m ((hperm m).mp hm),
    fun m hm => h.waits m (hq ▸ List.mem_cons_of_mem n hm)⟩
  · rcases List.mem_append.mp hm with hm | hm
    · exact (h.below m hm).trans hlt.le
    · rw [List.mem_singleton.mp hm]
      exact le_rfl
  · rcases List.mem_append.mp hm with hm | hm
    · rcases h.follows m hm with heq | ⟨m', hm', hcon⟩
      · exact .inr ⟨n, by simp, heq ▸ hready.2.2⟩
      · exact .inr ⟨m', List.mem_append_left _ hm', hcon⟩
    · exact .inl (congrArg TcNode.ord (List.mem_singleton.mp hm))
  · rcases List.mem_append.mp hm with hm | hm
    · exact h.ready m hm
    · rw [List.mem_singleton.mp hm]
      exact hready.1

theorem Tcq.Inv.step (x : Input P S) (hx : FromPrime c os skipped x) (h : s.Inv k c applied os skipped) :
    (step k c s x).Inv k c applied os skipped := by
  cases x with
  | share i tcm => exact h.insert (receive_inserts hx)
  | skip o => exact h.insert (pass_inserts hx)
  | deliver => exact h.deliver

/-! ## In order -/

/-- Every entry fits, and no ordinal has left the queue before an earlier one. -/
structure InOrder (os : List Ordinal) (s : Tcq P S) : Prop where
  fits : ∀ n ∈ s.removed ++ s.queue, Fits os n.ord
  closed : ∀ n ∈ s.removed, ∀ o ∈ os, o.key < n.key → Released s o

theorem inOrder_insert {o : Ordinal} {f : TcNode P S → TcNode P S} (h : s.Inv k c applied os skipped)
    (hf : ∀ n, (f n).ord = n.ord) :
    InOrder os (insertTcId s o f) ↔ InOrder os s ∧ (Opens s o → Fits os o) := by
  rw [insertTcId_eq]
  split_ifs with hlt
  swap
  · exact ⟨fun h => ⟨h, fun ho => absurd ho.1 hlt⟩, And.left⟩
  have hmem : ∀ b, b ∈ upsert TcNode.key o.key (TcNode.new o) f s.queue ↔
      b = f (entry TcNode.key o.key (TcNode.new o) s.queue) ∨ b ∈ s.queue ∧ b.key ≠ o.key :=
    fun b => mem_upsert h.keyed
  constructor
  · refine fun hio => ⟨⟨fun n hn => ?_, hio.closed⟩, fun hopen => ?_⟩
    · rcases List.mem_append.mp hn with hn | hn
      · exact hio.fits n (List.mem_append_left _ hn)
      · by_cases hk : TcNode.key n = o.key
        · rw [← hf n, ← entry_eq h.keyed hn hk]
          exact hio.fits _ (List.mem_append_right _ ((hmem _).mpr (.inl rfl)))
        · exact hio.fits n (List.mem_append_right _ ((hmem n).mpr (.inr ⟨hn, hk⟩)))
    · have hnew := hio.fits _ (List.mem_append_right _ ((hmem _).mpr (.inl rfl)))
      rw [entry_eq_fresh hopen.2, hf] at hnew
      exact hnew
  · rintro ⟨hio, hopen⟩
    refine ⟨fun n hn => ?_, hio.closed⟩
    rcases List.mem_append.mp hn with hn | hn
    · exact hio.fits n (List.mem_append_left _ hn)
    · rcases (hmem n).mp hn with rfl | ⟨hn, -⟩
      · rw [hf]
        rcases entry_mem_or TcNode.key o.key (TcNode.new o) s.queue with hold | ⟨hno, hnew⟩
        · exact hio.fits _ (List.mem_append_right _ hold)
        · rw [hnew]
          exact hopen ⟨hlt, hno⟩
      · exact hio.fits n (List.mem_append_right _ hn)

theorem inOrder_deliver (h : s.Inv k c applied os skipped) :
    InOrder os (deliverHead c s) ↔ InOrder os s ∧ StepInOrder c os s (.deliver : Input P S) := by
  unfold deliverHead StepInOrder
  split
  · rename_i hq
    exact ⟨fun hio => ⟨hio, fun n hn => by simp [hq] at hn⟩, And.left⟩
  rename_i n ns hq
  split_ifs with hready
  swap
  · refine ⟨fun hio => ⟨hio, fun m hm hr => ?_⟩, And.left⟩
    rw [hq] at hm
    cases hm
    exact absurd hr hready
  have hperm : ∀ m, m ∈ (s.removed ++ [n]) ++ ns ↔ m ∈ s.removed ++ s.queue := by
    intro m
    rw [hq, List.append_assoc, List.singleton_append]
  have hn : n ∈ s.queue := hq ▸ List.mem_cons_self
  -- nothing before the head can be released by the head itself
  have hold : ∀ o : Ordinal, o.key < n.key →
      (Released ⟨n.ord, ns, s.removed ++ [n]⟩ o ↔ Released s o) := by
    intro o hlt
    constructor
    · rintro ⟨m, hm, hmo⟩
      rcases List.mem_append.mp hm with hm | hm
      · exact ⟨m, hm, hmo⟩
      · rw [List.mem_singleton.mp hm] at hmo
        exact absurd hmo hlt.ne'
    · exact fun ⟨m, hm, hmo⟩ => ⟨m, List.mem_append_left _ hm, hmo⟩
  constructor
  · refine fun hio => ⟨⟨fun m hm => hio.fits m ((hperm m).mpr hm), fun m hm o ho hlt => ?_⟩, fun m hm _ o ho hlt => ?_⟩
    · exact (hold o (hlt.trans_le ((h.below m hm).trans (h.above n hn).le))).mp
        (hio.closed m (List.mem_append_left _ hm) o ho hlt)
    · rw [hq] at hm
      cases hm
      exact (hold o hlt).mp (hio.closed n (by simp) o ho hlt)
  · rintro ⟨hio, hstep⟩
    refine ⟨fun m hm => hio.fits m ((hperm m).mp hm), fun m hm o ho hlt => ?_⟩
    rcases List.mem_append.mp hm with hm | hm
    · exact (hold o (hlt.trans_le ((h.below m hm).trans (h.above n hn).le))).mpr (hio.closed m hm o ho hlt)
    · rw [List.mem_singleton.mp hm] at hlt
      exact (hold o hlt).mpr (hstep n (by simp [hq]) hready o ho hlt)

/-- A step keeps the order exactly if it meets the condition, and order that is lost stays
lost. -/
theorem inOrder_step (x : Input P S) (h : s.Inv k c applied os skipped) :
    InOrder os (step k c s x) ↔ InOrder os s ∧ StepInOrder c os s x := by
  cases x with
  | share i tcm => exact inOrder_insert h fun n => TcNode.receive_ord
  | skip o => exact inOrder_insert h fun n => TcNode.pass_ord
  | deliver => exact inOrder_deliver h

/-! ## Ordinals that follow one another -/

theorem keyed_of_next (h : (applied :: os).IsChain OrdConsec) : Keyed Ordinal.key (applied :: os) := by
  have hlt : (applied :: os).IsChain fun a b => a.key < b.key := h.imp fun _ _ => OrdConsec.key_lt
  have : Trans (fun a b : Ordinal => a.key < b.key) (fun a b : Ordinal => a.key < b.key)
      (fun a b : Ordinal => a.key < b.key) := ⟨lt_trans⟩
  exact List.isChain_iff_pairwise.mp hlt

/-- There is nothing between an ordinal and the next. -/
theorem next_le {o o' p : Ordinal} (h : Keyed Ordinal.key os) (hoo : [o, o'] <:+: os) (hp : p ∈ os)
    (hlt : o.key < p.key) : o'.key ≤ p.key := by
  obtain ⟨l1, l2, rfl⟩ := hoo
  have hsort := List.pairwise_append.mp (List.append_assoc l1 [o, o'] l2 ▸ h)
  have htail : Keyed Ordinal.key (o :: o' :: l2) := hsort.2.1
  rw [List.append_assoc, List.mem_append] at hp
  rcases hp with hp | hp
  · exact absurd hlt (hsort.2.2 p hp o List.mem_cons_self).not_gt
  · rcases List.mem_cons.mp hp with rfl | hp
    · exact absurd hlt (lt_irrefl _)
    · rcases List.mem_cons.mp hp with rfl | hp
      · exact le_rfl
      · exact (htail.tail.head_lt hp).le

theorem consec_of_next {o o' : Ordinal} (h : (applied :: os).IsChain OrdConsec) (hoo : [o, o'] <:+: os) :
    OrdConsec o o' := by
  have h2 : [o, o'].IsChain OrdConsec := h.infix (hoo.trans (List.suffix_cons applied os).isInfix)
  simpa using h2

/-- When all ordinals have left the queue, every entry was one that fits. -/
theorem inOrder_of_released (h : s.Inv k c applied os skipped) (hnext : (applied :: os).IsChain OrdConsec)
    (hall : ∀ o ∈ os, Released s o) : InOrder os s := by
  have hsort := (keyed_of_next hnext).tail
  refine ⟨fun n hn => ?_, fun _ _ o ho _ => hall o ho⟩
  have hgen := h.genuine n hn
  rcases List.mem_append.mp hn with hn | hn
  swap
  · refine .inl fun p hp => ?_
    obtain ⟨m, hm, hmp⟩ := hall p hp
    exact hmp ▸ (h.below m hm).trans_lt (h.above n hn)
  rcases hgen ((h.sound n (List.mem_append_left _ hn)).own (h.ready n hn)) with ⟨o, ho, hok⟩ | hbeyond
  swap
  · exact .inl hbeyond
  refine .inr ⟨o, ho, hok, fun o' hoo hnum => ?_⟩
  have ho' : o' ∈ os := hoo.subset (by simp)
  have hcon := consec_of_next hnext hoo
  -- the next ordinal has left too, so something followed this one
  have hfollow : ∃ m ∈ s.removed, OrdConsec n.ord m.ord := by
    rcases h.follows n hn with heq | hm
    · obtain ⟨m', hm', hmo'⟩ := hall o' ho'
      have happlied : n.key = s.appliedOrd.key := congrArg Ordinal.key heq
      have hle : o'.key ≤ o.key := by
        rw [hok, happlied, ← hmo']
        exact h.below m' hm'
      exact absurd hcon.key_lt hle.not_gt
    · exact hm
  obtain ⟨m, hm, hnm⟩ := hfollow
  have hlt : o.key < m.key := hok ▸ hnm.key_lt
  have hle : o'.key ≤ m.key := by
    rcases h.genuine m (List.mem_append_left _ hm)
        ((h.sound m (List.mem_append_left _ hm)).own (h.ready m hm)) with ⟨p, hp, hpm⟩ | hbeyond
    · exact hpm ▸ next_le hsort hoo hp (hpm ▸ hlt)
    · exact (hbeyond o' ho').le
  have hle' := not_lt.mpr hle
  rw [TcNode.key, Ordinal.key_lt_key] at hle'
  obtain ⟨hn1, hn2⟩ := Ordinal.key_inj.mp hok
  rcases hcon with ⟨hsame, -⟩ | ⟨hsucc, hlast, hfirst⟩
  · exact absurd hsame hnum
  · rcases hnm with ⟨hsame, -⟩ | ⟨-, hlast', -⟩
    · exact absurd (Or.inl (by omega)) hle'
    · omega

/-- What a replica inserted for an ordinal is in its entry, as long as the entry is not done
or gone. -/
def Seen (s : Tcq P S) (i : Nat) (o : Ordinal) : Prop :=
  o.key ≤ s.appliedOrd.key ∨ ∃ n ∈ s.queue, n.key = o.key ∧ (n.recvd i = true ∨ n.done = true)

/-- What an input has left behind. -/
def Recorded (c : Site) (s : Tcq P S) : Input P S → Prop
  | .share i tcm => Seen s i tcm.ord
  | .skip o => Seen s c.myId o
  | .deliver => True

theorem seen_insert {o : Ordinal} {i : Nat} {f : TcNode P S → TcNode P S} (h : s.Inv k c applied os skipped)
    (hf : ∀ n, (f n).ord = n.ord) (hself : ∀ n, (f n).recvd i = true ∨ (f n).done = true) :
    Seen (insertTcId s o f) i o := by
  rw [insertTcId_eq]
  have hkey : (s.node o).key = o.key := key_entry rfl
  split_ifs with hlt
  · exact .inr ⟨_, (mem_upsert h.keyed).mpr (.inl rfl), (congrArg Ordinal.key (hf _)).trans hkey, hself _⟩
  · exact .inl (not_lt.mp hlt)

theorem Seen.insert {o p : Ordinal} {i : Nat} {f : TcNode P S → TcNode P S} (h : s.Inv k c applied os skipped)
    (hf : ∀ n, (f n).ord = n.ord) (hkeep : ∀ n, n.recvd i = true → (f n).recvd i = true)
    (hdone : ∀ n, n.done = true → f n = n) (hs : Seen s i p) : Seen (insertTcId s o f) i p := by
  rw [insertTcId_eq]
  split_ifs with hlt
  swap
  · exact hs
  rcases hs with hle | ⟨n, hn, hnp, hmark⟩
  · exact .inl hle
  by_cases hk : TcNode.key n = o.key
  · refine .inr ⟨f n, (mem_upsert h.keyed).mpr (.inl (by rw [entry_eq h.keyed hn hk])),
      (congrArg Ordinal.key (hf n)).trans hnp, ?_⟩
    rcases hmark with hr | hd
    · exact .inl (hkeep n hr)
    · exact .inr (by rw [hdone n hd, hd])
  · exact .inr ⟨n, (mem_upsert h.keyed).mpr (.inr ⟨hn, hk⟩), hnp, hmark⟩

theorem Seen.deliver {p : Ordinal} {i : Nat} (h : s.Inv k c applied os skipped) (hs : Seen s i p) :
    Seen (deliverHead c s) i p := by
  unfold deliverHead
  split
  · exact hs
  rename_i n ns hq
  split_ifs
  swap
  · exact hs
  rcases hs with hle | ⟨m, hm, hmp, hmark⟩
  · exact .inl (hle.trans (h.above n (hq ▸ List.mem_cons_self)).le)
  · rw [hq] at hm
    rcases List.mem_cons.mp hm with rfl | hm
    · exact .inl hmp.ge
    · exact .inr ⟨m, hm, hmp, hmark⟩

theorem Seen.step {p : Ordinal} {i : Nat} (h : s.Inv k c applied os skipped) (x : Input P S) (hs : Seen s i p) :
    Seen (step k c s x) i p := by
  cases x with
  | share j tcm =>
    exact hs.insert h (fun n => TcNode.receive_ord) (fun n => TcNode.receive_keeps) fun n => TcNode.receive_of_done
  | skip o =>
    exact hs.insert h (fun n => TcNode.pass_ord) (fun n => TcNode.pass_keeps) fun n => TcNode.pass_of_done
  | deliver => exact hs.deliver h

theorem recorded_step (h : s.Inv k c applied os skipped) (x : Input P S) : Recorded c (step k c s x) x := by
  cases x with
  | share i tcm => exact seen_insert h (fun n => TcNode.receive_ord) fun n => TcNode.receive_self
  | skip o =>
    refine seen_insert h (fun n => TcNode.pass_ord) fun n => ?_
    unfold TcNode.pass
    split_ifs with hskip
    · exact hskip.symm
    · exact .inr rfl
  | deliver => trivial

theorem Recorded.step (h : s.Inv k c applied os skipped) (x y : Input P S) (hs : Recorded c s x) :
    Recorded c (step k c s y) x := by
  cases x with
  | share i tcm => exact Seen.step h y hs
  | skip o => exact Seen.step h y hs
  | deliver => trivial

/-- With what all insert for an ordinal its entry is done. -/
theorem done_of_complete {payload : Ordinal → P} {faulty : Finset Nat} {xs : List (Input P S)} {o : Ordinal}
    {n : TcNode P S} (h : s.Inv k c applied os skipped) (hadm : Admissible c applied os skipped payload faulty xs)
    (hrec : ∀ x ∈ xs, Recorded c s x) (ho : o ∈ os) (hn : n ∈ s.queue) (hno : n.key = o.key) : n.done = true := by
  -- what was inserted is in this entry
  have hmark : ∀ i, Seen s i o → n.recvd i = true ∨ n.done = true := by
    rintro i (hle | ⟨m, hm, hmo, hmark⟩)
    · exact absurd (hno ▸ h.above n hn) hle.not_gt
    · rw [h.keyed.unique hn hm (hno.trans hmo.symm)]
      exact hmark
  have hshared : ∀ i, Shared payload xs i o → n.recvd i = true ∨ n.done = true := by
    rintro i ⟨tcm, hx, rfl, -⟩
    exact hmark i (hrec _ hx)
  by_contra hdone
  rcases hadm.complete o ho with ⟨hskip, hx⟩ | ⟨-, hown, senders, hcard, hnot, -, hsenders⟩
  · rcases hmark c.myId (hrec _ hx) with hown | hd
    · exact h.waits n hn hown (Bool.not_eq_true _ ▸ hdone) (hno ▸ hskip)
    · exact hdone hd
  · have hr := (hshared c.myId hown).resolve_right hdone
    obtain ⟨marked, hmem, hcount⟩ := (h.sound n (List.mem_append_right _ hn)).counted
    have hsub : senders.cons c.myId hnot ⊆ marked := by
      intro i hi
      rcases Finset.mem_cons.mp hi with rfl | hi
      · exact (hmem _).mp hr
      · exact (hmem i).mp ((hshared i (hsenders i hi)).resolve_right hdone)
    have hle := Finset.card_le_card hsub
    rw [Finset.card_cons] at hle
    refine (h.sound n (List.mem_append_right _ hn)).tried.elim hdone fun hnt => hnt ⟨?_, hr⟩
    rw [hcount, Site.reqShares]
    omega

theorem mem_before {o p : Ordinal} {before after : List Ordinal} (h : Keyed Ordinal.key os)
    (hos : os = before ++ o :: after) (hp : p ∈ os) (hlt : p.key < o.key) : p ∈ before := by
  rw [hos, List.mem_append] at hp
  refine hp.resolve_right fun hp => ?_
  have hsort : Keyed Ordinal.key (o :: after) := (List.pairwise_append.mp (hos ▸ h)).2.1
  rcases List.mem_cons.mp hp with rfl | hp
  · exact absurd hlt (lt_irrefl _)
  · exact absurd hlt (hsort.head_lt hp).not_gt

/-- The ordinal applied last is the one before the first that has not left the queue. -/
theorem applied_before {o : Ordinal} {before after : List Ordinal} (h : s.Inv k c applied os skipped)
    (hio : InOrder os s) (hnext : (applied :: os).IsChain OrdConsec) (hos : os = before ++ o :: after)
    (hbefore : ∀ p ∈ before, Released s p) (ho : ¬Released s o) {n : TcNode P S} (hn : n.key = o.key) :
    o.key > s.appliedOrd.key ∧ OrdConsec s.appliedOrd n.ord := by
  have hsort := keyed_of_next hnext
  have ho' : o ∈ os := hos ▸ List.mem_append_right _ List.mem_cons_self
  have hgone : ∀ m ∈ s.removed, m.key < o.key := by
    intro m hm
    rcases lt_trichotomy m.key o.key with hlt | heq | hgt
    · exact hlt
    · exact absurd ⟨m, hm, heq⟩ ho
    · exact absurd (hio.closed m hm o ho' hgt) ho
  have hamong : ∀ m ∈ s.removed, ∃ p ∈ before, p.key = m.key := by
    intro m hm
    have hlt := hgone m hm
    rcases h.genuine m (List.mem_append_left _ hm)
        ((h.sound m (List.mem_append_left _ hm)).own (h.ready m hm)) with ⟨p, hp, hpm⟩ | hbeyond
    · exact ⟨p, mem_before hsort.tail hos hp (hpm ▸ hlt), hpm⟩
    · exact absurd (hbeyond o ho') hlt.not_gt
  rcases List.eq_nil_or_concat before with rfl | ⟨init, p, rfl⟩
  · rcases h.last with ⟨happ, -⟩ | ⟨m, hm, -⟩
    · have hcon : OrdConsec applied o := by
        rw [hos] at hnext
        exact (List.isChain_cons_cons.mp hnext).1
      rw [happ]
      exact ⟨hcon.key_lt, hcon.congr rfl hn fun _ => rfl⟩
    · obtain ⟨p, hp, -⟩ := hamong m hm
      cases hp
  · rw [List.concat_eq_append] at hos hbefore hamong
    have hpo : [p, o] <:+: os := ⟨init, after, by rw [hos]; simp⟩
    have hp : p ∈ os := hpo.subset (by simp)
    have hcon := consec_of_next hnext hpo
    obtain ⟨m, hm, hmp⟩ := hbefore p (by simp)
    obtain ⟨n', hn', happ⟩ : ∃ n' ∈ s.removed, n'.ord = s.appliedOrd := by
      rcases h.last with ⟨-, hnil⟩ | hlast
      · rw [hnil] at hm
        cases hm
      · exact hlast
    -- the last that left is the one before
    have hle : n'.key ≤ p.key := by
      obtain ⟨q, hq, hqk⟩ := hamong n' hn'
      have hqos : q ∈ os := hos ▸ List.mem_append_left _ hq
      by_contra hlt
      have := next_le hsort.tail hpo hqos (hqk ▸ not_le.mp hlt)
      exact absurd (hqk ▸ hgone n' hn') this.not_gt
    have hkey : n'.key = p.key := by
      refine le_antisymm hle (hmp ▸ ?_)
      exact (h.below m hm).trans_eq (congrArg Ordinal.key happ).symm
    have htot : p.ordNum ≠ o.ordNum → s.appliedOrd.eventTot = p.eventTot := by
      intro hnum
      rcases hio.fits n' (List.mem_append_left _ hn') with hbeyond | ⟨q, hq, hqn, htot⟩
      · exact absurd (hbeyond p hp) hle.not_gt
      · have hqp : q = p := hsort.tail.unique hq hp (hqn.trans hkey)
        subst hqp
        rw [← happ]
        exact htot o hpo hnum
    rw [← happ] at htot ⊢
    exact ⟨hkey.trans_lt hcon.key_lt, hcon.congr hkey hn htot⟩

/-- Where everything is in order and nothing is left to do, all ordinals have left the
queue. -/
theorem released_of_inOrder {payload : Ordinal → P} {faulty : Finset Nat} {xs : List (Input P S)}
    (h : s.Inv k c applied os skipped) (hio : InOrder os s)
    (hadm : Admissible c applied os skipped payload faulty xs) (hrec : ∀ x ∈ xs, Recorded c s x)
    (hidle : s.Idle c) : ∀ o ∈ os, Released s o := by
  classical
  by_contra hnot
  obtain ⟨o, before, after, hos, hbefore, ho⟩ : ∃ o before after, os = before ++ o :: after ∧
      (∀ p ∈ before, Released s p) ∧ ¬Released s o := by
    cases hf : os.find? fun o => ¬Released s o with
    | none => exact absurd (fun o ho => by simpa using List.find?_eq_none.mp hf o ho) hnot
    | some o =>
      obtain ⟨ho, before, after, hos, hbefore⟩ := List.find?_eq_some_iff_append.mp hf
      exact ⟨o, before, after, hos, fun p hp => by simpa using hbefore p hp, by simpa using ho⟩
  have ho' : o ∈ os := hos ▸ List.mem_append_right _ List.mem_cons_self
  have hcon := fun {n : TcNode P S} (hn : n.key = o.key) => applied_before h hio hadm.next hos hbefore ho hn
  have hlt := (hcon (n := TcNode.new o) rfl).1
  have hseen : Seen s c.myId o := by
    rcases hadm.complete o ho' with ⟨-, hx⟩ | ⟨-, ⟨tcm, hx, rfl, -⟩, -⟩
    · exact hrec _ hx
    · exact hrec _ hx
  obtain ⟨n, hn, hno, -⟩ := hseen.resolve_left hlt.not_ge
  have hdone := done_of_complete h hadm hrec ho' hn hno
  cases hq : s.queue with
  | nil =>
    rw [hq] at hn
    cases hn
  | cons head tail =>
    have hhead : head ∈ s.queue := hq ▸ List.mem_cons_self
    have heq : n = head := by
      by_contra hne
      have hlt' : head.key < o.key := by
        rw [hq] at hn
        exact hno ▸ Keyed.head_lt (hq ▸ h.keyed) ((List.mem_cons.mp hn).resolve_left hne)
      rcases hio.fits head (List.mem_append_right _ hhead) with hbeyond | ⟨p, hp, hph, -⟩
      · exact absurd (hbeyond o ho') hlt'.not_gt
      · have hph' : p.key = head.key := hph
        obtain ⟨m, hm, hmp⟩ := hbefore p (mem_before (keyed_of_next hadm.next).tail hos hp (hph'.trans_lt hlt'))
        exact absurd (h.below m hm) ((hmp.trans hph').symm ▸ h.above head hhead).not_ge
    subst heq
    exact hidle n (by simp [hq])
      ⟨hdone, (h.sound n (List.mem_append_right _ hhead)).own hdone, (hcon hno).2⟩

/-! ## With signatures -/

/-- No ordinal is passed over because its shares could not be combined. -/
def Combined (os : List Ordinal) (skipped : Nat ×ₗ Nat → Prop) (s : Tcq P S) : Prop :=
  ∀ n ∈ s.removed ++ s.queue, n.done = true → (∃ o ∈ os, o.key = n.key) → ¬skipped n.key → n.skip = false

/-- What a share does to an entry that still waits, by whether enough shares are there. -/
theorem combined_receive {i : Nat} {tcm : TcShare P S} {n : TcNode P S} (h : n.Sound k c)
    (hdone : n.done = false) (hi : n.recvd i = false) :
    ((n.receive k c i tcm).done = true → (n.receive k c i tcm).skip = false) ↔
      (c.reqShares ≤ (n.store i tcm).count → (n.store i tcm).recvd c.myId = true →
        (constructTcFinal k c tcm.ord (n.store i tcm)).isSome) := by
  have hskip : n.skip = false := by
    by_contra hs
    rw [h.skips (Bool.not_eq_false _ ▸ hs)] at hdone
    cases hdone
  have hrec : n.receive k c i tcm = (n.store i tcm).combine k c tcm.ord := by
    simp [TcNode.receive, hdone, hi]
  rw [hrec, TcNode.combine]
  split_ifs with hready
  · cases hc : constructTcFinal k c tcm.ord (n.store i tcm) with
    | some t => exact iff_of_true (fun _ => hskip) fun _ _ => rfl
    | none => exact iff_of_false (fun hs => by cases hs rfl) fun hs => by cases hs hready.1 hready.2
  · have hnd : (n.store i tcm).done = false := hdone
    exact iff_of_true (fun hd => by rw [hnd] at hd; cases hd) fun h1 h2 => absurd ⟨h1, h2⟩ hready

theorem combined_share {i : Nat} {tcm : TcShare P S} (h : s.Inv k c applied os skipped) :
    Combined os skipped (step k c s (.share i tcm)) ↔
      Combined os skipped s ∧ StepCombines k c os skipped s (.share i tcm) := by
  show Combined os skipped (insertTcId s tcm.ord (TcNode.receive k c i tcm)) ↔ _
  rw [insertTcId_eq]
  split_ifs with hlt
  swap
  · exact ⟨fun hc => ⟨hc, fun hlt' => absurd hlt' hlt⟩, And.left⟩
  have hkey : (s.node tcm.ord).key = tcm.ord.key := key_entry rfl
  have hfkey : ((s.node tcm.ord).receive k c i tcm).key = tcm.ord.key :=
    (congrArg Ordinal.key TcNode.receive_ord).trans hkey
  have hmem : ∀ b, b ∈ upsert TcNode.key tcm.ord.key (TcNode.new tcm.ord) (TcNode.receive k c i tcm) s.queue ↔
      b = (s.node tcm.ord).receive k c i tcm ∨ b ∈ s.queue ∧ b.key ≠ tcm.ord.key := fun b => mem_upsert h.keyed
  have hsound : (s.node tcm.ord).Sound k c := by
    rcases entry_mem_or TcNode.key tcm.ord.key (TcNode.new tcm.ord) s.queue with hold | ⟨-, hnew⟩
    · exact h.sound _ (List.mem_append_right _ hold)
    · exact (congrArg (TcNode.Sound k c) hnew).mpr (TcNode.sound_new tcm.ord)
  constructor
  · intro hc
    refine ⟨fun n hn hdone hos hnot => ?_, fun _ hos hnot hdone hi => ?_⟩
    · rcases List.mem_append.mp hn with hn | hn
      · exact hc n (List.mem_append_left _ hn) hdone hos hnot
      · by_cases hk : n.key = tcm.ord.key
        · have hnode : s.node tcm.ord = n := entry_eq h.keyed hn hk
          refine hc n (List.mem_append_right _ ((hmem n).mpr (.inl ?_))) hdone hos hnot
          rw [hnode, TcNode.receive_of_done hdone]
        · exact hc n (List.mem_append_right _ ((hmem n).mpr (.inr ⟨hn, hk⟩))) hdone hos hnot
    · refine (combined_receive hsound hdone hi).mp fun hd => ?_
      exact hc _ (List.mem_append_right _ ((hmem _).mpr (.inl rfl))) hd (hfkey ▸ hos) (hfkey ▸ hnot)
  · rintro ⟨hc, hstep⟩ n hn hdone hos hnot
    rcases List.mem_append.mp hn with hn | hn
    · exact hc n (List.mem_append_left _ hn) hdone hos hnot
    · rcases (hmem n).mp hn with rfl | ⟨hn, -⟩
      swap
      · exact hc n (List.mem_append_right _ hn) hdone hos hnot
      rw [hfkey] at hos hnot
      by_cases hwait : (s.node tcm.ord).done = false ∧ (s.node tcm.ord).recvd i = false
      · exact (combined_receive hsound hwait.1 hwait.2).mpr (hstep hlt hos hnot hwait.1 hwait.2) hdone
      · have hsame : (s.node tcm.ord).receive k c i tcm = s.node tcm.ord := by
          refine if_pos ?_
          by_contra hno
          rw [not_or, Bool.not_eq_true, Bool.not_eq_true] at hno
          exact hwait hno
        rw [hsame] at hdone ⊢
        rcases entry_mem_or TcNode.key tcm.ord.key (TcNode.new tcm.ord) s.queue with hold | ⟨-, hnew⟩
        · exact hc _ (List.mem_append_right _ hold) hdone (hkey ▸ hos) (hkey ▸ hnot)
        · rw [Tcq.node, hnew] at hdone
          cases hdone

theorem combined_skip {o : Ordinal} (h : s.Inv k c applied os skipped) (ho : skipped o.key) :
    Combined os skipped (step k c s (.skip o)) ↔ Combined os skipped s := by
  show Combined os skipped (insertTcId s o (TcNode.pass c)) ↔ _
  rw [insertTcId_eq]
  split_ifs
  swap
  · rfl
  have hnode : (s.node o).key = o.key := key_entry rfl
  have hkey : ((s.node o).pass c).key = o.key := (congrArg Ordinal.key TcNode.pass_ord).trans hnode
  have hmem : ∀ b, b ∈ upsert TcNode.key o.key (TcNode.new o) (TcNode.pass c) s.queue ↔
      b = (s.node o).pass c ∨ b ∈ s.queue ∧ b.key ≠ o.key := fun b => mem_upsert h.keyed
  constructor
  · intro hc n hn hdone hos hnot
    rcases List.mem_append.mp hn with hn | hn
    · exact hc n (List.mem_append_left _ hn) hdone hos hnot
    · have hk : n.key ≠ o.key := fun hk => hnot (hk ▸ ho)
      exact hc n (List.mem_append_right _ ((hmem n).mpr (.inr ⟨hn, hk⟩))) hdone hos hnot
  · intro hc n hn hdone hos hnot
    rcases List.mem_append.mp hn with hn | hn
    · exact hc n (List.mem_append_left _ hn) hdone hos hnot
    · rcases (hmem n).mp hn with rfl | ⟨hn, -⟩
      · exact absurd (hkey ▸ ho) hnot
      · exact hc n (List.mem_append_right _ hn) hdone hos hnot

theorem combined_deliver : Combined os skipped (deliverHead c s) ↔ Combined os skipped s := by
  unfold deliverHead
  split
  · rfl
  rename_i n ns hq
  split_ifs
  · simp only [Combined, hq, List.append_assoc, List.singleton_append]
  · rfl

theorem combined_step (x : Input P S) (hx : FromPrime c os skipped x) (h : s.Inv k c applied os skipped) :
    Combined os skipped (step k c s x) ↔ Combined os skipped s ∧ StepCombines k c os skipped s x := by
  cases x with
  | share i tcm => exact combined_share h
  | skip o => exact (combined_skip h hx.2).trans ⟨fun hc => ⟨hc, trivial⟩, And.left⟩
  | deliver => exact combined_deliver.trans ⟨fun hc => ⟨hc, trivial⟩, And.left⟩

/-! ## Every ordinal -/

/-- The ordinal has left the queue, and with a message that verifies unless the replica
passed over it. -/
def Delivered (k : Crypto P S G) (skipped : Nat ×ₗ Nat → Prop) (s : Tcq P S) (o : Ordinal) : Prop :=
  ∃ n ∈ s.removed, n.key = o.key ∧ (¬skipped o.key → n.skip = false ∧ ∃ t, n.tcf = some t ∧ t.Verifies k)

theorem delivered_iff (h : s.Inv k c applied os skipped) (hall : ∀ o ∈ os, Released s o) :
    (∀ o ∈ os, Delivered k skipped s o) ↔ Combined os skipped s := by
  constructor
  · rintro hdel n hn hdone ⟨o, ho, hon⟩ hnot
    obtain ⟨m, hm, hmo, hsigned⟩ := hdel o ho
    have heq : n = m := by
      rcases List.mem_append.mp hn with hn | hn
      · exact h.sorted.unique hn hm (hon.symm.trans hmo.symm)
      · exact absurd (hon.symm ▸ h.above n hn) ((hmo ▸ h.below m hm).not_gt)
    exact heq ▸ (hsigned (hon ▸ hnot)).1
  · intro hc o ho
    obtain ⟨n, hn, hno⟩ := hall o ho
    have hn' := List.mem_append_left s.queue hn
    refine ⟨n, hn, hno, fun hnot => ?_⟩
    have hskip := hc n hn' (h.ready n hn) ⟨o, ho, hno.symm⟩ (hno ▸ hnot)
    exact ⟨hskip, (h.sound n hn').signed (h.ready n hn) hskip⟩

/-- **Delivery.** Every message that leaves the queue of a replica verifies. When nothing is
left to do, all ordinals the correct replicas have inserted have left it exactly if every
step was in order, and all with their messages exactly if besides every entry found shares
to combine. -/
theorem delivery_iff (k : Crypto P S G) (c : Site) (applied : Ordinal) (os : List Ordinal)
    (skipped : Nat ×ₗ Nat → Prop) (payload : Ordinal → P) (faulty : Finset Nat) (xs : List (Input P S))
    (hadm : Admissible c applied os skipped payload faulty xs)
    (hidle : (xs.foldl (step k c) (Tcq.start applied)).Idle c) :
    (∀ n ∈ (xs.foldl (step k c) (Tcq.start applied)).removed, n.skip = false →
      ∃ t, n.tcf = some t ∧ t.Verifies k) ∧
    ((∀ o ∈ os, Released (xs.foldl (step k c) (Tcq.start applied)) o) ↔
      Steps (step k c) (StepInOrder c os) (Tcq.start applied) xs) ∧
    ((∀ o ∈ os, Delivered k skipped (xs.foldl (step k c) (Tcq.start applied)) o) ↔
      Steps (step k c) (fun s x => StepInOrder c os s x ∧ StepCombines k c os skipped s x)
        (Tcq.start applied) xs) := by
  have hkeep := fun (s : Tcq P S) x hx (h : s.Inv k c applied os skipped) => h.step x hx
  have hinv : (xs.foldl (step k c) (Tcq.start applied)).Inv k c applied os skipped :=
    foldl_inv_of hkeep hadm.own Tcq.inv_start
  have hrec : ∀ x ∈ xs, Recorded c (xs.foldl (step k c) (Tcq.start applied)) x :=
    foldl_leaves (I := fun s => s.Inv k c applied os skipped) (B := fun x s => Recorded c s x)
      (fun _ x _ h => recorded_step h x) (fun _ x y _ h hs => Recorded.step h x y hs) hkeep hadm.own Tcq.inv_start
  have hreleased : (∀ o ∈ os, Released (xs.foldl (step k c) (Tcq.start applied)) o) ↔
      InOrder os (xs.foldl (step k c) (Tcq.start applied)) :=
    ⟨inOrder_of_released hinv hadm.next, fun hio => released_of_inOrder hinv hio hadm hrec hidle⟩
  have hstart : InOrder os (Tcq.start applied : Tcq P S) :=
    ⟨fun n hn => (by cases hn), fun n hn => (by cases hn)⟩
  have hcombined : Combined os skipped (Tcq.start applied : Tcq P S) := fun n hn => by cases hn
  refine ⟨fun n hn => (hinv.sound n (List.mem_append_left _ hn)).signed (hinv.ready n hn), ?_, ?_⟩
  · rw [hreleased, foldl_iff_steps (fun _ x _ h => inOrder_step x h) hkeep hadm.own Tcq.inv_start,
      and_iff_right hstart]
  · have hboth := foldl_iff_steps (f := step k c)
      (Q := fun s : Tcq P S => InOrder os s ∧ Combined os skipped s)
      (K := fun s x => StepInOrder c os s x ∧ StepCombines k c os skipped s x)
      (fun s x hx h => by
        rw [inOrder_step x h, combined_step x hx h]
        exact and_and_and_comm) hkeep hadm.own Tcq.inv_start
    have hdelivered : (∀ o ∈ os, Delivered k skipped (xs.foldl (step k c) (Tcq.start applied)) o) ↔
        InOrder os (xs.foldl (step k c) (Tcq.start applied)) ∧
          Combined os skipped (xs.foldl (step k c) (Tcq.start applied)) := by
      constructor
      · intro hdel
        have hall : ∀ o ∈ os, Released (xs.foldl (step k c) (Tcq.start applied)) o :=
          fun o ho => (hdel o ho).imp fun n hn => ⟨hn.1, hn.2.1⟩
        exact ⟨hreleased.mp hall, (delivered_iff hinv hall).mp hdel⟩
      · rintro ⟨hio, hc⟩
        exact (delivered_iff hinv (hreleased.mpr hio)).mpr hc
    rw [hdelivered, hboth]
    exact and_iff_right ⟨hstart, hcombined⟩

end Queue

/-! ## Runs -/

section Runs

/-- Two sites of which one may be faulty; the replica is the first. -/
def sites : Site := { numF := 1, numSm := 6, myId := 1 }

/-- Threshold cryptography where a share of a message is its digest. -/
def plain : Crypto Nat Nat Nat where
  makeDigest _ p := p
  combineShares shares d := if shares.all (fun s => s.2 = d) then d else d + 1
  verifySignature sig d := sig = d

/-- The share of a replica for the first ordinal, and what the correct ones send for it. -/
def firstOrd : Ordinal := ⟨1, 1, 1⟩

def goodShare (i : Nat) : Input Nat Nat := .share i ⟨firstOrd, 7, 7⟩

/-- The replica and another one, both correct. -/
def goodRun : List (Input Nat Nat) := [goodShare 1, goodShare 2, .deliver]

/-- A faulty replica sends a share for an ordinal before the first. -/
def blockedRun : List (Input Nat Nat) := [.share 4 ⟨⟨0, 1, 1⟩, 0, 0⟩, goodShare 1, goodShare 2, .deliver]

theorem admissible_of_good {xs : List (Input Nat Nat)} (hown : goodShare 1 ∈ xs) (hother : goodShare 2 ∈ xs)
    (hall : ∀ x ∈ xs, x = goodShare 1 ∨ x = goodShare 2 ∨ x = .deliver ∨ ∃ tcm, x = .share 4 tcm) :
    Admissible sites ⟨0, 0, 0⟩ [firstOrd] (fun _ => False) (fun _ => 7) {4} xs where
  next := by decide
  own x hx := by
    rcases hall x hx with rfl | rfl | rfl | ⟨tcm, rfl⟩
    · exact fun _ => ⟨.inl (by simp), id⟩
    · exact fun h => by cases h
    · trivial
    · exact fun h => by cases h
  faulty_card := le_of_eq (Finset.card_singleton 4)
  correct := by decide
  others i tcm hi hx := by
    rcases hall _ hx with h | h | h | ⟨tcm', h⟩
    · cases h
      exact .inr ⟨by simp, rfl⟩
    · cases h
      exact .inr ⟨by simp, rfl⟩
    · cases h
    · cases h
      exact absurd (Finset.mem_singleton_self 4) hi
  complete o ho := by
    rw [List.mem_singleton.mp ho]
    refine .inr ⟨id, ⟨_, hown, rfl, rfl⟩, {2}, le_of_eq (Finset.card_singleton 2).symm, by decide, by decide, ?_⟩
    intro i hi
    rw [Finset.mem_singleton.mp hi]
    exact ⟨_, hother, rfl, rfl⟩

theorem goodRun_admissible :
    Admissible sites ⟨0, 0, 0⟩ [firstOrd] (fun _ => False) (fun _ => 7) {4} goodRun := by
  refine admissible_of_good (by simp [goodRun]) (by simp [goodRun]) fun x hx => ?_
  simp only [goodRun, List.mem_cons, List.not_mem_nil, or_false] at hx
  rcases hx with rfl | rfl | rfl
  · exact .inl rfl
  · exact .inr (.inl rfl)
  · exact .inr (.inr (.inl rfl))

/-- Two correct replicas deliver their ordinal. -/
theorem delivery_two_replicas :
    Admissible sites ⟨0, 0, 0⟩ [firstOrd] (fun _ => False) (fun _ => 7) {4} goodRun ∧
      (goodRun.foldl (step plain sites) (Tcq.start ⟨0, 0, 0⟩)).Idle sites ∧
      ((∀ o ∈ [firstOrd], Delivered plain (fun _ => False)
          (goodRun.foldl (step plain sites) (Tcq.start ⟨0, 0, 0⟩)) o) ↔
        Steps (step plain sites) (fun s x => StepInOrder sites [firstOrd] s x ∧
          StepCombines plain sites [firstOrd] (fun _ => False) s x) (Tcq.start ⟨0, 0, 0⟩) goodRun) ∧
      Delivered plain (fun _ => False) (goodRun.foldl (step plain sites) (Tcq.start ⟨0, 0, 0⟩)) firstOrd := by
  have hidle : (goodRun.foldl (step plain sites) (Tcq.start ⟨0, 0, 0⟩)).Idle sites := fun n hn => by cases hn
  refine ⟨goodRun_admissible, hidle, ?_, _, List.mem_singleton_self _, rfl, fun _ => ⟨rfl, _, rfl, rfl⟩⟩
  exact (delivery_iff plain sites ⟨0, 0, 0⟩ [firstOrd] (fun _ => False) (fun _ => 7) {4} goodRun
    goodRun_admissible hidle).2.2

/-- One share of a faulty replica for an ordinal that does not exist, and nothing is ever
delivered again. -/
theorem delivery_blocked :
    Admissible sites ⟨0, 0, 0⟩ [firstOrd] (fun _ => False) (fun _ => 7) {4} blockedRun ∧
      (blockedRun.foldl (step plain sites) (Tcq.start ⟨0, 0, 0⟩)).Idle sites ∧
      ¬Released (blockedRun.foldl (step plain sites) (Tcq.start ⟨0, 0, 0⟩)) firstOrd := by
  refine ⟨?_, fun n hn => ?_, ?_⟩
  · refine admissible_of_good (by simp [blockedRun]) (by simp [blockedRun]) fun x hx => ?_
    simp only [blockedRun, List.mem_cons, List.not_mem_nil, or_false] at hx
    rcases hx with rfl | rfl | rfl | rfl
    · exact .inr (.inr (.inr ⟨_, rfl⟩))
    · exact .inl rfl
    · exact .inr (.inl rfl)
    · exact .inr (.inr (.inl rfl))
  · cases hn
    exact fun hready => by cases hready.1
  · rintro ⟨n, hn, -⟩
    cases hn

end Runs

end Spire.Itrc
