import Mathlib.Data.Prod.Lex
import Mathlib.Logic.Function.Basic
import Spire.Lib.KeyedList

/-!
# The queue of threshold shares

`itrc.c`, `ITRC_Insert_TC_ID` and `ITRC_TC_Ready_Deliver`, and `PKT_Construct_TC_Final_Msg`
of `scada_packets.c`. A control-center replica keeps one entry for each ordinal, in the
order of the ordinals, and puts the shares of the replicas into it. With `REQ_SHARES`
shares, its own among them, it combines them, once. The entry at the head leaves the queue
when it is done and follows the ordinal applied last.

Ordinals are compared without their event total, but whether one follows another depends
on the total. Threshold cryptography is a parameter.
-/

namespace Spire.Itrc

/-! ## Ordinals -/

/-- `ordinal`. -/
structure Ordinal where
  ordNum : Nat
  eventIdx : Nat
  eventTot : Nat
deriving DecidableEq, Repr

/-- `memset` to zero. -/
def zeroOrd : Ordinal := ⟨0, 0, 0⟩

/-- `ITRC_Ord_Compare`. -/
def ordCompare (o1 o2 : Ordinal) : Int :=
  if o1.ordNum < o2.ordNum then -1
  else if o2.ordNum < o1.ordNum then 1
  else if o1.eventIdx < o2.eventIdx then -1
  else if o2.eventIdx < o1.eventIdx then 1
  else 0

/-- `ITRC_Ord_Consec`: `o2` is exactly one greater than `o1`. -/
def OrdConsec (o1 o2 : Ordinal) : Prop :=
  (o1.ordNum = o2.ordNum ∧ o2.eventIdx = o1.eventIdx + 1) ∨
    (o2.ordNum = o1.ordNum + 1 ∧ o1.eventIdx = o1.eventTot ∧ o2.eventIdx = 1)

instance (o1 o2 : Ordinal) : Decidable (OrdConsec o1 o2) := by
  unfold OrdConsec
  infer_instance

/-- What ordinals are compared by. -/
def Ordinal.key (o : Ordinal) : Nat ×ₗ Nat := toLex (o.ordNum, o.eventIdx)

/-! ## Shares -/

/-- `tc_share_msg`. -/
structure TcShare (P S : Type) where
  ord : Ordinal
  payload : P
  partialSig : S

/-- `tc_final_msg`. -/
structure TcFinal (P S : Type) where
  ord : Ordinal
  payload : P
  threshSig : S

/-- `OPENSSL_RSA_Make_Digest` of an ordinal and a payload, and the library for threshold
signatures: `TC_Combine_Shares` of the shares added before, and `TC_Verify_Signature`. -/
structure Crypto (P S G : Type) where
  makeDigest : Ordinal → P → G
  combineShares : List (Nat × S) → G → S
  verifySignature : S → G → Bool

/-- `NUM_F`, `NUM_SM` and `My_ID`. -/
structure Site where
  numF : Nat
  numSm : Nat
  myId : Nat

/-- `REQ_SHARES`. -/
def Site.reqShares (c : Site) : Nat := c.numF + 1

/-- `tc_node`. -/
structure TcNode (P S : Type) where
  ord : Ordinal
  done : Bool
  count : Nat
  recvd : Nat → Bool
  shares : Nat → Option (TcShare P S)
  tcf : Option (TcFinal P S)
  skip : Bool

variable {P S G : Type}

/-- A node as it is allocated. -/
def TcNode.new (o : Ordinal) : TcNode P S :=
  { ord := o, done := false, count := 0, recvd := fun _ => false, shares := fun _ => none, tcf := none, skip := false }

def TcNode.key (n : TcNode P S) : Nat ×ₗ Nat := n.ord.key

/-- The queue `tcq_pending` with `applied_ord`. `removed` are the nodes that have left the
queue, the last one at the end. -/
structure Tcq (P S : Type) where
  appliedOrd : Ordinal
  queue : List (TcNode P S)
  removed : List (TcNode P S)

/-! ## The code -/

section Code

variable (k : Crypto P S G) (c : Site)

/-- The shares of a node that match an ordinal, with the replicas they are from. -/
def TcNode.matching (n : TcNode P S) (o : Ordinal) : List (Nat × TcShare P S) :=
  (List.range' 1 c.numSm).filterMap fun i =>
    if n.recvd i then ((n.shares i).filter fun tc => tc.ord = o).map fun tc => (i, tc) else none

/-- `PKT_Construct_TC_Final_Msg`. -/
def constructTcFinal (o : Ordinal) (n : TcNode P S) : Option (TcFinal P S) :=
  if n.count < c.reqShares then none
  else
    let shares := n.matching c o
    match shares with
    | [] => none
    | (_, first) :: _ =>
      if shares.length < c.reqShares then none
      else
        let digest := k.makeDigest o first.payload
        let sig := k.combineShares (shares.map fun s => (s.1, s.2.partialSig)) digest
        if k.verifySignature sig digest then some { ord := o, payload := first.payload, threshSig := sig }
        else none

/-- A node that has counted a replica. -/
def TcNode.mark (n : TcNode P S) (sender : Nat) : TcNode P S :=
  { n with recvd := Function.update n.recvd sender true, count := n.count + 1 }

/-- A node that has stored a share. -/
def TcNode.store (n : TcNode P S) (sender : Nat) (tcm : TcShare P S) : TcNode P S :=
  { n.mark sender with shares := Function.update n.shares sender (some tcm) }

/-- With enough shares, the replica's own among them, the shares are combined. -/
def TcNode.combine (n : TcNode P S) (o : Ordinal) : TcNode P S :=
  if c.reqShares ≤ n.count ∧ n.recvd c.myId then
    match constructTcFinal k c o n with
    | some t => { n with tcf := some t, done := true }
    | none => { n with skip := true, done := true }
  else n

/-- What `ITRC_Insert_TC_ID` does to the node of a share, with the flag `NORMAL_ORD`. -/
def TcNode.receive (sender : Nat) (tcm : TcShare P S) (n : TcNode P S) : TcNode P S :=
  if n.done ∨ n.recvd sender then n else (n.store sender tcm).combine k c tcm.ord

/-- The same with the flag `SKIP_ORD`. -/
def TcNode.pass (n : TcNode P S) : TcNode P S :=
  if n.done ∨ n.recvd c.myId then n else { n.mark c.myId with done := true, skip := true }

/-- The walk of `ITRC_Insert_TC_ID` to the node of an ordinal, which is created where there
is none. That the walk starts at the tail where the ordinal is behind it changes nothing. -/
def place (o : Ordinal) (f : TcNode P S → TcNode P S) : List (TcNode P S) → List (TcNode P S)
  | [] => [f (TcNode.new o)]
  | n :: ns =>
    if 0 < ordCompare o n.ord then n :: place o f ns
    else if ordCompare o n.ord = 0 then f n :: ns
    else f (TcNode.new o) :: n :: ns

/-- `ITRC_Insert_TC_ID`, but for what it does to the node. -/
def insertTcId (s : Tcq P S) (o : Ordinal) (f : TcNode P S → TcNode P S) : Tcq P S :=
  if ordCompare o s.appliedOrd ≤ 0 then s else { s with queue := place o f s.queue }

/-- The condition of the loop in `ITRC_TC_Ready_Deliver`. -/
def Ready (applied : Ordinal) (n : TcNode P S) : Prop :=
  n.done ∧ n.recvd c.myId ∧ OrdConsec applied n.ord

instance (applied : Ordinal) (n : TcNode P S) : Decidable (Ready c applied n) := by
  unfold Ready
  infer_instance

/-- One round of the loop: the node at the head leaves the queue. -/
def deliverHead (s : Tcq P S) : Tcq P S :=
  match s.queue with
  | [] => s
  | n :: ns =>
    if Ready c s.appliedOrd n then { appliedOrd := n.ord, queue := ns, removed := s.removed ++ [n] } else s

/-- `ITRC_TC_Ready_Deliver`: nodes leave the queue until there is one that is not skipped,
and its message is the one to deliver. -/
def readyDeliver (applied : Ordinal) (removed : List (TcNode P S)) :
    List (TcNode P S) → Option (TcFinal P S) × Tcq P S
  | [] => (none, ⟨applied, [], removed⟩)
  | n :: ns =>
    if Ready c applied n then
      if n.skip = false then (n.tcf, ⟨n.ord, ns, removed ++ [n]⟩)
      else readyDeliver n.ord (removed ++ [n]) ns
    else (none, ⟨applied, n :: ns, removed⟩)

/-- What can happen to the queue: a share comes in, the replica itself passes over an
ordinal, or a node is delivered. -/
inductive Input (P S : Type)
  | share (sender : Nat) (tcm : TcShare P S)
  | skip (o : Ordinal)
  | deliver

/-- One step. -/
def step (s : Tcq P S) : Input P S → Tcq P S
  | .share sender tcm => insertTcId s tcm.ord (TcNode.receive k c sender tcm)
  | .skip o => insertTcId s o (TcNode.pass c)
  | .deliver => deliverHead c s

/-- The queue after `ITRC_Reset_Master_Data_Structures` or a state transfer. -/
def Tcq.start (applied : Ordinal) : Tcq P S := { appliedOrd := applied, queue := [], removed := [] }

/-- `ITRC_TC_Ready_Deliver` has nothing to do. -/
def Tcq.Idle (s : Tcq P S) : Prop := ∀ n ∈ s.queue.head?, ¬Ready c s.appliedOrd n

end Code

/-! ## Ordinals in order -/

theorem Ordinal.key_lt_key {o1 o2 : Ordinal} :
    o1.key < o2.key ↔ o1.ordNum < o2.ordNum ∨ o1.ordNum = o2.ordNum ∧ o1.eventIdx < o2.eventIdx := by
  simp [Ordinal.key, Prod.Lex.toLex_lt_toLex]

theorem Ordinal.key_inj {o1 o2 : Ordinal} :
    o1.key = o2.key ↔ o1.ordNum = o2.ordNum ∧ o1.eventIdx = o2.eventIdx := by
  simp [Ordinal.key]

/-- `ITRC_Ord_Compare` compares by the key. -/
theorem ordCompare_pos {o1 o2 : Ordinal} : 0 < ordCompare o1 o2 ↔ o2.key < o1.key := by
  rw [Ordinal.key_lt_key]
  unfold ordCompare
  split_ifs <;> simp <;> omega

theorem ordCompare_eq_zero {o1 o2 : Ordinal} : ordCompare o1 o2 = 0 ↔ o2.key = o1.key := by
  rw [Ordinal.key_inj]
  unfold ordCompare
  split_ifs <;> simp <;> omega

theorem OrdConsec.key_lt {o1 o2 : Ordinal} (h : OrdConsec o1 o2) : o1.key < o2.key := by
  rw [Ordinal.key_lt_key]
  rcases h with ⟨hnum, hidx⟩ | ⟨hnum, -, -⟩ <;> omega

/-- The total of the second ordinal does not matter, and that of the first only where the
second opens the next number. -/
theorem OrdConsec.congr {o1 o2 p1 p2 : Ordinal} (h : OrdConsec o1 o2) (h1 : p1.key = o1.key)
    (h2 : p2.key = o2.key) (htot : o1.ordNum ≠ o2.ordNum → p1.eventTot = o1.eventTot) : OrdConsec p1 p2 := by
  obtain ⟨hn1, hi1⟩ := Ordinal.key_inj.mp h1
  obtain ⟨hn2, hi2⟩ := Ordinal.key_inj.mp h2
  rcases h with ⟨hnum, hidx⟩ | ⟨hnum, hlast, hidx⟩
  · exact .inl (by omega)
  · have := htot (by omega)
    exact .inr (by omega)

/-! ## The code in the terms of keyed lists -/

section Keyed

variable {k : Crypto P S G} {c : Site} {n : TcNode P S} {sender : Nat} {tcm : TcShare P S} {o : Ordinal}

theorem place_eq_upsert (o : Ordinal) (f : TcNode P S → TcNode P S) (l : List (TcNode P S)) :
    place o f l = Lib.upsert TcNode.key o.key (TcNode.new o) f l := by
  induction l with
  | nil => rfl
  | cons n ns ih =>
    simp only [place, Lib.upsert, ih, ordCompare_pos, ordCompare_eq_zero, TcNode.key]
    congr

theorem insertTcId_eq (s : Tcq P S) (o : Ordinal) (f : TcNode P S → TcNode P S) :
    insertTcId s o f =
      if s.appliedOrd.key < o.key then
        { s with queue := Lib.upsert TcNode.key o.key (TcNode.new o) f s.queue }
      else s := by
  unfold insertTcId
  rw [place_eq_upsert]
  by_cases h : s.appliedOrd.key < o.key
  · rw [if_pos h, if_neg (not_le.mpr (ordCompare_pos.mpr h))]
  · rw [if_neg h, if_pos (not_lt.mp (mt ordCompare_pos.mp h))]

/-- Every call of `ITRC_TC_Ready_Deliver` is a number of rounds. -/
theorem readyDeliver_eq_rounds (c : Site) (s : Tcq P S) :
    ∃ m, (readyDeliver c s.appliedOrd s.removed s.queue).2 = (deliverHead c)^[m] s := by
  obtain ⟨applied, queue, removed⟩ := s
  induction queue generalizing applied removed with
  | nil => exact ⟨0, rfl⟩
  | cons n ns ih =>
    unfold readyDeliver
    dsimp only
    split_ifs with hready hskip
    · exact ⟨1, by simp [deliverHead, hready]⟩
    · obtain ⟨m, hm⟩ := ih n.ord (removed ++ [n])
      exact ⟨m + 1, by simpa [deliverHead, hready] using hm⟩
    · exact ⟨0, rfl⟩

/-- Where it returns nothing, there is nothing left to do, unless a message is missing. -/
theorem idle_of_readyDeliver (c : Site) (s : Tcq P S) (hmsg : ∀ n ∈ s.queue, n.done → n.skip = false → n.tcf.isSome)
    (h : (readyDeliver c s.appliedOrd s.removed s.queue).1 = none) :
    (readyDeliver c s.appliedOrd s.removed s.queue).2.Idle c := by
  obtain ⟨applied, queue, removed⟩ := s
  induction queue generalizing applied removed with
  | nil => exact fun n hn => by cases hn
  | cons n ns ih =>
    unfold readyDeliver at h ⊢
    dsimp only at h ⊢ hmsg
    split_ifs at h ⊢ with hready hskip
    · have htcf : n.tcf = none := h
      have := hmsg n List.mem_cons_self hready.1 hskip
      rw [htcf] at this
      cases this
    · exact ih _ _ (fun m hm => hmsg m (List.mem_cons_of_mem _ hm)) h
    · rintro m hm
      cases hm
      exact hready

@[simp] theorem TcNode.key_new : (TcNode.new o : TcNode P S).key = o.key := rfl

@[simp] theorem TcNode.combine_ord : (n.combine k c o).ord = n.ord := by
  unfold TcNode.combine
  split_ifs
  · split <;> rfl
  · rfl

@[simp] theorem TcNode.receive_ord : (n.receive k c sender tcm).ord = n.ord := by
  unfold TcNode.receive
  split_ifs
  · rfl
  · exact TcNode.combine_ord

@[simp] theorem TcNode.pass_ord : (n.pass c).ord = n.ord := by
  unfold TcNode.pass
  split_ifs <;> rfl

end Keyed

end Spire.Itrc
