import Mathlib.Data.List.Sort
import Spire.Packets

/-!
# Pre-ordering: what a proof matrix makes eligible

`pre_order.c`: `PRE_ORDER_Seq_Compare` and `PRE_ORDER_Proof_ARU`. A proof matrix
holds one cumulative acknowledgement row for each server. For a server `s`, the
column of `s` lists how far each row acknowledges `s`; the source sorts the
column, looks for an incarnation that `2f + k + 1` entries share, and answers the
`2f + k + 1`-th entry from the top of that block.

`proofAru_spec` says what the answer is: the largest sequence number that a
quorum of rows reaches within one incarnation, or zero when there is none. The
rows themselves are not examined here; whether they are what their signers sent
is the subject of `Spire.Eligibility`.
-/

namespace Spire.PreOrder

/-- `PRE_ORDER_Seq_Compare`. -/
def seqCompare (p1 p2 : PoSeqPair) : Int :=
  if p1.incarnation < p2.incarnation then -1
  else if p1.incarnation > p2.incarnation then 1
  else if p1.seqNum < p2.seqNum then -1
  else if p1.seqNum > p2.seqNum then 1
  else 0

theorem seqCompare_eq_zero {p1 p2 : PoSeqPair} : seqCompare p1 p2 = 0 ↔ p1 = p2 := by
  cases p1
  cases p2
  simp only [seqCompare, PoSeqPair.mk.injEq]
  constructor
  · intro h
    split_ifs at h <;> omega
  · rintro ⟨rfl, rfl⟩
    simp

/-- The order `poseqcmp` hands to `qsort`. -/
def SeqLe (p1 p2 : PoSeqPair) : Prop := seqCompare p1 p2 ≤ 0

instance : DecidableRel SeqLe := fun p1 p2 => inferInstanceAs (Decidable (seqCompare p1 p2 ≤ 0))

theorem seqLe_iff {p1 p2 : PoSeqPair} :
    SeqLe p1 p2 ↔ p1.incarnation < p2.incarnation ∨
      (p1.incarnation = p2.incarnation ∧ p1.seqNum ≤ p2.seqNum) := by
  unfold SeqLe seqCompare
  split_ifs <;> omega

theorem seqLe_refl (p : PoSeqPair) : SeqLe p p := seqLe_iff.mpr (.inr ⟨rfl, le_refl _⟩)

instance : Std.Total SeqLe := ⟨fun a b => by
  rw [seqLe_iff, seqLe_iff]
  omega⟩

instance : IsTrans PoSeqPair SeqLe := ⟨fun a b d hab hbd => by
  rw [seqLe_iff] at *
  omega⟩

/-! ## The rank computation -/

/-- The column of `server`: what each of the `NUM_SERVERS` rows acknowledges. -/
def column (c : Config) (server : Nat) (proof : List PoAruSigned) : List PoSeqPair :=
  (List.range c.numServers).map fun s =>
    ((proof.getD s (PoAruSigned.null c)).body.ackForServer.getD (server - 1) PoSeqPair.zero)

/-- The march over the sorted column. `incarn` is the incarnation of the current
block and `count` its length so far; the answer is the source's `right` endmark,
present once a block has reached the quorum. -/
def march (quorumSize : Nat) : List PoSeqPair → Nat → Nat → Bool → Nat → Option Nat
  | [], _, _, quorum, curr => if quorum then some (curr - 1) else none
  | p :: ps, incarn, count, quorum, curr =>
    if p.incarnation = incarn then
      march quorumSize ps incarn (count + 1) (quorum || decide (quorumSize ≤ count + 1)) (curr + 1)
    else if quorum then
      some (curr - 1)
    else
      march quorumSize ps p.incarnation 1 quorum (curr + 1)

/-- The march over a whole sorted column, from the source's initial values. -/
def endmark (quorumSize : Nat) (cack : List PoSeqPair) : Option Nat :=
  march quorumSize cack (cack.headD PoSeqPair.zero).incarnation 0 false 1

/-- `PRE_ORDER_Proof_ARU`. The source indexes `cack` from one. -/
def proofAru (c : Config) (server : Nat) (proof : List PoAruSigned) : PoSeqPair :=
  let cack := (column c server proof).insertionSort SeqLe
  match endmark c.quorum cack with
  | some right => cack.getD (right - (2 * c.F + c.K) - 1) PoSeqPair.zero
  | none => PoSeqPair.zero

/-- The rows whose entry for `server` lies in incarnation `inc` at `seq` or later. -/
def reaches (inc seq : Nat) (p : PoSeqPair) : Bool :=
  decide (p.incarnation = inc ∧ seq ≤ p.seqNum)

/-! ## The block the march stops at -/

/-- What the march has seen so far: the current block ends the consumed part. -/
private structure Consumed (quorumSize incarn count : Nat) (quorum : Bool) (curr : Nat)
    (pre blk : List PoSeqPair) : Prop where
  curr_eq : curr = pre.length + blk.length + 1
  count_eq : count = blk.length
  block : ∀ x ∈ blk, x.incarnation = incarn
  quorum_le : quorum = true → quorumSize ≤ count

/-- The endmark closes a block of one incarnation that is at least a quorum long
and that no entry of the same incarnation follows directly. -/
private theorem march_sound {quorumSize : Nat} {ps : List PoSeqPair} {incarn count curr right : Nat}
    {quorum : Bool} {pre blk : List PoSeqPair} (h : Consumed quorumSize incarn count quorum curr pre blk)
    (hm : march quorumSize ps incarn count quorum curr = some right) :
    ∃ pre' blk' post inc, pre ++ blk ++ ps = pre' ++ blk' ++ post ∧ right = pre'.length + blk'.length ∧
      quorumSize ≤ blk'.length ∧ (∀ x ∈ blk', x.incarnation = inc) ∧
      (∀ x ∈ post.head?, x.incarnation ≠ inc) := by
  induction ps generalizing incarn count quorum curr pre blk with
  | nil =>
    rw [march] at hm
    split at hm
    · rename_i hq
      cases hm
      refine ⟨pre, blk, [], incarn, rfl, ?_, ?_, h.block, by simp⟩
      · rw [h.curr_eq]; omega
      · rw [← h.count_eq]; exact h.quorum_le hq
    · exact nomatch hm
  | cons p ps ih =>
    rw [march] at hm
    split at hm
    · rename_i hp
      have hnext : Consumed quorumSize incarn (count + 1) (quorum || decide (quorumSize ≤ count + 1))
          (curr + 1) pre (blk ++ [p]) := by
        refine ⟨?_, ?_, ?_, ?_⟩
        · rw [h.curr_eq, List.length_append, List.length_singleton]; omega
        · rw [h.count_eq, List.length_append, List.length_singleton]
        · intro x hx
          rcases List.mem_append.mp hx with hx | hx
          · exact h.block x hx
          · rw [List.mem_singleton.mp hx]; exact hp
        · intro hq
          rcases Bool.or_eq_true_iff.mp hq with hq | hq
          · have := h.quorum_le hq; omega
          · exact of_decide_eq_true hq
      obtain ⟨pre', blk', post, inc, hl, hrest⟩ := ih hnext hm
      refine ⟨pre', blk', post, inc, ?_, hrest⟩
      rw [← hl]
      simp only [List.append_assoc, List.singleton_append]
    · rename_i hp
      split at hm
      · rename_i hq
        cases hm
        refine ⟨pre, blk, p :: ps, incarn, rfl, ?_, ?_, h.block, ?_⟩
        · rw [h.curr_eq]; omega
        · rw [← h.count_eq]; exact h.quorum_le hq
        · intro x hx
          cases hx
          exact hp
      · rename_i hq
        have hnext : Consumed quorumSize p.incarnation 1 quorum (curr + 1) (pre ++ blk) [p] := by
          refine ⟨?_, rfl, ?_, fun h => absurd h hq⟩
          · rw [h.curr_eq, List.length_append, List.length_singleton]
          · intro x hx
            rw [List.mem_singleton.mp hx]
        obtain ⟨pre', blk', post, inc, hl, hrest⟩ := ih hnext hm
        refine ⟨pre', blk', post, inc, ?_, hrest⟩
        rw [← hl]
        simp only [List.append_assoc, List.singleton_append]

/-- When the march over a sorted column finds no block, no incarnation has a
quorum of entries. -/
private theorem march_none {quorumSize : Nat} (hq : 2 ≤ quorumSize) {ps : List PoSeqPair}
    {incarn count curr : Nat} {quorum : Bool} (hsorted : ps.Pairwise SeqLe)
    (hle : ∀ x ∈ ps, incarn ≤ x.incarnation) (hcount : quorum = false → count < quorumSize)
    (hm : march quorumSize ps incarn count quorum curr = none) (j : Nat) :
    ps.countP (fun x => x.incarnation = j) + (if j = incarn then count else 0) < quorumSize := by
  induction ps generalizing incarn count quorum curr with
  | nil =>
    rw [march] at hm
    split at hm
    · exact nomatch hm
    · rename_i hquorum
      have := hcount (Bool.eq_false_iff.mpr hquorum)
      simp only [List.countP_nil]
      split <;> omega
  | cons p ps ih =>
    obtain ⟨hp, hps⟩ := List.pairwise_cons.mp hsorted
    have hpinc : ∀ x ∈ ps, p.incarnation ≤ x.incarnation := by
      intro x hx
      have := seqLe_iff.mp (hp x hx)
      omega
    rw [march] at hm
    rw [List.countP_cons]
    split at hm
    · rename_i hinc
      have hrest := ih hps (fun x hx => hle x (List.mem_cons_of_mem _ hx))
        (fun h => by have := (Bool.or_eq_false_iff.mp h).2; simpa using this) hm
      by_cases hj : j = incarn
      · simp only [hinc, hj, decide_true, if_true] at hrest ⊢
        omega
      · have hpj : ¬ p.incarnation = j := by omega
        simp only [if_neg hj, hpj, decide_false, Bool.false_eq_true, if_false] at hrest ⊢
        omega
    · rename_i hinc
      split at hm
      · exact nomatch hm
      · rename_i hquorum
        have hlow := hle p (List.mem_cons_self ..)
        have hrest := ih hps hpinc (fun _ => hq) hm
        by_cases hj : j = incarn
        · -- the abandoned incarnation does not occur again
          have hnone : ps.countP (fun x => x.incarnation = j) = 0 := by
            rw [List.countP_eq_zero]
            intro x hx hxj
            have h1 := hpinc x hx
            have h2 := of_decide_eq_true hxj
            omega
          have hc := hcount (Bool.eq_false_iff.mpr hquorum)
          have hpj : ¬ p.incarnation = j := by omega
          simp only [hnone, hpj, decide_false, if_pos hj]
          simpa using hc
        · simp only [decide_eq_true_eq, if_neg hj, eq_comm (b := j)] at hrest ⊢
          omega

/-! ## The specification -/

/-- A sorted column in which the march finds a block, cut at the answer: the
answer, the `quorum - 1` entries of its block above it, and entries of later
incarnations only behind the block. -/
private theorem endmark_cut {quorumSize right : Nat} (hq : 0 < quorumSize) {cack : List PoSeqPair}
    (hsorted : cack.Pairwise SeqLe) (hm : endmark quorumSize cack = some right) :
    ∃ lo r hi post, cack = lo ++ r :: (hi ++ post) ∧
      cack.getD (right - (quorumSize - 1) - 1) PoSeqPair.zero = r ∧ hi.length + 1 = quorumSize ∧
      (∀ x ∈ hi, x.incarnation = r.incarnation) ∧ (∀ x ∈ post, r.incarnation < x.incarnation) := by
  have h0 : Consumed quorumSize (cack.headD PoSeqPair.zero).incarnation 0 false 1 [] [] :=
    ⟨rfl, rfl, by simp, by simp⟩
  obtain ⟨pre, blk, post, inc, hcack, hright, hlen, hblk, hpost⟩ := march_sound h0 hm
  simp only [List.nil_append] at hcack
  have hcut : blk.length - quorumSize < blk.length := by omega
  refine ⟨pre ++ blk.take (blk.length - quorumSize), blk[blk.length - quorumSize],
    blk.drop (blk.length - quorumSize + 1), post, ?_, ?_, ?_, ?_, ?_⟩
  · conv_lhs => rw [hcack, ← List.take_append_drop (blk.length - quorumSize) blk,
      List.drop_eq_getElem_cons hcut]
    simp only [List.append_assoc, List.cons_append]
  · have hidx : right - (quorumSize - 1) - 1 = pre.length + (blk.length - quorumSize) := by omega
    have hget : cack[pre.length + (blk.length - quorumSize)]? = blk[blk.length - quorumSize]? := by
      rw [hcack, List.append_assoc, List.getElem?_append_right (by omega), Nat.add_sub_cancel_left,
        List.getElem?_append_left hcut]
    rw [hidx, List.getD_eq_getElem?_getD, hget, List.getElem?_eq_getElem hcut, Option.getD_some]
  · rw [List.length_drop]
    omega
  · intro x hx
    rw [hblk x (List.mem_of_mem_drop hx), hblk _ (List.getElem_mem hcut)]
  · intro x hx
    rw [hblk _ (List.getElem_mem hcut)]
    cases post with
    | nil => exact nomatch hx
    | cons y ys =>
      have hy : y.incarnation ≠ inc := hpost y rfl
      rw [hcack] at hsorted
      obtain ⟨-, hys, hcross⟩ := List.pairwise_append.mp hsorted
      have hblky := hcross blk[blk.length - quorumSize]
        (List.mem_append_right _ (List.getElem_mem hcut)) y (List.mem_cons_self ..)
      rw [seqLe_iff, hblk _ (List.getElem_mem hcut)] at hblky
      rcases List.mem_cons.mp hx with rfl | hx
      · omega
      · have := seqLe_iff.mp ((List.pairwise_cons.mp hys).1 x hx)
        omega

theorem column_length (c : Config) (server : Nat) (proof : List PoAruSigned) :
    (column c server proof).length = c.numServers := by
  rw [column, List.length_map, List.length_range]

private theorem sorted_column (c : Config) (server : Nat) (proof : List PoAruSigned) :
    ((column c server proof).insertionSort SeqLe).Pairwise SeqLe :=
  List.pairwise_insertionSort SeqLe _

private theorem countP_sorted_column (c : Config) (server : Nat) (proof : List PoAruSigned)
    (p : PoSeqPair → Bool) :
    ((column c server proof).insertionSort SeqLe).countP p = (column c server proof).countP p :=
  (List.perm_insertionSort SeqLe _).countP_eq p

private theorem proofAru_of_endmark {c : Config} {server right : Nat} {proof : List PoAruSigned}
    {r : PoSeqPair} (hm : endmark c.quorum ((column c server proof).insertionSort SeqLe) = some right)
    (hget : ((column c server proof).insertionSort SeqLe).getD (right - (c.quorum - 1) - 1)
      PoSeqPair.zero = r) : proofAru c server proof = r := by
  unfold proofAru
  simp only [hm]
  exact hget

/-- **A non-zero answer is reached by a quorum of rows.** -/
theorem proofAru_reached {c : Config} {server : Nat} {proof : List PoAruSigned}
    (h : proofAru c server proof ≠ PoSeqPair.zero) :
    c.quorum ≤ (column c server proof).countP
      (reaches (proofAru c server proof).incarnation (proofAru c server proof).seqNum) := by
  have hq : 0 < c.quorum := Nat.succ_pos _
  cases hm : endmark c.quorum ((column c server proof).insertionSort SeqLe) with
  | none =>
    unfold proofAru at h
    simp only [hm, ne_eq, not_true_eq_false] at h
  | some right =>
    obtain ⟨lo, r, hi, post, hcack, hget, hlen, hinc, -⟩ :=
      endmark_cut hq (sorted_column c server proof) hm
    rw [proofAru_of_endmark hm hget, ← countP_sorted_column, hcack]
    have hsorted := sorted_column c server proof
    rw [hcack] at hsorted
    have habove := (List.pairwise_cons.mp (List.pairwise_append.mp hsorted).2.1).1
    have hall : ∀ x ∈ r :: hi, reaches r.incarnation r.seqNum x = true := by
      intro x hx
      rcases List.mem_cons.mp hx with rfl | hx
      · exact decide_eq_true ⟨rfl, le_refl _⟩
      · have hle := seqLe_iff.mp (habove x (List.mem_append_left _ hx))
        have := hinc x hx
        exact decide_eq_true ⟨this, by omega⟩
    have hcount := List.countP_eq_length.mpr hall
    rw [List.length_cons] at hcount
    rw [List.countP_append, ← List.cons_append, List.countP_append]
    omega

/-- **The answer is the largest a quorum of rows reaches.** -/
theorem proofAru_maximal {c : Config} {server : Nat} {proof : List PoAruSigned} {inc seq : Nat}
    (h : c.quorum ≤ (column c server proof).countP (reaches inc seq)) :
    (proofAru c server proof).incarnation = inc ∧ seq ≤ (proofAru c server proof).seqNum := by
  have hq : 0 < c.quorum := Nat.succ_pos _
  have hlen := column_length c server proof
  rw [← countP_sorted_column] at h
  have hslen : ((column c server proof).insertionSort SeqLe).length = c.numServers := by
    rw [List.length_insertionSort, hlen]
  have hsorted := sorted_column c server proof
  generalize hcack : (column c server proof).insertionSort SeqLe = cack at h hslen hsorted
  have hinc : c.quorum ≤ cack.countP (fun x => x.incarnation = inc) :=
    h.trans (List.countP_mono_left fun x _ hx => by
      simpa using (of_decide_eq_true hx).1)
  cases hm : endmark c.quorum cack with
  | none =>
    exfalso
    rcases Nat.lt_or_ge c.quorum 2 with hone | htwo
    · -- a single server: its only entry is a block
      have hsize : c.numServers = 1 := by
        unfold Config.quorum Config.numServers at *
        omega
      rw [hsize] at hslen
      obtain ⟨x, rfl⟩ := List.length_eq_one_iff.mp hslen
      have hqo : c.quorum = 1 := by omega
      simp [endmark, march, hqo] at hm
    · have hhead : ∀ x ∈ cack, (cack.headD PoSeqPair.zero).incarnation ≤ x.incarnation := by
        cases cack with
        | nil => simp
        | cons y ys =>
          intro x hx
          rcases List.mem_cons.mp hx with rfl | hx
          · exact le_refl _
          · have := seqLe_iff.mp ((List.pairwise_cons.mp hsorted).1 x hx)
            simp only [List.headD_cons]
            omega
      have := march_none htwo hsorted hhead (fun _ => by omega) hm inc
      omega
  | some right =>
    obtain ⟨lo, r, hi, post, hcut, hget, hhi, hrinc, hpost⟩ := endmark_cut hq hsorted hm
    rw [proofAru_of_endmark (hcack ▸ hm) (hcack ▸ hget)]
    rw [hcut] at hsorted
    obtain ⟨-, htail, hcross⟩ := List.pairwise_append.mp hsorted
    -- both blocks are quorums of one column, so they share an entry
    have hsame : r.incarnation = inc := by
      by_contra hne
      have hboth : cack.countP (fun x => x.incarnation = inc) +
          cack.countP (fun x => x.incarnation = r.incarnation) ≤ cack.length := by
        have hsplit := List.length_eq_countP_add_countP (fun x : PoSeqPair => decide (x.incarnation = inc)) (l := cack)
        have hmono : cack.countP (fun x => x.incarnation = r.incarnation) ≤
            cack.countP (fun x => decide ¬ decide (x.incarnation = inc) = true) :=
          List.countP_mono_left fun x _ hx => by
            have hx := of_decide_eq_true hx
            simp only [decide_eq_true_eq]
            omega
        omega
      have hblock : c.quorum ≤ cack.countP (fun x => x.incarnation = r.incarnation) := by
        have hall : ∀ x ∈ r :: hi, decide (x.incarnation = r.incarnation) = true := by
          intro x hx
          rcases List.mem_cons.mp hx with rfl | hx
          · exact decide_eq_true rfl
          · exact decide_eq_true (hrinc x hx)
        have hcount := List.countP_eq_length.mpr hall
        rw [List.length_cons] at hcount
        rw [hcut, List.countP_append, ← List.cons_append, List.countP_append]
        omega
      unfold Config.quorum Config.numServers at *
      omega
    refine ⟨hsame, ?_⟩
    by_contra hlt
    -- below `seq`, only the entries above the answer in its block can reach `seq`
    have hlo : lo.countP (reaches inc seq) = 0 := by
      rw [List.countP_eq_zero]
      intro x hx hr
      have hle := seqLe_iff.mp (hcross x hx r (List.mem_cons_self ..))
      have := of_decide_eq_true hr
      omega
    have hr : reaches inc seq r = false := decide_eq_false (by omega)
    have hbehind : post.countP (reaches inc seq) = 0 := by
      rw [List.countP_eq_zero]
      intro x hx hr
      have := hpost x hx
      have := of_decide_eq_true hr
      omega
    have hle := List.countP_le_length (p := reaches inc seq) (l := hi)
    rw [hcut, List.countP_append, List.countP_cons, List.countP_append, hlo, hbehind, hr] at h
    simp only [Bool.false_eq_true, if_false] at h
    omega

/-! ## The quorum rank -/

/-- How many entries of a column are of an incarnation. -/
def votes (col : List PoSeqPair) (inc : Nat) : Nat := col.countP fun p => p.incarnation = inc

/-- The rank of a quorum in a column: zero where no incarnation has a quorum of entries, and otherwise
the one that does, with the largest sequence number that a quorum of its entries reaches. -/
structure Ranked (quorum : Nat) (col : List PoSeqPair) (ps : PoSeqPair) : Prop where
  none : (∀ inc, votes col inc < quorum) → ps = PoSeqPair.zero
  unique : ∀ inc inc', quorum ≤ votes col inc → quorum ≤ votes col inc' → inc = inc'
  incarnation : ∀ inc, quorum ≤ votes col inc → ps.incarnation = inc
  greatest : ∀ inc, quorum ≤ votes col inc → IsGreatest {seq | quorum ≤ col.countP (reaches inc seq)} ps.seqNum

theorem reaches_zero (col : List PoSeqPair) (inc : Nat) : col.countP (reaches inc 0) = votes col inc := by
  unfold reaches votes
  simp only [Nat.zero_le, and_true]

theorem countP_reaches_le (col : List PoSeqPair) (inc seq : Nat) : col.countP (reaches inc seq) ≤ votes col inc :=
  List.countP_mono_left fun _ _ hx => decide_eq_true (of_decide_eq_true hx).1

/-- **`PRE_ORDER_Proof_ARU` is the quorum rank**, for every matrix and every server. -/
theorem proofAru_ranked (c : Config) (server : Nat) (proof : List PoAruSigned) :
    Ranked c.quorum (column c server proof) (proofAru c server proof) := by
  have hinc : ∀ inc, c.quorum ≤ votes (column c server proof) inc → (proofAru c server proof).incarnation = inc := by
    intro inc h
    rw [← reaches_zero] at h
    exact (proofAru_maximal h).1
  refine ⟨fun hnone => ?_, fun inc inc' h h' => (hinc inc h).symm.trans (hinc inc' h'), hinc, fun inc h => ⟨?_, ?_⟩⟩
  · by_contra hne
    exact absurd ((proofAru_reached hne).trans (countP_reaches_le _ _ _)) (not_le.mpr (hnone _))
  · show c.quorum ≤ _
    by_cases hzero : proofAru c server proof = PoSeqPair.zero
    · rw [hzero]
      show c.quorum ≤ (column c server proof).countP (reaches inc 0)
      rwa [reaches_zero]
    · rw [← hinc inc h]
      exact proofAru_reached hzero
  · intro seq hseq
    exact (proofAru_maximal hseq).2

end Spire.PreOrder
