import Mathlib.Data.List.GetD
import Spire.ExactlyOnce
import Spire.Lib.Selection

/-!
# Who sends a request that others miss

`recon.c`: `RECON_Do_I_Send_Erasure` and `RECON_Do_Recon`. Once a server has a whole
Pre-Prepare it sends the requests the Pre-Prepare makes eligible to the servers that have
not acknowledged them. Not every server does: each sorts the column of acknowledgements
the Pre-Prepare carries, asks whether its own entry reaches the one at `f + k + 1`, and counts the
servers before it that also qualify.

The servers agree on the column, so `sendLoop_eq` makes this `Lib.amongFirst` for all of them, and the
selected ones are `2f + k + 1`. The entry at `f + k + 1` lies at or above what the
Pre-Prepare makes eligible, so they all acknowledged what they are to send.
-/

namespace Spire.Recon

open Spire.Order Spire.PreOrder Spire.Execution

section Code

variable (c : Config)

/-- `cack[s]`: what the row of `s` acknowledges of a server. -/
def cack (machineId : Nat) (cumAcks : List PoAruSigned) (s : Nat) : PoSeqPair :=
  (column c machineId cumAcks).getD (s - 1) PoSeqPair.zero

/-- `scack[f + k + 1]`, in the column as `qsort` leaves it. -/
def scackRank (machineId : Nat) (cumAcks : List PoAruSigned) : PoSeqPair :=
  ((column c machineId cumAcks).insertionSort SeqLe).getD (c.F + c.K) PoSeqPair.zero

/-- `could_send[s]`. -/
def couldSend (machineId : Nat) (cumAcks : List PoAruSigned) (s : Nat) : Bool :=
  decide (0 ≤ seqCompare (cack c machineId cumAcks s) (scackRank c machineId cumAcks))

/-- The loop over the servers, where `senderCount` of those before could send. -/
def sendLoop (me : Nat) (could : Nat → Bool) : List Nat → Nat → Bool
  | [], _ => false
  | s :: ss, senderCount =>
    let senderCount := if could s then senderCount + 1 else senderCount
    if s = me then true
    else if senderCount = c.quorum then false
    else sendLoop me could ss senderCount

/-- `RECON_Do_I_Send_Erasure`. -/
def doISendErasure (me machineId : Nat) (cumAcks : List PoAruSigned) : Bool :=
  couldSend c machineId cumAcks me && sendLoop c me (couldSend c machineId cumAcks) (List.range' 1 c.numServers) 0

/-- `po_request_message` of a slot, with its sender. -/
structure HeldRequest where
  machineId : Nat
  seq : PoSeqPair
deriving DecidableEq, Repr

/-- `ord_slot`, as far as reconciliation reads it. -/
structure ReconSlot where
  completePrePrepare : CompletePrePrepare
  collectedAllParts : Bool
  reconciled : Bool
  madeEligible : List PoSeqPair

/-- What a server looks at when it reconciles. A request is filed under its sender and number. -/
structure Replica where
  me : Nat
  /-- `DATA.ORD.History`. -/
  ordSlot : Nat → Option ReconSlot
  /-- `po_request` of `DATA.PO.History`. -/
  poRequest : Nat → PoSeqPair → Option HeldRequest
  /-- `DATA.PO.cum_max_acked`. -/
  cumMaxAcked : Nat → Nat → PoSeqPair
  filed : ∀ i ps req, poRequest i ps = some req → req.machineId = i ∧ req.seq = ps

/-- The servers that lack a request. -/
def lacking (r : Replica) (req : HeldRequest) : List Nat :=
  (List.range' 1 c.numServers).filter fun k =>
    decide (seqCompare (r.cumMaxAcked k req.machineId) req.seq < 0 ∧ k ≠ req.machineId)

/-- What is sent, and to whom, for one request. -/
def reconRequest (r : Replica) (pp : CompletePrePrepare) (i : Nat) (ps : PoSeqPair) : List (HeldRequest × Nat) :=
  match r.poRequest i ps with
  | none => []
  | some req => if doISendErasure c r.me req.machineId pp.cumAcks then (lacking c r req).map (Prod.mk req) else []

/-- `prev_pop`: nothing before the first ordinal. -/
def reconPrev (isFirst : Bool) (slot : ReconSlot) (i : Nat) : PoSeqPair :=
  if isFirst then PoSeqPair.zero else slot.completePrePrepare.lastExecuted.getD (i - 1) PoSeqPair.zero

/-- `cur_pop`. -/
def reconCur (slot : ReconSlot) (i : Nat) : PoSeqPair := slot.madeEligible.getD (i - 1) PoSeqPair.zero

/-- The loop over the requests of one server. -/
def reconServer (r : Replica) (isFirst : Bool) (slot : ReconSlot) (i : Nat) : Except Fault (List (HeldRequest × Nat)) := do
  let requests ← requestsBetween (reconPrev isFirst slot i) (reconCur slot i)
  pure (requests.flatMap (reconRequest c r slot.completePrePrepare i))

/-- `RECON_Do_Recon`, without erasure codes: what is sent, where the slot can be reconciled. -/
def doRecon (r : Replica) (slot : ReconSlot) : Except Fault (Option (List (HeldRequest × Nat))) :=
  if slot.reconciled = true ∨ slot.collectedAllParts = false then .ok none
  else
    let gseq := slot.completePrePrepare.seqNum
    let prev := r.ordSlot (Validate.wrap32 (gseq + (2 ^ 32 - 1)))
    if (prev.isNone ∧ gseq ≠ 1) ∨ prev.any (fun p => !p.collectedAllParts) then .ok none
    else do
      let sends ← (List.range' 1 c.numServers).foldlM (fun sent i => do
        let more ← reconServer c r prev.isNone slot i
        pure (sent ++ more)) []
      pure (some sends)

end Code

/-! ## The selection -/

section Selection

variable {c : Config} {me machineId : Nat} {cumAcks : List PoAruSigned} {could : Nat → Bool}

/-- The loop asks whether fewer than a quorum could send before this server. -/
theorem sendLoop_eq (could : Nat → Bool) (hme : me ≤ c.numServers) {j : Nat} (hj : j < me) (hcount : Lib.tally j could < c.quorum) :
    sendLoop c me could (List.range' (j + 1) (c.numServers - j)) (Lib.tally j could) =
      decide (Lib.tally (me - 1) could < c.quorum) := by
  induction hd : me - j generalizing j with
  | zero => omega
  | succ d ih =>
    obtain ⟨m, hm⟩ : ∃ m, c.numServers - j = m + 1 := ⟨c.numServers - j - 1, by omega⟩
    have hm' : m = c.numServers - (j + 1) := by omega
    have hnext : (if could (j + 1) then Lib.tally j could + 1 else Lib.tally j could) = Lib.tally (j + 1) could := by
      rw [Lib.tally_succ]
      split <;> rfl
    rw [hm, List.range'_succ, sendLoop, hnext]
    by_cases hend : j + 1 = me
    · have hj' : me - 1 = j := by omega
      rw [if_pos hend, hj', decide_eq_true hcount]
    · rw [if_neg hend]
      by_cases hfull : Lib.tally (j + 1) could = c.quorum
      · rw [if_pos hfull]
        have hmono : Lib.tally (j + 1) could ≤ Lib.tally (me - 1) could := Lib.tally_le_tally (by omega)
        exact (decide_eq_false (by omega)).symm
      · rw [if_neg hfull, hm']
        have hle : Lib.tally (j + 1) could ≤ Lib.tally j could + 1 := by
          rw [Lib.tally_succ]
          split <;> omega
        exact ih (by omega) (by omega) (by omega)

/-- Each server decides whether it is among the first `2f + k + 1` that could send. -/
theorem doISendErasure_eq (h1 : 1 ≤ me) (hme : me ≤ c.numServers) :
    doISendErasure c me machineId cumAcks = Lib.amongFirst c.quorum (couldSend c machineId cumAcks) me := by
  have hloop := sendLoop_eq (couldSend c machineId cumAcks) hme (j := 0) (by omega) (Nat.succ_pos _)
  rw [doISendErasure, Lib.amongFirst, ← hloop]
  rfl

end Selection

/-! ## Who could send -/

section Rank

variable {c : Config} {me machineId : Nat} {cumAcks : List PoAruSigned} {p : PoSeqPair}

theorem seqLe_of_compare {p q : PoSeqPair} : 0 ≤ seqCompare p q ↔ SeqLe q p := by
  rw [seqLe_iff, ← not_lt, seqCompare_neg_iff]
  omega

theorem scackRank_eq (c : Config) (machineId : Nat) (cumAcks : List PoAruSigned) :
    ∃ h : c.F + c.K < ((column c machineId cumAcks).insertionSort SeqLe).length,
      scackRank c machineId cumAcks = ((column c machineId cumAcks).insertionSort SeqLe)[c.F + c.K] := by
  have hlen : c.F + c.K < ((column c machineId cumAcks).insertionSort SeqLe).length := by
    rw [List.length_insertionSort, column_length]
    unfold Config.numServers
    omega
  exact ⟨hlen, by rw [scackRank, List.getD_eq_getElem _ _ hlen]⟩

/-- A count over the servers is one over the column. -/
theorem tally_cack (q : PoSeqPair → Bool) :
    Lib.tally c.numServers (fun s => q (cack c machineId cumAcks s)) = (column c machineId cumAcks).countP q := by
  have hcol : column c machineId cumAcks = (List.range' 1 c.numServers).map (cack c machineId cumAcks) := by
    apply List.ext_getElem
    · rw [column_length, List.length_map, List.length_range']
    · intro i hi hi'
      rw [List.getElem_map, List.getElem_range', cack, Nat.one_mul, Nat.add_sub_cancel_left, List.getD_eq_getElem _ _ hi]
  rw [hcol, List.countP_map]
  rfl

/-- A quorum reaches the entry at `f + k + 1`. -/
theorem quorum_couldSend : c.quorum ≤ Lib.tally c.numServers (couldSend c machineId cumAcks) := by
  obtain ⟨hlen, hrank⟩ := scackRank_eq c machineId cumAcks
  have habove := Lib.countP_above_rank seqLe_refl (List.pairwise_insertionSort SeqLe (column c machineId cumAcks)) hlen
  rw [(List.perm_insertionSort SeqLe _).countP_eq, List.length_insertionSort, column_length, ← hrank] at habove
  have hcould : couldSend c machineId cumAcks =
      fun s => decide (SeqLe (scackRank c machineId cumAcks) (cack c machineId cumAcks s)) := by
    funext s
    simp only [couldSend, seqLe_of_compare]
  rw [hcould, tally_cack fun q => decide (SeqLe (scackRank c machineId cumAcks) q)]
  refine le_trans ?_ habove
  unfold Config.quorum Config.numServers
  omega

/-- What the matrix makes eligible lies at the entry at `f + k + 1`, or before it. -/
theorem proofAru_le_rank : SeqLe (proofAru c machineId cumAcks) (scackRank c machineId cumAcks) := by
  by_cases hzero : proofAru c machineId cumAcks = PoSeqPair.zero
  · rw [hzero, seqLe_iff]
    simp only [PoSeqPair.zero, Nat.zero_le, and_true]
    omega
  · obtain ⟨hlen, hrank⟩ := scackRank_eq c machineId cumAcks
    rw [hrank]
    apply Lib.rank_above (List.pairwise_insertionSort SeqLe (column c machineId cumAcks)) hlen
    rw [(List.perm_insertionSort SeqLe _).countP_eq, List.length_insertionSort, column_length]
    have hreached : (column c machineId cumAcks).countP (reaches (proofAru c machineId cumAcks).incarnation
          (proofAru c machineId cumAcks).seqNum) ≤
        (column c machineId cumAcks).countP fun x => decide (SeqLe (proofAru c machineId cumAcks) x) := by
      apply List.countP_mono_left
      intro x _ hx
      obtain ⟨hinc, hseq⟩ := of_decide_eq_true hx
      exact decide_eq_true (seqLe_iff.mpr (.inr ⟨hinc.symm, hseq⟩))
    refine le_trans ?_ ((proofAru_reached hzero).trans hreached)
    unfold Config.quorum Config.numServers
    omega

/-- Who is selected reaches the entry at `f + k + 1`. -/
theorem rank_le_cack (hsend : doISendErasure c me machineId cumAcks = true) :
    SeqLe (scackRank c machineId cumAcks) (cack c machineId cumAcks me) :=
  seqLe_of_compare.mp (of_decide_eq_true (Bool.and_eq_true_iff.mp hsend).1)

end Rank

/-! ## What a server sends -/

section Sends

variable {c : Config} {r : Replica} {slot : ReconSlot} {isFirst : Bool} {i k : Nat} {req : HeldRequest}
  {sends : List (HeldRequest × Nat)}

/-- The slot before the one that is reconciled is missing. -/
def Replica.atFirst (r : Replica) (slot : ReconSlot) : Bool :=
  (r.ordSlot (Validate.wrap32 (slot.completePrePrepare.seqNum + (2 ^ 32 - 1)))).isNone

theorem mem_reconRequest {pp : CompletePrePrepare} {ps : PoSeqPair} :
    (req, k) ∈ reconRequest c r pp i ps ↔ r.poRequest i ps = some req ∧
      doISendErasure c r.me req.machineId pp.cumAcks = true ∧ k ∈ lacking c r req := by
  unfold reconRequest
  cases hreq : r.poRequest i ps with
  | none => simp
  | some held =>
    dsimp only
    split
    · rename_i hsend
      simp only [List.mem_map, Prod.mk.injEq, Option.some.injEq]
      constructor
      · rintro ⟨k', hk', rfl, rfl⟩
        exact ⟨rfl, hsend, hk'⟩
      · rintro ⟨rfl, -, hk⟩
        exact ⟨k, hk, rfl, rfl⟩
    · rename_i hsend
      simp only [List.not_mem_nil, Option.some.injEq, false_iff]
      rintro ⟨rfl, hsend', -⟩
      exact hsend hsend'

theorem reconServer_eq_ok {more : List (HeldRequest × Nat)} (h : reconServer c r isFirst slot i = .ok more) :
    more = (requestRange (reconPrev isFirst slot i) (reconCur slot i)).flatMap
        (reconRequest c r slot.completePrePrepare i) ∧
      Ends (reconPrev isFirst slot i) (reconCur slot i) := by
  obtain ⟨l, hl, h⟩ := Lib.bind_eq_ok.mp h
  obtain ⟨rfl, hends⟩ := requestsBetween_eq_ok hl
  cases h
  exact ⟨rfl, hends⟩

/-- What a server sends when it reconciles a slot: every request of the ranges that it has and is selected for,
to every server that lacks it. -/
structure Reconciles (c : Config) (r : Replica) (slot : ReconSlot) (sends : List (HeldRequest × Nat)) : Prop where
  first : r.atFirst slot = true → slot.completePrePrepare.seqNum = 1
  ends : ∀ i, 1 ≤ i → i ≤ c.numServers → Ends (reconPrev (r.atFirst slot) slot i) (reconCur slot i)
  mem : ∀ req k, (req, k) ∈ sends ↔ (1 ≤ req.machineId ∧ req.machineId ≤ c.numServers) ∧
    req.seq ∈ requestRange (reconPrev (r.atFirst slot) slot req.machineId) (reconCur slot req.machineId) ∧
    r.poRequest req.machineId req.seq = some req ∧
    doISendErasure c r.me req.machineId slot.completePrePrepare.cumAcks = true ∧ k ∈ lacking c r req

theorem doRecon_reconciles (h : doRecon c r slot = .ok (some sends)) : Reconciles c r slot sends := by
  unfold doRecon at h
  split at h
  · exact nomatch h
  · dsimp only at h
    split at h
    · exact nomatch h
    · rename_i hprev
      obtain ⟨out, hloop, h⟩ := Lib.bind_eq_ok.mp h
      cases h
      obtain ⟨hsends, hends⟩ := Lib.foldlM_appends id
        (g := fun i => (requestRange (reconPrev (r.atFirst slot) slot i) (reconCur slot i)).flatMap
          (reconRequest c r slot.completePrePrepare i))
        (K := fun i => Ends (reconPrev (r.atFirst slot) slot i) (reconCur slot i))
        (fun s i t hi => by
          obtain ⟨more, hmore, hi⟩ := Lib.bind_eq_ok.mp hi
          obtain ⟨rfl, hends⟩ := reconServer_eq_ok hmore
          cases hi
          exact ⟨rfl, hends⟩) hloop
      refine ⟨fun hnone => ?_, fun i h1 hi => hends i (List.mem_range'_1.mpr ⟨h1, by omega⟩), fun req k => ?_⟩
      · by_contra hseq
        exact hprev (.inl ⟨hnone, hseq⟩)
      · replace hsends : sends = _ := hsends
        rw [hsends, id, List.nil_append, List.mem_flatMap]
        simp only [List.mem_flatMap, mem_reconRequest, List.mem_range'_1]
        constructor
        · rintro ⟨i, hi, ps, hps, hheld, hrest⟩
          obtain ⟨rfl, rfl⟩ := r.filed i ps req hheld
          exact ⟨⟨hi.1, by omega⟩, hps, hheld, hrest⟩
        · rintro ⟨hi, hps, hheld, hrest⟩
          exact ⟨req.machineId, ⟨hi.1, by omega⟩, req.seq, hps, hheld, hrest⟩

/-- A slot that holds what its Pre-Prepare makes eligible, where the first Pre-Prepare starts from nothing. -/
structure Prepared (c : Config) (slot : ReconSlot) : Prop where
  populated : slot.madeEligible = eligible c slot.completePrePrepare
  first : slot.completePrePrepare.seqNum = 1 → ∀ i, slot.completePrePrepare.lastExecuted.getD i PoSeqPair.zero = PoSeqPair.zero

/-- A request of server `i` that a Pre-Prepare makes eligible: behind `last_executed`, and up to what is eligible. -/
structure MadeEligible (c : Config) (pp : CompletePrePrepare) (i : Nat) (ps : PoSeqPair) : Prop where
  server : 1 ≤ i ∧ i ≤ c.numServers
  incarnation : ps.incarnation = ((eligible c pp).getD (i - 1) PoSeqPair.zero).incarnation
  behind : seqCompare (pp.lastExecuted.getD (i - 1) PoSeqPair.zero) ps < 0
  positive : 0 < ps.seqNum
  upTo : ps.seqNum ≤ ((eligible c pp).getD (i - 1) PoSeqPair.zero).seqNum

/-- What is made eligible is eligible by the matrix itself. -/
theorem MadeEligible.le_proofAru {pp : CompletePrePrepare} {ps : PoSeqPair} (h : MadeEligible c pp i ps) :
    SeqLe ps (proofAru c i pp.cumAcks) := by
  obtain ⟨⟨h1, hi⟩, hinc, hbehind, -, hupTo⟩ := h
  rw [eligible_getD c pp h1 hi] at hinc hupTo
  split at hinc
  · rename_i hcmp
    rw [if_pos hcmp] at hupTo
    exact seqLe_iff.mpr (.inr ⟨hinc, hupTo⟩)
  · rename_i hcmp
    -- nothing lies between `last_executed` and itself
    rw [if_neg hcmp] at hupTo
    rw [seqCompare_neg_iff] at hbehind
    omega

/-- Where the loop ends and does not go back, it visits what lies behind its start. -/
theorem mem_requestRange_of_ends {last cur ps : PoSeqPair} (hle : SeqLe last cur) (hends : Ends last cur) :
    ps ∈ requestRange last cur ↔
      ps.incarnation = cur.incarnation ∧ seqCompare last ps < 0 ∧ 0 < ps.seqNum ∧ ps.seqNum ≤ cur.seqNum := by
  have hseq := hends.seqNum
  have hle := seqLe_iff.mp hle
  have hfirst : firstSeq last cur = (if last.incarnation < cur.incarnation then 0 else last.seqNum) + 1 := by
    apply Nat.mod_eq_of_lt
    split <;> omega
  rw [mem_requestRange, hfirst, seqCompare_neg_iff]
  split <;> omega

/-- The loops of a prepared slot visit what its Pre-Prepare makes eligible. -/
theorem Prepared.mem_range (hslot : Prepared c slot) (hrec : Reconciles c r slot sends) (h1 : 1 ≤ i)
    (hi : i ≤ c.numServers) {ps : PoSeqPair} :
    ps ∈ requestRange (reconPrev (r.atFirst slot) slot i) (reconCur slot i) ↔
      MadeEligible c slot.completePrePrepare i ps := by
  have hlast : reconPrev (r.atFirst slot) slot i = slot.completePrePrepare.lastExecuted.getD (i - 1) PoSeqPair.zero := by
    unfold reconPrev
    split
    · rename_i hfirst
      exact (hslot.first (hrec.first hfirst) _).symm
    · rfl
  have hcur : reconCur slot i = (eligible c slot.completePrePrepare).getD (i - 1) PoSeqPair.zero := by
    rw [reconCur, hslot.populated]
  have hends := hrec.ends i h1 hi
  rw [hlast, hcur] at hends ⊢
  rw [mem_requestRange_of_ends (le_eligible c slot.completePrePrepare h1 hi) hends]
  constructor
  · rintro ⟨hinc, hbehind, hpos, hupTo⟩
    exact ⟨⟨h1, hi⟩, hinc, hbehind, hpos, hupTo⟩
  · intro h
    exact ⟨h.incarnation, h.behind, h.positive, h.upTo⟩

/-- Of a column every `2f + k + 1` servers are selected, each reaches the entry at `f + k + 1`, and so acknowledged
whatever the Pre-Prepare makes eligible. A server sends a request that is made eligible to those that lack it
where it is selected and has it, and sends nothing else. -/
theorem recon_senders (c : Config) :
    (∀ machineId cumAcks,
      (Lib.accepted c.numServers fun me => doISendErasure c me machineId cumAcks).card = c.quorum) ∧
    (∀ me machineId cumAcks, doISendErasure c me machineId cumAcks = true →
      0 ≤ seqCompare (cack c machineId cumAcks me) (scackRank c machineId cumAcks)) ∧
    (∀ me pp i ps, MadeEligible c pp i ps → doISendErasure c me i pp.cumAcks = true →
      0 ≤ seqCompare (cack c i pp.cumAcks me) ps) ∧
    ∀ r slot sends, Prepared c slot → doRecon c r slot = .ok (some sends) → ∀ req k, (req, k) ∈ sends ↔
      MadeEligible c slot.completePrePrepare req.machineId req.seq ∧
        r.poRequest req.machineId req.seq = some req ∧
        doISendErasure c r.me req.machineId slot.completePrePrepare.cumAcks = true ∧ k ∈ lacking c r req := by
  refine ⟨?_, ?_, ?_, ?_⟩
  · intro machineId cumAcks
    have hsame : Lib.accepted c.numServers (fun me => doISendErasure c me machineId cumAcks) =
        Lib.accepted c.numServers (Lib.amongFirst c.quorum (couldSend c machineId cumAcks)) := by
      ext me
      simp only [Lib.mem_accepted]
      apply and_congr_right
      intro hme
      rw [doISendErasure_eq hme.1 hme.2]
    rw [hsame, Lib.card_accepted, Lib.tally_amongFirst]
    exact min_eq_left quorum_couldSend
  · intro me machineId cumAcks hsend
    exact seqLe_of_compare.mpr (rank_le_cack hsend)
  · intro me pp i ps hps hsend
    apply seqLe_of_compare.mpr
    exact IsTrans.trans _ _ _ (IsTrans.trans _ _ _ hps.le_proofAru proofAru_le_rank) (rank_le_cack hsend)
  · intro r slot sends hslot hdo req k
    have hrec := doRecon_reconciles hdo
    rw [hrec.mem req k]
    constructor
    · rintro ⟨⟨h1, hi⟩, hps, hrest⟩
      exact ⟨(hslot.mem_range hrec h1 hi).mp hps, hrest⟩
    · rintro ⟨hps, hrest⟩
      exact ⟨hps.server, (hslot.mem_range hrec hps.server.1 hps.server.2).mpr hps, hrest⟩

end Sends

end Spire.Recon
