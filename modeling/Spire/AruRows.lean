import Spire.Lib.Runs
import Spire.PreOrder
import Spire.MerkleBatch

/-!
# The stored PO_ARUs

`PRE_ORDER_Process_PO_ARU` keeps one PO_ARU of every server, as that server's row of the proof
matrix, and `PRE_ORDER_Send_Proof_Matrix` queues the matrix for the leader when the new row makes
a request eligible.

The header's incarnation, the number of the PO_ARU and its entries are compared apart from each
other. What decides is the entries: a row is replaced by one that is ahead of it and by no other
(`processPoAru_stored`). So rows never go back, and a PO_ARU that is not ahead of its row can be
left out of a run wherever it comes later (`poAru_rows_advance`). Other handlers may run in
between; none of them writes a row.
-/

namespace Spire.AruRows

open Lib PreOrder Wire Merkle

/-! ## The data -/

/-- A proof matrix that needs more than one packet ends the program. -/
inductive Fault
  | matrixSpace
deriving DecidableEq, Repr

/-- What the handling of a PO_ARU reads and writes. `pendingMessages` are the parts that wait
for a signature, with the server each is for, and `turnaroundTimes` the matrices whose turnaround
time is measured. -/
structure Data where
  view : Nat
  viewChangeDone : Bool
  preinstalledIncarnations : Nat → Nat
  installedIncarnations : Nat → Nat
  cumAcks : Nat → PoAruSigned
  cumMaxAcked : Nat → Nat → PoSeqPair
  maxNumSentInProof : Nat → PoSeqPair
  newPoAru : Bool
  shouldSendPp : Bool
  turnaroundTimes : List (Nat → PoAruSigned)
  pendingMessages : List (Nat × List PoAruSigned)

/-- `ack_for_server[i]`. -/
def entry (mess : PoAruSigned) (i : Nat) : PoSeqPair := mess.body.ackForServer.getD i .zero

section Code

variable (c : Config) (me : Nat)

/-- `UTIL_I_Am_Leader`. -/
def Data.iAmLeader (st : Data) : Bool := me = c.leaderOfView st.view

/-- The loop `i = 1; i <= NUM_SERVERS; i++`. -/
def servers : List Nat := List.range' 1 c.numServers

/-- The rows `cum_acks + 1` points to. -/
def Data.matrix (st : Data) : List PoAruSigned := (servers c).map st.cumAcks

/-! ## Sending the matrix -/

/-- The condition under which `PRE_ORDER_Latest_Proof_Updated` raises an entry. -/
def Data.provenFurther (st : Data) (s : Nat) : Bool :=
  0 < seqCompare (proofAru c s (st.matrix c)) (st.maxNumSentInProof s)

/-- `PRE_ORDER_Latest_Proof_Updated`, with what it returns. -/
def latestProofUpdated (st : Data) : Data × Bool :=
  ({ st with
      maxNumSentInProof := fun s =>
        if s ∈ servers c ∧ st.provenFurther c s then proofAru c s (st.matrix c) else st.maxNumSentInProof s },
    (servers c).any (st.provenFurther c))

/-- The rows that go into one proof matrix message. -/
def numAcks : Nat :=
  (maxPacketSize - SignedMessage.size - ProofMatrix.size - maxMerkleDigests * digestSize) / poAruSignedSize c

/-- The loop of `PRE_ORDER_Construct_Proof_Matrix`: a round for each row is enough. -/
def matrixParts : Nat → List PoAruSigned → List (List PoAruSigned)
  | 0, _ => []
  | n + 1, remaining =>
    if remaining.isEmpty then []
    else remaining.take (numAcks c) :: matrixParts n (remaining.drop (numAcks c))

/-- `PRE_ORDER_Construct_Proof_Matrix`. -/
def constructProofMatrix (st : Data) : Except Fault (List (List PoAruSigned)) :=
  if numAcks c < c.numServers then .error .matrixSpace
  else
    let parts := matrixParts c c.numServers (st.matrix c)
    if 1 < parts.length then .error .matrixSpace else .ok parts

/-- `PRE_ORDER_Send_Proof_Matrix`, where the matrix is not sent periodically. -/
def sendProofMatrix (st : Data) : Except Fault Data :=
  if st.newPoAru = false ∨ st.viewChangeDone = false then .ok st
  else
    match latestProofUpdated c st with
    | (st, false) => .ok st
    | (st, true) => do
      let parts ← constructProofMatrix c st
      .ok { st with
        newPoAru := false
        turnaroundTimes := st.turnaroundTimes ++ [st.cumAcks]
        pendingMessages := st.pendingMessages ++ parts.map fun part => (c.leaderOfView st.view, part) }

/-! ## Processing a PO_ARU -/

/-- The flags `lower` and `higher`. -/
def compareRows (cur prev : PoAruSigned) : Bool × Bool :=
  if cur.header.incarnation < prev.header.incarnation then (true, false)
  else
    ((List.range c.numServers).any fun i => seqCompare (entry cur i) (entry prev i) < 0,
      (List.range c.numServers).any fun i => 0 < seqCompare (entry cur i) (entry prev i))

/-- What is done with a row that is only higher. -/
def storeRow (st : Data) (mess : PoAruSigned) : Data :=
  { st with
    shouldSendPp := st.shouldSendPp || st.iAmLeader c me
    newPoAru := true
    cumAcks := Function.update st.cumAcks mess.machineId mess
    cumMaxAcked := Function.update st.cumMaxAcked mess.machineId fun i =>
      if i ∈ servers c ∧ seqCompare (st.cumMaxAcked mess.machineId i) (entry mess (i - 1)) < 0 then entry mess (i - 1)
      else st.cumMaxAcked mess.machineId i }

/-- `PRE_ORDER_Process_PO_ARU`. -/
def processPoAru (st : Data) (mess : PoAruSigned) : Except Fault Data :=
  let prev := st.cumAcks mess.machineId
  if mess.header.type ≠ PacketType.poAru.code then .ok st
  else if mess.header.incarnation = prev.header.incarnation ∧ mess.body.num ≤ prev.body.num then .ok st
  else if mess.header.incarnation < st.preinstalledIncarnations mess.machineId then .ok st
  else if mess.header.incarnation > st.installedIncarnations mess.machineId then .ok st
  else
    let (lower, higher) := compareRows c mess prev
    if higher && lower then .ok st
    else if lower || (!lower && !higher) then .ok st
    else
      let st := storeRow c me st mess
      if st.iAmLeader c me then .ok st else sendProofMatrix c st

/-! ## Runs -/

/-- What the other handlers do between two PO_ARUs. -/
structure Handler where
  run : Data → Data
  cumAcks : ∀ st, (run st).cumAcks = st.cumAcks

/-- What happens at a server. -/
inductive Event
  | poAru (mess : PoAruSigned)
  | other (handler : Handler)

/-- One event. -/
def step (st : Data) : Event → Except Fault Data
  | .poAru mess => processPoAru c me st mess
  | .other handler => .ok (handler.run st)

/-- A run of one server. -/
def run (st : Data) (es : List Event) : Except Fault Data := es.foldlM (step c me) st

end Code

/-! ## Rows in order -/

section Order

variable (c : Config)

/-- Every entry of the second row is at least that of the first. -/
def RowLe (prev cur : PoAruSigned) : Prop := ∀ i < c.numServers, SeqLe (entry prev i) (entry cur i)

/-- And one of them is more. -/
def Ahead (prev cur : PoAruSigned) : Prop := RowLe c prev cur ∧ ¬RowLe c cur prev

variable {c} {row row' row'' : PoAruSigned}

theorem RowLe.refl (row : PoAruSigned) : RowLe c row row := fun _ _ => seqLe_refl _

theorem RowLe.trans (h : RowLe c row row') (h' : RowLe c row' row'') : RowLe c row row'' := fun i hi =>
  IsTrans.trans _ _ _ (h i hi) (h' i hi)

/-- What is ahead of a later row is ahead of the earlier one. -/
theorem Ahead.of_rowLe (h : Ahead c row' row'') (hle : RowLe c row row') : Ahead c row row'' :=
  ⟨hle.trans h.1, fun hback => h.2 (hback.trans hle)⟩

end Order

/-! ## One PO_ARU -/

section Step

variable {c : Config} {me : Nat} {st st' : Data} {mess : PoAruSigned}

/-- A row that is higher and not lower is ahead. -/
theorem ahead_of_compareRows {cur prev : PoAruSigned} (h : compareRows c cur prev = (false, true)) : Ahead c prev cur := by
  unfold compareRows at h
  split at h
  · cases h
  · obtain ⟨hlower, hhigher⟩ := Prod.mk.injEq .. ▸ h
    constructor
    · intro i hi
      have hi' := List.any_eq_false.mp hlower i (List.mem_range.mpr hi)
      rw [decide_eq_true_eq, not_lt] at hi'
      rw [seqLe_iff]
      unfold seqCompare at hi'
      split_ifs at hi' <;> omega
    · intro hback
      obtain ⟨i, hi, hpos⟩ := List.any_eq_true.mp hhigher
      have hle : seqCompare (entry cur i) (entry prev i) ≤ 0 := hback i (List.mem_range.mp hi)
      rw [decide_eq_true_eq] at hpos
      omega

/-- A PO_ARU that is not ahead of its row changes nothing; another one may be stored. -/
theorem processPoAru_cases (c : Config) (me : Nat) (st : Data) (mess : PoAruSigned) :
    processPoAru c me st mess = .ok st ∨
      Ahead c (st.cumAcks mess.machineId) mess ∧
        processPoAru c me st mess =
          if (storeRow c me st mess).iAmLeader c me then .ok (storeRow c me st mess)
          else sendProofMatrix c (storeRow c me st mess) := by
  generalize hrhs : (if (storeRow c me st mess).iAmLeader c me then Except.ok (storeRow c me st mess)
    else sendProofMatrix c (storeRow c me st mess)) = rhs
  unfold processPoAru
  simp only []
  iterate 4
    split
    · exact .inl rfl
  rcases hcmp : compareRows c mess (st.cumAcks mess.machineId) with ⟨lower, higher⟩
  cases lower with
  | true =>
    cases higher with
    | true => exact .inl rfl
    | false => exact .inl rfl
  | false =>
    cases higher with
    | true => exact .inr ⟨ahead_of_compareRows hcmp, hrhs⟩
    | false => exact .inl rfl

theorem processPoAru_of_not_ahead (h : ¬Ahead c (st.cumAcks mess.machineId) mess) : processPoAru c me st mess = .ok st :=
  (processPoAru_cases c me st mess).resolve_right fun hahead => h hahead.1

theorem sendProofMatrix_cumAcks (h : sendProofMatrix c st = .ok st') : st'.cumAcks = st.cumAcks := by
  have hlatest : (latestProofUpdated c st).1.cumAcks = st.cumAcks := rfl
  unfold sendProofMatrix at h
  split at h
  · cases h
    rfl
  · revert hlatest
    generalize latestProofUpdated c st = updated at h
    obtain ⟨updated, progress⟩ := updated
    intro hlatest
    cases progress with
    | false =>
      cases h
      exact hlatest
    | true =>
      obtain ⟨parts, -, h⟩ := bind_eq_ok.mp h
      cases h
      exact hlatest

/-- The rows a PO_ARU leaves: the ones there were, or the PO_ARU in place of a row it is ahead of. -/
theorem processPoAru_stored (h : processPoAru c me st mess = .ok st') :
    st' = st ∨ Ahead c (st.cumAcks mess.machineId) mess ∧
      st'.cumAcks = Function.update st.cumAcks mess.machineId mess := by
  rcases processPoAru_cases c me st mess with hsame | ⟨hahead, hstore⟩
  · rw [hsame] at h
    cases h
    exact .inl rfl
  · refine .inr ⟨hahead, ?_⟩
    rw [hstore] at h
    split at h
    · cases h
      rfl
    · exact sendProofMatrix_cumAcks h

theorem step_rowLe {e : Event} (h : step c me st e = .ok st') (i : Nat) : RowLe c (st.cumAcks i) (st'.cumAcks i) := by
  cases e with
  | other handler =>
    cases h
    rw [handler.cumAcks]
    exact RowLe.refl _
  | poAru mess =>
    rcases processPoAru_stored h with rfl | ⟨hahead, hrows⟩
    · exact RowLe.refl _
    · rw [hrows]
      by_cases hi : i = mess.machineId
      · rw [hi, Function.update_self]
        exact hahead.1
      · rw [Function.update_of_ne hi]
        exact RowLe.refl _

end Step

/-! ## Runs -/

section Runs

variable {c : Config} {me : Nat} {st st' : Data} {mess : PoAruSigned} {es es' : List Event}

theorem run_append (es es' : List Event) : run c me st (es ++ es') = run c me st es >>= fun st' => run c me st' es' :=
  List.foldlM_append

theorem run_rowLe (h : run c me st es = .ok st') (i : Nat) : RowLe c (st.cumAcks i) (st'.cumAcks i) :=
  foldlM_inv (I := fun t : Data => RowLe c (st.cumAcks i) (t.cumAcks i))
    (fun _ _ _ _ hstep hle => hle.trans (step_rowLe hstep i)) h (RowLe.refl _)

/-- Once a PO_ARU is not ahead of its row, it is never ahead of it again. -/
theorem run_not_ahead (h : run c me st es = .ok st') (hstale : ¬Ahead c (st.cumAcks mess.machineId) mess) :
    ¬Ahead c (st'.cumAcks mess.machineId) mess := fun hahead =>
  hstale (hahead.of_rowLe (run_rowLe h mess.machineId))

/-- So it can be left out wherever it comes later. -/
theorem run_stale (hstale : ¬Ahead c (st.cumAcks mess.machineId) mess) :
    run c me st (es ++ .poAru mess :: es') = run c me st (es ++ es') := by
  rw [run_append, run_append]
  cases hes : run c me st es with
  | error fault => rfl
  | ok st' =>
    have hsame : step c me st' (.poAru mess) = .ok st' := processPoAru_of_not_ahead (run_not_ahead hes hstale)
    show (Event.poAru mess :: es').foldlM (step c me) st' = run c me st' es'
    rw [List.foldlM_cons, hsame]
    rfl

/-- **The rows only advance.** After any beginning of a run, whatever PO_ARUs arrive and however
often: no entry of a stored row goes back, a PO_ARU that is not at least its row in every entry
changes nothing, and one that is not ahead of its row makes no difference wherever it is received
from then on. -/
theorem poAru_rows_advance {before : List Event} {mid : Data} (hmid : run c me st before = .ok mid) :
    (∀ after last, run c me mid after = .ok last → ∀ i, RowLe c (mid.cumAcks i) (last.cumAcks i)) ∧
    (∀ mess, ¬RowLe c (mid.cumAcks mess.machineId) mess → processPoAru c me mid mess = .ok mid) ∧
    ∀ mess, ¬Ahead c (mid.cumAcks mess.machineId) mess → ∀ between after,
      run c me st (before ++ between ++ .poAru mess :: after) = run c me st (before ++ between ++ after) := by
  refine ⟨fun after last hlast i => run_rowLe hlast i, fun mess hmess => ?_, fun mess hstale between after => ?_⟩
  · exact processPoAru_of_not_ahead fun hahead => hmess hahead.1
  · rw [List.append_assoc, List.append_assoc, run_append, run_append, hmid]
    exact run_stale hstale

/-- A server that leads the first view of four and has stored nothing. -/
def firstLeader : Data :=
  { view := 1, viewChangeDone := true, preinstalledIncarnations := fun _ => 1, installedIncarnations := fun _ => 1
    cumAcks := fun _ => PoAruSigned.null fourServers.toConfig, cumMaxAcked := fun _ _ => .zero
    maxNumSentInProof := fun _ => .zero, newPoAru := false, shouldSendPp := false, turnaroundTimes := []
    pendingMessages := [] }

/-- A PO_ARU of the second server. -/
def aruOf (num : Nat) (acks : List PoSeqPair) : PoAruSigned :=
  { header := { (PoAruSigned.null fourServers.toConfig).header with
      machineId := 2, type := PacketType.poAru.code, incarnation := 1 }
    body := { num := num, ackForServer := acks } }

/-- A PO_ARU that contradicts the stored one. -/
theorem conflicting_poAru_ignored :
    let stored := aruOf 1 [⟨1, 5⟩, ⟨1, 2⟩, ⟨0, 0⟩, ⟨0, 0⟩]
    let conflicting := aruOf 2 [⟨1, 4⟩, ⟨1, 3⟩, ⟨0, 0⟩, ⟨0, 0⟩]
    run fourServers.toConfig 1 firstLeader ([.poAru stored] ++ [] ++ .poAru conflicting :: []) =
      run fourServers.toConfig 1 firstLeader ([.poAru stored] ++ [] ++ []) := by
  intro stored conflicting
  have hmid : run fourServers.toConfig 1 firstLeader [.poAru stored] =
      .ok (storeRow fourServers.toConfig 1 firstLeader stored) := rfl
  refine (poAru_rows_advance hmid).2.2 conflicting (fun hahead => ?_) [] []
  exact absurd (hahead.1 0 (by decide)) (by decide)

end Runs

end Spire.AruRows
