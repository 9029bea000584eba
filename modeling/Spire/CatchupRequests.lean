import Spire.Lib.Comparison
import Spire.PreOrder
import Spire.SystemReset

/-!
# Which catchup request is the newer one

`catchup.c`: `CATCH_Compare_Catchup_Request`, the part of `CATCH_Process_Catchup_Request`
that keeps the newest request of each server, and `CATCH_Can_Help_Catchup`.

Requests are compared by incarnation, then by the ordinals executed, then by the vector of
pre-order sequence numbers. Vectors are only partially ordered. The source leaves a check
of two that are incomparable for later and calls a request older when even one entry is
behind; so of two incomparable vectors each is older than the other. `compare_reports` says that
the comparison is otherwise the one of the order, and the results about `Lib.Reports` give the rest.
A server that follows the code sends requests that are comparable, as its vector grows.
-/

namespace Spire.Catchup

open Spire.PreOrder

/-- `catchup_request_message`, with the fields that are compared. -/
structure CatchupRequest where
  aru : Nat
  poAru : List PoSeqPair
  proposalDigest : Bytes
deriving DecidableEq, Repr

/-- A request as it is received. -/
abbrev CatchupRequestMessage := Signed CatchupRequest

/-- `po_aru[i]`, counted from zero. -/
def CatchupRequest.entry (r : CatchupRequest) (i : Nat) : PoSeqPair := r.poAru.getD i PoSeqPair.zero

section Code

variable (c : Config)

/-- The loop over the entries. `higher` is set once an entry was above. -/
def comparePoAru (cr1 cr2 : CatchupRequest) : List Nat → Bool → Int
  | [], higher => if higher then 1 else 0
  | i :: is, higher =>
    if seqCompare (cr1.entry i) (cr2.entry i) < 0 then -1
    else comparePoAru cr1 cr2 is (higher || decide (0 < seqCompare (cr1.entry i) (cr2.entry i)))

/-- `CATCH_Compare_Catchup_Request`. -/
def compareCatchupRequest (m1 m2 : CatchupRequestMessage) : Int :=
  if m1.header.incarnation < m2.header.incarnation then -1
  else if m1.header.incarnation > m2.header.incarnation then 1
  else if m1.body.aru < m2.body.aru then -1
  else if m1.body.aru > m2.body.aru then 1
  else comparePoAru m1.body m2.body (List.range c.numServers) false

/-- `DATA.CATCH.last_catchup_request`. -/
abbrev LastCatchupRequest := Nat → Option CatchupRequestMessage

/-- What `CATCH_Process_Catchup_Request` of server `me` does to the stored requests, where
`digest` is `DATA.PR.proposal_digest`. -/
def storeCatchupRequest (me : Nat) (digest : Bytes) (last : LastCatchupRequest) (mess : CatchupRequestMessage) :
    LastCatchupRequest :=
  let sender := mess.machineId
  if sender = me then last
  else if digest = mess.body.proposalDigest then
    match last sender with
    | some stored =>
      if compareCatchupRequest c mess stored < 0 then last else Function.update last sender (some mess)
    | none => Function.update last sender (some mess)
  else last

/-- What `CATCH_Can_Help_Catchup` reads of the server that answers. -/
structure Helper where
  /-- `DATA.ORD.ARU`. -/
  aru : Nat
  /-- `made_eligible` of the slots there are. -/
  madeEligible : Nat → Option (Nat → PoSeqPair)
  /-- `DATA.PO.cum_aru`. -/
  cumAru : Nat → PoSeqPair
  recoveryStatus : Nat → Reset.RecoveryStatus
  /-- What `tmp_eligible` holds before it is cleared. -/
  stack : Nat → PoSeqPair

/-- `tmp_eligible`. The `memset` clears four bytes for each entry, and an entry has eight. -/
def Helper.tmpEligible (h : Helper) (i : Nat) : PoSeqPair :=
  if 2 * i + 2 ≤ c.numServers then PoSeqPair.zero
  else if 2 * i + 1 ≤ c.numServers then { h.stack i with incarnation := 0 }
  else h.stack i

/-- `CATCH_Can_Help_Catchup`, unless the assertion about the slot fails. -/
def canHelpCatchup (h : Helper) (request : CatchupRequestMessage) : Option Bool :=
  if request.body.aru < h.aru then some true
  else if request.body.aru > h.aru then some false
  else
    (if 0 < h.aru then h.madeEligible h.aru else some (h.tmpEligible c)).map fun eligible =>
      (List.range c.numServers).any (fun i =>
        decide (seqCompare (request.body.entry i) (h.cumAru (i + 1)) < 0 ∧
          seqCompare (eligible i) (h.cumAru (i + 1)) < 0)) ||
      decide (h.aru = 0 ∧ h.recoveryStatus request.machineId = .recovery)

end Code

/-! ## The order of the requests -/

/-- A sequence number in the order of incarnations first. -/
def seqKey (p : PoSeqPair) : ℕ ×ₗ ℕ := toLex (p.incarnation, p.seqNum)

theorem seqKey_injective {p q : PoSeqPair} (h : seqKey p = seqKey q) : p = q := by
  cases p
  cases q
  simpa [seqKey] using h

theorem seqCompare_neg {p q : PoSeqPair} : seqCompare p q < 0 ↔ seqKey p < seqKey q := by
  rw [seqKey, seqKey, Prod.Lex.toLex_lt_toLex]
  simp only [seqCompare]
  split_ifs <;> omega

theorem seqCompare_pos {p q : PoSeqPair} : 0 < seqCompare p q ↔ seqKey q < seqKey p := by
  rw [seqKey, seqKey, Prod.Lex.toLex_lt_toLex]
  simp only [seqCompare]
  split_ifs <;> omega

/-- The vector of a request, ordered entry by entry. -/
def CatchupRequest.vector (c : Config) (r : CatchupRequest) : Fin c.numServers → ℕ ×ₗ ℕ := fun i => seqKey (r.entry i)

/-- What requests are compared by. -/
def requestKey (c : Config) (m : CatchupRequestMessage) : ℕ ×ₗ (ℕ ×ₗ (Fin c.numServers → ℕ ×ₗ ℕ)) :=
  toLex (m.header.incarnation, toLex (m.body.aru, m.body.vector c))

section Order

variable {c : Config} {cr1 cr2 : CatchupRequest} {is : List Nat} {higher : Bool}

theorem comparePoAru_cons_lt {i : Nat} (h : seqKey (cr1.entry i) < seqKey (cr2.entry i)) :
    comparePoAru cr1 cr2 (i :: is) higher = -1 :=
  if_pos (seqCompare_neg.mpr h)

theorem comparePoAru_cons_le {i : Nat} (h : seqKey (cr2.entry i) ≤ seqKey (cr1.entry i)) :
    comparePoAru cr1 cr2 (i :: is) higher =
      comparePoAru cr1 cr2 is (higher || decide (seqKey (cr2.entry i) < seqKey (cr1.entry i))) := by
  rw [comparePoAru, if_neg (seqCompare_neg.not.mpr h.not_gt)]
  simp only [seqCompare_pos]

theorem comparePoAru_behind :
    comparePoAru cr1 cr2 is higher = -1 ↔ ∃ i ∈ is, seqKey (cr1.entry i) < seqKey (cr2.entry i) := by
  induction is generalizing higher with
  | nil => cases higher <;> simp [comparePoAru]
  | cons i is ih =>
    rw [List.exists_mem_cons_iff]
    rcases lt_or_ge (seqKey (cr1.entry i)) (seqKey (cr2.entry i)) with hlt | hle
    · simp [comparePoAru_cons_lt hlt, hlt]
    · simp [comparePoAru_cons_le hle, hle.not_gt, ih]

theorem comparePoAru_equal :
    comparePoAru cr1 cr2 is higher = 0 ↔ higher = false ∧ ∀ i ∈ is, seqKey (cr1.entry i) = seqKey (cr2.entry i) := by
  induction is generalizing higher with
  | nil => cases higher <;> simp [comparePoAru]
  | cons i is ih =>
    rw [List.forall_mem_cons]
    rcases lt_or_ge (seqKey (cr1.entry i)) (seqKey (cr2.entry i)) with hlt | hle
    · simp [comparePoAru_cons_lt hlt, hlt.ne]
    · rw [comparePoAru_cons_le hle, ih, Bool.or_eq_false_iff, decide_eq_false_iff_not, not_lt, and_assoc]
      simp [le_antisymm_iff, hle]

theorem comparePoAru_ahead :
    comparePoAru cr1 cr2 is higher = 1 ↔ (∀ i ∈ is, seqKey (cr2.entry i) ≤ seqKey (cr1.entry i)) ∧
      (higher = true ∨ ∃ i ∈ is, seqKey (cr2.entry i) < seqKey (cr1.entry i)) := by
  induction is generalizing higher with
  | nil => cases higher <;> simp [comparePoAru]
  | cons i is ih =>
    rw [List.forall_mem_cons, List.exists_mem_cons_iff]
    rcases lt_or_ge (seqKey (cr1.entry i)) (seqKey (cr2.entry i)) with hlt | hle
    · simp [comparePoAru_cons_lt hlt, hlt.not_ge]
    · rw [comparePoAru_cons_le hle, ih, Bool.or_eq_true_iff, decide_eq_true_iff, or_assoc]
      simp [hle]

/-- The loop over all entries compares the vectors. -/
theorem comparePoAru_reports (c : Config) :
    Lib.Reports (fun m1 m2 : CatchupRequestMessage => comparePoAru m1.body m2.body (List.range c.numServers) false)
      fun m => m.body.vector c := by
  constructor
  · intro a b
    rw [comparePoAru_ahead, Pi.lt_def, Pi.le_def, Fin.forall_iff, Fin.exists_iff]
    simp [CatchupRequest.vector]
  · intro a b
    rw [comparePoAru_equal, funext_iff, Fin.forall_iff]
    simp [CatchupRequest.vector]
  · intro a b
    rw [comparePoAru_behind, Pi.le_def, Fin.forall_iff]
    simp [CatchupRequest.vector]

/-- `CATCH_Compare_Catchup_Request` compares by incarnation, ordinals executed and vector. -/
theorem compare_reports (c : Config) : Lib.Reports (compareCatchupRequest c) (requestKey c) :=
  ((comparePoAru_reports c).lex fun m => m.body.aru).lex fun m => m.header.incarnation

end Order

/-! ## What the order is for -/

section Store

variable {c : Config} {me s : Nat} {digest : Bytes} {last : LastCatchupRequest}

/-- A vector is not below another exactly where one of its entries is above. -/
theorem not_vector_le {cr1 cr2 : CatchupRequest} :
    ¬ cr1.vector c ≤ cr2.vector c ↔ ∃ i < c.numServers, seqCompare (cr2.entry i) (cr1.entry i) < 0 := by
  rw [Pi.le_def, Fin.forall_iff]
  simp [CatchupRequest.vector, seqCompare_neg]

theorem incomparable_iff {a b : CatchupRequestMessage} :
    IncompRel (· ≤ ·) (requestKey c a) (requestKey c b) ↔
      a.header.incarnation = b.header.incarnation ∧ a.body.aru = b.body.aru ∧
        IncompRel (· ≤ ·) (a.body.vector c) (b.body.vector c) := by
  simp only [IncompRel, requestKey, Prod.Lex.toLex_le_toLex]
  rcases lt_trichotomy a.header.incarnation b.header.incarnation with h1 | h1 | h1
  · simp [h1, h1.ne]
  · rcases lt_trichotomy a.body.aru b.body.aru with h2 | h2 | h2
    · simp [h1, h2, h2.ne]
    · simp [h1, h2]
    · simp [h1, h2, h2.ne']
  · simp [h1, h1.ne']

/-- The requests of `s` that are stored unless they are behind. -/
def considered (me : Nat) (digest : Bytes) (s : Nat) (mess : CatchupRequestMessage) : Bool :=
  decide (mess.machineId = s ∧ s ≠ me ∧ digest = mess.body.proposalDigest)

theorem storeCatchupRequest_update (mess : CatchupRequestMessage) :
    storeCatchupRequest c me digest last mess =
      if considered me digest mess.machineId mess then
        Function.update last mess.machineId (Lib.keepNewest (compareCatchupRequest c) (last mess.machineId) mess)
      else last := by
  unfold storeCatchupRequest
  by_cases hme : mess.machineId = me
  · simp [considered, hme]
  · by_cases hdigest : digest = mess.body.proposalDigest
    · simp only [considered, hme, hdigest, if_false, if_true, ne_eq, not_false_eq_true, and_self, decide_true]
      cases hlast : last mess.machineId with
      | none => rfl
      | some stored =>
        dsimp only [Lib.keepNewest]
        split
        · rw [← hlast, Function.update_eq_self]
        · rfl
    · simp [considered, hme, hdigest]

theorem storeCatchupRequest_eq (mess : CatchupRequestMessage) :
    storeCatchupRequest c me digest last mess s =
      if considered me digest s mess then Lib.keepNewest (compareCatchupRequest c) (last s) mess else last s := by
  rw [storeCatchupRequest_update]
  by_cases hs : mess.machineId = s
  · subst hs
    split
    · exact Function.update_self ..
    · rfl
  · have hnot : considered me digest s mess = false := by simp [considered, hs]
    rw [hnot]
    split
    · exact Function.update_of_ne (Ne.symm hs) ..
    · rfl

/-- What is stored of a server is the newest of its requests that were considered. -/
theorem stored_eq (ms : List CatchupRequestMessage) :
    ms.foldl (storeCatchupRequest c me digest) last s =
      (ms.filter (considered me digest s)).foldl (Lib.keepNewest (compareCatchupRequest c)) (last s) := by
  induction ms generalizing last with
  | nil => rfl
  | cons m ms ih =>
    rw [List.foldl_cons, ih, storeCatchupRequest_eq, List.filter_cons]
    split
    · rfl
    · rfl

/-- Whether a server can help depends on what requests are compared by, and on who asks. -/
theorem canHelpCatchup_congr {a b : CatchupRequestMessage} (hkey : requestKey c a = requestKey c b)
    (hid : a.machineId = b.machineId) (h : Helper) : canHelpCatchup c h a = canHelpCatchup c h b := by
  simp only [requestKey, EmbeddingLike.apply_eq_iff_eq, Prod.mk.injEq] at hkey
  obtain ⟨-, haru, hvec⟩ := hkey
  have hentry : ∀ i ∈ List.range c.numServers, a.body.entry i = b.body.entry i := by
    intro i hi
    exact seqKey_injective (congrFun hvec ⟨i, List.mem_range.mp hi⟩)
  have hany : ∀ eligible : Nat → PoSeqPair, ((List.range c.numServers).any fun i =>
        decide (seqCompare (a.body.entry i) (h.cumAru (i + 1)) < 0 ∧ seqCompare (eligible i) (h.cumAru (i + 1)) < 0)) =
      (List.range c.numServers).any fun i =>
        decide (seqCompare (b.body.entry i) (h.cumAru (i + 1)) < 0 ∧ seqCompare (eligible i) (h.cumAru (i + 1)) < 0) := by
    intro eligible
    rw [Bool.eq_iff_iff, List.any_eq_true, List.any_eq_true]
    apply exists_congr
    intro i
    apply and_congr_right
    intro hi
    rw [hentry i hi]
  simp only [canHelpCatchup, haru, hid, hany]

end Store

/-! ## What can be relied on -/

/-- No two of these requests each claim to be behind the other. -/
def Comparable (c : Config) (ms : List CatchupRequestMessage) : Prop :=
  ∀ a ∈ ms, ∀ b ∈ ms, ¬ (compareCatchupRequest c a b = -1 ∧ compareCatchupRequest c b a = -1)

/-- The request of `s` that server `me` stores, once `ms` arrived after a reset. -/
def storedAfter (c : Config) (me : Nat) (digest : Bytes) (ms : List CatchupRequestMessage) (s : Nat) :
    Option CatchupRequestMessage :=
  ms.foldl (storeCatchupRequest c me digest) (fun _ => none) s

theorem Comparable.chain {c : Config} {ms : List CatchupRequestMessage} (h : Comparable c ms) :
    ∀ a ∈ ms, ∀ b ∈ ms, requestKey c a ≤ requestKey c b ∨ requestKey c b ≤ requestKey c a := by
  intro a ha b hb
  by_contra hnot
  rw [not_or] at hnot
  exact h a ha b hb ((compare_reports c).both_behind.mpr hnot)

/-- What is stored is one of the requests that arrived from the server. -/
theorem storedAfter_machineId {c : Config} {me s : Nat} {digest : Bytes} {ms : List CatchupRequestMessage}
    (hcomp : Comparable c (ms.filter (considered me digest s))) {m : CatchupRequestMessage}
    (hm : storedAfter c me digest ms s = some m) : m.machineId = s := by
  rw [storedAfter, stored_eq] at hm
  rcases eq_or_ne (ms.filter (considered me digest s)) [] with hnil | hne
  · rw [hnil] at hm
    exact nomatch hm
  · obtain ⟨m', hmem, heq, -⟩ := Lib.keepNewest_greatest (compare_reports c) hne hcomp.chain
    rw [heq] at hm
    cases hm
    have hconsidered := (List.mem_filter.mp hmem).2
    simp only [considered, decide_eq_true_eq] at hconsidered
    exact hconsidered.1

/-- Comparable requests of a server are stored to the same effect in whatever order they arrive. -/
theorem storedAfter_perm {c : Config} {me s : Nat} {digest : Bytes} {ms ms' : List CatchupRequestMessage}
    (hperm : ms.Perm ms') (hcomp : Comparable c (ms.filter (considered me digest s))) :
    (storedAfter c me digest ms s).map (requestKey c) = (storedAfter c me digest ms' s).map (requestKey c) := by
  rw [storedAfter, storedAfter, stored_eq, stored_eq]
  exact Lib.keepNewest_perm (compare_reports c) (hperm.filter _) hcomp.chain

/-- Two requests are each behind the other exactly where they differ in the vector alone and
there in both directions. Apart from such pairs the comparison is antisymmetric and
transitive, and which request of a server is kept, and whether a server can help it, does
not depend on the order of arrival. -/
theorem catchup_requests_ordered (c : Config) :
    (∀ a b, compareCatchupRequest c a b = -1 ∧ compareCatchupRequest c b a = -1 ↔
      a.header.incarnation = b.header.incarnation ∧ a.body.aru = b.body.aru ∧
        (∃ i < c.numServers, seqCompare (a.body.entry i) (b.body.entry i) < 0) ∧
        ∃ i < c.numServers, seqCompare (b.body.entry i) (a.body.entry i) < 0) ∧
    (∀ a b, (compareCatchupRequest c a b = 1 → compareCatchupRequest c b a = -1) ∧
      (compareCatchupRequest c a b = 0 → compareCatchupRequest c b a = 0)) ∧
    (∀ a b d, 0 ≤ compareCatchupRequest c a b → 0 ≤ compareCatchupRequest c b d →
      0 ≤ compareCatchupRequest c a d ∧
        (compareCatchupRequest c a b = 1 ∨ compareCatchupRequest c b d = 1 → compareCatchupRequest c a d = 1)) ∧
    (∀ a b d, compareCatchupRequest c a b = -1 → compareCatchupRequest c b d = -1 →
      compareCatchupRequest c b a ≠ -1 → compareCatchupRequest c d b ≠ -1 → compareCatchupRequest c a d = -1) ∧
    ∀ me s digest ms ms', ms.Perm ms' → Comparable c (ms.filter (considered me digest s)) →
      (storedAfter c me digest ms s = none ↔ storedAfter c me digest ms' s = none) ∧
      ∀ m m', storedAfter c me digest ms s = some m → storedAfter c me digest ms' s = some m' →
        compareCatchupRequest c m m' = 0 ∧ ∀ h, canHelpCatchup c h m = canHelpCatchup c h m' := by
  have hcompare := compare_reports c
  refine ⟨?_, ?_, ?_, ?_, ?_⟩
  · intro a b
    rw [hcompare.both_behind, incomparable_iff, IncompRel, not_vector_le, not_vector_le, and_comm (a := ∃ i < _, _)]
  · intro a b
    exact ⟨hcompare.behind_of_ahead, hcompare.equal_symm⟩
  · intro a b d hab hbd
    exact ⟨hcompare.not_behind_trans hab hbd, hcompare.ahead_trans hab hbd⟩
  · intro a b d
    exact hcompare.behind_trans
  · intro me s digest ms ms' hperm hcomp
    have hkeys := storedAfter_perm hperm hcomp
    have hcomp' : Comparable c (ms'.filter (considered me digest s)) := by
      intro a ha b hb
      exact hcomp a ((hperm.filter _).mem_iff.mpr ha) b ((hperm.filter _).mem_iff.mpr hb)
    constructor
    · rw [← Option.map_eq_none_iff (f := requestKey c), hkeys, Option.map_eq_none_iff]
    · intro m m' hm hm'
      have hkey : requestKey c m = requestKey c m' := by
        rw [hm, hm', Option.map_some, Option.map_some] at hkeys
        exact Option.some.inj hkeys
      have hid : m.machineId = m'.machineId :=
        (storedAfter_machineId hcomp hm).trans (storedAfter_machineId hcomp' hm').symm
      exact ⟨hcompare.equal.mpr hkey, canHelpCatchup_congr hkey hid⟩

/-- A request of a server that has executed nothing, with these entries in its vector. -/
private def requestWith (entries : List Nat) : CatchupRequestMessage :=
  { header := { sig := [], mtNum := 0, mtIndex := 0, siteId := 0, machineId := 2, len := 0, type := 0, incarnation := 0,
                monotonicCounter := 0 }
    body := { aru := 0, poAru := entries.map (PoSeqPair.mk 0), proposalDigest := [] } }

/-- Vectors that two requests fill from different servers make each of them the older one, and
a third can be behind both ways round but not in one step. -/
theorem catchup_requests_cross :
    ∃ a b d : CatchupRequestMessage,
      compareCatchupRequest ⟨1, 0⟩ a b = -1 ∧ compareCatchupRequest ⟨1, 0⟩ b a = -1 ∧
        compareCatchupRequest ⟨1, 0⟩ b d = -1 ∧ compareCatchupRequest ⟨1, 0⟩ a d = 1 :=
  ⟨requestWith [1, 3, 0, 0], requestWith [2, 0, 0, 0], requestWith [1, 2, 0, 0], by decide⟩

end Spire.Catchup
