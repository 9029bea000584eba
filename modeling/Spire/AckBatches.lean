import Spire.AckIncarnations

/-!
# Acks in batches

`PRE_ORDER_Send_PO_Ack` has `PRE_ORDER_Construct_PO_Ack` called until it reports that there is
nothing more to ack. A message is full in the middle of a server's requests, and the next one goes
on where it stopped.

Here sequence numbers are words, as in the source, and the rounds of the loops are counted: `none`
is a loop that needs more of them. The loop over the requests of a server goes on while
`ps.seq_num <= aru.seq_num`, which every word is when `aru` is at the largest one. In every other
case the loops are those of `constructPoAck` (`constructLoop_eq`), and the messages together ack
what is between `max_acked` and `aru`, each request once and in order (`ackBatches_cover_iff`).
-/

namespace Spire.Incarnations

open Spire.PreOrder
open Spire.Lib

variable {E D : Type}

/-! ## The code, with words -/

/-- A loop whose rounds are counted, and that may end in a fault. -/
abbrev Run := ExceptT Fault Option

/-- There are more rounds than were counted. -/
def Run.goesOn {α : Type} : Run α := ExceptT.mk none

/-- A step without a loop. -/
def Run.once {α : Type} (x : Except Fault α) : Run α := ExceptT.mk (some x)

/-- `ps.seq_num++` of type `int32u`. -/
def next32 (ps : PoSeqPair) : PoSeqPair := ⟨ps.incarnation, (ps.seqNum + 1) % 2 ^ 32⟩

section Code

variable (c : Site) (makeDigest : PoRequest E → D) (preinstalled : Nat → Nat)

/-- The loop over the requests of a server, up to a full message. -/
def ackLoop (sm : Nat) : Nat → PoSeqPair → Acking E D → Run (Bool × Acking E D)
  | 0, _, _ => .goesOn
  | n + 1, ps, a =>
    if (a.po.aru sm).seqNum < ps.seqNum then pure (false, a)
    else do
      let a ← Run.once (ackRequest makeDigest sm ps a)
      if a.parts.length = c.maxAckParts then pure (true, a) else ackLoop sm n (next32 ps) a

/-- The loop over the servers, up to a full message. -/
def ackServersLoop (sendAll : Bool) (n : Nat) : List Nat → Acking E D → Run (Acking E D)
  | [], a => pure { a with po := { a.po with poAckStartServer := 0 } }
  | sm :: sms, a =>
    let po := { a.po with poAckStartServer := sm }
    let ps := ackStart preinstalled sendAll po sm
    if ps.incarnation ≠ (po.aru sm).incarnation then throw .ackIncarnation
    else do
      let (full, a) ← ackLoop c makeDigest sm n (next32 ps) { a with po := po }
      if full then pure a else ackServersLoop sendAll n sms { a with po := { a.po with poAckStartSeq := .zero } }

/-- `PRE_ORDER_Construct_PO_Ack`. -/
def constructLoop (sendAll : Bool) (n : Nat) (po : Po E D) : Run (Acking E D) :=
  let sm := if po.poAckStartServer = 0 then 1 else po.poAckStartServer
  ackServersLoop c makeDigest preinstalled sendAll n (List.range' sm (c.numServers + 1 - sm)) { po := po, parts := [] }

/-- The calls of `PRE_ORDER_Construct_PO_Ack` until there is nothing more to ack, with the messages
that come out. -/
def ackBatches (n : Nat) : Nat → Po E D → Run (Po E D × List (List (AckPart D)))
  | 0, _ => .goesOn
  | k + 1, po => do
    let a ← constructLoop c makeDigest preinstalled false n po
    if a.parts = [] then pure (a.po, [])
    else if a.parts.length = c.maxAckParts then do
      let (po, messages) ← ackBatches n k a.po
      pure (po, a.parts :: messages)
    else pure (a.po, [a.parts])

end Code

/-! ## Loops with words and without -/

namespace Run

variable {α β : Type} {x : Run α} {f : α → Run β} {b : α} {r : β}

theorem bind_eq_pure : x >>= f = pure r ↔ ∃ b, x = pure b ∧ f b = pure r := by
  have hx : x = goesOn ∨ ∃ y, x = once y := by
    rcases x with _ | y
    · exact .inl rfl
    · exact .inr ⟨y, rfl⟩
  constructor
  · intro h
    rcases hx with rfl | ⟨_ | b, rfl⟩
    · cases h
    · cases h
    · exact ⟨b, rfl, h⟩
  · rintro ⟨b, rfl, h⟩
    rwa [pure_bind]

theorem once_eq_pure {y : Except Fault α} : once y = pure b ↔ y = .ok b := by
  constructor
  · intro h
    cases h
    rfl
  · rintro rfl
    rfl

end Run

section Words

variable {c : Site} {makeDigest : PoRequest E → D} {preinstalled : Nat → Nat} {sendAll full : Bool} {sm n : Nat}
variable {ps : PoSeqPair} {a a' : Acking E D} {po : Po E D}

theorem ackRequest_aru (h : ackRequest makeDigest sm ps a = .ok a') : a'.po.aru = a.po.aru := by
  rw [ackRequest_po h]
  rfl

variable (c makeDigest sm ps) in
/-- Below the largest word the loop is one over a range. -/
theorem ackLoop_eq (haru : (a.po.aru sm).seqNum + 1 < 2 ^ 32) (hn : (a.po.aru sm).seqNum + 1 - ps.seqNum < n) :
    ackLoop c makeDigest sm n ps a = Run.once (ackRequests c makeDigest sm ps.incarnation
      (List.range' ps.seqNum ((a.po.aru sm).seqNum + 1 - ps.seqNum)) a) := by
  induction n generalizing ps a with
  | zero => exact absurd hn (Nat.not_lt_zero _)
  | succ n ih =>
    unfold ackLoop
    by_cases hstop : (a.po.aru sm).seqNum < ps.seqNum
    · rw [if_pos hstop, Nat.sub_eq_zero_of_le hstop]
      rfl
    · have hlen : (a.po.aru sm).seqNum + 1 - ps.seqNum = (a.po.aru sm).seqNum - ps.seqNum + 1 := by omega
      have hnext : next32 ps = ⟨ps.incarnation, ps.seqNum + 1⟩ := by
        rw [next32, Nat.mod_eq_of_lt (by omega)]
      rw [if_neg hstop, hlen, List.range'_succ, ackRequests]
      cases hreq : ackRequest makeDigest sm ps a with
      | error fault => rfl
      | ok a' =>
        have hsame := ackRequest_aru hreq
        show (if a'.parts.length = c.maxAckParts then pure (true, a') else ackLoop c makeDigest sm n (next32 ps) a') =
          Run.once (if a'.parts.length = c.maxAckParts then .ok (true, a') else ackRequests c makeDigest sm ps.incarnation
            (List.range' (ps.seqNum + 1) ((a.po.aru sm).seqNum - ps.seqNum)) a')
        split
        · rfl
        · rw [ih (next32 ps) (by rw [hsame]; exact haru) (by rw [hsame, hnext]; dsimp only; omega), hnext, hsame]
          dsimp only
          rw [Nat.add_sub_add_right]

/-- Nothing is acked beyond `aru`, and no `aru` is at the largest word. -/
structure Small (c : Site) (po : Po E D) : Prop where
  acked : ∀ s ∈ c.all, (po.maxAcked s).seqNum ≤ (po.aru s).seqNum
  aru : ∀ s ∈ c.all, (po.aru s).seqNum + 1 < 2 ^ 32

theorem Small.of_acked {po' : Po E D} (h : Small c po) (hpo : Acked po po') : Small c po' := by
  refine ⟨fun s hs => ?_, fun s hs => ?_⟩
  · rw [hpo.aru]
    exact (hpo.seqNum s).trans (max_le (h.acked s hs) (le_refl _))
  · rw [hpo.aru]
    exact h.aru s hs

/-- So are the loops around it. -/
theorem ackServersLoop_eq {sms : List Nat} (hsms : ∀ s ∈ sms, s ∈ c.all) (h : Small c a.po)
    (hn : ∀ s ∈ c.all, (a.po.aru s).seqNum < n) :
    ackServersLoop c makeDigest preinstalled false n sms a = Run.once (ackServers c makeDigest preinstalled false sms a) := by
  induction sms generalizing a with
  | nil => rfl
  | cons sm sms ih =>
    have hsm := hsms sm List.mem_cons_self
    have hacked := h.acked sm hsm
    have haru := h.aru sm hsm
    have hnext : next32 (a.po.maxAcked sm) = ⟨(a.po.maxAcked sm).incarnation, (a.po.maxAcked sm).seqNum + 1⟩ := by
      rw [next32, Nat.mod_eq_of_lt (by omega)]
    have hloop := ackLoop_eq c makeDigest sm (next32 (a.po.maxAcked sm)) (n := n)
      (a := { a with po := { a.po with poAckStartServer := sm } }) haru (by rw [hnext]; have := hn sm hsm; dsimp only; omega)
    unfold ackServersLoop ackServers
    dsimp only [ackStart]
    rw [if_neg Bool.false_ne_true]
    split
    · rfl
    · dsimp only at hloop
      rw [hloop, hnext, Nat.add_sub_add_right]
      dsimp only
      cases hreq : ackRequests c makeDigest sm (a.po.maxAcked sm).incarnation
          (List.range' ((a.po.maxAcked sm).seqNum + 1) ((a.po.aru sm).seqNum - (a.po.maxAcked sm).seqNum))
          { a with po := { a.po with poAckStartServer := sm } } with
      | error fault => rfl
      | ok r =>
        obtain ⟨full, a'⟩ := r
        cases full with
        | true => rfl
        | false =>
          have hstart : Acked a.po { a.po with poAckStartServer := sm } := Acked.withStart a.po sm a.po.poAckStartSeq
          have hseqs : ∀ seq ∈ List.range' ((a.po.maxAcked sm).seqNum + 1)
              ((a.po.aru sm).seqNum - (a.po.maxAcked sm).seqNum), seq ≤ (a.po.aru sm).seqNum := by
            intro seq hseq
            have := List.mem_range'_1.mp hseq
            omega
          have hpo := (hstart.trans (ackRequests_acked (a := { a with po := { a.po with poAckStartServer := sm } }) hseqs hreq)).trans
            (Acked.withStart a'.po a'.po.poAckStartServer .zero)
          refine ih (a := { a' with po := { a'.po with poAckStartSeq := .zero } })
            (fun s hs => hsms s (List.mem_cons_of_mem sm hs)) (h.of_acked hpo) fun s hs => ?_
          rw [hpo.aru]
          exact hn s hs

/-- Where `PRE_ORDER_Construct_PO_Ack` begins. -/
def startServer (po : Po E D) : Nat := if po.poAckStartServer = 0 then 1 else po.poAckStartServer

theorem mem_startServers {s : Nat} :
    s ∈ List.range' (startServer po) (c.numServers + 1 - startServer po) ↔ s ∈ c.all ∧ startServer po ≤ s := by
  have hpos : 1 ≤ startServer po := by
    unfold startServer
    split <;> omega
  rw [Site.all, List.mem_range'_1, List.mem_range'_1]
  omega

/-- The code with words is the one without. -/
theorem constructLoop_eq (h : Small c po) (hn : ∀ s ∈ c.all, (po.aru s).seqNum < n) :
    constructLoop c makeDigest preinstalled false n po = Run.once (constructPoAck c makeDigest preinstalled false po) :=
  ackServersLoop_eq (a := { po := po, parts := [] }) (fun _ hs => (mem_startServers.mp hs).1) h hn

end Words

/-! ## What is still to be acked -/

section Due

variable {c : Site} {makeDigest : PoRequest E → D} {preinstalled : Nat → Nat} {sm : Nat} {a : Acking E D} {po po' : Po E D}

/-- The numbers between `max_acked` and `aru`. -/
def dueSeqs (po : Po E D) (s : Nat) : List Nat :=
  List.range' ((po.maxAcked s).seqNum + 1) ((po.aru s).seqNum - (po.maxAcked s).seqNum)

/-- The part for a request that is there. -/
def partFor? (makeDigest : PoRequest E → D) (po : Po E D) (s seq : Nat) : Option (AckPart D) :=
  (po.request? s ⟨(po.aru s).incarnation, seq⟩).map fun r => ⟨s, ⟨(po.aru s).incarnation, seq⟩, makeDigest r⟩

/-- The parts that acking a server comes to. -/
def due (makeDigest : PoRequest E → D) (po : Po E D) (s : Nat) : List (AckPart D) :=
  (dueSeqs po s).filterMap (partFor? makeDigest po s)

/-- The vectors are in the same incarnations, and the requests between them are there. -/
structure Ready (c : Site) (po : Po E D) : Prop extends Consistent c po where
  present : ∀ s ∈ c.all, ∀ seq ∈ dueSeqs po s, ∃ r, po.request? s ⟨(po.aru s).incarnation, seq⟩ = some r

theorem mem_dueSeqs {s seq : Nat} : seq ∈ dueSeqs po s ↔ (po.maxAcked s).seqNum < seq ∧ seq ≤ (po.aru s).seqNum := by
  rw [dueSeqs, List.mem_range'_1]
  omega

theorem Ready.of_acked (h : Ready c po) (hpo : Acked po po')
    (hup : ∀ s ∈ c.all, (po.maxAcked s).seqNum ≤ (po'.maxAcked s).seqNum) : Ready c po' := by
  refine { incarnation := ?_, acked := ?_, present := ?_ }
  · intro s hs
    rw [hpo.incarnation, hpo.aru]
    exact h.incarnation s hs
  · intro s hs
    rw [hpo.aru]
    exact (hpo.seqNum s).trans (max_le (h.acked s hs) (le_refl _))
  · intro s hs seq hseq
    rw [mem_dueSeqs, hpo.aru] at hseq
    have hthere := h.present s hs seq (mem_dueSeqs.mpr ⟨(hup s hs).trans_lt hseq.1, hseq.2⟩)
    rw [hpo.aru]
    unfold Po.request? Po.slot? at hthere ⊢
    rw [hpo.history]
    exact hthere

/-- What is due depends on where acking got to, beyond what acking leaves alone. -/
theorem due_congr {s : Nat} (hpo : Acked po po') (hsame : po'.maxAcked s = po.maxAcked s) :
    due makeDigest po' s = due makeDigest po s := by
  unfold due dueSeqs partFor? Po.request? Po.slot?
  rw [hpo.history, hpo.aru, hsame]

variable (makeDigest) in
/-- The next request is acked. -/
theorem ackRequest_due (h : Ready c a.po) (hsm : sm ∈ c.all) (hlt : (a.po.maxAcked sm).seqNum < (a.po.aru sm).seqNum) :
    ∃ a' part, ackRequest makeDigest sm ⟨(a.po.aru sm).incarnation, (a.po.maxAcked sm).seqNum + 1⟩ a = .ok a' ∧
      a'.parts = a.parts ++ [part] ∧ due makeDigest a.po sm = part :: due makeDigest a'.po sm ∧
      (a'.po.maxAcked sm).seqNum = (a.po.maxAcked sm).seqNum + 1 := by
  have hmem : (a.po.maxAcked sm).seqNum + 1 ∈ dueSeqs a.po sm := mem_dueSeqs.mpr ⟨Nat.lt_succ_self _, hlt⟩
  obtain ⟨r, hr⟩ := h.present sm hsm _ hmem
  have hmax : ((noteAcked a.po sm ⟨(a.po.aru sm).incarnation, (a.po.maxAcked sm).seqNum + 1⟩).maxAcked sm).seqNum =
      (a.po.maxAcked sm).seqNum + 1 := by
    rw [noteAcked_maxAcked, if_pos ⟨rfl, Nat.lt_succ_self _⟩]
  refine ⟨⟨noteAcked a.po sm ⟨(a.po.aru sm).incarnation, (a.po.maxAcked sm).seqNum + 1⟩, _⟩,
    ⟨sm, ⟨(a.po.aru sm).incarnation, (a.po.maxAcked sm).seqNum + 1⟩, makeDigest r⟩, ?_, rfl, ?_, hmax⟩
  · unfold ackRequest
    dsimp only
    obtain ⟨slot, hslot, hrequest⟩ := Option.bind_eq_some_iff.mp hr
    have hslot' : (noteAcked a.po sm ⟨(a.po.aru sm).incarnation, (a.po.maxAcked sm).seqNum + 1⟩).slot? sm
        ⟨(a.po.aru sm).incarnation, (a.po.maxAcked sm).seqNum + 1⟩ = some slot := hslot
    rw [hslot']
    dsimp only
    rw [hrequest]
  · have hseqs : dueSeqs a.po sm = ((a.po.maxAcked sm).seqNum + 1) ::
        dueSeqs (noteAcked a.po sm ⟨(a.po.aru sm).incarnation, (a.po.maxAcked sm).seqNum + 1⟩) sm := by
      have haru : (noteAcked a.po sm ⟨(a.po.aru sm).incarnation, (a.po.maxAcked sm).seqNum + 1⟩).aru = a.po.aru := rfl
      have hlen : (a.po.aru sm).seqNum - (a.po.maxAcked sm).seqNum =
          (a.po.aru sm).seqNum - ((a.po.maxAcked sm).seqNum + 1) + 1 := by omega
      rw [dueSeqs, dueSeqs, hmax, haru, hlen, List.range'_succ]
    rw [due, hseqs, List.filterMap_cons, partFor?, hr]
    rfl

variable (makeDigest) in
/-- **One server.** Its requests are acked, up to a full message. -/
theorem ackRequests_due {n : Nat} (h : Ready c a.po) (hsm : sm ∈ c.all)
    (hn : (a.po.aru sm).seqNum - (a.po.maxAcked sm).seqNum = n) (hroom : a.parts.length < c.maxAckParts) :
    ∃ full a', ackRequests c makeDigest sm (a.po.aru sm).incarnation
        (List.range' ((a.po.maxAcked sm).seqNum + 1) n) a = .ok (full, a') ∧
      Ready c a'.po ∧ (∀ s, s ≠ sm → a'.po.maxAcked s = a.po.maxAcked s) ∧
      a'.po.poAckStartServer = a.po.poAckStartServer ∧ Acked a.po a'.po ∧
      a'.parts ++ due makeDigest a'.po sm = a.parts ++ due makeDigest a.po sm ∧
      if full then a'.parts.length = c.maxAckParts else a'.parts.length < c.maxAckParts ∧ due makeDigest a'.po sm = [] := by
  induction n generalizing a with
  | zero =>
    refine ⟨false, a, rfl, h, fun _ _ => rfl, rfl, Acked.refl _, rfl, hroom, ?_⟩
    rw [due, dueSeqs, hn]
    rfl
  | succ n ih =>
    have hlt : (a.po.maxAcked sm).seqNum < (a.po.aru sm).seqNum := by omega
    obtain ⟨b, part, hreq, hparts, hdue, hmax⟩ := ackRequest_due makeDigest h hsm hlt
    have hpo := ackRequest_po hreq
    have hacked : Acked a.po b.po := by
      rw [hpo]
      exact noteAcked_acked hlt
    have hothers : ∀ s, s ≠ sm → b.po.maxAcked s = a.po.maxAcked s := by
      intro s hs
      rw [hpo, noteAcked_maxAcked, if_neg fun heq => hs heq.1]
    have hready : Ready c b.po := by
      refine h.of_acked hacked fun s _ => ?_
      by_cases hs : s = sm
      · rw [hs, hmax]
        exact Nat.le_succ _
      · rw [hothers s hs]
    have hkept : b.parts ++ due makeDigest b.po sm = a.parts ++ due makeDigest a.po sm := by
      rw [hparts, hdue, List.append_assoc]
      rfl
    have hlen : b.parts.length = a.parts.length + 1 := by rw [hparts, List.length_append, List.length_singleton]
    have hserver : b.po.poAckStartServer = a.po.poAckStartServer := by rw [hpo]; rfl
    rw [List.range'_succ, ackRequests, hreq]
    dsimp only
    split
    · rename_i hfull
      exact ⟨true, b, rfl, hready, hothers, hserver, hacked, hkept, hfull⟩
    · rename_i hnot
      have hb : (b.po.aru sm).seqNum - (b.po.maxAcked sm).seqNum = n := by
        rw [hacked.aru, hmax]
        omega
      obtain ⟨full, a', hloop, hready', hothers', hserver', hacked', hkept', hend⟩ := ih hready hb (by omega)
      rw [hacked.aru, hmax] at hloop
      exact ⟨full, a', hloop, hready', fun s hs => (hothers' s hs).trans (hothers s hs), hserver'.trans hserver,
        hacked.trans hacked', hkept'.trans hkept, hend⟩

variable (makeDigest preinstalled) in
/-- **All servers**, from one on, up to a full message. -/
theorem ackServers_due {lo len : Nat} (hsms : ∀ s ∈ List.range' lo len, s ∈ c.all) (h : Ready c a.po)
    (hroom : a.parts.length < c.maxAckParts) :
    ∃ a', ackServers c makeDigest preinstalled false (List.range' lo len) a = .ok a' ∧ Ready c a'.po ∧
      (∀ s, s ∉ List.range' lo len → a'.po.maxAcked s = a.po.maxAcked s) ∧ Acked a.po a'.po ∧
      a'.parts ++ (List.range' lo len).flatMap (due makeDigest a'.po) =
        a.parts ++ (List.range' lo len).flatMap (due makeDigest a.po) ∧
      ((a'.parts.length < c.maxAckParts ∧ a'.po.poAckStartServer = 0 ∧
          ∀ s ∈ List.range' lo len, due makeDigest a'.po s = []) ∨
        a'.parts.length = c.maxAckParts ∧ a'.po.poAckStartServer ∈ List.range' lo len ∧
          ∀ s ∈ List.range' lo len, s < a'.po.poAckStartServer → due makeDigest a'.po s = []) := by
  induction len generalizing lo a with
  | zero =>
    exact ⟨_, rfl, h.of_acked (Acked.withStart a.po 0 a.po.poAckStartSeq) fun _ _ => le_refl _, fun _ _ => rfl,
      Acked.withStart a.po 0 a.po.poAckStartSeq, rfl, .inl ⟨hroom, rfl, fun s hs => by cases hs⟩⟩
  | succ len ih =>
    rw [List.range'_succ] at hsms ⊢
    have hlo := hsms lo List.mem_cons_self
    have hstart : Acked a.po { a.po with poAckStartServer := lo } := Acked.withStart a.po lo a.po.poAckStartSeq
    have hready : Ready c { a.po with poAckStartServer := lo } := h.of_acked hstart fun _ _ => le_refl _
    obtain ⟨full, b, hloop, hready', hothers, hserver, hacked, hkept, hend⟩ :=
      ackRequests_due makeDigest (a := { a with po := { a.po with poAckStartServer := lo } }) hready hlo rfl hroom
    have hsame : due makeDigest { a.po with poAckStartServer := lo } lo = due makeDigest a.po lo := due_congr hstart rfl
    have hnotin : ∀ s ∈ List.range' (lo + 1) len, s ≠ lo := by
      intro s hs heq
      have := (List.mem_range'_1.mp hs).1
      omega
    have hrest : (List.range' (lo + 1) len).flatMap (due makeDigest b.po) =
        (List.range' (lo + 1) len).flatMap (due makeDigest a.po) := by
      refine List.flatMap_congr fun s hs => ?_
      exact due_congr (hstart.trans hacked) (hothers s (hnotin s hs))
    have hinc : (a.po.maxAcked lo).incarnation = (a.po.aru lo).incarnation := h.incarnation lo hlo
    unfold ackServers
    dsimp only [ackStart] at hloop ⊢
    rw [if_neg Bool.false_ne_true, if_neg (not_not.mpr hinc), hinc, hloop]
    cases full with
    | true =>
      refine ⟨b, rfl, hready', fun s hs => hothers s ?_, hstart.trans hacked, ?_, .inr ⟨hend, ?_, fun s hs hlt => ?_⟩⟩
      · exact fun heq => hs (heq ▸ List.mem_cons_self)
      · rw [List.flatMap_cons, List.flatMap_cons, hrest, ← List.append_assoc, hkept, hsame, List.append_assoc]
      · rw [hserver]
        exact List.mem_cons_self
      · rw [hserver] at hlt
        rcases List.mem_cons.mp hs with rfl | hs
        · exact absurd hlt (lt_irrefl _)
        · have := (List.mem_range'_1.mp hs).1
          dsimp only at hlt
          omega
    | false =>
      obtain ⟨hroom', hnone⟩ := hend
      have hback : Acked b.po { b.po with poAckStartSeq := .zero } := Acked.withStart b.po b.po.poAckStartServer .zero
      obtain ⟨a', hservers, hready'', hothers', hacked', hkept', hcases⟩ :=
        ih (a := { b with po := { b.po with poAckStartSeq := .zero } }) (fun s hs => hsms s (List.mem_cons_of_mem lo hs))
          (hready'.of_acked hback fun _ _ => le_refl _) hroom'
      have hlo' : due makeDigest a'.po lo = [] := by
        rw [← hnone]
        exact due_congr (hback.trans hacked') (hothers' lo fun hmem => hnotin lo hmem rfl)
      have hparts : b.parts = a.parts ++ due makeDigest a.po lo := by
        rw [hnone, List.append_nil] at hkept
        rw [hkept, hsame]
      refine ⟨a', hservers, hready'', fun s hs => ?_, (hstart.trans hacked).trans (hback.trans hacked'), ?_, ?_⟩
      · rw [hothers' s fun hmem => hs (List.mem_cons_of_mem lo hmem)]
        exact hothers s fun heq => hs (heq ▸ List.mem_cons_self)
      · have hsame' : (List.range' (lo + 1) len).flatMap (due makeDigest { b.po with poAckStartSeq := .zero }) =
            (List.range' (lo + 1) len).flatMap (due makeDigest b.po) :=
          List.flatMap_congr fun s _ => due_congr hback rfl
        rw [List.flatMap_cons, List.flatMap_cons, hlo', List.nil_append, hkept', hsame', hrest]
        dsimp only
        rw [hparts, List.append_assoc]
      · rcases hcases with ⟨hless, hzero, hall⟩ | ⟨hfull, hmem, hall⟩
        · refine .inl ⟨hless, hzero, fun s hs => ?_⟩
          rcases List.mem_cons.mp hs with rfl | hs
          · exact hlo'
          · exact hall s hs
        · refine .inr ⟨hfull, List.mem_cons_of_mem lo hmem, fun s hs hlt => ?_⟩
          rcases List.mem_cons.mp hs with rfl | hs
          · exact hlo'
          · exact hall s hs hlt

/-- All that is due, in the order of the servers. -/
def allDue (c : Site) (makeDigest : PoRequest E → D) (po : Po E D) : List (AckPart D) := c.all.flatMap (due makeDigest po)

/-- The servers before the one where acking goes on have nothing due. -/
def Exhausted (c : Site) (makeDigest : PoRequest E → D) (po : Po E D) : Prop :=
  ∀ s ∈ c.all, s < startServer po → due makeDigest po s = []

variable (makeDigest) in
theorem exhausted_of_zero (h : po.poAckStartServer = 0) : Exhausted c makeDigest po := by
  intro s hs hlt
  rw [startServer, if_pos h] at hlt
  have := (List.mem_range'_1.mp hs).1
  omega

theorem allDue_eq {po' : Po E D} (h : ∀ s ∈ c.all, s < startServer po → due makeDigest po' s = []) :
    allDue c makeDigest po' =
      (List.range' (startServer po) (c.numServers + 1 - startServer po)).flatMap (due makeDigest po') := by
  by_cases hlast : startServer po ≤ c.numServers + 1
  · have hpos : 1 ≤ startServer po := by
      unfold startServer
      split <;> omega
    have hsplit : c.all = List.range' 1 (startServer po - 1) ++
        List.range' (startServer po) (c.numServers + 1 - startServer po) := by
      have happend := List.range'_append_1 (s := 1) (m := startServer po - 1) (n := c.numServers + 1 - startServer po)
      have hstart : 1 + (startServer po - 1) = startServer po := by omega
      have hlen : startServer po - 1 + (c.numServers + 1 - startServer po) = c.numServers := by omega
      rw [hstart, hlen] at happend
      exact happend.symm
    have hbefore : (List.range' 1 (startServer po - 1)).flatMap (due makeDigest po') = [] := by
      refine List.flatMap_eq_nil_iff.mpr fun s hs => ?_
      have hmem := List.mem_range'_1.mp hs
      exact h s (List.mem_range'_1.mpr ⟨hmem.1, by omega⟩) (by omega)
    rw [allDue, hsplit, List.flatMap_append, hbefore, List.nil_append]
  · rw [Nat.sub_eq_zero_of_le (by omega)]
    refine List.flatMap_eq_nil_iff.mpr fun s hs => h s hs ?_
    have := (List.mem_range'_1.mp hs).2
    omega

variable (preinstalled) in
/-- **One message.** It has what comes next of all that is due, and what is left is for the next. -/
theorem constructPoAck_due (h : Ready c po) (hexhausted : Exhausted c makeDigest po) (hparts : 0 < c.maxAckParts) :
    ∃ a, constructPoAck c makeDigest preinstalled false po = .ok a ∧ Ready c a.po ∧ Exhausted c makeDigest a.po ∧
      Acked po a.po ∧ a.parts ++ allDue c makeDigest a.po = allDue c makeDigest po ∧ a.parts.length ≤ c.maxAckParts ∧
      (a.parts.length < c.maxAckParts → allDue c makeDigest a.po = []) := by
  have hsms : ∀ s ∈ List.range' (startServer po) (c.numServers + 1 - startServer po), s ∈ c.all := fun s hs =>
    (mem_startServers.mp hs).1
  obtain ⟨a, ha, hready, hothers, hacked, hkept, hcases⟩ :=
    ackServers_due makeDigest preinstalled (a := { po := po, parts := [] }) hsms h hparts
  have hbefore : ∀ s ∈ c.all, s < startServer po → due makeDigest a.po s = [] := by
    intro s hs hlt
    rw [due_congr hacked (hothers s fun hmem => absurd (mem_startServers.mp hmem).2 (by omega))]
    exact hexhausted s hs hlt
  have hall : a.parts ++ allDue c makeDigest a.po = allDue c makeDigest po := by
    rw [allDue_eq hbefore, allDue_eq hexhausted]
    exact hkept
  refine ⟨a, ha, hready, ?_, hacked, hall, ?_, ?_⟩
  · rcases hcases with ⟨-, hzero, -⟩ | ⟨-, hmem, hdone⟩
    · exact exhausted_of_zero makeDigest hzero
    · intro s hs hlt
      by_cases hstart : s < startServer po
      · exact hbefore s hs hstart
      · have hne : a.po.poAckStartServer ≠ 0 := by
          have := (List.mem_range'_1.mp (hsms _ hmem)).1
          omega
        rw [startServer, if_neg hne] at hlt
        exact hdone s (mem_startServers.mpr ⟨hs, by omega⟩) hlt
  · rcases hcases with ⟨hless, -⟩ | ⟨hfull, -⟩
    · exact hless.le
    · exact hfull.le
  · intro hless
    rcases hcases with ⟨-, -, hdone⟩ | ⟨hfull, -⟩
    · rw [allDue_eq hbefore]
      exact List.flatMap_eq_nil_iff.mpr hdone
    · omega

variable (preinstalled) in
/-- **All messages.** -/
theorem ackBatches_due {n k : Nat} (h : Ready c po) (hsmall : Small c po) (hexhausted : Exhausted c makeDigest po)
    (hparts : 0 < c.maxAckParts) (hn : ∀ s ∈ c.all, (po.aru s).seqNum < n) (hk : (allDue c makeDigest po).length < k) :
    ∃ po' messages, ackBatches c makeDigest preinstalled n k po = pure (po', messages) ∧ Ready c po' ∧ Acked po po' ∧
      messages.flatten = allDue c makeDigest po ∧ allDue c makeDigest po' = [] ∧
      ∀ m ∈ messages, m ≠ [] ∧ m.length ≤ c.maxAckParts := by
  induction k generalizing po with
  | zero => exact absurd hk (Nat.not_lt_zero _)
  | succ k ih =>
    obtain ⟨a, ha, hready, hexhausted', hacked, hall, hle, hdone⟩ :=
      constructPoAck_due preinstalled h hexhausted hparts
    have hcall : constructLoop c makeDigest preinstalled false n po = pure a := by
      rw [constructLoop_eq hsmall hn, ha]
      rfl
    rw [ackBatches, hcall, pure_bind]
    by_cases hnone : a.parts = []
    · rw [if_pos hnone]
      have hempty := hdone (by rw [hnone]; exact hparts)
      rw [hnone, List.nil_append] at hall
      exact ⟨a.po, [], rfl, hready, hacked, hall ▸ hempty.symm, hempty, fun m hm => by cases hm⟩
    · rw [if_neg hnone]
      split
      · rename_i hfull
        have hshorter : (allDue c makeDigest a.po).length < k := by
          have hlen := congrArg List.length hall
          rw [List.length_append] at hlen
          omega
        obtain ⟨po', messages, hrest, hready', hacked', hflatten, hempty, hsize⟩ :=
          ih hready (hsmall.of_acked hacked) hexhausted' (by rw [hacked.aru]; exact hn) hshorter
        rw [hrest, pure_bind]
        refine ⟨po', a.parts :: messages, rfl, hready', hacked.trans hacked', ?_, hempty, fun m hm => ?_⟩
        · rw [List.flatten_cons, hflatten, hall]
        · rcases List.mem_cons.mp hm with rfl | hm
          · exact ⟨hnone, hle⟩
          · exact hsize m hm
      · rename_i hnot
        have hempty := hdone (Nat.lt_of_le_of_ne hle hnot)
        rw [hempty, List.append_nil] at hall
        refine ⟨a.po, [a.parts], rfl, hready, hacked, ?_, hempty, fun m hm => ?_⟩
        · rw [List.flatten_singleton, hall]
        · rw [List.mem_singleton.mp hm]
          exact ⟨hnone, hle⟩

end Due

/-! ## What the messages cover -/

section Covers

variable {c : Site} {makeDigest : PoRequest E → D} {preinstalled : Nat → Nat} {po po' : Po E D}

/-- The messages ack what is between the vectors, and the vectors end up the same. -/
structure Covers (c : Site) (makeDigest : PoRequest E → D) (po po' : Po E D) (messages : List (List (AckPart D))) : Prop where
  size : ∀ m ∈ messages, m ≠ [] ∧ m.length ≤ c.maxAckParts
  originator : ∀ p ∈ messages.flatten, p.originator ∈ c.all
  /-- The parts for a server, in the order of the messages. -/
  once : ∀ s ∈ c.all, (messages.flatten.filter fun p => p.originator = s).map AckPart.seq =
    (List.range' ((po.maxAcked s).seqNum + 1) ((po.aru s).seqNum - (po.maxAcked s).seqNum)).map (⟨(po.aru s).incarnation, ·⟩)
  digest : ∀ p ∈ messages.flatten, ∃ r, po.request? p.originator p.seq = some r ∧ p.digest = makeDigest r
  maxAcked : ∀ s ∈ c.all, po'.maxAcked s = po.aru s

theorem mem_due {s : Nat} {p : AckPart D} (h : p ∈ due makeDigest po s) :
    p.originator = s ∧ ∃ r, po.request? s p.seq = some r ∧ p.digest = makeDigest r := by
  obtain ⟨seq, -, hp⟩ := List.mem_filterMap.mp h
  obtain ⟨r, hr, rfl⟩ := Option.map_eq_some_iff.mp hp
  exact ⟨rfl, r, hr, rfl⟩

variable (makeDigest) in
theorem map_seq_due (h : Ready c po) {s : Nat} (hs : s ∈ c.all) :
    (due makeDigest po s).map AckPart.seq = (dueSeqs po s).map (⟨(po.aru s).incarnation, ·⟩) := by
  rw [due, List.map_filterMap]
  refine List.filterMap_eq_map_iff_forall_eq_some.mpr fun seq hseq => ?_
  obtain ⟨r, hr⟩ := h.present s hs seq hseq
  rw [partFor?, hr]
  rfl

/-- The parts for one server, among those for all. -/
theorem filter_allDue {s : Nat} (hs : s ∈ c.all) :
    (allDue c makeDigest po).filter (fun p => p.originator = s) = due makeDigest po s := by
  have hself : (due makeDigest po s).filter (fun p => p.originator = s) = due makeDigest po s :=
    List.filter_eq_self.mpr fun p hp => decide_eq_true (mem_due hp).1
  have hother : ∀ t, t ≠ s → (due makeDigest po t).filter (fun p => p.originator = s) = [] := fun t ht =>
    List.filter_eq_nil_iff.mpr fun p hp => by rw [(mem_due hp).1]; exact decide_eq_true_iff.not.mpr ht
  have hnodup : c.all.Nodup := List.nodup_range'
  rw [allDue, List.filter_flatMap]
  generalize c.all = sms at hs hnodup
  induction sms with
  | nil => cases hs
  | cons t sms ih =>
    obtain ⟨ht, hsms⟩ := List.nodup_cons.mp hnodup
    rw [List.flatMap_cons]
    rcases List.mem_cons.mp hs with rfl | hs
    · rw [hself, List.flatMap_eq_nil_iff.mpr fun u hu => hother u fun heq => ht (heq ▸ hu), List.append_nil]
    · rw [hother t fun heq => ht (heq ▸ hs), List.nil_append]
      exact ih hs hsms

theorem maxAcked_of_allDue (h : Ready c po) (hempty : allDue c makeDigest po = []) {s : Nat} (hs : s ∈ c.all) :
    po.maxAcked s = po.aru s := by
  have hdue := List.flatMap_eq_nil_iff.mp hempty s hs
  have hseqs := map_seq_due makeDigest h hs
  rw [hdue, List.map_nil, eq_comm, List.map_eq_nil_iff, dueSeqs, List.range'_eq_nil_iff] at hseqs
  have hacked := h.acked s hs
  have hinc := h.incarnation s hs
  rcases hm : po.maxAcked s with ⟨inc, seq⟩
  rcases ha : po.aru s with ⟨inc', seq'⟩
  rw [hm, ha] at hacked hinc hseqs
  dsimp only at hacked hinc hseqs
  rw [hinc, le_antisymm hacked (by omega)]

theorem covers_of_due {messages : List (List (AckPart D))} (h : Ready c po) (h' : Ready c po') (hacked : Acked po po')
    (hflatten : messages.flatten = allDue c makeDigest po) (hempty : allDue c makeDigest po' = [])
    (hsize : ∀ m ∈ messages, m ≠ [] ∧ m.length ≤ c.maxAckParts) : Covers c makeDigest po po' messages := by
  refine ⟨hsize, fun p hp => ?_, fun s hs => ?_, fun p hp => ?_, fun s hs => ?_⟩
  · rw [hflatten] at hp
    obtain ⟨s, hs, hp⟩ := List.mem_flatMap.mp hp
    rwa [(mem_due hp).1]
  · rw [hflatten, filter_allDue hs]
    exact map_seq_due makeDigest h hs
  · rw [hflatten] at hp
    obtain ⟨s, -, hp⟩ := List.mem_flatMap.mp hp
    obtain ⟨hs, hr⟩ := mem_due hp
    rwa [hs]
  · rw [← hacked.aru]
    exact maxAcked_of_allDue h' hempty hs

end Covers

/-! ## The largest word -/

section Largest

variable {c : Site} {makeDigest : PoRequest E → D} {preinstalled : Nat → Nat} {sendAll full : Bool} {sm n k : Nat}
variable {ps : PoSeqPair} {a a' : Acking E D} {po po' : Po E D}

theorem ackLoop_kept (h : ackLoop c makeDigest sm n ps a = pure (full, a')) :
    a'.po.aru = a.po.aru ∧ a'.po.poAckStartServer = a.po.poAckStartServer ∧ (full = true → a'.parts.length = c.maxAckParts) := by
  induction n generalizing ps a with
  | zero => cases h
  | succ n ih =>
    unfold ackLoop at h
    split at h
    · cases h
      exact ⟨rfl, rfl, fun h => by cases h⟩
    · obtain ⟨b, hb, h⟩ := Run.bind_eq_pure.mp h
      have hpo := ackRequest_po (Run.once_eq_pure.mp hb)
      have haru : b.po.aru = a.po.aru := by rw [hpo]; rfl
      have hserver : b.po.poAckStartServer = a.po.poAckStartServer := by rw [hpo]; rfl
      split at h
      · rename_i hfull
        cases h
        exact ⟨haru, hserver, fun _ => hfull⟩
      · obtain ⟨haru', hserver', hfull⟩ := ih h
        exact ⟨haru'.trans haru, hserver'.trans hserver, hfull⟩

/-- No word is larger than the largest, so the loop comes out of it with a full message or not at all. -/
theorem ackLoop_full (haru : (a.po.aru sm).seqNum = 2 ^ 32 - 1) (hps : ps.seqNum < 2 ^ 32)
    (h : ackLoop c makeDigest sm n ps a = pure (full, a')) : full = true := by
  induction n generalizing ps a with
  | zero => cases h
  | succ n ih =>
    unfold ackLoop at h
    rw [if_neg (by omega)] at h
    obtain ⟨b, hb, h⟩ := Run.bind_eq_pure.mp h
    have hsame := ackRequest_aru (Run.once_eq_pure.mp hb)
    split at h
    · cases h
      rfl
    · exact ih (by rw [hsame]; exact haru) (Nat.mod_lt _ (by decide)) h

/-- Nor does acking get past such a server. -/
theorem ackServersLoop_full {lo len last : Nat} (hlast : last ∈ List.range' lo len)
    (haru : (a.po.aru last).seqNum = 2 ^ 32 - 1)
    (h : ackServersLoop c makeDigest preinstalled sendAll n (List.range' lo len) a = pure a') :
    a'.po.aru = a.po.aru ∧ a'.parts.length = c.maxAckParts ∧ a'.po.poAckStartServer ∈ List.range' lo len ∧
      a'.po.poAckStartServer ≤ last := by
  induction len generalizing lo a with
  | zero => cases hlast
  | succ len ih =>
    rw [List.range'_succ] at h hlast ⊢
    unfold ackServersLoop at h
    dsimp only at h
    split at h
    · cases h
    · obtain ⟨⟨full, b⟩, hb, h⟩ := Run.bind_eq_pure.mp h
      obtain ⟨haru', hserver, hfull⟩ := ackLoop_kept hb
      dsimp only at h
      split at h
      · rename_i htrue
        cases h
        refine ⟨haru', hfull htrue, ?_, ?_⟩
        · rw [hserver]
          exact List.mem_cons_self
        · rw [hserver]
          rcases List.mem_cons.mp hlast with rfl | hlast
          · exact le_refl _
          · have := (List.mem_range'_1.mp hlast).1
            dsimp only
            omega
      · rename_i hnot
        rcases List.mem_cons.mp hlast with rfl | hlast
        · refine absurd (ackLoop_full ?_ ?_ hb) hnot
          · exact haru
          · exact Nat.mod_lt _ (show 0 < 2 ^ 32 by decide)
        · obtain ⟨haru'', hparts, hmem, hle⟩ := ih hlast (by dsimp only; rw [haru']; exact haru) h
          exact ⟨haru''.trans haru', hparts, List.mem_cons_of_mem lo hmem, hle⟩

/-- So the messages never end. -/
theorem ackBatches_largest {last : Nat} (hlast : last ∈ c.all) (hstart : startServer po ≤ last)
    (haru : (po.aru last).seqNum = 2 ^ 32 - 1) (hparts : 0 < c.maxAckParts) {r : Po E D × List (List (AckPart D))} :
    ackBatches c makeDigest preinstalled n k po ≠ pure r := by
  induction k generalizing po r with
  | zero => exact fun h => by cases h
  | succ k ih =>
    intro h
    obtain ⟨a, ha, h⟩ := Run.bind_eq_pure.mp h
    obtain ⟨haru', hfull, hmem, hle⟩ := ackServersLoop_full (mem_startServers.mpr ⟨hlast, hstart⟩) haru ha
    have hnone : a.parts ≠ [] := by
      intro hnil
      rw [hnil] at hfull
      exact hparts.ne hfull
    have hpos := (List.mem_range'_1.mp (mem_startServers.mp hmem).1).1
    rw [if_neg hnone, if_pos hfull] at h
    obtain ⟨r', hr', -⟩ := Run.bind_eq_pure.mp h
    refine ih ?_ (by rw [haru']; exact haru) hr'
    rw [startServer, if_neg (by omega)]
    exact hle

end Largest

/-- **Acks in batches.** For every pair of vectors between which all requests are there, from the
first server on: the calls of `PRE_ORDER_Construct_PO_Ack` come to an end and cover what is between
the vectors exactly when no server's `aru` is at the largest word. -/
theorem ackBatches_cover_iff {c : Site} {makeDigest : PoRequest E → D} {preinstalled : Nat → Nat} {po : Po E D}
    (hparts : 0 < c.maxAckParts) (h : Ready c po) (hstart : po.poAckStartServer = 0)
    (hwords : ∀ s ∈ c.all, (po.aru s).seqNum < 2 ^ 32) :
    (∃ n k po' messages, ackBatches c makeDigest preinstalled n k po = pure (po', messages) ∧
      Covers c makeDigest po po' messages) ↔ ∀ s ∈ c.all, (po.aru s).seqNum ≠ 2 ^ 32 - 1 := by
  constructor
  · rintro ⟨n, k, po', messages, hrun, -⟩ s hs hlargest
    have hfirst : startServer po ≤ s := by
      rw [startServer, if_pos hstart]
      exact (List.mem_range'_1.mp hs).1
    exact ackBatches_largest hs hfirst hlargest hparts hrun
  · intro hbelow
    have hsmall : Small c po := ⟨h.acked, fun s hs => by have := hwords s hs; have := hbelow s hs; omega⟩
    obtain ⟨po', messages, hrun, h', hacked, hflatten, hempty, hsize⟩ :=
      ackBatches_due preinstalled h hsmall (exhausted_of_zero makeDigest hstart) hparts hwords
        (Nat.lt_succ_self _)
    exact ⟨_, _, po', messages, hrun, covers_of_due h h' hacked hflatten hempty hsize⟩

/-- A request of the second server. -/
def requestAt (seq : Nat) : PoRequest Nat := { machineId := 2, incarnation := 1, seq := ⟨1, seq⟩, events := [7] }

/-- It is there, and not acked yet. -/
def onePending (seq : Nat) : Po Nat (List Nat) :=
  { (Po.start : Po Nat (List Nat)).putSlot 2 ⟨1, seq + 1⟩ { (PoSlot.new : PoSlot Nat (List Nat)) with poRequest := some (requestAt (seq + 1)) } with
    aru := fun s => if s = 2 then ⟨1, seq + 1⟩ else .zero
    maxAcked := fun s => if s = 2 then ⟨1, seq⟩ else .zero }

theorem ready_onePending (seq : Nat) : Ready firstSite (onePending seq) := by
  refine { incarnation := fun s _ => ?_, acked := fun s _ => ?_, present := fun s _ n hn => ?_ }
  · show (if s = 2 then (⟨1, seq⟩ : PoSeqPair) else .zero).incarnation =
      (if s = 2 then (⟨1, seq + 1⟩ : PoSeqPair) else .zero).incarnation
    split <;> rfl
  · show (if s = 2 then (⟨1, seq⟩ : PoSeqPair) else .zero).seqNum ≤
      (if s = 2 then (⟨1, seq + 1⟩ : PoSeqPair) else .zero).seqNum
    split
    · exact Nat.le_succ seq
    · exact le_refl _
  · have hn : (if s = 2 then (⟨1, seq⟩ : PoSeqPair) else .zero).seqNum < n ∧
        n ≤ (if s = 2 then (⟨1, seq + 1⟩ : PoSeqPair) else .zero).seqNum := mem_dueSeqs.mp hn
    by_cases hs : s = 2
    · subst hs
      obtain rfl : n = seq + 1 := le_antisymm hn.2 hn.1
      refine ⟨requestAt (seq + 1), ?_⟩
      have hput := (Po.start : Po Nat (List Nat)).request?_putSlot 2 2 ⟨1, seq + 1⟩ ⟨1, seq + 1⟩
        { (PoSlot.new : PoSlot Nat (List Nat)) with poRequest := some (requestAt (seq + 1)) }
      rw [if_pos ⟨rfl, rfl⟩] at hput
      exact hput
    · rw [if_neg hs, if_neg hs] at hn
      exact absurd (hn.1.trans_le hn.2) (lt_irrefl _)

theorem onePending_aru (seq s : Nat) : ((onePending seq).aru s).seqNum ≤ seq + 1 := by
  show (if s = 2 then (⟨1, seq + 1⟩ : PoSeqPair) else .zero).seqNum ≤ seq + 1
  split
  · exact le_refl _
  · exact Nat.zero_le _

theorem ackBatches_onePending : ∃ n k po' messages,
    ackBatches firstSite digestOf (fun _ => 1) n k (onePending 0) = pure (po', messages) ∧
      Covers firstSite digestOf (onePending 0) po' messages :=
  (ackBatches_cover_iff (by decide) (ready_onePending 0) rfl fun s _ => (onePending_aru 0 s).trans_lt (by decide)).mpr
    fun s _ => ((onePending_aru 0 s).trans_lt (by decide)).ne

/-- The request with the largest number is acked for ever. -/
theorem ackBatches_endless : ¬ ∀ (c : Site) (makeDigest : PoRequest Nat → List Nat) (preinstalled : Nat → Nat)
    (po : Po Nat (List Nat)), 0 < c.maxAckParts → Ready c po → po.poAckStartServer = 0 →
    (∀ s ∈ c.all, (po.aru s).seqNum < 2 ^ 32) → ∃ n k po' messages,
      ackBatches c makeDigest preinstalled n k po = pure (po', messages) ∧ Covers c makeDigest po po' messages := by
  intro hall
  obtain ⟨n, k, po', messages, hrun, -⟩ := hall firstSite digestOf (fun _ => 1) (onePending (2 ^ 32 - 2)) (by decide)
    (ready_onePending _) rfl fun s _ => (onePending_aru _ s).trans_lt (by decide)
  have hfirst : startServer (onePending (2 ^ 32 - 2)) ≤ 2 := show 1 ≤ 2 by decide
  have hsecond : 2 ∈ firstSite.all := by decide
  exact ackBatches_largest hsecond hfirst rfl (by decide) hrun

end Spire.Incarnations
