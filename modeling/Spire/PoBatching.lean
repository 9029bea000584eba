import Spire.MerkleBatch
import Spire.PoRequests

/-!
# Batching updates into PO-Requests

`PRE_ORDER_Construct_PO_Request` copies the updates at the front of the queue behind one another until
the next would not fit, and `PRE_ORDER_Send_PO_Request` goes on while the queue is not empty. The walks of
the validator and of the execution over such a message are those of `PoRequests`.

The two sides meet at `Lies`: the bytes of the updates, one behind the other. The walks come to each of
them, and execution delivers them as they were queued (`events_of_lies`). Whether the validator accepts
them depends on one thing. An update that its client has sent with digests of a tree is accepted with
them, but copied and looked at without, and the PO-Request is refused.
-/

namespace Spire.Validate

open Lib Lib.Reader Wire Merkle ClientUpdates PreOrder

variable {R : Receiver} {m m' u : Memory} {ignore : Bool} {mess n depth k B offset : Nat}

/-! ## Updates that are accepted -/

/-- What `VAL_Validate_Message` asks of an update that has come in `n` bytes. -/
structure UpdateAccepted (R : Receiver) (m : Memory) (ignore : Bool) (mess n : Nat) : Prop where
  number : SignedMessage.mtNum.get m mess ≤ 256
  index : SignedMessage.mtIndex.get m mess ≤ SignedMessage.mtNum.get m mess
  size : n = SignedMessage.len.get m mess + SignedMessage.size +
    digestsOf (SignedMessage.mtNum.get m mess) * digestSize
  fits : n ≤ maxPacketSize
  known : Known R (ClientUpdate.read m mess)
  current : Current R ignore (ClientUpdate.read m mess)
  signed : Yields (isValidSignature R ((ClientUpdate.read m mess).signatureType R.config)
    (ClientUpdate.read m mess).machineId mess) m true
  length : Update.size ≤ SignedMessage.len.get m mess ∧ SignedMessage.len.get m mess ≤ Update.size + updateSize

theorem mtDigests_eq_digestsOf (h : n ≤ 256) : mtDigests n = some (digestsOf n) := by
  obtain ⟨d, hd⟩ := exists_mtDigests h
  rw [digestsOf, hd, Option.getD_some]

theorem yields_validateMessage_update (htype : SignedMessage.type.get m mess = PacketType.update.code) :
    Yields (validateMessage R (depth + 1) ignore mess n) m () ↔ UpdateAccepted R m ignore mess n := by
  have hcode : PacketType.ofCode (SignedMessage.type.get m mess) = some .update := by
    rw [htype, PacketType.ofCode_code]
  have hdefined : SignedMessage.type.get m mess ≠ PacketType.dummy.code ∧
      SignedMessage.type.get m mess < PacketType.all.length := by
    rw [htype]
    decide
  have hcontent : ∀ d, n = SignedMessage.len.get m mess + SignedMessage.size + d * digestSize →
      n - SignedMessage.size - d * digestSize = SignedMessage.len.get m mess := by
    intro d hd
    omega
  simp only [validateMessage, validateSignedMessage, yields_bind, yields_require, Field.yields_read, yields_countDigests,
    exists_eq_left, exists_and_left, exists_unit, hcode, ClientUpdate.yields_signatureType htype, validateContent,
    validateUpdate]
  constructor
  · rintro ⟨⟨-, -, ⟨hnumber, hindex⟩, d, hd, hsize, hfits, t, rfl, hvalid, hsender, hcurrent, valid, hsigned, rfl⟩, d', hd', hlength⟩
    obtain rfl := Option.some.inj (hd.symm.trans hd')
    obtain rfl := Option.some.inj (hd.symm.trans (mtDigests_eq_digestsOf hnumber))
    rw [hcontent _ hsize] at hlength
    exact ⟨hnumber, hindex, hsize, hfits, ⟨hvalid, hsender⟩, (yields_current htype hvalid).mp hcurrent, hsigned, hlength⟩
  · intro h
    have hd := mtDigests_eq_digestsOf h.number
    have hleast : SignedMessage.size ≤ n := by
      have := h.size
      omega
    refine ⟨⟨hleast, hdefined, ⟨h.number, h.index⟩, _, hd, h.size, h.fits, _, rfl, h.known.1, h.known.2,
      (yields_current htype h.known.1).mpr h.current, true, h.signed, rfl⟩, _, hd, ?_⟩
    rw [hcontent _ h.size]
    exact h.length

/-- An update that has been accepted as it came. If it is one of the server itself, its contents are long
enough to be a message. -/
structure Received (R : Receiver) (ignore : Bool) (u : Memory) : Prop where
  type : SignedMessage.type.get u 0 = PacketType.update.code
  accepted : ∃ depth n, Yields (validateMessage R depth ignore 0 n) u ()
  contents : SignedMessage.machineId.get u 0 = R.me →
    Update.size + (SignedMessage.size - 8) ≤ SignedMessage.len.get u 0

theorem Received.updateAccepted (h : Received R ignore u) : ∃ n, UpdateAccepted R u ignore 0 n := by
  obtain ⟨depth, n, haccepted⟩ := h.accepted
  cases depth with
  | zero => exact absurd haccepted yields_stop
  | succ depth => exact ⟨n, (yields_validateMessage_update h.type).mp haccepted⟩

/-- An update is small, but for its digests. -/
theorem Received.small (h : Received R ignore u) : eventSize u 0 ≤ SignedMessage.size + Update.size + updateSize := by
  obtain ⟨n, haccepted⟩ := h.updateAccepted
  have hlength := haccepted.length.2
  unfold eventSize
  omega

/-- The update `u`, without its digests, lies at `mess`. -/
def Copied (m : Memory) (mess : Nat) (u : Memory) : Prop := ∀ i < eventSize u 0, m (mess + i) = u (0 + i)

section Copied

variable (hcopied : Copied m mess u)

include hcopied

theorem Copied.field {f : Field} (hf : f.offset + f.width ≤ SignedMessage.size) : f.get m mess = f.get u 0 :=
  Field.get_congr SignedMessage.size hf fun i hi => hcopied i (Nat.lt_of_lt_of_le hi (Nat.le_add_left _ _))

theorem Copied.eventSize_eq : eventSize m mess = eventSize u 0 := by
  unfold eventSize
  rw [hcopied.field (f := SignedMessage.len) (by decide)]

/-- A field of the body that is within the update. -/
theorem Copied.body {f : Field} {a : Nat} (hf : a + f.offset + f.width ≤ SignedMessage.len.get u 0) :
    f.get m (SignedMessage.content mess + a) = f.get u (SignedMessage.content 0 + a) := by
  refine Memory.int_congr fun i hi => ?_
  have hbyte := hcopied (SignedMessage.size + a + f.offset + i) (by unfold eventSize; omega)
  simp only [SignedMessage.content, ← Nat.add_assoc] at hbyte ⊢
  exact hbyte

theorem Copied.isValidSignature {t : SigType} {sender : Nat} {valid : Bool}
    (ht : t = .server ∨ t = .tpmServer ∨ t = .client) :
    Yields (isValidSignature R t sender mess) m valid ↔ Yields (isValidSignature R t sender 0) u valid := by
  have hlen : SignedMessage.len.get m mess = SignedMessage.len.get u 0 := hcopied.field (by decide)
  have hsig : SignedMessage.sig.get m mess = SignedMessage.sig.get u 0 :=
    Blob.get_congr SignedMessage.size (by decide) fun i hi => hcopied i (Nat.lt_of_lt_of_le hi (Nat.le_add_left _ _))
  have hcovered : m.bytes (mess + signatureSize) (SignedMessage.len.get u 0 + SignedMessage.size - signatureSize) =
      u.bytes (0 + signatureSize) (SignedMessage.len.get u 0 + SignedMessage.size - signatureSize) := by
    refine Memory.bytes_congr fun i hi => ?_
    have hbyte := hcopied (signatureSize + i) (by
      unfold eventSize
      simp only [SignedMessage.size, signatureSize] at hi ⊢
      omega)
    rwa [← Nat.add_assoc, ← Nat.add_assoc] at hbyte
  rcases ht with rfl | rfl | rfl
  all_goals
    simp only [Validate.isValidSignature, messageDigest, yields_bind, Field.yields_read, Blob.yields_read, yields_bytes,
      exists_eq_left, yields_pure, hlen, hsig, hcovered]

/-- **A copy is accepted** if the update has no digests, wherever it lies. -/
theorem Copied.accepted (h : Received R ignore u) (hnumber : SignedMessage.mtNum.get u 0 ≤ 1) :
    UpdateAccepted R m ignore mess (eventSize u 0) := by
  obtain ⟨n, haccepted⟩ := h.updateAccepted
  have hlen : SignedMessage.len.get m mess = SignedMessage.len.get u 0 := hcopied.field (by decide)
  have hmtNum : SignedMessage.mtNum.get m mess = SignedMessage.mtNum.get u 0 := hcopied.field (by decide)
  have hmtIndex : SignedMessage.mtIndex.get m mess = SignedMessage.mtIndex.get u 0 := hcopied.field (by decide)
  have hmachineId : SignedMessage.machineId.get m mess = SignedMessage.machineId.get u 0 := hcopied.field (by decide)
  have hincarnation : SignedMessage.incarnation.get m mess = SignedMessage.incarnation.get u 0 :=
    hcopied.field (by decide)
  have hcounter : SignedMessage.monotonicCounter.get m mess = SignedMessage.monotonicCounter.get u 0 :=
    hcopied.field (by decide)
  have hseqNum : Update.seqNum.get m (SignedMessage.content mess) = Update.seqNum.get u (SignedMessage.content 0) :=
    hcopied.body (f := Update.seqNum) (a := 0) (by rw [Nat.zero_add]; exact haccepted.length.1)
  have hkind : (ClientUpdate.read m mess).signatureType R.config = (ClientUpdate.read u 0).signatureType R.config := by
    unfold ClientUpdate.signatureType ClientUpdate.read
    rw [hmachineId, hcounter, hseqNum]
  have hdigests : digestsOf (SignedMessage.mtNum.get u 0) = 0 := by
    unfold digestsOf mtDigests
    rw [if_pos hnumber, Option.getD_some]
  have hfits : eventSize u 0 ≤ maxPacketSize := h.small.trans (by decide)
  refine
    { number := hmtNum ▸ haccepted.number, index := by rw [hmtNum, hmtIndex]; exact haccepted.index
      size := by rw [hmtNum, hdigests, hlen, Nat.zero_mul]; rfl
      fits := hfits, known := ?_, current := ?_, signed := ?_, length := hlen ▸ haccepted.length }
  · unfold Known
    rw [hkind, show (ClientUpdate.read m mess).machineId = (ClientUpdate.read u 0).machineId from hmachineId]
    exact haccepted.known
  · rcases haccepted.current with hignore | ⟨hme, hpayload⟩ | hserver
    · exact .inl hignore
    · refine .inr (.inl ⟨hmachineId.trans hme, ?_⟩)
      have hcontents := h.contents hme
      exact (hcopied.body (f := SignedMessage.type) (a := Update.size) hcontents).trans hpayload
    · refine .inr (.inr fun hkind' => ?_)
      rw [hkind] at hkind'
      show SignedMessage.incarnation.get m mess = R.installedIncarnations (SignedMessage.machineId.get m mess)
      rw [hincarnation, hmachineId]
      exact hserver hkind'
  · rw [hkind, show (ClientUpdate.read m mess).machineId = (ClientUpdate.read u 0).machineId from hmachineId]
    exact (hcopied.isValidSignature (signatureType_kind haccepted.known.1)).mpr haccepted.signed

end Copied

/-- **An update with digests is refused** where it lies without them. -/
theorem mtNum_of_accepted (h : UpdateAccepted R m ignore mess (eventSize m mess)) : SignedMessage.mtNum.get m mess ≤ 1 := by
  have hsize := h.size
  have hdigests := mtDigests_eq_digestsOf h.number
  unfold eventSize at hsize
  have hzero : digestsOf (SignedMessage.mtNum.get m mess) = 0 := by
    simp only [digestSize] at hsize
    omega
  rw [hzero] at hdigests
  exact le_two_pow_of_mtDigests hdigests

/-! ## Updates one behind the other -/

/-- The updates lie one behind the other from an address on. -/
def Lies (m : Memory) : Nat → List Memory → Prop
  | _, [] => True
  | a, u :: us => Copied m a u ∧ Lies m (a + eventSize u 0) us

/-- How long they are together. -/
def totalSize (us : List Memory) : Nat := (us.map fun u => eventSize u 0).sum

theorem totalSize_cons (u : Memory) (us : List Memory) : totalSize (u :: us) = eventSize u 0 + totalSize us := by
  unfold totalSize
  rw [List.map_cons, List.sum_cons]

theorem Lies.congr {a : Nat} {us : List Memory} (h : Lies m a us) (hsame : ∀ i, a ≤ i → m' i = m i) : Lies m' a us := by
  induction us generalizing a with
  | nil => trivial
  | cons u us ih =>
    exact ⟨fun i hi => (hsame _ (Nat.le_add_right _ _)).trans (h.1 i hi), ih h.2 fun i hi => hsame i (by omega)⟩

/-- The walks come to the updates, one after the other. -/
theorem Lies.positions {a : Nat} {us : List Memory} (h : Lies m a us) :
    List.Forall₂ (Copied m) (positions (eventSize m) a us.length) us := by
  induction us generalizing a with
  | nil => exact .nil
  | cons u us ih =>
    rw [List.length_cons, positions_succ, h.1.eventSize_eq]
    exact .cons h.1 (ih h.2)

/-- **The validator accepts them**, if they are accepted as they came and have no digests. -/
theorem Lies.validateEvents {po : Nat} {us : List Memory} (h : Lies m (po + offset) us)
    (hreceived : ∀ u ∈ us, Received R ignore u) (hnumber : ∀ u ∈ us, SignedMessage.mtNum.get u 0 ≤ 1)
    (hsize : n = offset + totalSize us) (hmost : n ≤ maxPacketSize) :
    Yields (validateEvents (validateMessage R (depth + 1)) ignore n us.length (po + offset) offset) m n := by
  induction us generalizing offset with
  | nil => exact yields_pure.mpr hsize
  | cons u us ih =>
    rw [totalSize_cons] at hsize
    have hevent := h.1.eventSize_eq
    have hheader : SignedMessage.size ≤ eventSize u 0 := Nat.le_add_left _ _
    obtain ⟨hroom, hbody⟩ := room_iff m (po + offset) po (by omega) hmost (show offset ≤ 2 * maxPacketSize by omega)
    have hown := hreceived u List.mem_cons_self
    have htype : SignedMessage.type.get m (po + offset) = PacketType.update.code :=
      (h.1.field (by decide)).trans hown.type
    have haccepted := h.1.accepted hown (hnumber u List.mem_cons_self)
    have hlen : SignedMessage.len.get m (po + offset) + SignedMessage.size = eventSize u 0 := hevent
    have hwrap : wrap32 (eventSize u 0) = eventSize u 0 := by
      have hsmall := hown.small
      simp only [SignedMessage.size, Update.size, updateSize] at hsmall
      exact Nat.mod_eq_of_lt (by omega)
    have hnext : wrap32 (offset + eventSize u 0) = offset + eventSize u 0 := by
      simp only [maxPacketSize] at hmost
      exact Nat.mod_eq_of_lt (by omega)
    have hrest := @ih (offset + eventSize u 0) (by rw [← Nat.add_assoc]; exact h.2)
      (fun u' hu' => hreceived u' (List.mem_cons_of_mem _ hu')) (fun u' hu' => hnumber u' (List.mem_cons_of_mem _ hu'))
      (by omega)
    simp only [List.length_cons, Validate.validateEvents, yields_bind, yields_require, Field.yields_read, exists_eq_left,
      exists_unit, hlen, hwrap, hnext]
    refine ⟨hroom.mpr (by omega), hbody.mpr (.inr (by omega)), htype, (yields_validateMessage_update htype).mpr haccepted, ?_⟩
    rw [Nat.add_assoc]
    exact hrest

/-- Events that are accepted have no digests. -/
theorem mtNum_of_validateEvents {last : Nat} (h : Yields (validateEvents (validateMessage R depth) ignore n k mess offset) m last) :
    ∀ p ∈ positions (eventSize m) mess k, SignedMessage.mtNum.get m p ≤ 1 := by
  induction k generalizing mess offset with
  | zero => exact fun p hp => absurd hp List.not_mem_nil
  | succ k ih =>
    simp only [validateEvents, yields_bind, yields_require, Field.yields_read, exists_eq_left, exists_unit] at h
    obtain ⟨-, -, htype, hvalid, hrest⟩ := h
    rw [positions_succ]
    intro p hp
    rcases List.mem_cons.mp hp with rfl | hp
    · obtain ⟨-, hwrap, -⟩ := accepted_update htype hvalid
      have hsize : wrap32 (SignedMessage.len.get m p + SignedMessage.size) = eventSize m p := hwrap
      rw [hsize] at hvalid
      cases depth with
      | zero => exact absurd hvalid yields_stop
      | succ depth => exact mtNum_of_accepted ((yields_validateMessage_update htype).mp hvalid)
    · exact ih hrest p hp

/-! ## The constructor -/

/-- What `PRE_ORDER_Construct_PO_Request` depends on. -/
structure Sender where
  me : Nat
  /-- `recovery_status[My_Server_ID]`. -/
  status : RecoveryStatus
  /-- `new_incarnation_val[My_Server_ID]`. -/
  newIncarnation : Nat
  poSeq : PoSeqPair
  /-- `po_request_dll`. -/
  queue : List Memory

/-- Assign to a field of the structure at an address. -/
def setField (f : Field) (a v : Nat) (m : Memory) : Memory := m.write (a + f.offset) (leBytes f.width v)

/-- From here on there is room for the digests of a message alone. -/
def cutoff : Nat := maxPacketSize - digestSize * maxMerkleDigests

/-- What the loop fills: the message, where the next update goes, and what is counted. -/
structure Packing where
  request : Memory
  p : Nat
  bytes : Nat
  numEvents : Nat

/-- The loop that copies updates from the front of the queue. -/
def packLoop (specialFirst : Bool) : List Memory → Packing → Packing × List Memory
  | [], s => (s, [])
  | mess :: queue, s =>
    if s.bytes < cutoff then
      let thisMessLen := wrap32 (SignedMessage.len.get mess 0 + SignedMessage.size)
      if wrap32 (s.bytes + thisMessLen) < cutoff then
        let s := { request := s.request.write s.p (mess.bytes 0 thisMessLen), p := s.p + thisMessLen
                   bytes := wrap32 (s.bytes + thisMessLen), numEvents := s.numEvents + 1 }
        if specialFirst = true then
          ({ s with request := setField SignedMessage.monotonicCounter 0 1 s.request }, queue)
        else packLoop specialFirst queue s
      else (s, mess :: queue)
    else (s, mess :: queue)

/-- A recovering server has not sent a PO-Request yet. -/
def Sender.specialFirst (s : Sender) : Bool := s.status = .recovery ∧ s.poSeq.seqNum = 0

/-- The first update is the one that the server itself has made. -/
def Sender.ready (s : Sender) : Bool :=
  match s.queue with
  | [] => false
  | mess :: _ => SignedMessage.machineId.get mess 0 = s.me ∧ Update.seqNum.get mess (SignedMessage.content 0) = 1

/-- The message before anything is copied. -/
def emptyRequest (s : Sender) (poSeq : PoSeqPair) : Packing :=
  let poRequest := setField SignedMessage.machineId 0 s.me fun _ => 0
  let poRequest := setField SignedMessage.incarnation 0 s.newIncarnation poRequest
  let poRequest := setField SignedMessage.type 0 PacketType.poRequest.code poRequest
  let poRequest := setField PoRequest.incarnation (SignedMessage.content 0) poSeq.incarnation poRequest
  let poRequest := setField PoRequest.seqNum (SignedMessage.content 0) poSeq.seqNum poRequest
  { request := poRequest, p := SignedMessage.content 0 + PoRequest.size
    bytes := SignedMessage.size + PoRequest.size, numEvents := 0 }

/-- The message when everything is copied. -/
def finishRequest (packed : Packing) : Memory :=
  setField SignedMessage.len 0 (packed.bytes - SignedMessage.size)
    (setField PoRequest.numEvents (SignedMessage.content 0) packed.numEvents packed.request)

/-- `PRE_ORDER_Construct_PO_Request`: the message and what is left, unless the server has to wait. -/
def construct (s : Sender) : Option (Memory × Sender) :=
  if s.specialFirst = true ∧ s.ready = false then none
  else
    let poSeq := { s.poSeq with seqNum := s.poSeq.seqNum + 1 }
    let packed := packLoop s.specialFirst s.queue (emptyRequest s poSeq)
    some (finishRequest packed.1, { s with poSeq := poSeq, queue := packed.2 })

theorem get_setField {f : Field} {a v : Nat} : f.get (setField f a v m) a = v % 256 ^ f.width := int_write _ _ _

theorem setField_outside {f : Field} {a v i : Nat} (hi : i < a + f.offset ∨ a + f.offset + f.width ≤ i) :
    setField f a v m i = m i := by
  refine Memory.write_outside ?_
  rwa [length_leBytes]

/-- **What the loop packs**: updates from the front of the queue, one behind the other; at least one, if
there is room for any. -/
theorem packLoop_spec {specialFirst : Bool} {queue : List Memory} {s : Packing}
    (hsmall : ∀ u ∈ queue, eventSize u 0 ≤ SignedMessage.size + Update.size + updateSize) (hp : s.p = s.bytes)
    (hheader : SignedMessage.size ≤ s.p) (hroom : s.bytes < cutoff) :
    ∃ taken, queue = taken ++ (packLoop specialFirst queue s).2 ∧
      (packLoop specialFirst queue s).1.numEvents = s.numEvents + taken.length ∧
        (packLoop specialFirst queue s).1.bytes = s.bytes + totalSize taken ∧ s.bytes + totalSize taken < cutoff ∧
          Lies (packLoop specialFirst queue s).1.request s.p taken ∧
            (∀ i, SignedMessage.size ≤ i → i < s.p → (packLoop specialFirst queue s).1.request i = s.request i) ∧
              (queue ≠ [] → s.bytes + (SignedMessage.size + Update.size + updateSize) < cutoff → taken ≠ []) := by
  induction queue generalizing s with
  | nil => exact ⟨[], rfl, rfl, rfl, hroom, trivial, fun _ _ _ => rfl, fun h => absurd rfl h⟩
  | cons mess queue ih =>
    have hcutoff : cutoff = 31880 := rfl
    have hfirst := hsmall mess List.mem_cons_self
    have hsize : eventSize mess 0 = SignedMessage.len.get mess 0 + SignedMessage.size := rfl
    have hlen : wrap32 (SignedMessage.len.get mess 0 + SignedMessage.size) = eventSize mess 0 := by
      simp only [SignedMessage.size, Update.size, updateSize] at hfirst hsize ⊢
      rw [← hsize]
      exact Nat.mod_eq_of_lt (by omega)
    have hsum : wrap32 (s.bytes + eventSize mess 0) = s.bytes + eventSize mess 0 := by
      simp only [SignedMessage.size, Update.size, updateSize] at hfirst
      exact Nat.mod_eq_of_lt (by omega)
    unfold packLoop
    simp only [hlen, hsum]
    rw [if_pos hroom]
    by_cases hfits : s.bytes + eventSize mess 0 < cutoff
    · rw [if_pos hfits]
      have hcopied : Copied (s.request.write s.p (mess.bytes 0 (eventSize mess 0))) s.p mess :=
        fun i hi => Memory.write_bytes hi
      have hbefore : ∀ i < s.p, s.request.write s.p (mess.bytes 0 (eventSize mess 0)) i = s.request i :=
        fun i hi => Memory.write_outside (.inl hi)
      cases specialFirst with
      | true =>
        rw [if_pos rfl]
        have hcounter : ∀ i, SignedMessage.size ≤ i → setField SignedMessage.monotonicCounter 0 1
            (s.request.write s.p (mess.bytes 0 (eventSize mess 0))) i =
              s.request.write s.p (mess.bytes 0 (eventSize mess 0)) i :=
          fun i hi => setField_outside (.inr hi)
        have hone : totalSize [mess] = eventSize mess 0 := by rw [totalSize_cons]; rfl
        refine ⟨[mess], rfl, rfl, by rw [hone], by rwa [hone], ⟨fun i hi => ?_, trivial⟩, fun i hi hlt => ?_,
          fun _ _ => List.cons_ne_nil _ _⟩
        · exact (hcounter _ (by omega)).trans (hcopied i hi)
        · exact (hcounter i hi).trans (hbefore i hlt)
      | false =>
        rw [if_neg Bool.false_ne_true]
        obtain ⟨taken, hqueue, hnum, hbytes, hless, hlies, hsame, -⟩ := @ih
          { request := s.request.write s.p (mess.bytes 0 (eventSize mess 0)), p := s.p + eventSize mess 0
            bytes := s.bytes + eventSize mess 0, numEvents := s.numEvents + 1 }
          (fun u hu => hsmall u (List.mem_cons_of_mem _ hu)) (by rw [← hp]) (by show _ ≤ s.p + _; omega) hfits
        have hall : totalSize (mess :: taken) = eventSize mess 0 + totalSize taken := totalSize_cons _ _
        refine ⟨mess :: taken, by rw [List.cons_append, ← hqueue], ?_, ?_, ?_, ⟨fun i hi => ?_, hlies⟩, fun i hi hlt => ?_,
          fun _ _ => List.cons_ne_nil _ _⟩
        · rw [hnum, List.length_cons]
          show s.numEvents + 1 + _ = _
          omega
        · rw [hbytes, hall]
          show s.bytes + eventSize mess 0 + _ = _
          omega
        · rw [hall, ← Nat.add_assoc]
          exact hless
        · exact (hsame _ (by omega) (by show _ < s.p + _; omega)).trans (hcopied i hi)
        · exact (hsame i hi (by show _ < s.p + _; omega)).trans (hbefore i hlt)
    · rw [if_neg hfits]
      refine ⟨[], rfl, rfl, rfl, hroom, trivial, fun _ _ _ => rfl, fun _ hmore => absurd ?_ hfits⟩
      omega

/-- The server is recovering, and the update that its first PO-Request is for is not there yet. -/
def Sender.Waits (s : Sender) : Prop := s.specialFirst = true ∧ s.ready = false

/-- The message carries the updates and nothing else, and has room for the digests of its own batch. -/
structure Carries (request : Memory) (us : List Memory) : Prop where
  lies : Lies request (SignedMessage.content 0 + PoRequest.size) us
  number : numEvents request (SignedMessage.content 0) = us.length
  length : SignedMessage.len.get request 0 = PoRequest.size + totalSize us
  room : SignedMessage.size + PoRequest.size + totalSize us < cutoff

theorem length_le_totalSize (us : List Memory) : us.length ≤ totalSize us := by
  induction us with
  | nil => exact le_refl _
  | cons u us ih =>
    have hheader : SignedMessage.size ≤ eventSize u 0 := Nat.le_add_left _ _
    rw [totalSize_cons, List.length_cons]
    simp only [SignedMessage.size] at hheader
    omega

/-- What the message is finished with. -/
theorem finishRequest_spec (packed : Packing) :
    numEvents (finishRequest packed) (SignedMessage.content 0) = packed.numEvents % 256 ^ 4 ∧
      SignedMessage.len.get (finishRequest packed) 0 = (packed.bytes - SignedMessage.size) % 256 ^ 4 ∧
        ∀ i, SignedMessage.content 0 + PoRequest.size ≤ i → finishRequest packed i = packed.request i := by
  unfold finishRequest
  refine ⟨?_, get_setField, fun i hi => ?_⟩
  · have hevents : numEvents (setField PoRequest.numEvents (SignedMessage.content 0) packed.numEvents packed.request)
        (SignedMessage.content 0) = packed.numEvents % 256 ^ 4 := get_setField
    rw [← hevents]
    refine Memory.int_congr fun j _ => setField_outside (.inr ?_)
    simp only [SignedMessage.len, SignedMessage.content, SignedMessage.size, PoRequest.numEvents]
    omega
  · simp only [SignedMessage.content, SignedMessage.size, PoRequest.size] at hi
    rw [setField_outside, setField_outside]
    all_goals
      refine .inr ?_
      simp only [SignedMessage.len, SignedMessage.content, SignedMessage.size, PoRequest.numEvents]
      omega

/-- **What the constructor makes**: a message that carries the updates at the front of the queue. -/
theorem construct_spec {s : Sender} (hsmall : ∀ u ∈ s.queue, eventSize u 0 ≤ SignedMessage.size + Update.size + updateSize)
    (hready : ¬ s.Waits) :
    ∃ request s' taken, construct s = some (request, s') ∧ s.queue = taken ++ s'.queue ∧ Carries request taken ∧
      (s.queue ≠ [] → taken ≠ []) ∧ ¬ s'.Waits := by
  have hcutoff : cutoff = 31880 := rfl
  have hstart : SignedMessage.size + PoRequest.size = 168 := rfl
  obtain ⟨taken, hqueue, hnum, hbytes, hroom, hlies, -, hsome⟩ := @packLoop_spec s.specialFirst s.queue
    (emptyRequest s { s.poSeq with seqNum := s.poSeq.seqNum + 1 }) hsmall rfl (Nat.le_of_ble_eq_true rfl)
    (Nat.lt_of_lt_of_le (show 168 < 31880 by decide) (le_refl _))
  obtain ⟨hevents, hlen, hsame⟩ := finishRequest_spec
    (packLoop s.specialFirst s.queue (emptyRequest s { s.poSeq with seqNum := s.poSeq.seqNum + 1 })).1
  have hless : 168 + totalSize taken < 31880 := hroom
  have hfew := length_le_totalSize taken
  refine ⟨_, _, taken, if_neg hready, hqueue,
    { lies := hlies.congr hsame, number := ?_, length := ?_, room := hroom }, fun hne => hsome hne ?_, ?_⟩
  · rw [hevents, hnum, Nat.mod_eq_of_lt]
    · exact Nat.zero_add _
    · show 0 + taken.length < _
      omega
  · rw [hlen, hbytes, Nat.mod_eq_of_lt]
    · show 168 + totalSize taken - 156 = 12 + totalSize taken
      omega
    · show 168 + totalSize taken - 156 < _
      omega
  · show 168 + (156 + 16 + 300) < 31880
    decide
  · rintro ⟨hspecial, -⟩
    exact absurd (of_decide_eq_true hspecial).2 (Nat.succ_ne_zero _)

/-! ## The round trip -/

/-- A PO-Request that is accepted, that puts the updates into the queue of execution byte for byte and in
their order, and that fits into a packet with the digests of its own batch. -/
structure Delivers (R : Receiver) (ignore : Bool) (depth : Nat) (request : Memory) (us : List Memory) : Prop where
  accepted : Yields (validatePoRequest (validateMessage R (depth + 1)) ignore (SignedMessage.content 0)
    (SignedMessage.len.get request 0)) request ()
  executed : ∃ eventq, Yields (executeEvents (numEvents request (SignedMessage.content 0))
      (SignedMessage.content 0 + PoRequest.size)) request eventq ∧
    List.Forall₂ (fun p u => request.bytes p (eventSize request p) = u.bytes 0 (eventSize u 0)) eventq us
  fits : SignedMessage.size + SignedMessage.len.get request 0 + maxMerkleDigests * digestSize ≤ maxPacketSize

/-- A message that carries updates without digests delivers them. -/
theorem Carries.delivers {request : Memory} {us : List Memory} (h : Carries request us)
    (hreceived : ∀ u ∈ us, Received R ignore u) (hnumber : ∀ u ∈ us, SignedMessage.mtNum.get u 0 ≤ 1) :
    Delivers R ignore depth request us := by
  have hcutoff : cutoff = 31880 := rfl
  have hstart : SignedMessage.size + PoRequest.size = 168 := rfl
  have hroom := h.room
  have hmost : PoRequest.size + totalSize us ≤ maxPacketSize := by
    simp only [maxPacketSize]
    omega
  refine { accepted := ?_, executed := ⟨_, executeEvents_yields _ _ _, ?_⟩, fits := ?_ }
  · have hevents := @Lies.validateEvents R request ignore _ depth _ _ us h.lies hreceived hnumber rfl hmost
    simp only [validatePoRequest, yields_bind, yields_require, Field.yields_read, exists_eq_left, exists_unit]
    have hnum : PoRequest.numEvents.get request (SignedMessage.content 0) = us.length := h.number
    rw [h.length, hnum]
    exact ⟨Nat.le_add_right _ _, _, hevents, rfl⟩
  · rw [h.number]
    refine h.lies.positions.imp fun p u hcopied => ?_
    rw [hcopied.eventSize_eq]
    exact Memory.bytes_congr hcopied
  · rw [h.length]
    simp only [maxMerkleDigests, digestSize, maxPacketSize]
    omega

theorem exists_of_forall₂ {α β : Type*} {r : α → β → Prop} {xs : List α} {ys : List β} (h : List.Forall₂ r xs ys) {y : β}
    (hy : y ∈ ys) : ∃ x ∈ xs, r x y := by
  induction h with
  | nil => exact absurd hy List.not_mem_nil
  | @cons x y' xs ys hfirst _ ih =>
    rcases List.mem_cons.mp hy with rfl | hy
    · exact ⟨x, List.mem_cons_self, hfirst⟩
    · obtain ⟨x', hx', hr⟩ := ih hy
      exact ⟨x', List.mem_cons_of_mem _ hx', hr⟩

/-- What is delivered had no digests. -/
theorem Delivers.mtNum {request : Memory} {us : List Memory} (h : Delivers R ignore depth request us) :
    ∀ u ∈ us, SignedMessage.mtNum.get u 0 ≤ 1 := by
  obtain ⟨eventq, hyields, hbytes⟩ := h.executed
  obtain rfl := hyields.unique (executeEvents_yields _ _ _)
  have haccepted := h.accepted
  simp only [validatePoRequest, yields_bind, yields_require, Field.yields_read, exists_eq_left, exists_unit] at haccepted
  obtain ⟨-, last, hwalk, -⟩ := haccepted
  intro u hu
  obtain ⟨p, hp, hsame⟩ := exists_of_forall₂ hbytes hu
  have hlength := congrArg List.length hsame
  rw [Memory.length_bytes, Memory.length_bytes] at hlength
  rw [hlength, Memory.bytes_eq_iff] at hsame
  have hnumber : SignedMessage.mtNum.get request p = SignedMessage.mtNum.get u 0 := Copied.field hsame (by decide)
  rw [← hnumber]
  exact mtNum_of_validateEvents hwalk p hp

/-- `PRE_ORDER_Construct_PO_Request` until the queue is empty or the server has to wait: the messages, and
the server after them. -/
def constructAll : Nat → Sender → List Memory × Sender
  | 0, s => ([], s)
  | fuel + 1, s =>
    if s.queue.isEmpty = true then ([], s)
    else
      match construct s with
      | none => ([], s)
      | some (request, s') => (request :: (constructAll fuel s').1, (constructAll fuel s').2)

/-- **What a run constructs** if the server need not wait. -/
theorem constructAll_spec {s : Sender} (fuel : Nat) (hfuel : s.queue.length ≤ fuel)
    (hsmall : ∀ u ∈ s.queue, eventSize u 0 ≤ SignedMessage.size + Update.size + updateSize) (hready : ¬ s.Waits) :
    ∃ batches, s.queue = batches.flatten ∧ List.Forall₂ Carries (constructAll fuel s).1 batches ∧
      (constructAll fuel s).2.queue = [] := by
  induction fuel generalizing s with
  | zero =>
    have hempty : s.queue = [] := List.eq_nil_of_length_eq_zero (Nat.le_zero.mp hfuel)
    exact ⟨[], hempty, .nil, hempty⟩
  | succ fuel ih =>
    unfold constructAll
    by_cases hempty : s.queue.isEmpty = true
    · rw [if_pos hempty]
      exact ⟨[], List.isEmpty_iff.mp hempty, .nil, List.isEmpty_iff.mp hempty⟩
    · rw [if_neg hempty]
      obtain ⟨request, s', taken, hconstruct, hqueue, hcarries, hsome, hready'⟩ := construct_spec hsmall hready
      have hne : s.queue ≠ [] := fun h => hempty (List.isEmpty_iff.mpr h)
      have htaken := List.length_pos_iff.mpr (hsome hne)
      have hless : s'.queue.length ≤ fuel := by
        rw [hqueue, List.length_append] at hfuel
        omega
      obtain ⟨batches, hbatches, hall, hdone⟩ := ih hless
        (fun u hu => hsmall u (hqueue ▸ List.mem_append_right taken hu)) hready'
      rw [hconstruct]
      exact ⟨taken :: batches, by rw [List.flatten_cons, ← hbatches, ← hqueue], .cons hcarries hall, hdone⟩

/-- The queue is delivered: each message of the run delivers a part of it, one part after the other, and
nothing is left unless the server has to wait. -/
def QueueDelivered (R : Receiver) (ignore : Bool) (depth : Nat) (s : Sender) : Prop :=
  ∃ batches, s.queue = batches.flatten ++ (constructAll s.queue.length s).2.queue ∧
    List.Forall₂ (Delivers R ignore depth) (constructAll s.queue.length s).1 batches ∧
      ((constructAll s.queue.length s).2.queue = [] ∨ s.Waits)

theorem constructAll_waits {s : Sender} (h : s.Waits) (fuel : Nat) : constructAll fuel s = ([], s) := by
  cases fuel with
  | zero => rfl
  | succ fuel =>
    have hnone : construct s = none := if_pos h
    unfold constructAll
    rw [hnone]
    exact ite_self _

/-- What is in a queue that is delivered has no digests. -/
theorem mtNum_of_queueDelivered {s : Sender} (h : QueueDelivered R ignore depth s) (hready : ¬ s.Waits) :
    ∀ u ∈ s.queue, SignedMessage.mtNum.get u 0 ≤ 1 := by
  obtain ⟨batches, hqueue, hdelivers, hdone⟩ := h
  rw [hdone.resolve_right hready, List.append_nil] at hqueue
  intro u hu
  rw [hqueue] at hu
  obtain ⟨us, hus, hu⟩ := List.mem_flatten.mp hu
  obtain ⟨request, -, hrequest⟩ := exists_of_forall₂ hdelivers hus
  exact hrequest.mtNum u hu

/-- **Queues are delivered** exactly when no update in them has digests, for any queue of updates that were
accepted as they came. -/
theorem queue_delivered_iff {s : Sender} (hreceived : ∀ u ∈ s.queue, Received R ignore u) :
    QueueDelivered R ignore depth s ↔ s.Waits ∨ ∀ u ∈ s.queue, SignedMessage.mtNum.get u 0 ≤ 1 := by
  constructor
  · intro h
    by_cases hwaits : s.Waits
    · exact .inl hwaits
    · exact .inr (mtNum_of_queueDelivered h hwaits)
  · intro h
    by_cases hwaits : s.Waits
    · unfold QueueDelivered
      rw [constructAll_waits hwaits]
      exact ⟨[], rfl, .nil, .inr hwaits⟩
    · have hnumber := h.resolve_left hwaits
      obtain ⟨batches, hqueue, hcarries, hdone⟩ := constructAll_spec s.queue.length (le_refl _)
        (fun u hu => (hreceived u hu).small) hwaits
      refine ⟨batches, by rw [hdone, List.append_nil]; exact hqueue, ?_, .inl hdone⟩
      have hmem : ∀ us ∈ batches, ∀ u ∈ us, u ∈ s.queue :=
        fun us hus u hu => hqueue ▸ List.mem_flatten.mpr ⟨us, hus, hu⟩
      refine (((List.forall₂_and_left _ _).mpr ⟨hmem, hcarries.flip⟩).imp fun us request h => ?_).flip
      exact h.2.delivers (fun u hu => hreceived u (h.1 u hu)) fun u hu => hnumber u (h.1 u hu)

/-- An update of client 7, and a server that has it twice in its queue. -/
def plainUpdate : Memory := withMessage (fun _ => 0) 0 7 .update (List.replicate (Update.size + updateSize) 0)

def plainSender (queue : List Memory) : Sender :=
  { me := 1, status := .normal, newIncarnation := 1, poSeq := ⟨1, 0⟩, queue := queue }

theorem plainUpdates_delivered :
    (∀ u ∈ (plainSender [plainUpdate, plainUpdate]).queue, Received (plainReceiver threeServers.toConfig) false u) ∧
      QueueDelivered (plainReceiver threeServers.toConfig) false 0 (plainSender [plainUpdate, plainUpdate]) := by
  have hreceived : Received (plainReceiver threeServers.toConfig) false plainUpdate :=
    { type := by decide +kernel
      accepted := ⟨1, 472, yields_of_accepts (by decide +kernel)⟩
      contents := fun hme => absurd hme (by decide +kernel) }
  have hnumber : SignedMessage.mtNum.get plainUpdate 0 = 1 := by decide +kernel
  have hboth : ∀ u ∈ (plainSender [plainUpdate, plainUpdate]).queue, u = plainUpdate :=
    fun u hu => (List.mem_pair.mp hu).elim id id
  have hall : ∀ u ∈ (plainSender [plainUpdate, plainUpdate]).queue, Received (plainReceiver threeServers.toConfig) false u :=
    fun u hu => hboth u hu ▸ hreceived
  refine ⟨hall, (queue_delivered_iff hall).mpr (.inr fun u hu => ?_)⟩
  rw [hboth u hu, hnumber]

/-- An update of client 7 that it has sent as one of two, with the digest of the other. -/
def digestUpdate : Memory :=
  let header := leBytes 2 2 ++ (headerBytes 7 .update (Update.size + updateSize - digestSize)).drop 2
  (Memory.write (fun _ => 0) 0 (7 :: header.take digestSize)).write signatureSize header

/-- It is accepted, and the PO-Request that carries it is not. -/
theorem digestUpdate_refused :
    ¬ ∀ (R : Receiver) (ignore : Bool) (depth : Nat) (s : Sender), (∀ u ∈ s.queue, Received R ignore u) →
      QueueDelivered R ignore depth s := by
  intro hall
  have hreceived : Received (plainReceiver threeServers.toConfig) false digestUpdate :=
    { type := by decide +kernel
      accepted := ⟨1, 472, yields_of_accepts (by decide +kernel)⟩
      contents := fun hme => absurd hme (by decide +kernel) }
  have hnumber : SignedMessage.mtNum.get digestUpdate 0 = 2 := by decide +kernel
  have hready : ¬ (plainSender [digestUpdate]).Waits := fun h => absurd h.1 (by decide)
  have hdelivered := hall (plainReceiver threeServers.toConfig) false 0 (plainSender [digestUpdate])
    fun u hu => List.mem_singleton.mp hu ▸ hreceived
  have hle := mtNum_of_queueDelivered hdelivered hready digestUpdate (List.mem_singleton_self _)
  rw [hnumber] at hle
  exact absurd hle (by decide)

end Spire.Validate
