import Spire.ClientUpdates

/-!
# The events of a PO-Request

A PO-Request carries updates, its events, one behind the other. `VAL_Validate_PO_Request` walks over
them, with two comparisons that should keep it within the message, and `ORDER_Execute_Commit` walks
over the same bytes again without any.

The comparisons subtract from the size of the message what an event takes, and are made with
unsigned integers. Where the message is shorter than a header, or the event says that it is longer
than the message, the difference wraps and the comparison lets everything pass. An event that is
shorter than the fields that are looked at before its size is checked is the other way out of the
message. `poRequest_bounded_iff` says that there is no third.
-/

namespace Spire.Validate

open Lib Lib.Reader Wire Merkle ClientUpdates

variable {R : Receiver} {m : Memory} {ignore : Bool} {mess n depth k B offset po : Nat}

/-! ## Where an update is looked at -/

theorem inside_countDigests_bind {α : Type} {g : Nat → Reader α} :
    Inside (countDigests k >>= g) m B ↔ ∀ d, mtDigests k = some d → Inside (g d) m B := by
  rw [inside_bind]
  simp only [yields_countDigests]
  refine and_iff_right ?_
  unfold countDigests
  cases mtDigests k with
  | none => exact inside_stop
  | some d => exact inside_pure

/-- `VAL_Validate_Signed_Message` takes the header for that of an update that is as long as its
`len` says. -/
structure SizeAdmitted (m : Memory) (mess : Nat) : Prop where
  fits : SignedMessage.len.get m mess + SignedMessage.size ≤ maxPacketSize
  mtNum : SignedMessage.mtNum.get m mess ≤ 1
  mtIndex : SignedMessage.mtIndex.get m mess ≤ SignedMessage.mtNum.get m mess

/-- The update has a signature of a known kind and a sender that can have made it. -/
def Known (R : Receiver) (u : ClientUpdate) : Prop :=
  u.signatureType R.config ≠ .invalid ∧ validateSender R (u.signatureType R.config) u.machineId = true

/-- `VAL_Validate_Incarnation` has nothing against the update, or is not asked. -/
def Current (R : Receiver) (ignore : Bool) (u : ClientUpdate) : Prop :=
  ignore = true ∨ (u.machineId = R.me ∧ u.payloadType = clientStateTransfer) ∨
    (u.signatureType R.config = .server → u.incarnation = R.installedIncarnations u.machineId)

/-- What is looked at of an update lies before `B`: its sequence number where a server has signed with
its TPM, the type of its contents where the server itself has sent it, and all of it where the
signature is verified. -/
structure UpdateInside (R : Receiver) (m : Memory) (ignore : Bool) (mess B : Nat) : Prop where
  number : 1 ≤ (ClientUpdate.read m mess).machineId → (ClientUpdate.read m mess).machineId ≤ R.config.numServers →
    0 < (ClientUpdate.read m mess).monotonicCounter → SignedMessage.content mess + Update.size ≤ B
  contents : Known R (ClientUpdate.read m mess) → ignore = false → (ClientUpdate.read m mess).machineId = R.me →
    SignedMessage.content mess + Update.size + (SignedMessage.size - 8) ≤ B
  signature : Known R (ClientUpdate.read m mess) → Current R ignore (ClientUpdate.read m mess) →
    SignedMessage.content mess + SignedMessage.len.get m mess ≤ B

/-- An update is never signed in a tree. -/
theorem signatureType_kind {c : Config} {u : ClientUpdate} (h : u.signatureType c ≠ .invalid) :
    u.signatureType c = .server ∨ u.signatureType c = .tpmServer ∨ u.signatureType c = .client := by
  unfold ClientUpdate.signatureType at h ⊢
  split_ifs at h ⊢
  · exact .inr (.inl rfl)
  · exact absurd rfl h
  · exact .inl rfl
  · exact .inr (.inr rfl)

section Update

variable (htype : SignedMessage.type.get m mess = PacketType.update.code) (hB : mess + SignedMessage.size ≤ B)

include htype hB

theorem inside_signatureType : Inside (signatureType R mess) m B ↔
    (1 ≤ (ClientUpdate.read m mess).machineId → (ClientUpdate.read m mess).machineId ≤ R.config.numServers →
      0 < (ClientUpdate.read m mess).monotonicCounter → SignedMessage.content mess + Update.size ≤ B) := by
  have hcode : PacketType.ofCode (SignedMessage.type.get m mess) = some .update := by
    rw [htype, PacketType.ofCode_code]
  have hheader : ∀ f : Field, f.offset + f.width ≤ SignedMessage.size → mess + f.offset + f.width ≤ B := by
    intro f hf
    omega
  unfold signatureType
  simp only [Field.inside_read_bind, hcode, hheader SignedMessage.machineId (by decide),
    hheader SignedMessage.type (by decide), true_and]
  rw [inside_ite]
  constructor
  · intro h h₁ h₂ hcounter
    have hinside := (Field.inside_read_bind.mp (h.1 ⟨h₁, h₂⟩)).2
    rw [inside_ite] at hinside
    exact (Field.inside_read_bind.mp (hinside.1 hcounter)).1
  · intro h
    refine ⟨fun hserver => ?_, fun _ => inside_pure⟩
    rw [Field.inside_read_bind]
    refine ⟨hheader SignedMessage.monotonicCounter (by decide), ?_⟩
    rw [inside_ite]
    refine ⟨fun hcounter => ?_, fun _ => inside_pure⟩
    rw [Field.inside_read_bind]
    exact ⟨h hserver.1 hserver.2 hcounter, inside_pure⟩

theorem inside_validateIncarnation {t : SigType} : Inside (validateIncarnation R t mess) m B ↔
    ((ClientUpdate.read m mess).machineId = R.me →
      SignedMessage.content mess + Update.size + (SignedMessage.size - 8) ≤ B) := by
  have hne : PacketType.update.code ≠ PacketType.pendingShare.code := by decide
  have hheader : ∀ f : Field, f.offset + f.width ≤ SignedMessage.size → mess + f.offset + f.width ≤ B := by
    intro f hf
    omega
  unfold validateIncarnation
  simp only [Field.inside_read_bind, htype, if_neg hne, true_and, hheader SignedMessage.machineId (by decide),
    hheader SignedMessage.type (by decide), hheader SignedMessage.incarnation (by decide)]
  rw [inside_bind, inside_ite]
  constructor
  · intro h hme
    exact (Field.inside_read_bind.mp (h.1.1 hme)).1
  · intro h
    refine ⟨⟨fun hme => Field.inside_read_bind.mpr ⟨h hme, inside_pure⟩, fun _ => inside_pure⟩, fun transfer _ => ?_⟩
    rw [inside_ite, inside_ite]
    exact ⟨fun _ => inside_pure, fun _ => ⟨fun _ => inside_require, fun _ => inside_pure⟩⟩

omit htype in
theorem inside_isValidSignature {t : SigType} {sender : Nat} (ht : t = .server ∨ t = .tpmServer ∨ t = .client) :
    Inside (isValidSignature R t sender mess) m B ↔
      SignedMessage.content mess + SignedMessage.len.get m mess ≤ B := by
  have hdigest : Inside (messageDigest R.crypto mess) m B ↔
      SignedMessage.content mess + SignedMessage.len.get m mess ≤ B := by
    unfold messageDigest
    rw [Field.inside_read_bind, inside_bind]
    simp only [inside_bytes, SignedMessage.size, SignedMessage.content, signatureSize, SignedMessage.len] at hB ⊢
    constructor
    · intro h
      omega
    · exact fun h => ⟨by omega, by omega, fun _ _ => inside_pure⟩
  have hsig : Inside (SignedMessage.sig.read mess) m B := by
    show mess + 0 + signatureSize ≤ B
    simp only [SignedMessage.size, signatureSize] at hB ⊢
    omega
  rcases ht with rfl | rfl | rfl <;>
    · unfold isValidSignature
      dsimp only
      rw [inside_bind, hdigest]
      exact ⟨And.left, fun h => ⟨h, fun _ _ => inside_bind.mpr ⟨hsig, fun _ _ => inside_pure⟩⟩⟩

omit hB in
theorem yields_current (hvalid : (ClientUpdate.read m mess).signatureType R.config ≠ .invalid) :
    Yields (if ignore = true then pure () else
      validateIncarnation R ((ClientUpdate.read m mess).signatureType R.config) mess) m () ↔
        Current R ignore (ClientUpdate.read m mess) := by
  unfold Current
  cases ignore with
  | true => exact ⟨fun _ => .inl rfl, fun _ => yields_pure.mpr rfl⟩
  | false =>
    rw [if_neg Bool.false_ne_true, ClientUpdate.yields_validateIncarnation htype, or_iff_right Bool.false_ne_true]
    refine or_congr_right ⟨fun h hserver => h (.inr hserver), fun h hkind => h (hkind.resolve_left fun hmerkle => ?_)⟩
    rcases signatureType_kind hvalid with hkind | hkind | hkind
    all_goals
      rw [hmerkle] at hkind
      cases hkind

omit htype hB in
/-- What the checks of the header's sizes come to, of an update that is given its own size. -/
theorem sizes_iff : (SignedMessage.size ≤ wrap32 (SignedMessage.len.get m mess + SignedMessage.size) ∧
      (SignedMessage.mtNum.get m mess ≤ 256 ∧ SignedMessage.mtIndex.get m mess ≤ SignedMessage.mtNum.get m mess) ∧
        ∃ d, mtDigests (SignedMessage.mtNum.get m mess) = some d ∧
          wrap32 (SignedMessage.len.get m mess + SignedMessage.size) =
            SignedMessage.len.get m mess + SignedMessage.size + d * digestSize ∧
          wrap32 (SignedMessage.len.get m mess + SignedMessage.size) ≤ maxPacketSize) ↔ SizeAdmitted m mess := by
  have hlen : SignedMessage.len.get m mess < 256 ^ 4 := Field.get_lt
  constructor
  · rintro ⟨-, ⟨-, hindex⟩, d, hd, hsize, hfits⟩
    have hwrap : wrap32 (SignedMessage.len.get m mess + SignedMessage.size) ≤
        SignedMessage.len.get m mess + SignedMessage.size := Nat.mod_le _ _
    have hzero : d = 0 := by
      simp only [digestSize] at hsize
      omega
    refine ⟨by omega, ?_, hindex⟩
    rw [hzero] at hd
    exact le_two_pow_of_mtDigests hd
  · rintro ⟨hfits, hnum, hindex⟩
    have hwrap : wrap32 (SignedMessage.len.get m mess + SignedMessage.size) =
        SignedMessage.len.get m mess + SignedMessage.size := by
      simp only [maxPacketSize] at hfits
      exact Nat.mod_eq_of_lt (by omega)
    rw [hwrap]
    refine ⟨Nat.le_add_left _ _, ⟨by omega, hindex⟩, 0, ?_, by rw [Nat.zero_mul]; rfl, hfits⟩
    unfold mtDigests
    rw [if_pos hnum]

/-- **Where `VAL_Validate_Message` looks at an update** that is given its own size. -/
theorem inside_validateMessage :
    Inside (validateMessage R (depth + 1) ignore mess (wrap32 (SignedMessage.len.get m mess + SignedMessage.size))) m B ↔
      (SizeAdmitted m mess → UpdateInside R m ignore mess B) := by
  have hheader : ∀ f : Field, f.offset + f.width ≤ SignedMessage.size → mess + f.offset + f.width ≤ B := by
    intro f hf
    omega
  have hcode : PacketType.ofCode (SignedMessage.type.get m mess) = some .update := by
    rw [htype, PacketType.ofCode_code]
  have hsig : Inside (signatureType R mess >>= fun sigType => do
      require (sigType ≠ .invalid)
      let senderId ← SignedMessage.machineId.read mess
      require (validateSender R sigType senderId = true)
      (if ignore = true then pure () else validateIncarnation R sigType mess)
      let valid ← isValidSignature R sigType senderId mess
      require (valid = true)) m B ↔ UpdateInside R m ignore mess B := by
    rw [inside_bind, inside_signatureType htype hB]
    simp only [ClientUpdate.yields_signatureType htype, forall_eq', inside_require_bind, Field.inside_read_bind,
      hheader SignedMessage.machineId (by decide), true_and]
    constructor
    · rintro ⟨hnumber, hrest⟩
      refine ⟨hnumber, fun hknown hignore hme => ?_, fun hknown hcurrent => ?_⟩
      · have hinc := (inside_bind.mp (hrest hknown.1 hknown.2)).1
        rw [inside_ite] at hinc
        exact (inside_validateIncarnation htype hB).mp (hinc.2 (Bool.eq_false_iff.mp hignore)) hme
      · have hvalid := (inside_bind.mp (hrest hknown.1 hknown.2)).2 () ((yields_current htype hknown.1).mpr hcurrent)
        exact (inside_isValidSignature hB (signatureType_kind hknown.1)).mp (inside_bind.mp hvalid).1
    · intro h
      refine ⟨h.number, fun hvalid hsender => inside_bind.mpr ⟨?_, fun _ hcurrent => inside_bind.mpr ⟨?_, ?_⟩⟩⟩
      · rw [inside_ite]
        refine ⟨fun _ => inside_pure, fun hignore => (inside_validateIncarnation htype hB).mpr fun hme => ?_⟩
        exact h.contents ⟨hvalid, hsender⟩ (Bool.eq_false_iff.mpr hignore) hme
      · exact (inside_isValidSignature hB (signatureType_kind hvalid)).mpr
          (h.signature ⟨hvalid, hsender⟩ ((yields_current htype hvalid).mp hcurrent))
      · exact fun _ _ => inside_require
  unfold validateMessage
  rw [inside_bind]
  have hrest : ∀ u, Yields (validateSignedMessage R ignore mess
      (wrap32 (SignedMessage.len.get m mess + SignedMessage.size))) m u → Inside (do
        let mtNum ← SignedMessage.mtNum.read mess
        let digests ← countDigests mtNum
        let type ← SignedMessage.type.read mess
        let machineId ← SignedMessage.machineId.read mess
        let incarnation ← SignedMessage.incarnation.read mess
        validateContent R (validateMessage R depth) ignore (PacketType.ofCode type) machineId incarnation
          (SignedMessage.content mess) (wrap32 (SignedMessage.len.get m mess + SignedMessage.size) -
            SignedMessage.size - digests * digestSize)) m B := by
    intro _ _
    simp only [Field.inside_read_bind, inside_countDigests_bind, hheader SignedMessage.machineId (by decide),
      hheader SignedMessage.type (by decide), hheader SignedMessage.incarnation (by decide),
      hheader SignedMessage.mtNum (by decide), true_and, hcode]
    exact fun _ _ => inside_require
  rw [and_iff_left hrest]
  unfold validateSignedMessage
  simp only [inside_require_bind, Field.inside_read_bind, inside_countDigests_bind, hsig, true_and,
    hheader SignedMessage.type (by decide), hheader SignedMessage.mtNum (by decide),
    hheader SignedMessage.mtIndex (by decide), hheader SignedMessage.len (by decide)]
  rw [← sizes_iff]
  have hdefined : SignedMessage.type.get m mess ≠ PacketType.dummy.code ∧
      SignedMessage.type.get m mess < PacketType.all.length := by
    rw [htype]
    decide
  constructor
  · rintro h ⟨hleast, hnum, d, hd, hsize, hfits⟩
    exact h hleast hdefined hnum d hd hsize hfits
  · intro h hleast _ hnum d hd hsize hfits
    exact h ⟨hleast, hnum, d, hd, hsize, hfits⟩

end Update

/-! ## The walk that validates -/

/-- How long an event is. -/
def eventSize (m : Memory) (mess : Nat) : Nat := SignedMessage.len.get m mess + SignedMessage.size

/-- Of the events that the walk comes to, what is looked at lies before `limit`. It comes to an event
if the header is within the message, and the event is, or says that it is longer than the message. -/
def EventsInside (R : Receiver) (m : Memory) (depth : Nat) (ignore : Bool) (limit n : Nat) : Nat → Nat → Prop
  | 0, _ => True
  | k + 1, mess =>
    mess + SignedMessage.size ≤ limit →
      (n - SignedMessage.size < SignedMessage.len.get m mess ∨ mess + eventSize m mess ≤ limit) →
        SignedMessage.type.get m mess = PacketType.update.code →
          (SizeAdmitted m mess → UpdateInside R m ignore mess limit) ∧
            (Yields (validateMessage R (depth + 1) ignore mess (wrap32 (eventSize m mess))) m () →
              EventsInside R m depth ignore limit n k (mess + eventSize m mess))

theorem sub64_of_le {a b : Nat} (h : b ≤ a) (ha : a < 2 ^ 64) : sub64 a b = a - b := by
  unfold sub64
  omega

/-- A difference that would be negative is larger than any size. -/
theorem sub64_of_lt {a b : Nat} (h : a < b) (hb : b ≤ 2 ^ 32) : 2 ^ 63 < sub64 a b := by
  unfold sub64
  omega

/-- What the two comparisons let pass, in a message that is longer than a header. -/
theorem room_iff (m : Memory) (mess po : Nat) (hleast : SignedMessage.size ≤ n) (hmost : n ≤ maxPacketSize)
    (hoffset : offset ≤ 2 * maxPacketSize) :
    (offset ≤ sub64 n SignedMessage.size ↔ po + offset + SignedMessage.size ≤ po + n) ∧
      (offset ≤ sub64 (sub64 n SignedMessage.size) (SignedMessage.len.get m mess) ↔
        n - SignedMessage.size < SignedMessage.len.get m mess ∨ po + offset + eventSize m mess ≤ po + n) := by
  have hlen : SignedMessage.len.get m mess < 256 ^ 4 := Field.get_lt
  have hsub : sub64 n SignedMessage.size = n - SignedMessage.size := by
    refine sub64_of_le hleast ?_
    simp only [maxPacketSize] at hmost
    omega
  simp only [maxPacketSize] at hmost hoffset
  rw [hsub]
  refine ⟨by omega, ?_⟩
  unfold eventSize
  rcases Nat.lt_or_ge (n - SignedMessage.size) (SignedMessage.len.get m mess) with hlt | hge
  · have := sub64_of_lt hlt (by omega)
    omega
  · rw [sub64_of_le hge (by omega)]
    omega

/-- **An update that is accepted** is of a size that it can have. -/
theorem accepted_update (htype : SignedMessage.type.get m mess = PacketType.update.code)
    (h : Yields (validateMessage R depth ignore mess (wrap32 (eventSize m mess))) m ()) :
    eventSize m mess ≤ maxPacketSize ∧ wrap32 (eventSize m mess) = eventSize m mess ∧
      Update.size ≤ SignedMessage.len.get m mess := by
  have haccepted := accepted_of_validateMessage h
  have hsize := haccepted.header.size
  have hfits := haccepted.header.fits
  obtain ⟨depth', hcontent⟩ := haccepted.content
  rw [htype, PacketType.ofCode_code] at hcontent
  have hwrap : wrap32 (eventSize m mess) ≤ eventSize m mess := Nat.mod_le _ _
  have heq : wrap32 (eventSize m mess) = eventSize m mess := by
    unfold eventSize at hwrap hsize ⊢
    omega
  exact ⟨heq ▸ hfits, heq, (yields_require.mp hcontent).1⟩

/-- The next event lies behind one that is accepted. -/
theorem next_offset (htype : SignedMessage.type.get m mess = PacketType.update.code) (hmost : n ≤ maxPacketSize)
    (hroom : po + offset + SignedMessage.size ≤ po + n)
    (h : Yields (validateMessage R depth ignore mess (wrap32 (eventSize m mess))) m ()) :
    wrap32 (offset + eventSize m mess) = offset + eventSize m mess ∧ offset + eventSize m mess ≤ 2 * maxPacketSize := by
  obtain ⟨hfits, -, -⟩ := accepted_update htype h
  have hle : offset + eventSize m mess ≤ 2 * maxPacketSize := by omega
  refine ⟨Nat.mod_eq_of_lt ?_, hle⟩
  simp only [maxPacketSize] at hle
  omega

/-- **Where the loop over the events looks.** -/
theorem inside_validateEvents (hleast : SignedMessage.size ≤ n) (hmost : n ≤ maxPacketSize)
    (hoffset : offset ≤ 2 * maxPacketSize) :
    Inside (validateEvents (validateMessage R (depth + 1)) ignore n k (po + offset) offset) m (po + n) ↔
      EventsInside R m depth ignore (po + n) n k (po + offset) := by
  induction k generalizing offset with
  | zero => exact ⟨fun _ => trivial, fun _ => inside_pure⟩
  | succ k ih =>
    obtain ⟨hroom, hbody⟩ := room_iff m (po + offset) po hleast hmost hoffset
    unfold validateEvents EventsInside
    rw [inside_require_bind, hroom]
    refine forall_congr' fun hheader => ?_
    have hlen : po + offset + SignedMessage.len.offset + SignedMessage.len.width ≤ po + n := by
      simp only [SignedMessage.size, SignedMessage.len] at hheader ⊢
      omega
    have htype : po + offset + SignedMessage.type.offset + SignedMessage.type.width ≤ po + n := by
      simp only [SignedMessage.size, SignedMessage.type] at hheader ⊢
      omega
    rw [Field.inside_read_bind, and_iff_right hlen, inside_require_bind, hbody]
    refine forall_congr' fun _ => ?_
    rw [Field.inside_read_bind, and_iff_right htype, inside_require_bind]
    refine forall_congr' fun hupdate => ?_
    rw [inside_bind, inside_validateMessage hupdate hheader]
    refine and_congr_right fun _ => ?_
    constructor
    · intro h hvalid
      have hnext := h () hvalid
      obtain ⟨hwrap, hle⟩ := next_offset hupdate hmost hheader hvalid
      unfold eventSize at hwrap hle
      rw [hwrap, Nat.add_assoc po] at hnext
      unfold eventSize
      rw [Nat.add_assoc po]
      exact (ih hle).mp hnext
    · intro h _ hvalid
      have hnext := h hvalid
      obtain ⟨hwrap, hle⟩ := next_offset hupdate hmost hheader hvalid
      unfold eventSize at hwrap hle hnext
      rw [hwrap, Nat.add_assoc po]
      rw [Nat.add_assoc po] at hnext
      exact (ih hle).mpr hnext

/-- **Events that are accepted** lie one behind the other, each long enough for an update. -/
theorem validateEvents_yields {last : Nat} (hleast : SignedMessage.size ≤ n) (hmost : n ≤ maxPacketSize)
    (hoffset : offset ≤ 2 * maxPacketSize)
    (h : Yields (validateEvents (validateMessage R depth) ignore n k (po + offset) offset) m last) :
    po + last = after (eventSize m) (po + offset) k ∧
      ∀ i < k, Update.size ≤ SignedMessage.len.get m (after (eventSize m) (po + offset) i) := by
  induction k generalizing offset with
  | zero => exact ⟨by rw [yields_pure.mp h]; rfl, fun i hi => absurd hi (Nat.not_lt_zero i)⟩
  | succ k ih =>
    simp only [validateEvents, yields_bind, yields_require, Field.yields_read, exists_eq_left, exists_unit] at h
    obtain ⟨hheader, -, hupdate, hvalid, hrest⟩ := h
    rw [(room_iff m (po + offset) po hleast hmost hoffset).1] at hheader
    obtain ⟨-, -, hlen⟩ := accepted_update hupdate hvalid
    obtain ⟨hwrap, hle⟩ := next_offset hupdate hmost hheader hvalid
    unfold eventSize at hwrap hle
    rw [hwrap, Nat.add_assoc po] at hrest
    obtain ⟨hlast, hlater⟩ := ih hle hrest
    rw [← Nat.add_assoc po] at hlast hlater
    refine ⟨hlast, fun i hi => ?_⟩
    cases i with
    | zero => exact hlen
    | succ i => exact hlater i (Nat.lt_of_succ_lt_succ hi)

/-! ## The walk that executes -/

/-- The loop of `ORDER_Execute_Commit` over the events of a PO-Request: the events that are put into
the queue. -/
def executeEvents : Nat → Nat → Reader (List Nat)
  | 0, _ => pure []
  | k + 1, p => do
    let _ ← SignedMessage.incarnation.read p
    let _ ← Update.seqNum.read (SignedMessage.content p)
    let _ ← Update.serverId.read (SignedMessage.content p)
    let len ← SignedMessage.len.read p
    let eventq ← executeEvents k (p + (len + SignedMessage.size))
    pure (p :: eventq)

theorem positions_succ (size : Nat → Nat) (a k : Nat) : positions size a (k + 1) = a :: positions size (a + size a) k := by
  unfold positions
  rw [List.range_succ_eq_map, List.map_cons, List.map_map]
  rfl

/-- It puts each event into the queue. -/
theorem executeEvents_yields (m : Memory) (k p : Nat) :
    Yields (executeEvents k p) m (positions (eventSize m) p k) := by
  induction k generalizing p with
  | zero => exact yields_pure.mpr rfl
  | succ k ih =>
    unfold executeEvents
    simp only [yields_bind, Field.yields_read, exists_eq_left, yields_pure]
    exact ⟨_, ih _, positions_succ _ _ _⟩

/-- It looks at nothing behind the last event, where each is long enough for an update. -/
theorem executeEvents_inside {p : Nat} (hlong : ∀ i < k, Update.size ≤ SignedMessage.len.get m (after (eventSize m) p i)) :
    Inside (executeEvents k p) m (after (eventSize m) p k) := by
  induction k generalizing p with
  | zero => exact inside_pure
  | succ k ih =>
    have hlen : Update.size ≤ SignedMessage.len.get m p := hlong 0 (Nat.succ_pos k)
    have hend : p + eventSize m p ≤ after (eventSize m) p (k + 1) :=
      after_le_after (eventSize m) p (Nat.succ_le_succ (Nat.zero_le k))
    have hsize : eventSize m p = SignedMessage.len.get m p + SignedMessage.size := rfl
    have hrest : Inside (executeEvents k (p + eventSize m p)) m (after (eventSize m) p (k + 1)) :=
      ih fun i hi => hlong (i + 1) (Nat.succ_lt_succ hi)
    unfold executeEvents
    simp only [Field.inside_read_bind]
    rw [hsize] at hend hrest
    refine ⟨?_, ?_, ?_, ?_, inside_bind.mpr ⟨hrest, fun _ _ => inside_pure⟩⟩
    all_goals
      simp only [SignedMessage.incarnation, Update.seqNum, Update.serverId, SignedMessage.len, SignedMessage.content,
        SignedMessage.size, Update.size] at hlen hend ⊢
      omega

/-! ## The two walks together -/

/-- The number of events that the PO-Request says it has. -/
def numEvents (m : Memory) (po : Nat) : Nat := PoRequest.numEvents.get m po

/-- Both walks over the PO-Request, in `n` bytes, stay within them. Where it is accepted its events fill
it, and the second walk puts each of them into the queue. -/
structure PoRequestBounded (R : Receiver) (m : Memory) (depth : Nat) (ignore : Bool) (po n : Nat) : Prop where
  inside : Inside (validatePoRequest (validateMessage R (depth + 1)) ignore po n) m (po + n)
  tiled : Yields (validatePoRequest (validateMessage R (depth + 1)) ignore po n) m () →
    after (eventSize m) (po + PoRequest.size) (numEvents m po) = po + n
  executed : Yields (validatePoRequest (validateMessage R (depth + 1)) ignore po n) m () →
    Yields (executeEvents (numEvents m po) (po + PoRequest.size)) m
        (positions (eventSize m) (po + PoRequest.size) (numEvents m po)) ∧
      Inside (executeEvents (numEvents m po) (po + PoRequest.size)) m (po + n)

/-- The PO-Request is too short to be looked at or has no events, or a header fits into it, and of the
events that the walk comes to what is looked at lies within it. -/
def PoRequestCondition (R : Receiver) (m : Memory) (depth : Nat) (ignore : Bool) (po n : Nat) : Prop :=
  n < PoRequest.size ∨ numEvents m po = 0 ∨
    (SignedMessage.size ≤ n ∧ EventsInside R m depth ignore (po + n) n (numEvents m po) (po + PoRequest.size))

/-- In a message that is shorter than a header the first comparison lets the first event pass, and its
`len` lies behind the message. -/
theorem not_inside_validateEvents (hshort : n < SignedMessage.size) (hleast : PoRequest.size ≤ offset)
    (hmost : offset ≤ maxPacketSize) :
    ¬ Inside (validateEvents (validateMessage R (depth + 1)) ignore n (k + 1) (po + offset) offset) m (po + n) := by
  have hbound : SignedMessage.size ≤ 2 ^ 32 := by
    unfold SignedMessage.size
    omega
  have hwrap := sub64_of_lt hshort hbound
  have hpass : offset ≤ sub64 n SignedMessage.size := by
    unfold maxPacketSize at hmost
    omega
  unfold validateEvents
  rw [inside_require_bind, Field.inside_read_bind]
  intro h
  have hread := (h hpass).1
  simp only [SignedMessage.size, SignedMessage.len, PoRequest.size] at hread hshort hleast
  omega

theorem inside_validatePoRequest (hsize : PoRequest.size ≤ n) (hmost : n ≤ maxPacketSize) :
    Inside (validatePoRequest (validateMessage R (depth + 1)) ignore po n) m (po + n) ↔
      (numEvents m po = 0 ∨ (SignedMessage.size ≤ n ∧
        EventsInside R m depth ignore (po + n) n (numEvents m po) (po + PoRequest.size))) := by
  have hnum : po + PoRequest.numEvents.offset + PoRequest.numEvents.width ≤ po + n := by
    simp only [PoRequest.size, PoRequest.numEvents] at hsize ⊢
    omega
  have hwalk : Inside (validatePoRequest (validateMessage R (depth + 1)) ignore po n) m (po + n) ↔
      Inside (validateEvents (validateMessage R (depth + 1)) ignore n (numEvents m po) (po + PoRequest.size)
        PoRequest.size) m (po + n) := by
    unfold validatePoRequest
    rw [inside_require_bind, Field.inside_read_bind, inside_bind]
    exact ⟨fun h => (h hsize).2.1, fun h _ => ⟨hnum, h, fun _ _ => inside_require⟩⟩
  rw [hwalk]
  by_cases hleast : SignedMessage.size ≤ n
  · rw [inside_validateEvents hleast hmost (by decide)]
    refine ⟨fun h => .inr ⟨hleast, h⟩, fun h => h.elim (fun hzero => ?_) And.right⟩
    rw [hzero]
    trivial
  · refine ⟨fun h => .inl ?_, fun h => h.elim (fun hzero => ?_) fun h => absurd h.1 hleast⟩
    · cases hk : numEvents m po with
      | zero => rfl
      | succ k =>
        rw [hk] at h
        exact absurd h (not_inside_validateEvents (Nat.lt_of_not_le hleast) (le_refl _) (by decide))
    · rw [hzero]
      exact inside_pure

/-- What an accepted PO-Request is like. -/
theorem poRequest_accepted (hmost : n ≤ maxPacketSize) (hcondition : PoRequestCondition R m depth ignore po n)
    (h : Yields (validatePoRequest (validateMessage R (depth + 1)) ignore po n) m ()) :
    after (eventSize m) (po + PoRequest.size) (numEvents m po) = po + n ∧
      ∀ i < numEvents m po, Update.size ≤ SignedMessage.len.get m (after (eventSize m) (po + PoRequest.size) i) := by
  simp only [validatePoRequest, yields_bind, yields_require, Field.yields_read, exists_eq_left, exists_unit] at h
  obtain ⟨hsize, last, hwalk, rfl⟩ := h
  rcases hcondition with hshort | hzero | ⟨hleast, -⟩
  · exact absurd hsize (Nat.not_le_of_lt hshort)
  · have hnone : PoRequest.numEvents.get m po = 0 := hzero
    rw [hnone] at hwalk
    rw [hzero, yields_pure.mp hwalk]
    exact ⟨rfl, fun i hi => absurd hi (Nat.not_lt_zero i)⟩
  · obtain ⟨hlast, hlong⟩ := validateEvents_yields hleast hmost (by decide) hwalk
    exact ⟨hlast.symm, hlong⟩

/-- **PO-Requests stay in bounds** exactly under the condition, whatever their events say. -/
theorem poRequest_bounded_iff (hmost : n ≤ maxPacketSize) :
    PoRequestBounded R m depth ignore po n ↔ PoRequestCondition R m depth ignore po n := by
  constructor
  · intro h
    by_cases hsize : PoRequest.size ≤ n
    · exact .inr ((inside_validatePoRequest hsize hmost).mp h.inside)
    · exact .inl (Nat.lt_of_not_le hsize)
  · intro h
    refine ⟨?_, fun hvalid => ?_, fun hvalid => ?_⟩
    · by_cases hsize : PoRequest.size ≤ n
      · exact (inside_validatePoRequest hsize hmost).mpr (h.resolve_left (Nat.not_lt_of_le hsize))
      · unfold validatePoRequest
        rw [inside_require_bind]
        exact fun hle => absurd hle hsize
    · exact (poRequest_accepted hmost h hvalid).1
    · obtain ⟨htiled, hlong⟩ := poRequest_accepted hmost h hvalid
      refine ⟨executeEvents_yields m _ _, ?_⟩
      rw [← htiled]
      exact executeEvents_inside hlong

/-- A PO-Request with an update of client 7. -/
def genuineRequest : Memory :=
  Memory.write (fun _ => 0) 0
    (List.replicate 8 0 ++ leBytes 4 1 ++ messagesBytes [(7, .update, List.replicate Update.size 0)])

/-- It is accepted, and meets the condition. -/
theorem genuineRequest_bounded :
    Yields (validatePoRequest (validateMessage (plainReceiver threeServers.toConfig) 1) false 0 184) genuineRequest () ∧
      PoRequestBounded (plainReceiver threeServers.toConfig) genuineRequest 0 false 0 184 := by
  have hclient : (ClientUpdate.read genuineRequest PoRequest.size).machineId = 7 := by decide +kernel
  have hlen : SignedMessage.len.get genuineRequest PoRequest.size = Update.size := by decide +kernel
  have hnum : numEvents genuineRequest 0 = 1 := by decide +kernel
  have hinside : UpdateInside (plainReceiver threeServers.toConfig) genuineRequest false PoRequest.size 184 :=
    { number := fun _ hserver => absurd hserver (by rw [hclient]; decide)
      contents := fun _ _ hme => absurd hme (by rw [hclient]; decide)
      signature := fun _ _ => by rw [hlen]; decide }
  refine ⟨yields_of_accepts (by decide +kernel), (poRequest_bounded_iff (by decide)).mpr (.inr (.inr ⟨by decide, ?_⟩))⟩
  rw [hnum]
  exact fun _ _ _ => ⟨fun _ => hinside, fun _ => trivial⟩

/-- A PO-Request that is only as long as its fixed part, and says that it has an event. -/
def shortRequest : Memory := Memory.write (fun _ => 0) 0 (List.replicate 8 0 ++ leBytes 4 1)

/-- The header of the event is looked at behind it. -/
theorem shortRequest_unbounded :
    ¬ ∀ (R : Receiver) (m : Memory) (depth : Nat) (ignore : Bool) (po n : Nat), n ≤ maxPacketSize →
      PoRequestBounded R m depth ignore po n := by
  intro hall
  have hbounded := hall (plainReceiver threeServers.toConfig) shortRequest 0 false 0 12 (by decide)
  have hevent : numEvents shortRequest 0 ≠ 0 := by decide +kernel
  obtain ⟨hleast, -⟩ := ((inside_validatePoRequest (by decide) (by decide)).mp hbounded.inside).resolve_left hevent
  exact absurd hleast (by decide)

end Spire.Validate
