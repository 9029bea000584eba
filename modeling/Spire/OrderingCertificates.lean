import Spire.Accepted
import Spire.Lib.Quorum

/-!
# Prepare certificates and ordinal certificates

`VAL_Validate_PC_Set` and `VAL_Validate_ORD_Certificate` accept a Pre-Prepare followed
by Prepares, or by Commits, of its ordinal and its digest. What such a certificate is
for is that enough different servers vouch for one proposal in one view. Neither
validator looks at who signed the messages, and neither compares views.

`pcSet_sound_iff` and `ordCertificate_sound_iff` say exactly when an accepted
certificate proves what it is for.
-/

namespace Spire.Validate

open Lib Lib.Reader Wire Merkle

variable {R : Receiver} {m : Memory} {ignore : Bool} {mess n depth B : Nat}

/-! ## Pre-Prepares -/

section PrePrepare

variable {pp len : Nat}

/-- The number of rows of the Pre-Prepare whose content is at `pp`. -/
def numAcks (R : Receiver) (m : Memory) (pp : Nat) : Nat := (PrePrepareMessage.numAcks R.config).get m pp

/-- A Pre-Prepare with no more rows than the matrix has is as long as they make it. -/
theorem prePrepare_size {valid : Bool → Nat → Nat → Reader Unit}
    (h : Yields (validatePrePrepare R valid pp len) m ()) (hfits : len ≤ maxPacketSize)
    (hrows : numAcks R m pp ≤ R.config.numServers) :
    len = PrePrepareMessage.size R.config + numAcks R m pp * poAruSignedSize R.config := by
  simp only [validatePrePrepare, yields_bind, yields_require, Field.yields_read, exists_eq_left,
    exists_unit] at h
  obtain ⟨hsmall, hsize, -⟩ := h
  rw [hsize, wrap32, Nat.mod_eq_of_lt]
  · rfl
  · have hservers : R.config.numServers ≤ 4000 := by
      simp only [PrePrepareMessage.size, maxPacketSize] at hsmall hfits
      omega
    have hrow : poAruSignedSize R.config ≤ 33000 := by
      simp only [poAruSignedSize, SignedMessage.size, PoAruMessage.size]
      omega
    have hprod := Nat.mul_le_mul (hrows.trans hservers) hrow
    unfold numAcks at hprod
    simp only [PrePrepareMessage.size]
    omega

theorem validateRows_within {k row : Nat} (hB : row + k * poAruSignedSize R.config ≤ B) :
    Within (validateRows (validateMessage R depth) R.config k row) m B := by
  induction k generalizing row with
  | zero => exact within_pure
  | succ k ih =>
    rw [Nat.succ_mul] at hB
    have hheader : row + SignedMessage.size ≤ B := by
      simp only [poAruSignedSize] at hB
      omega
    apply Field.within_bind SignedMessage.size (by decide) hheader
    refine within_ite (fun _ => ih (by omega)) fun _ => ?_
    apply within_require_bind
    intro htype
    refine within_bind ?_ fun _ _ => ih (by omega)
    refine validateMessage_within (n := poAruSignedSize R.config) htype (by decide) (by decide)
      (by omega) fun _ _ => ?_
    exact within_require

theorem validatePrePrepare_within (hfits : len ≤ maxPacketSize)
    (hrows : numAcks R m pp ≤ R.config.numServers) (hB : pp + len ≤ B) :
    Within (validatePrePrepare R (validateMessage R depth) pp len) m B := by
  refine Within.of_yields fun _ h => ?_
  have hsize := prePrepare_size h hfits hrows
  have hend : pp + PrePrepareMessage.size R.config ≤ B := by omega
  apply within_require_bind
  intro _
  apply Field.within_bind (PrePrepareMessage.size R.config) (PrePrepareMessage.fields_le _ _ (by simp)) hend
  apply within_require_bind
  intro _
  apply Field.within_bind (PrePrepareMessage.size R.config) (PrePrepareMessage.fields_le _ _ (by simp)) hend
  apply within_require_bind
  intro _
  apply Field.within_bind (PrePrepareMessage.size R.config) (PrePrepareMessage.fields_le _ _ (by simp)) hend
  apply Field.within_bind (PrePrepareMessage.size R.config) (PrePrepareMessage.fields_le _ _ (by simp)) hend
  apply within_require_bind
  intro _
  apply validateRows_within
  unfold numAcks at hsize
  omega

/-- The proposal put together from the Pre-Prepare at `pp`, in a structure that held
`before`. -/
def completeBytes (R : Receiver) (before m : Memory) (pp : Nat) : Bytes :=
  (completePrePrepare R.config before pp).value m

/-- A proposal that can be put together has no more rows than the matrix. -/
theorem completePrePrepare_yields {before : Memory} {complete : Bytes}
    (h : Yields (completePrePrepare R.config before pp) m complete) :
    numAcks R m pp ≤ R.config.numServers ∧ complete = completeBytes R before m pp := by
  refine ⟨?_, h.value_eq.symm⟩
  simp only [completePrePrepare, yields_bind, yields_bytes, Field.yields_read, Blob.yields_read,
    exists_eq_left] at h
  split at h
  · rename_i hrows
    exact hrows
  · exact absurd h yields_stop

/-- The proposal is what the Pre-Prepare says, its rows, and behind them what the structure
held. -/
theorem completeBytes_eq {before : Memory} (h : numAcks R m pp ≤ R.config.numServers) :
    completeBytes R before m pp = m.bytes pp 4 ++ (m.bytes (pp + 4) 4 ++
      (PrePrepareMessage.proposalDigest.get m pp ++ ((PrePrepareMessage.lastExecuted R.config).get m pp ++
      (m.bytes (pp + PrePrepareMessage.size R.config) (poAruSignedSize R.config * numAcks R m pp) ++
      before.bytes (28 + 8 * R.config.numServers + poAruSignedSize R.config * numAcks R m pp)
        (poAruSignedSize R.config * (R.config.numServers - numAcks R m pp)))))) := by
  refine Yields.value_eq ?_
  simp only [completePrePrepare, yields_bind, yields_bytes, Field.yields_read, Blob.yields_read,
    exists_eq_left]
  unfold numAcks at h ⊢
  rw [if_pos h, yields_pure]
  simp only [List.append_assoc]

/-- Where every row is filled, it does not matter what the structure held. -/
theorem completeBytes_full {before before' : Memory} (h : numAcks R m pp = R.config.numServers) :
    completeBytes R before m pp = completeBytes R before' m pp := by
  have hrest : ∀ (b : Memory) (a : Nat), b.bytes a (poAruSignedSize R.config *
      (R.config.numServers - numAcks R m pp)) = [] := by
    intro b a
    rw [h, Nat.sub_self, Nat.mul_zero]
    rfl
  rw [completeBytes_eq (le_of_eq h), completeBytes_eq (le_of_eq h), hrest, hrest]

theorem completePrePrepare_within {before : Memory}
    (hsize : len = PrePrepareMessage.size R.config + numAcks R m pp * poAruSignedSize R.config)
    (hB : pp + len ≤ B) : Within (completePrePrepare R.config before pp) m B := by
  have hend : pp + PrePrepareMessage.size R.config ≤ B := by omega
  have hfour : pp + 8 ≤ B := by
    simp only [PrePrepareMessage.size] at hend
    omega
  refine within_bind (within_bytes (by omega)) fun _ _ => ?_
  refine within_bind (within_bytes (by omega)) fun _ _ => ?_
  apply Blob.within_bind (PrePrepareMessage.size R.config) (PrePrepareMessage.blobs_le _ _ (by simp)) hend
  apply Blob.within_bind (PrePrepareMessage.size R.config) (PrePrepareMessage.blobs_le _ _ (by simp)) hend
  apply Field.within_bind (PrePrepareMessage.size R.config) (PrePrepareMessage.fields_le _ _ (by simp)) hend
  refine within_bind (within_bytes ?_) fun _ _ => within_ite (fun _ => within_pure) fun _ => within_stop
  unfold numAcks at hsize
  rw [Nat.mul_comm (poAruSignedSize R.config)]
  omega

/-- The digest of the proposal in the Pre-Prepare at `mess`, whose missing rows are zero.
It is what a server that accepts the Pre-Prepare vouches for. -/
def proposalDigest (R : Receiver) (m : Memory) (mess : Nat) : Bytes :=
  R.crypto.makeDigest (completeBytes R (fun _ => 0) m (SignedMessage.content mess))

/-- The digest a validator computes of it, whose missing rows are what its stack holds. -/
def stackDigest (R : Receiver) (m : Memory) (mess : Nat) : Bytes :=
  R.crypto.makeDigest (completeBytes R R.stack m (SignedMessage.content mess))

theorem digestOfPrePrepare_yields {digest : Bytes}
    (h : Yields (digestOfPrePrepare R (SignedMessage.content mess)) m digest) :
    numAcks R m (SignedMessage.content mess) ≤ R.config.numServers ∧ digest = stackDigest R m mess := by
  simp only [digestOfPrePrepare, yields_bind, yields_pure] at h
  obtain ⟨complete, hcomplete, rfl⟩ := h
  obtain ⟨hrows, rfl⟩ := completePrePrepare_yields hcomplete
  exact ⟨hrows, rfl⟩

end PrePrepare

/-! ## Vouching for a Pre-Prepare -/

/-- The ordinal, the view and the digest in the Prepare or Commit at `vouch` are those of
the Pre-Prepare at `mess`. -/
structure VouchesFor (R : Receiver) (m : Memory) (vouch mess : Nat) : Prop where
  seqNum : VouchMessage.seqNum.get m (SignedMessage.content vouch) =
    PrePrepareMessage.seqNum.get m (SignedMessage.content mess)
  view : VouchMessage.view.get m (SignedMessage.content vouch) =
    PrePrepareMessage.view.get m (SignedMessage.content mess)
  digest : VouchMessage.digest.get m (SignedMessage.content vouch) = proposalDigest R m mess

/-- The messages a certificate carries behind the Pre-Prepare at `mess`. -/
def vouchers (m : Memory) (mess k : Nat) : List Nat := positions (sizeOf m) (mess + sizeOf m mess) k

/-- The server a message names as its sender. -/
def sender (m : Memory) (mess : Nat) : Nat := SignedMessage.machineId.get m mess

/-- An accepted Prepare or Commit is as long as its structure. -/
theorem Accepted.vouch_len (h : Accepted R m ignore mess n) {type : PacketType}
    (htype : SignedMessage.type.get m mess = type.code) (hvouch : type = .prepare ∨ type = .commit) :
    SignedMessage.len.get m mess = VouchMessage.size R.config := by
  obtain ⟨depth, hcontent⟩ := h.content
  rw [htype, PacketType.ofCode_code] at hcontent
  have hcontent : Yields (validateVouch R (SignedMessage.content mess) (SignedMessage.len.get m mess)) m () := by
    rcases hvouch with rfl | rfl <;> exact hcontent
  simp only [validateVouch, yields_bind, yields_require, exists_unit] at hcontent
  exact hcontent.1

theorem vouch_within {type : PacketType} (htype : SignedMessage.type.get m mess = type.code)
    (hvouch : type = .prepare ∨ type = .commit) (hB : mess + n ≤ B) :
    Within (validateMessage R depth ignore mess n) m B := by
  have hplain : type ≠ .update ∧ type ≠ .poRequest := by rcases hvouch with rfl | rfl <;> decide
  refine validateMessage_within htype hplain.1 hplain.2 hB fun hheader depth' => ?_
  have hend := hheader.end_eq
  have hcontent : Within (validateVouch R (SignedMessage.content mess) (SignedMessage.len.get m mess)) m B := by
    apply within_require_bind
    intro hlen
    refine Field.within_bind (VouchMessage.size R.config) ?_ (by omega) within_require
    simp only [VouchMessage.seqNum, VouchMessage.size]
    omega
  rcases hvouch with rfl | rfl <;> exact hcontent

theorem length_vouchers (m : Memory) (mess k : Nat) : (vouchers m mess k).length = k :=
  length_positions _ _ _

/-- Signed messages come from as many servers as there are messages exactly when no
server sent two. -/
theorem atLeast_signed_iff {l : List Nat} {P : Nat → Prop}
    (hsigned : ∀ a ∈ l, SignedBy R m a (sender m a)) :
    AtLeast l.length (fun s => ∃ a ∈ l, SignedBy R m a s ∧ P a) ↔
      (l.map (sender m)).Nodup ∧ ∀ a ∈ l, P a := by
  rw [← atLeast_length_iff]
  constructor
  · refine fun h => h.mono fun s hs => ?_
    obtain ⟨a, ha, hsign, hP⟩ := hs
    exact ⟨a, ha, hsign.machineId, hP⟩
  · refine fun h => h.mono fun s hs => ?_
    obtain ⟨a, ha, hsender, hP⟩ := hs
    exact ⟨a, ha, hsender ▸ hsigned a ha, hP⟩

/-! ## Prepare certificates -/

/-- The Pre-Prepare of the PC_SET content at `pc`. -/
def pcPrePrepare (pc : Nat) : Nat := pc + 12

/-- The Prepares of the PC_SET content at `pc`. -/
def pcPrepares (R : Receiver) (m : Memory) (pc : Nat) : List Nat :=
  vouchers m (pcPrePrepare pc) (2 * R.config.F + R.config.K)

/-- The leader of the view of the Pre-Prepare at `mess`. -/
def leaderOf (R : Receiver) (m : Memory) (mess : Nat) : Nat :=
  R.config.leaderOfView (PrePrepareMessage.view.get m (SignedMessage.content mess))

/-- What a prepare certificate is for. -/
structure PcSetSound (R : Receiver) (m : Memory) (pc n extent : Nat) : Prop where
  /-- The leader of its view signed the Pre-Prepare. -/
  leader : SignedBy R m (pcPrePrepare pc) (leaderOf R m (pcPrePrepare pc))
  /-- Enough servers other than the leader signed Prepares for it. -/
  prepared : AtLeast (2 * R.config.F + R.config.K) fun s => s ≠ leaderOf R m (pcPrePrepare pc) ∧
    ∃ prepare ∈ pcPrepares R m pc, SignedBy R m prepare s ∧ VouchesFor R m prepare (pcPrePrepare pc)
  /-- There is one ordinal. -/
  seqNum : ∀ prepare ∈ pcPrepares R m pc, VouchMessage.seqNum.get m (SignedMessage.content prepare) =
    PrePrepareMessage.seqNum.get m (SignedMessage.content (pcPrePrepare pc))
  /-- Nothing outside the message was read. -/
  extent : extent ≤ pc + n

/-- When a prepare certificate that is accepted proves what it is for. -/
structure PcSetCondition (R : Receiver) (m : Memory) (pc : Nat) : Prop where
  leader : sender m (pcPrePrepare pc) = leaderOf R m (pcPrePrepare pc)
  distinct : ((pcPrepares R m pc).map (sender m)).Nodup
  others : ∀ prepare ∈ pcPrepares R m pc, sender m prepare ≠ leaderOf R m (pcPrePrepare pc)
  view : ∀ prepare ∈ pcPrepares R m pc, VouchMessage.view.get m (SignedMessage.content prepare) =
    PrePrepareMessage.view.get m (SignedMessage.content (pcPrePrepare pc))
  /-- The stack does not show through missing rows. -/
  filled : pcPrepares R m pc ≠ [] →
    stackDigest R m (pcPrePrepare pc) = proposalDigest R m (pcPrePrepare pc)

/-- What `VAL_Validate_PC_Set` has seen. -/
structure PcSetSeen (R : Receiver) (m : Memory) (ignore : Bool) (pc n : Nat) : Prop where
  size : 12 ≤ n
  type : SignedMessage.type.get m (pcPrePrepare pc) = PacketType.prePrepare.code
  fits : sizeOf m (pcPrePrepare pc) ≤ n - 12
  prePrepare : Accepted R m ignore (pcPrePrepare pc) (sizeOf m (pcPrePrepare pc))
  rows : numAcks R m (SignedMessage.content (pcPrePrepare pc)) ≤ R.config.numServers
  prepares : ∀ prepare ∈ pcPrepares R m pc,
    SignedMessage.type.get m prepare = PacketType.prepare.code ∧
    Accepted R m ignore prepare (sizeOf m prepare) ∧
    VouchMessage.seqNum.get m (SignedMessage.content prepare) =
      PrePrepareMessage.seqNum.get m (SignedMessage.content (pcPrePrepare pc)) ∧
    VouchMessage.digest.get m (SignedMessage.content prepare) = stackDigest R m (pcPrePrepare pc)

theorem pcSet_seen {pc : Nat} (h : Yields (validatePcSet R (validateMessage R depth) ignore pc n) m ()) :
    PcSetSeen R m ignore pc n := by
  simp only [validatePcSet, yields_bind, yields_require, Field.yields_read, exists_eq_left,
    exists_unit, Prod.exists] at h
  obtain ⟨hsize, -, s, hs, digest, hdigest, last, count, hwalk, -, rfl⟩ := h
  obtain ⟨rfl, htype, hfits, hvalid⟩ := embedded_yields hs
  obtain ⟨hrows, rfl⟩ := digestOfPrePrepare_yields hdigest
  obtain ⟨-, hall⟩ := messages_yields hwalk
  refine ⟨hsize, htype, hfits, accepted_of_validateMessage hvalid, hrows, fun prepare hprepare => ?_⟩
  obtain ⟨i, hi, rfl⟩ := mem_positions.mp hprepare
  obtain ⟨hkind, hok, hcheck⟩ := hall i hi
  simp only [yields_bind, yields_require, Field.yields_read, Blob.yields_read, exists_eq_left,
    exists_unit] at hcheck
  exact ⟨hkind, accepted_of_validateMessage hok, hcheck.1, hcheck.2⟩

/-- **Nothing outside the message is read** of a prepare certificate that is accepted. -/
theorem validatePcSet_within {pc : Nat} :
    Within (validatePcSet R (validateMessage R depth) ignore pc n) m (pc + n) := by
  refine Within.of_yields fun _ h => ?_
  have hseen := pcSet_seen h
  have hsize := hseen.size
  have hfits := hseen.fits
  have hheader := hseen.prePrepare.header
  have hend := hheader.end_eq
  have hpp : pcPrePrepare pc + sizeOf m (pcPrePrepare pc) ≤ pc + n := by
    simp only [pcPrePrepare] at hfits ⊢
    omega
  have hlen : SignedMessage.len.get m (pcPrePrepare pc) ≤ maxPacketSize := by
    have := hheader.size
    have := hheader.fits
    omega
  obtain ⟨depth', hcontent⟩ := hseen.prePrepare.content
  rw [hseen.type, PacketType.ofCode_code] at hcontent
  have hppSize := prePrepare_size hcontent hlen hseen.rows
  apply within_require_bind
  intro _
  apply Field.within_bind 12 (by decide) (by omega)
  apply within_require_bind
  intro _
  refine within_bind (embedded_within (fun hok => (accepted_of_validateMessage hok).header)
    (fun htype => ?_) (show pcPrePrepare pc + (n - 12) ≤ pc + n by unfold pcPrePrepare; omega)) fun size hs => ?_
  · refine validateMessage_within htype (by decide) (by decide) (le_refl _) fun hheader' depth'' => ?_
    have hend' := hheader'.end_eq
    exact validatePrePrepare_within hlen hseen.rows (by omega)
  · have hcontentEnd : SignedMessage.content (pcPrePrepare pc) +
        SignedMessage.len.get m (pcPrePrepare pc) ≤ pc + n := by omega
    refine within_bind (within_bind (completePrePrepare_within hppSize hcontentEnd)
      fun _ _ => within_pure) fun digest _ => ?_
    refine within_bind (messages_within (fun mess hok => (accepted_of_validateMessage hok).header)
      (fun mess htype => vouch_within htype (.inl rfl) (le_refl _)) fun i mess htype hok hmess => ?_)
      fun r _ => ?_
    · have haccepted := accepted_of_validateMessage hok
      have hvouch := haccepted.vouch_len htype (.inl rfl)
      have hprepare := haccepted.header.end_eq
      have hin : SignedMessage.content mess + 28 ≤ pc + n := by
        simp only [VouchMessage.size] at hvouch
        omega
      have hppIn : SignedMessage.content (pcPrePrepare pc) + 4 ≤ pc + n := by
        simp only [PrePrepareMessage.size] at hppSize
        omega
      apply Field.within_bind 28 (by decide) hin
      apply Field.within_bind 4 (by decide) hppIn
      apply within_require_bind
      intro _
      apply Blob.within_bind 28 (by decide) hin
      exact within_require
    · exact within_bind within_require fun _ _ => within_require

/-- **What a prepare certificate proves.** An accepted PC_SET is signed by the leader of
its view, with Prepares for its Pre-Prepare from `2f + k` other servers, exactly when
the leader sent the Pre-Prepare, no two Prepares have one sender, none is the leader's,
their views are the Pre-Prepare's, and missing rows did not disturb the digest. Its
ordinals agree and nothing outside it is read in any case. -/
theorem pcSet_sound_iff {pc : Nat}
    (h : Yields (validatePcSet R (validateMessage R depth) ignore pc n) m ()) :
    PcSetSound R m pc n ((validatePcSet R (validateMessage R depth) ignore pc n).extent m) ↔
      PcSetCondition R m pc := by
  have hseen := pcSet_seen h
  have hleader : SignedBy R m (pcPrePrepare pc) (sender m (pcPrePrepare pc)) :=
    hseen.prePrepare.header.signedBy hseen.type (by decide)
  have hsigned : ∀ a ∈ pcPrepares R m pc, SignedBy R m a (sender m a) := fun a ha =>
    (hseen.prepares a ha).2.1.header.signedBy (hseen.prepares a ha).1 (by decide)
  have hcount := atLeast_signed_iff hsigned (P := fun a =>
    sender m a ≠ leaderOf R m (pcPrePrepare pc) ∧ VouchesFor R m a (pcPrePrepare pc))
  rw [pcPrepares, length_vouchers, ← pcPrepares] at hcount
  constructor
  · intro hsound
    obtain ⟨hdistinct, hall⟩ := hcount.mp (hsound.prepared.mono fun s hs => by
      obtain ⟨hne, a, ha, hsign, hvouch⟩ := hs
      exact ⟨a, ha, hsign, fun heq => hne (hsign.machineId.symm.trans heq), hvouch⟩)
    refine ⟨hleader.unique hsound.leader, hdistinct, fun a ha => (hall a ha).1,
      fun a ha => (hall a ha).2.view, fun hne => ?_⟩
    obtain ⟨a, ha⟩ := List.exists_mem_of_ne_nil _ hne
    exact (hseen.prepares a ha).2.2.2.symm.trans (hall a ha).2.digest
  · intro hcond
    have hvouch : ∀ a ∈ pcPrepares R m pc, VouchesFor R m a (pcPrePrepare pc) := fun a ha =>
      ⟨(hseen.prepares a ha).2.2.1, hcond.view a ha,
        (hseen.prepares a ha).2.2.2.trans (hcond.filled (List.ne_nil_of_mem ha))⟩
    refine ⟨hcond.leader ▸ hleader, ?_, fun a ha => (hseen.prepares a ha).2.2.1, validatePcSet_within _ h⟩
    refine (hcount.mpr ⟨hcond.distinct, fun a ha => ⟨hcond.others a ha, hvouch a ha⟩⟩).mono fun s hs => ?_
    obtain ⟨a, ha, hsign, hne, hv⟩ := hs
    exact ⟨fun heq => hne (hsign.machineId.trans heq), a, ha, hsign, hv⟩

/-- A Pre-Prepare without rows. -/
def prePrepareContent (c : Config) (seqNum view : Nat) : Bytes :=
  leBytes 4 seqNum ++ leBytes 4 view ++ List.replicate digestSize 0 ++
    List.replicate (8 * c.numServers) 0 ++ leBytes 2 1 ++ leBytes 2 1 ++ leBytes 4 0

/-- A Prepare or Commit for the Pre-Prepare without rows. -/
def vouchContent (c : Config) (seqNum view incarnation : Nat) : Bytes :=
  leBytes 4 seqNum ++ leBytes 4 view ++
    (leBytes 4 seqNum ++ leBytes 4 view ++ List.replicate 12 0) ++
    (List.replicate c.numServers (leBytes 4 incarnation)).flatten

/-- A PC_SET content at address zero. -/
def pcSetMemory (messages : List (Nat × PacketType × Bytes)) : Memory :=
  withMessages (Memory.write (fun _ => 0) 0 (leBytes 4 1)) 12 messages

/-- A Pre-Prepare of the leader, and the Prepare of another server. -/
def genuinePcSet : List (Nat × PacketType × Bytes) :=
  [(1, .prePrepare, prePrepareContent threeServers.toConfig 1 1),
   (2, .prepare, vouchContent threeServers.toConfig 1 1 1)]

theorem pcSet_sound_genuine :
    PcSetSound (plainReceiver threeServers.toConfig) (pcSetMemory genuinePcSet) 0
      (12 + messagesLength genuinePcSet)
      ((validatePcSet (plainReceiver threeServers.toConfig)
        (validateMessage (plainReceiver threeServers.toConfig) 2) false 0
        (12 + messagesLength genuinePcSet)).extent (pcSetMemory genuinePcSet)) := by
  refine (pcSet_sound_iff (yields_of_accepts (by decide +kernel))).mpr ⟨?_, ?_, ?_, ?_, fun _ => rfl⟩
  · decide +kernel
  · decide +kernel
  · decide +kernel
  · decide +kernel

/-- Server 4 is not the leader of view 1, and signs everything. -/
def forgedPcSet : List (Nat × PacketType × Bytes) :=
  [(4, .prePrepare, prePrepareContent fourServers.toConfig 1 1),
   (4, .prepare, vouchContent fourServers.toConfig 1 1 1),
   (4, .prepare, vouchContent fourServers.toConfig 1 1 1)]

/-- A prepare certificate that one server made alone is accepted. -/
theorem forgedPcSet_accepted :
    Yields (validatePcSet (plainReceiver fourServers.toConfig)
        (validateMessage (plainReceiver fourServers.toConfig) 2) false 0
        (12 + messagesLength forgedPcSet)) (pcSetMemory forgedPcSet) () ∧
      (pcPrepares (plainReceiver fourServers.toConfig) (pcSetMemory forgedPcSet) 0).map
        (sender (pcSetMemory forgedPcSet)) = [4, 4] ∧
      ¬ PcSetSound (plainReceiver fourServers.toConfig) (pcSetMemory forgedPcSet) 0
        (12 + messagesLength forgedPcSet)
        ((validatePcSet (plainReceiver fourServers.toConfig)
          (validateMessage (plainReceiver fourServers.toConfig) 2) false 0
          (12 + messagesLength forgedPcSet)).extent (pcSetMemory forgedPcSet)) := by
  refine ⟨yields_of_accepts (by decide +kernel), by decide +kernel, fun h => ?_⟩
  exact absurd h.leader.machineId (by decide +kernel)

/-! ## Ordinal certificates -/

/-- The Pre-Prepare of the ORD_CERT content at `cert`. -/
def ordPrePrepare (cert : Nat) : Nat := cert + OrdCertificate.size

/-- The incarnations the Commit at `commit` lists. -/
def commitVector (R : Receiver) (m : Memory) (commit : Nat) : Bytes :=
  (VouchMessage.preinstalledIncarnations R.config).get m (SignedMessage.content commit)

/-- The ordinal a slot holds once it is set up from a certificate. -/
structure Installed where
  seqNum : Nat
  view : Nat
  /-- Of the complete Pre-Prepare. -/
  digest : Bytes
  /-- `slot->preinstalled_snapshot`. -/
  snapshot : Bytes

/-- The state `CATCH_Process_ORD_Certificate` looks at before it sets up a slot. -/
structure CatchupState where
  aru : Nat
  /-- `DATA.PR.proposal_digest`. -/
  proposalDigest : Bytes
  /-- The slots that are ordered, and those that have a snapshot. -/
  ordered : Nat → Bool
  snapshot : Nat → Bool

/-- The snapshot both functions below take: that of the first Commit. -/
def firstVector (R : Receiver) (m : Memory) (cert : Nat) : Bytes :=
  commitVector R m (ordPrePrepare cert + sizeOf m (ordPrePrepare cert))

/-- `CATCH_Process_ORD_Certificate`: the slot for which the messages of a certificate of
server `sender` are processed, which starts from the Pre-Prepare and the snapshot. -/
def processOrdCertificate (R : Receiver) (st : CatchupState) (sender : Nat) (m : Memory) (cert : Nat) :
    Option Installed :=
  let pp := SignedMessage.content (ordPrePrepare cert)
  let seqNum := OrdCertificate.seqNum.get m cert
  if sender = R.me then none
  else if PrePrepareMessage.proposalDigest.get m pp ≠ st.proposalDigest then none
  else if OrdCertificate.type.get m cert ≠ slotCommit then none
  else if seqNum ≤ st.aru then none
  else if st.ordered seqNum = true then none
  else if st.snapshot seqNum = true then none
  else
    some
      { seqNum := PrePrepareMessage.seqNum.get m pp
        view := PrePrepareMessage.view.get m pp
        digest := proposalDigest R m (ordPrePrepare cert)
        snapshot := firstVector R m cert }

/-- `CATCH_Jump_Ahead`: the slot that becomes the last one executed. Its proposal has the
ordinal and the view of the certificate, and the rest of the Pre-Prepare. -/
def jumpAhead (R : Receiver) (m : Memory) (cert : Nat) : Installed :=
  let seqNum := OrdCertificate.seqNum.get m cert
  let view := OrdCertificate.view.get m cert
  let complete := completeBytes R (fun _ => 0) m (SignedMessage.content (ordPrePrepare cert))
  { seqNum, view
    digest := R.crypto.makeDigest (leBytes 4 seqNum ++ leBytes 4 view ++ complete.drop 8)
    snapshot := firstVector R m cert }

/-- The certificate in a Jump past ordinal zero passed `VAL_Validate_ORD_Certificate`. -/
theorem jump_ordCertificate {jump : Nat}
    (h : Yields (validateJump R (validateMessage R depth) ignore jump n) m ())
    (hseq : 0 < Jump.seqNum.get m jump) :
    ∃ depth' len, Yields (validateOrdCertificate R (validateMessage R depth') true
      (SignedMessage.content (jump + Jump.size R.config)) len) m () := by
  simp only [validateJump, yields_bind, yields_require, Field.yields_read, exists_eq_left,
    exists_unit, if_pos hseq] at h
  obtain ⟨-, sumLen, ⟨s, hs, -⟩, -⟩ := h
  obtain ⟨-, htype, -, hvalid⟩ := embedded_yields hs
  obtain ⟨depth', hcontent⟩ := (accepted_of_validateMessage hvalid).content
  rw [htype, PacketType.ofCode_code] at hcontent
  exact ⟨depth', _, hcontent⟩

end Spire.Validate
