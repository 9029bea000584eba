import Spire.OrderingCertificates

/-!
# The other certificates

Five more messages are certificates: a number of messages that vouch for one object.
`VAL_Validate_PO_Certificate`, `VAL_Validate_Incarnation_Cert`,
`VAL_Validate_Reset_NewLeaderProof`, `VAL_Validate_Reset_ViewChange` and
`VAL_Validate_Reset_Certificate` each have a loop of their own, and none of them looks
at who signed the messages it counts.

A `Certificate` is what such a message is made of, and `Certificate.Sound` what it is
for. `certificate_sound_iff` says exactly when an accepted one is sound.
-/

namespace Spire.Validate

open Lib Lib.Reader Wire Merkle

variable {R : Receiver} {m : Memory} {ignore : Bool} {mess n depth cert machineId incarnation : Nat}

/-! ## Certificates -/

/-- An object and the messages that vouch for it. -/
structure Certificate where
  /-- What is said of the object itself. -/
  Object : Prop
  /-- The messages that are counted. -/
  vouchers : List Nat
  /-- How many servers have to vouch. -/
  required : Nat
  /-- The message vouches for the object. -/
  Matches : Nat → Prop

/-- What a certificate is for. -/
structure Certificate.Sound (R : Receiver) (m : Memory) (C : Certificate) : Prop where
  object : C.Object
  /-- As many servers as the protocol asks for signed messages for the object. -/
  quorum : AtLeast C.required fun s => ∃ a ∈ C.vouchers, SignedBy R m a s ∧ C.Matches a
  /-- No message is for another object. -/
  all : ∀ a ∈ C.vouchers, C.Matches a

/-- A certificate with just enough signed messages is sound when no two of them have
one sender, and the messages and the object are what they should be. -/
theorem Certificate.sound_iff {C : Certificate} (hlen : C.vouchers.length = C.required)
    (hsigned : ∀ a ∈ C.vouchers, SignedBy R m a (sender m a)) :
    C.Sound R m ↔ (C.vouchers.map (sender m)).Nodup ∧ C.Object ∧ ∀ a ∈ C.vouchers, C.Matches a := by
  have hcount := atLeast_signed_iff (P := C.Matches) hsigned
  rw [hlen] at hcount
  constructor
  · intro h
    exact ⟨(hcount.mp h.quorum).1, h.object, h.all⟩
  · rintro ⟨hdistinct, hobject, hall⟩
    exact ⟨hobject, hcount.mpr ⟨hdistinct, hall⟩, hall⟩

/-- The messages that are counted have the type they should, and are valid. -/
def Counted (R : Receiver) (m : Memory) (type : PacketType) (l : List Nat) : Prop :=
  ∀ a ∈ l, SignedMessage.type.get m a = type.code ∧ ∃ ignore, Accepted R m ignore a (sizeOf m a)

theorem Counted.signedBy {type : PacketType} {l : List Nat} (h : Counted R m type l)
    (hupdate : type ≠ .update) : ∀ a ∈ l, SignedBy R m a (sender m a) := by
  intro a ha
  obtain ⟨htype, ignore, haccepted⟩ := h a ha
  exact haccepted.header.signedBy htype hupdate

/-- The messages that a walk counted, and the check each of them passed. -/
theorem counted_of_messages {type : PacketType} {limit least fuel a last count : Nat} {most : Option Nat}
    {check : Nat → Nat → Reader Unit}
    (h : Yields ((messages (validateMessage R depth) ignore type limit least most check).run fuel a 0) m
      (last, count)) :
    Counted R m type (positions (sizeOf m) a count) ∧
      ∀ b ∈ positions (sizeOf m) a count, ∃ i, Yields (check i b) m () := by
  obtain ⟨-, hall⟩ := messages_yields h
  constructor
  · intro b hb
    obtain ⟨i, hi, rfl⟩ := mem_positions.mp hb
    exact ⟨(hall i hi).1, ignore, accepted_of_validateMessage (hall i hi).2.1⟩
  · intro b hb
    obtain ⟨i, hi, rfl⟩ := mem_positions.mp hb
    exact ⟨i, (hall i hi).2.2⟩

/-- The message a certificate is about, which comes first. -/
theorem signedBy_of_embedded {type : PacketType} {rest : Nat}
    (h : Yields (embedded (validateMessage R depth) ignore type mess rest) m n) (hupdate : type ≠ .update) :
    n = sizeOf m mess ∧ SignedBy R m mess (sender m mess) := by
  obtain ⟨rfl, htype, -, hvalid⟩ := embedded_yields h
  exact ⟨rfl, (accepted_of_validateMessage hvalid).header.signedBy htype hupdate⟩

/-! ## The five kinds -/

/-- The request of the PO_CERT content at `cert`. -/
def poCertRequest (cert : Nat) : Nat := cert + PoCertificate.size

/-- The part at `part` acknowledges the request of the PO_CERT content at `cert`. -/
structure Acknowledges (R : Receiver) (m : Memory) (cert part : Nat) : Prop where
  originator : PoAckPart.originator.get m part = PoCertificate.server.get m cert
  incarnation : PoAckPart.incarnation.get m part = PoCertificate.incarnation.get m cert
  seqNum : PoAckPart.seqNum.get m part = PoCertificate.seqNum.get m cert
  digest : PoAckPart.digest.get m part =
    R.crypto.makeDigest (m.bytes (poCertRequest cert) (sizeOf m (poCertRequest cert)))

/-- The `i`-th part of the PO-Ack at `ack`. -/
def ackPart (R : Receiver) (ack i : Nat) : Nat :=
  SignedMessage.content ack + PoAck.size R.config + i * PoAckPart.size

/-- A PO_CERT: `2f + k + 1` servers acknowledge the request of the server that the
certificate names. -/
def poCertificate (R : Receiver) (m : Memory) (cert : Nat) : Certificate where
  Object := SignedBy R m (poCertRequest cert) (PoCertificate.server.get m cert) ∧
    PoRequest.incarnation.get m (SignedMessage.content (poCertRequest cert)) =
      PoCertificate.incarnation.get m cert ∧
    PoRequest.seqNum.get m (SignedMessage.content (poCertRequest cert)) = PoCertificate.seqNum.get m cert
  vouchers := vouchers m (poCertRequest cert) R.config.quorum
  required := R.config.quorum
  Matches ack := ∃ i < PoAck.numAckParts.get m (SignedMessage.content ack),
    Acknowledges R m cert (ackPart R ack i)

/-- An INCARNATION_CERT: `2f + k + 1` servers acknowledge the new incarnation of the
server in the header of the certificate. -/
def incarnationCertificate (R : Receiver) (m : Memory) (machineId incarnation cert : Nat) : Certificate where
  Object := SignedBy R m cert machineId ∧ SignedMessage.incarnation.get m cert = incarnation
  vouchers := vouchers m cert R.config.quorum
  required := R.config.quorum
  Matches ack := IncarnationAck.ackedId.get m (SignedMessage.content ack) = machineId ∧
    IncarnationAck.ackedIncarnation.get m (SignedMessage.content ack) = incarnation ∧
    IncarnationAck.digest.get m (SignedMessage.content ack) = R.crypto.makeDigest (m.bytes cert (sizeOf m cert))

/-- A RESET_NEWLEADERPROOF: `2f + k + 1` servers ask for its view. -/
def resetNewLeaderProof (R : Receiver) (m : Memory) (cert : Nat) : Certificate where
  Object := True
  vouchers := positions (sizeOf m) (cert + NewLeader.size) R.config.quorum
  required := R.config.quorum
  Matches nl := NewLeader.newView.get m (SignedMessage.content nl) = NewLeader.newView.get m cert

/-- A certificate for the reset proposal at `proposal`: its view, and the digest of its
content. -/
def resetCertificate (R : Receiver) (m : Memory) (proposal most : Nat) : Certificate where
  Object := SignedBy R m proposal (sender m proposal)
  vouchers := vouchers m proposal most
  required := most
  Matches mess := ResetVouch.view.get m (SignedMessage.content mess) =
      ResetProposal.view.get m (SignedMessage.content proposal) ∧
    ResetVouch.digest.get m (SignedMessage.content mess) = R.crypto.makeDigest
      (m.bytes (SignedMessage.content proposal) (SignedMessage.len.get m proposal))

/-- The certificates of this module. -/
inductive CertificateKind
  | poCert | incarnationCert | resetNewLeaderProof | resetViewChange | resetCert
deriving DecidableEq, Repr

namespace CertificateKind

/-- The type of message. -/
def type : CertificateKind → PacketType
  | poCert => .poCert
  | incarnationCert => .incarnationCert
  | resetNewLeaderProof => .resetNewLeaderProof
  | resetViewChange => .resetViewChange
  | resetCert => .resetCert

/-- What the content at `cert`, in a message of a server in an incarnation, is made of. -/
def certificate (R : Receiver) (m : Memory) (machineId incarnation cert : Nat) : CertificateKind → Certificate
  | poCert => poCertificate R m cert
  | incarnationCert => incarnationCertificate R m machineId incarnation cert
  | resetNewLeaderProof => Validate.resetNewLeaderProof R m cert
  | resetViewChange => resetCertificate R m (cert + ResetViewChange.size) (2 * R.config.F + R.config.K)
  | resetCert => resetCertificate R m (cert + 4) R.config.quorum

/-- What the validators leave to check, beside the senders: that a request comes from the
server its certificate names, and that new leaders are for the view of the proof. -/
def Unchecked (m : Memory) (cert : Nat) (C : Certificate) : CertificateKind → Prop
  | poCert => sender m (poCertRequest cert) = PoCertificate.server.get m cert
  | resetNewLeaderProof => ∀ nl ∈ C.vouchers,
      NewLeader.newView.get m (SignedMessage.content nl) = NewLeader.newView.get m cert
  | _ => True

instance {C : Certificate} {kind : CertificateKind} : Decidable (kind.Unchecked m cert C) :=
  match kind with
  | poCert => inferInstanceAs (Decidable (_ = _))
  | resetNewLeaderProof => inferInstanceAs (Decidable (∀ nl ∈ C.vouchers, _ = _))
  | incarnationCert | resetViewChange | resetCert => inferInstanceAs (Decidable True)

end CertificateKind

/-! ## What the validators have seen -/

/-- The part that names a request is one of the parts. -/
theorem matchPart_yields {originator part k : Nat} {seq : PoSeqPair} {digest : Bytes}
    (h : Yields (matchPart originator seq digest k part) m ()) :
    ∃ i < k, PoAckPart.originator.get m (part + i * PoAckPart.size) = originator ∧
      PoAckPart.incarnation.get m (part + i * PoAckPart.size) = seq.incarnation ∧
      PoAckPart.seqNum.get m (part + i * PoAckPart.size) = seq.seqNum ∧
      PoAckPart.digest.get m (part + i * PoAckPart.size) = digest := by
  induction k generalizing part with
  | zero => exact absurd h yields_stop
  | succ k ih =>
    simp only [matchPart, yields_bind, Field.yields_read, exists_eq_left] at h
    rcases yields_ite.mp h with ⟨⟨horiginator, hseq⟩, h⟩ | ⟨-, h⟩
    · simp only [yields_bind, Blob.yields_read, exists_eq_left, yields_require] at h
      obtain ⟨hincarnation, hseqNum⟩ := PoSeqPair.mk.inj (PreOrder.seqCompare_eq_zero.mp hseq)
      refine ⟨0, Nat.succ_pos k, ?_⟩
      rw [Nat.zero_mul, Nat.add_zero]
      exact ⟨horiginator, hincarnation, hseqNum, h⟩
    · obtain ⟨i, hi, hpart⟩ := ih h
      refine ⟨i + 1, Nat.succ_lt_succ hi, ?_⟩
      rwa [Nat.succ_mul, Nat.add_comm (i * PoAckPart.size), ← Nat.add_assoc]

theorem poCertificate_sound_iff
    (h : Yields (validatePoCertificate R (validateMessage R depth) cert n) m ()) :
    (poCertificate R m cert).Sound R m ↔ ((poCertificate R m cert).vouchers.map (sender m)).Nodup ∧
      sender m (poCertRequest cert) = PoCertificate.server.get m cert := by
  simp only [validatePoCertificate, yields_bind, yields_require, Field.yields_read, yields_bytes,
    exists_eq_left, exists_unit, Prod.exists] at h
  obtain ⟨-, s, hs, hseq, last, count, hwalk, -, rfl⟩ := h
  obtain ⟨rfl, hrequest⟩ := signedBy_of_embedded hs (by decide)
  obtain ⟨hincarnation, hseqNum⟩ := PoSeqPair.mk.inj (PreOrder.seqCompare_eq_zero.mp hseq)
  obtain ⟨hcounted, hcheck⟩ := counted_of_messages hwalk
  have hmatch : sender m (poCertRequest cert) = PoCertificate.server.get m cert →
      ∀ ack ∈ (poCertificate R m cert).vouchers, (poCertificate R m cert).Matches ack := by
    intro hserver ack hack
    obtain ⟨i, hack⟩ := hcheck ack hack
    simp only [yields_bind, yields_require, Field.yields_read, Blob.yields_read, exists_eq_left,
      exists_unit] at hack
    obtain ⟨j, hj, horiginator, hinc, hnum, hdigest⟩ := matchPart_yields hack.2
    exact ⟨j, hj, horiginator.trans hserver, hinc.trans hincarnation, hnum.trans hseqNum, hdigest⟩
  rw [Certificate.sound_iff (length_vouchers _ _ _) (hcounted.signedBy (by decide))]
  constructor
  · rintro ⟨hdistinct, hobject, -⟩
    exact ⟨hdistinct, hobject.1.machineId⟩
  · rintro ⟨hdistinct, hserver⟩
    exact ⟨hdistinct, ⟨hserver ▸ hrequest, hincarnation, hseqNum⟩, hmatch hserver⟩

theorem incarnationCertificate_sound_iff
    (h : Yields (validateIncarnationCert R (validateMessage R depth) cert n machineId incarnation) m ()) :
    (incarnationCertificate R m machineId incarnation cert).Sound R m ↔
      ((incarnationCertificate R m machineId incarnation cert).vouchers.map (sender m)).Nodup := by
  simp only [validateIncarnationCert, yields_bind, yields_require, Field.yields_read, yields_bytes,
    exists_eq_left, exists_unit, Prod.exists] at h
  obtain ⟨s, hs, hincarnation, hmachine, last, count, hwalk, -, rfl⟩ := h
  obtain ⟨rfl, hannounced⟩ := signedBy_of_embedded hs (by decide)
  obtain ⟨hcounted, hcheck⟩ := counted_of_messages hwalk
  rw [Certificate.sound_iff (length_vouchers _ _ _) (hcounted.signedBy (by decide))]
  refine and_iff_left ⟨⟨hmachine ▸ hannounced, hincarnation⟩, fun ack hack => ?_⟩
  obtain ⟨i, hack⟩ := hcheck ack hack
  simp only [yields_bind, yields_require, Field.yields_read, Blob.yields_read, exists_eq_left,
    exists_unit] at hack
  exact ⟨hack.2.1, hack.1, hack.2.2⟩

theorem resetNewLeaderProof_sound_iff
    (h : Yields (validateResetNewLeaderProof R (validateMessage R depth) ignore cert n) m ()) :
    (resetNewLeaderProof R m cert).Sound R m ↔
      ((resetNewLeaderProof R m cert).vouchers.map (sender m)).Nodup ∧
        ∀ nl ∈ (resetNewLeaderProof R m cert).vouchers, (resetNewLeaderProof R m cert).Matches nl := by
  simp only [validateResetNewLeaderProof, yields_bind, yields_require, exists_unit, Prod.exists] at h
  obtain ⟨-, last, count, hwalk, -, rfl⟩ := h
  obtain ⟨hcounted, -⟩ := counted_of_messages hwalk
  rw [Certificate.sound_iff (length_positions _ _ _) (hcounted.signedBy (by decide))]
  exact and_congr_right fun _ => Iff.of_eq (true_and _)

theorem resetCertificate_sound_iff {type : PacketType} {most limit proposal : Nat} (hupdate : type ≠ .update)
    (h : Yields (validateResetVouchers R (validateMessage R depth) ignore type most limit proposal n) m ()) :
    (resetCertificate R m proposal most).Sound R m ↔
      ((resetCertificate R m proposal most).vouchers.map (sender m)).Nodup := by
  simp only [validateResetVouchers, yields_bind, yields_require, Field.yields_read, yields_bytes,
    exists_eq_left, exists_unit, Prod.exists] at h
  obtain ⟨s, hs, last, count, hwalk, -, rfl⟩ := h
  obtain ⟨rfl, hproposal⟩ := signedBy_of_embedded hs (by decide)
  obtain ⟨hcounted, hcheck⟩ := counted_of_messages hwalk
  rw [Certificate.sound_iff (length_vouchers _ _ _) (hcounted.signedBy hupdate)]
  refine and_iff_left ⟨hproposal, fun mess hmess => ?_⟩
  obtain ⟨i, hmess⟩ := hcheck mess hmess
  simp only [yields_bind, yields_require, Field.yields_read, Blob.yields_read, exists_eq_left,
    exists_unit] at hmess
  exact hmess

/-- **What the other certificates prove.** An accepted certificate carries messages for
its object from as many servers as the protocol asks for exactly when no two of the
messages have one sender and what its validator leaves unchecked holds. A
RESET_VIEWCHANGE is a certificate when it contains a proposal. -/
theorem certificate_sound_iff {kind : CertificateKind}
    (h : Yields (validateContent R (validateMessage R depth) ignore (some kind.type) machineId incarnation
      cert n) m ())
    (hproposal : kind = .resetViewChange → ResetViewChange.containsProposal.get m cert ≠ 0) :
    (kind.certificate R m machineId incarnation cert).Sound R m ↔
      ((kind.certificate R m machineId incarnation cert).vouchers.map (sender m)).Nodup ∧
        kind.Unchecked m cert (kind.certificate R m machineId incarnation cert) := by
  cases kind with
  | poCert => exact poCertificate_sound_iff h
  | incarnationCert => exact (incarnationCertificate_sound_iff h).trans (Iff.of_eq (and_true _)).symm
  | resetNewLeaderProof => exact resetNewLeaderProof_sound_iff h
  | resetViewChange =>
    have h : Yields (validateResetViewChange R (validateMessage R depth) ignore cert n) m () := h
    simp only [validateResetViewChange, yields_bind, yields_require, Field.yields_read, exists_eq_left,
      exists_unit, if_neg (hproposal rfl)] at h
    exact (resetCertificate_sound_iff (by decide) h.2).trans (Iff.of_eq (and_true _)).symm
  | resetCert =>
    have h : Yields (validateResetCertificate R (validateMessage R depth) ignore cert n) m () := h
    simp only [validateResetCertificate, yields_bind, yields_require, exists_unit] at h
    exact (resetCertificate_sound_iff (by decide) h.2).trans (Iff.of_eq (and_true _)).symm

/-! ## Certificates of several servers, and of one -/

/-- A structure, a message behind it, and messages of servers that vouch for the digest
of that message. -/
def certificateMemory (fixed : Bytes) (first : Nat × PacketType × Bytes) (type : PacketType)
    (servers : List Nat) (content : Bytes → Bytes) : Memory :=
  let start := withMessages (Memory.write (fun _ => 0) 0 fixed) fixed.length [first]
  withMessages start (fixed.length + messagesLength [first])
    (messagesOf servers type (content (start.bytes fixed.length digestSize)))

/-- A reset proposal for view 1, with the shares of servers. -/
def proposalContent (shares : List Nat) : Bytes :=
  leBytes 4 1 ++ leBytes 4 shares.length ++ messagesBytes (messagesOf shares .resetShare (List.replicate 28 0))

/-- A certificate of the kind about server `about`, with messages of `servers`, and how
long it is. -/
def sample (c : Config) (about : Nat) (servers : List Nat) : CertificateKind → Memory × Nat
  | .poCert =>
    (certificateMemory (leBytes 4 about ++ leBytes 4 1 ++ leBytes 4 1)
      (about, .poRequest, leBytes 4 1 ++ leBytes 4 1 ++ leBytes 4 0) .poAck servers fun digest =>
        leBytes 4 1 ++ (List.replicate c.numServers (leBytes 4 1)).flatten ++
          leBytes 4 about ++ leBytes 4 1 ++ leBytes 4 1 ++ digest,
      180 + servers.length * (192 + 4 * c.numServers))
  | .incarnationCert =>
    (certificateMemory [] (about, .newIncarnation, List.replicate 28 0) .incarnationAck servers
      fun digest => leBytes 4 about ++ leBytes 4 1 ++ digest,
      184 + servers.length * 184)
  | .resetNewLeaderProof =>
    (withMessages (Memory.write (fun _ => 0) 0 (leBytes 4 2)) 4
      (messagesOf servers .resetNewLeader (leBytes 4 2)),
      4 + servers.length * 160)
  | .resetViewChange =>
    (certificateMemory (List.replicate 12 0 ++ leBytes 4 1) (about, .resetProposal, proposalContent servers)
      .resetPrepare (servers.drop 1) fun _ => leBytes 4 1 ++ (proposalContent servers).take digestSize,
      180 + servers.length * 184 + (servers.length - 1) * 180)
  | .resetCert =>
    (certificateMemory (leBytes 4 0) (about, .resetProposal, proposalContent servers) .resetCommit servers
      fun _ => leBytes 4 1 ++ (proposalContent servers).take digestSize,
      168 + servers.length * 184 + servers.length * 180)

/-- The sample is accepted. -/
def SampleAccepted (c : Config) (about : Nat) (servers : List Nat) (kind : CertificateKind) : Prop :=
  (validateContent (plainReceiver c) (validateMessage (plainReceiver c) 3) false (some kind.type) about 1 0
    (sample c about servers kind).2).accepts (sample c about servers kind).1 = true

instance {c : Config} {about : Nat} {servers : List Nat} {kind : CertificateKind} :
    Decidable (SampleAccepted c about servers kind) :=
  inferInstanceAs (Decidable (_ = true))

/-- What the sample is made of. -/
def sampleCertificate (c : Config) (about : Nat) (servers : List Nat) (kind : CertificateKind) : Certificate :=
  kind.certificate (plainReceiver c) (sample c about servers kind).1 about 1 0

/-- The sample is sound. -/
def SampleSound (c : Config) (about : Nat) (servers : List Nat) (kind : CertificateKind) : Prop :=
  (sampleCertificate c about servers kind).Sound (plainReceiver c) (sample c about servers kind).1

/-- Certificates about server 1, with messages of servers 1 and 2. -/
theorem certificate_sound_genuine :
    SampleSound threeServers.toConfig 1 [1, 2] .poCert ∧
      SampleSound threeServers.toConfig 1 [1, 2] .incarnationCert ∧
      SampleSound threeServers.toConfig 1 [1, 2] .resetNewLeaderProof ∧
      SampleSound threeServers.toConfig 1 [1, 2] .resetViewChange ∧
      SampleSound threeServers.toConfig 1 [1, 2] .resetCert := by
  have haccepted : ∀ kind, SampleAccepted threeServers.toConfig 1 [1, 2] kind := by
    intro kind
    cases kind <;> exact by decide +kernel
  have hdistinct : ∀ kind, ((sampleCertificate threeServers.toConfig 1 [1, 2] kind).vouchers.map
      (sender (sample threeServers.toConfig 1 [1, 2] kind).1)).Nodup := by
    intro kind
    cases kind <;> exact by decide +kernel
  have hsound : ∀ kind, SampleSound threeServers.toConfig 1 [1, 2] kind := by
    intro kind
    refine (certificate_sound_iff (yields_of_accepts (haccepted kind)) ?_).mpr ⟨hdistinct kind, ?_⟩
    · rintro rfl
      decide +kernel
    · cases kind <;> exact by decide +kernel
  exact ⟨hsound _, hsound _, hsound _, hsound _, hsound _⟩

/-- As many servers sent messages of a sound certificate as the protocol asks for. -/
theorem Certificate.Sound.required_le {C : Certificate} (h : C.Sound R m) :
    C.required ≤ (C.vouchers.map (sender m)).toFinset.card := by
  refine h.quorum.le_card fun s hs => ?_
  obtain ⟨a, ha, hsigned, -⟩ := hs
  exact List.mem_toFinset.mpr (List.mem_map.mpr ⟨a, ha, hsigned.machineId⟩)

/-- A certificate that server 4 made alone. -/
def Forged (kind : CertificateKind) : Prop :=
  SampleAccepted fourServers.toConfig 4 [4, 4, 4] kind ∧
    ((sampleCertificate fourServers.toConfig 4 [4, 4, 4] kind).vouchers.map
      (sender (sample fourServers.toConfig 4 [4, 4, 4] kind).1)).toFinset = {4} ∧
    ¬ SampleSound fourServers.toConfig 4 [4, 4, 4] kind

/-- A certificate of any kind that one server made alone is accepted. -/
theorem forgedCertificates_accepted :
    Forged .poCert ∧ Forged .incarnationCert ∧ Forged .resetNewLeaderProof ∧ Forged .resetViewChange ∧
      Forged .resetCert := by
  have hforged : ∀ kind, Forged kind := by
    intro kind
    refine ⟨?_, ?_, fun h => ?_⟩
    · cases kind <;> exact by decide +kernel
    · cases kind <;> exact by decide +kernel
    · refine absurd h.required_le ?_
      cases kind <;> exact by decide +kernel
  exact ⟨hforged _, hforged _, hforged _, hforged _, hforged _⟩

end Spire.Validate
