import Spire.Validate

/-!
# What an accepted message is

The facts about `Spire.Validate` that the certificates are built on. A message that is
accepted is as long as its header says, lies where its size was computed, and, unless
it is an update, is signed by the server its header names (`Accepted`). A walk over
embedded messages finds them one behind the other (`embedded_yields`,
`messages_yields`).
-/

namespace Spire.Validate

open Lib Lib.Reader Wire Merkle

variable {R : Receiver} {m : Memory} {ignore : Bool} {mess n depth B : Nat}

/-! ## Signatures -/

/-- The types whose signature covers one message, and not the root of a tree. -/
def signedAlone : PacketType → Bool
  | .poAru | .newLeader | .report | .pcSet | .resetNewLeader | .resetViewChange | .resetNewView
  | .update => true
  | _ => false

/-- The digest that the signature of the message at `mess` has to cover. -/
def signedDigest (C : Crypto) (m : Memory) (mess : Nat) : Bytes :=
  if (PacketType.ofCode (SignedMessage.type.get m mess)).any signedAlone = true then
    (messageDigest C mess).value m
  else (rootOf C mess).value m

/-- The message at `mess` is signed by `server`: it names the server, and carries a
signature that verifies under the server's key. -/
structure SignedBy (R : Receiver) (m : Memory) (mess server : Nat) : Prop where
  machineId : SignedMessage.machineId.get m mess = server
  exists_server : server ∈ R.config.servers
  verifies : R.crypto.verifyServer server (signedDigest R.crypto m mess) (SignedMessage.sig.get m mess) = true

theorem SignedBy.unique {s s' : Nat} (h : SignedBy R m mess s) (h' : SignedBy R m mess s') : s = s' :=
  h.machineId.symm.trans h'.machineId

/-- A server's message has one of the server signatures, by its type. -/
theorem signatureType_server {t : SigType} {type : PacketType} (ht : Yields (signatureType R mess) m t)
    (htype : PacketType.ofCode (SignedMessage.type.get m mess) = some type) (hupdate : type ≠ .update)
    (hvalid : t ≠ .invalid) :
    (t = .server ∨ t = .tpmServer) ∧ signedAlone type = true ∨
      (t = .merkle ∨ t = .tpmMerkle) ∧ signedAlone type = false := by
  simp only [signatureType, yields_bind, Field.yields_read, exists_eq_left, htype] at ht
  cases type
  case update => exact absurd rfl hupdate
  case poRequest =>
    simp only [yields_bind, Field.yields_read, exists_eq_left] at ht
    right
    refine ⟨?_, rfl⟩
    split at ht
    · simp only [yields_bind, Field.yields_read, exists_eq_left, yields_pure] at ht
      split at ht
      · exact .inr ht
      · exact absurd ht hvalid
    · exact .inl (yields_pure.mp ht)
  case rbInit | rbEcho | rbReady =>
    simp only [yields_bind, Field.yields_read, exists_eq_left, yields_pure] at ht
    right
    refine ⟨?_, rfl⟩
    split at ht
    · exact .inr ht
    · exact .inl ht
  all_goals
    obtain rfl := yields_pure.mp ht
    first
      | decide
      | exact absurd rfl hvalid

/-! ## Headers -/

/-- The size of the message at `mess`, as `UTIL_Message_Size` computes it. -/
def sizeOf (m : Memory) (mess : Nat) : Nat :=
  wrap32 (SignedMessage.size + SignedMessage.len.get m mess +
    digestsOf (SignedMessage.mtNum.get m mess) * digestSize)

/-- The `n` bytes at `mess` passed `VAL_Validate_Signed_Message`. -/
structure Header (R : Receiver) (m : Memory) (mess n : Nat) : Prop where
  index : SignedMessage.mtIndex.get m mess ≤ SignedMessage.mtNum.get m mess
  digests : mtDigests (SignedMessage.mtNum.get m mess) = some (digestsOf (SignedMessage.mtNum.get m mess))
  size : n = SignedMessage.len.get m mess + SignedMessage.size +
    digestsOf (SignedMessage.mtNum.get m mess) * digestSize
  fits : n ≤ maxPacketSize
  signature : ∃ t, Yields (signatureType R mess) m t ∧ t ≠ .invalid ∧
    validateSender R t (SignedMessage.machineId.get m mess) = true ∧
    Yields (isValidSignature R t (SignedMessage.machineId.get m mess) mess) m true

theorem header_of_validateSignedMessage (h : Yields (validateSignedMessage R ignore mess n) m ()) :
    Header R m mess n := by
  simp only [validateSignedMessage, yields_bind, yields_require, Field.yields_read, yields_countDigests,
    exists_eq_left, exists_and_left, exists_unit] at h
  obtain ⟨-, -, ⟨-, hindex⟩, d, hd, hsize, hfits, t, ht, hvalid, hsender, -, sig, hsig, rfl⟩ := h
  have hdigests : digestsOf (SignedMessage.mtNum.get m mess) = d := by rw [digestsOf, hd, Option.getD_some]
  refine ⟨hindex, by rw [hdigests, hd], by rw [hdigests, hsize], hfits, t, ht, hvalid, hsender, hsig⟩

/-- The message is as long as `UTIL_Message_Size` says. -/
theorem Header.size_eq (h : Header R m mess n) : n = sizeOf m mess := by
  have hfits := h.fits
  have hsize := h.size
  rw [sizeOf, wrap32, Nat.mod_eq_of_lt]
  · omega
  · simp only [maxPacketSize] at hfits
    omega

/-- The content and the siblings fill the message. -/
theorem Header.end_eq (h : Header R m mess n) : mess + n = SignedMessage.content mess +
    SignedMessage.len.get m mess + digestsOf (SignedMessage.mtNum.get m mess) * digestSize := by
  rw [h.size, SignedMessage.content]
  omega

/-- Unless it is an update, the message is signed by the server it names. -/
theorem Header.signedBy (h : Header R m mess n) {type : PacketType}
    (htype : SignedMessage.type.get m mess = type.code) (hupdate : type ≠ .update) :
    SignedBy R m mess (SignedMessage.machineId.get m mess) := by
  obtain ⟨t, ht, hvalid, hsender, hsig⟩ := h.signature
  have hcode : PacketType.ofCode (SignedMessage.type.get m mess) = some type := by
    rw [htype, PacketType.ofCode_code]
  have hserver : t = .server ∨ t = .tpmServer ∨ t = .merkle ∨ t = .tpmMerkle →
      SignedMessage.machineId.get m mess ∈ R.config.servers := by
    intro hcases
    apply Finset.mem_Icc.mpr
    rcases hcases with rfl | rfl | rfl | rfl <;> exact of_decide_eq_true hsender
  rcases signatureType_server ht hcode hupdate hvalid with ⟨hkind, halone⟩ | ⟨hkind, halone⟩
  · refine ⟨rfl, hserver (hkind.imp_right .inl), ?_⟩
    have hcheck : ∃ digest, Yields (messageDigest R.crypto mess) m digest ∧
        true = R.crypto.verifyServer (SignedMessage.machineId.get m mess) digest (SignedMessage.sig.get m mess) := by
      rcases hkind with rfl | rfl <;>
        simpa only [isValidSignature, yields_bind, Blob.yields_read, yields_pure, exists_eq_left] using hsig
    obtain ⟨digest, hdigest, hverifies⟩ := hcheck
    rw [signedDigest, hcode, Option.any_some, if_pos halone, hdigest.value_eq]
    exact hverifies.symm
  · refine ⟨rfl, hserver (.inr (.inr hkind)), ?_⟩
    have hcheck : ∃ root, Yields (rootOf R.crypto mess) m root ∧
        true = R.crypto.verifyServer (SignedMessage.machineId.get m mess) root (SignedMessage.sig.get m mess) := by
      rcases hkind with rfl | rfl <;>
        simpa only [isValidSignature, mtVerify, yields_bind, Field.yields_read, Blob.yields_read, yields_pure,
          exists_eq_left] using hsig
    obtain ⟨root, hroot, hverifies⟩ := hcheck
    rw [signedDigest, hcode, Option.any_some, halone, if_neg Bool.false_ne_true, hroot.value_eq]
    exact hverifies.symm

/-! ## Messages -/

/-- The `n` bytes at `mess` passed `VAL_Validate_Message`. -/
structure Accepted (R : Receiver) (m : Memory) (ignore : Bool) (mess n : Nat) : Prop where
  header : Header R m mess n
  content : ∃ depth, Yields (validateContent R (validateMessage R depth) ignore
    (PacketType.ofCode (SignedMessage.type.get m mess)) (SignedMessage.machineId.get m mess)
    (SignedMessage.incarnation.get m mess) (SignedMessage.content mess) (SignedMessage.len.get m mess)) m ()

theorem accepted_of_validateMessage (h : Yields (validateMessage R depth ignore mess n) m ()) :
    Accepted R m ignore mess n := by
  cases depth with
  | zero => exact absurd h yields_stop
  | succ depth =>
    simp only [validateMessage, yields_bind, Field.yields_read, yields_countDigests, exists_eq_left,
      exists_unit] at h
    obtain ⟨hheader, d, hd, hcontent⟩ := h
    have hheader := header_of_validateSignedMessage hheader
    have hlen : n - SignedMessage.size - d * digestSize = SignedMessage.len.get m mess := by
      have hsize := hheader.size
      rw [digestsOf, hd, Option.getD_some] at hsize
      omega
    rw [hlen] at hcontent
    exact ⟨hheader, depth, hcontent⟩

/-! ## Messages that are carried -/

section Carried

variable {valid : Bool → Nat → Nat → Reader Unit} {type : PacketType} {rest : Nat}

theorem messageSize_yields {s : Nat} (h : Yields (messageSize mess) m s) : s = sizeOf m mess := by
  simp only [messageSize, yields_bind, Field.yields_read, yields_countDigests, yields_pure,
    exists_eq_left] at h
  obtain ⟨d, hd, rfl⟩ := h
  rw [sizeOf, digestsOf, hd, Option.getD_some]

/-- A message in a carrier has the type it should, fits, and is valid. -/
theorem embedded_yields (h : Yields (embedded valid ignore type mess rest) m n) :
    n = sizeOf m mess ∧ SignedMessage.type.get m mess = type.code ∧ sizeOf m mess ≤ rest ∧
      Yields (valid ignore mess (sizeOf m mess)) m () := by
  simp only [embedded, yields_bind, yields_require, Field.yields_read, yields_pure, exists_eq_left,
    exists_unit] at h
  obtain ⟨s, hs, htype, hrest, hvalid, rfl⟩ := h
  obtain rfl := messageSize_yields hs
  exact ⟨rfl, htype, hrest, hvalid⟩

/-- **The messages of a carrier.** A walk over messages finds them one behind the other;
each has the type it should, fits, is valid and passes the check of its index. -/
theorem messages_yields {limit least fuel a last count : Nat} {most : Option Nat}
    {check : Nat → Nat → Reader Unit}
    (h : Yields ((messages valid ignore type limit least most check).run fuel a 0) m (last, count)) :
    last = after (sizeOf m) a count ∧ ∀ i < count,
      SignedMessage.type.get m (after (sizeOf m) a i) = type.code ∧
      Yields (valid ignore (after (sizeOf m) a i) (sizeOf m (after (sizeOf m) a i))) m () ∧
      Yields (check i (after (sizeOf m) a i)) m () := by
  have hitem : ∀ i mess rest n,
      Yields ((messages valid ignore type limit least most check).item i mess rest) m n →
      n = sizeOf m mess ∧ SignedMessage.type.get m mess = type.code ∧
        Yields (valid ignore mess (sizeOf m mess)) m () ∧ Yields (check i mess) m () := by
    intro i mess rest n hn
    simp only [messages, yields_bind, yields_pure, exists_unit] at hn
    obtain ⟨s, hs, hcheck, rfl⟩ := hn
    obtain ⟨rfl, htype, -, hvalid⟩ := embedded_yields hs
    exact ⟨rfl, htype, hvalid, hcheck⟩
  have hsize : ∀ i mess rest n,
      Yields ((messages valid ignore type limit least most check).item i mess rest) m n → n = sizeOf m mess :=
    fun i mess rest n hn => (hitem i mess rest n hn).1
  obtain ⟨k, hcount, hlast, hitems⟩ := Walk.yields_run hsize h
  rw [Nat.zero_add] at hcount
  subst hcount
  refine ⟨hlast, fun i hi => ?_⟩
  have hi := hitems i hi
  rw [Nat.zero_add] at hi
  exact (hitem _ _ _ _ hi).2

end Carried

/-! ## Where validators read

The signature type of an update and of a PO-Request depends on the content. Of the other
types nothing but the header is read before the size of the message is known. -/

section Extent

variable {type : PacketType}

theorem signatureType_within (htype : SignedMessage.type.get m mess = type.code) (hupdate : type ≠ .update)
    (hrequest : type ≠ .poRequest) (hB : mess + SignedMessage.size ≤ B) :
    Within (signatureType R mess) m B := by
  unfold signatureType
  apply Field.within_bind SignedMessage.size (by decide) hB
  apply Field.within_bind SignedMessage.size (by decide) hB
  rw [htype, PacketType.ofCode_code]
  cases type
  case update => exact absurd rfl hupdate
  case poRequest => exact absurd rfl hrequest
  case rbInit | rbEcho | rbReady =>
    apply Field.within_bind SignedMessage.size (by decide) hB
    exact within_pure
  all_goals exact within_pure

theorem validateIncarnation_within {t : SigType} (htype : SignedMessage.type.get m mess = type.code)
    (hupdate : type ≠ .update) (hB : mess + SignedMessage.size ≤ B) :
    Within (validateIncarnation R t mess) m B := by
  apply Field.within_bind SignedMessage.size (by decide) hB
  apply Field.within_bind SignedMessage.size (by decide) hB
  apply Field.within_bind SignedMessage.size (by decide) hB
  refine within_ite (fun _ => within_require) fun _ => ?_
  refine within_bind (within_ite (fun hc => ?_) fun _ => within_pure) fun transfer _ => ?_
  · exact absurd (PacketType.code_injective (htype.symm.trans hc.1)) hupdate
  · exact within_ite (fun _ => within_pure) fun _ =>
      within_ite (fun _ => within_require) fun _ => within_pure

theorem isValidSignature_within {t : SigType} {sender : Nat} (hheader : Header R m mess n)
    (hB : mess + n ≤ B) : Within (isValidSignature R t sender mess) m B := by
  have hend := hheader.end_eq
  simp only [SignedMessage.content] at hend
  have hsig : mess + SignedMessage.size ≤ B := by omega
  have halone : mess + SignedMessage.size + SignedMessage.len.get m mess ≤ B := by omega
  cases t with
  | merkle | tpmMerkle => exact mtVerify_within hheader.index hheader.digests (by omega)
  | invalid => exact within_pure
  | server | tpmServer | client =>
    refine within_bind (messageDigest_within halone) fun digest _ => ?_
    apply Blob.within_bind SignedMessage.size (by decide) hsig
    exact within_pure

/-- The header and the signature are checked within the message. -/
theorem validateSignedMessage_within (htype : SignedMessage.type.get m mess = type.code)
    (hupdate : type ≠ .update) (hrequest : type ≠ .poRequest) (hB : mess + n ≤ B) :
    Within (validateSignedMessage R ignore mess n) m B := by
  refine Within.of_yields fun _ h => ?_
  have hheader := header_of_validateSignedMessage h
  have hsize : mess + SignedMessage.size ≤ B := by
    have := hheader.size
    omega
  apply within_require_bind
  intro _
  apply Field.within_bind SignedMessage.size (by decide) hsize
  apply within_require_bind
  intro _
  apply Field.within_bind SignedMessage.size (by decide) hsize
  apply Field.within_bind SignedMessage.size (by decide) hsize
  apply within_require_bind
  intro _
  apply Field.within_bind SignedMessage.size (by decide) hsize
  refine within_bind within_countDigests fun _ _ => ?_
  apply within_require_bind
  intro _
  apply within_require_bind
  intro _
  refine within_bind (signatureType_within htype hupdate hrequest hsize) fun t _ => ?_
  apply within_require_bind
  intro _
  apply Field.within_bind SignedMessage.size (by decide) hsize
  apply within_require_bind
  intro _
  refine within_bind (within_ite (fun _ => within_pure) fun _ =>
    validateIncarnation_within htype hupdate hsize) fun _ _ => ?_
  exact within_bind (isValidSignature_within hheader hB) fun _ _ => within_require

/-- A message is checked within its bytes, when its content is. -/
theorem validateMessage_within (htype : SignedMessage.type.get m mess = type.code)
    (hupdate : type ≠ .update) (hrequest : type ≠ .poRequest) (hB : mess + n ≤ B)
    (hcontent : Header R m mess n → ∀ depth', Within (validateContent R (validateMessage R depth') ignore
      (some type) (SignedMessage.machineId.get m mess) (SignedMessage.incarnation.get m mess)
      (SignedMessage.content mess) (SignedMessage.len.get m mess)) m B) :
    Within (validateMessage R depth ignore mess n) m B := by
  cases depth with
  | zero => exact within_stop
  | succ depth =>
    refine Within.of_yields fun _ h => ?_
    obtain ⟨_, hs, _⟩ := yields_bind.mp h
    have hheader := header_of_validateSignedMessage hs
    have hsize : mess + SignedMessage.size ≤ B := by
      have := hheader.size
      omega
    refine within_bind (validateSignedMessage_within htype hupdate hrequest hB) fun _ _ => ?_
    apply Field.within_bind SignedMessage.size (by decide) hsize
    refine within_bind within_countDigests fun d hd => ?_
    apply Field.within_bind SignedMessage.size (by decide) hsize
    apply Field.within_bind SignedMessage.size (by decide) hsize
    apply Field.within_bind SignedMessage.size (by decide) hsize
    have hlen : n - SignedMessage.size - d * digestSize = SignedMessage.len.get m mess := by
      have hsize := hheader.size
      rw [digestsOf, yields_countDigests.mp hd, Option.getD_some] at hsize
      omega
    rw [hlen, htype, PacketType.ofCode_code]
    exact hcontent hheader depth

theorem messageSize_within (hB : mess + SignedMessage.size ≤ B) : Within (messageSize mess) m B := by
  apply Field.within_bind SignedMessage.size (by decide) hB
  apply Field.within_bind SignedMessage.size (by decide) hB
  exact within_bind within_countDigests fun _ _ => within_pure

/-- A message in a carrier is checked within the carrier. -/
theorem embedded_within {valid : Bool → Nat → Nat → Reader Unit} {rest : Nat}
    (hvalid : Yields (valid ignore mess (sizeOf m mess)) m () → Header R m mess (sizeOf m mess))
    (hwithin : SignedMessage.type.get m mess = type.code →
      Within (valid ignore mess (sizeOf m mess)) m (mess + sizeOf m mess))
    (hB : mess + rest ≤ B) : Within (embedded valid ignore type mess rest) m B := by
  refine Within.of_yields fun n h => ?_
  obtain ⟨-, htype, hrest, hok⟩ := embedded_yields h
  have hsize : mess + SignedMessage.size ≤ B := by
    have := (hvalid hok).size
    omega
  refine within_bind (messageSize_within hsize) fun s hs => ?_
  obtain rfl := messageSize_yields hs
  apply Field.within_bind SignedMessage.size (by decide) hsize
  apply within_require_bind
  intro _
  apply within_require_bind
  intro _
  exact within_bind ((hwithin htype).mono (by omega)) fun _ _ => within_pure

/-- A walk over messages reads within the carrier, when its check reads within the
message it is about. -/
theorem messages_within {valid : Bool → Nat → Nat → Reader Unit} {limit least fuel a count : Nat}
    {most : Option Nat} {check : Nat → Nat → Reader Unit}
    (hvalid : ∀ mess, Yields (valid ignore mess (sizeOf m mess)) m () → Header R m mess (sizeOf m mess))
    (hwithin : ∀ mess, SignedMessage.type.get m mess = type.code →
      Within (valid ignore mess (sizeOf m mess)) m (mess + sizeOf m mess))
    (hcheck : ∀ i mess, SignedMessage.type.get m mess = type.code →
      Yields (valid ignore mess (sizeOf m mess)) m () → mess + sizeOf m mess ≤ limit →
      Within (check i mess) m limit) :
    Within ((messages valid ignore type limit least most check).run fuel a count) m limit := by
  apply Walk.within_run
  intro i mess hmess
  have hmess : mess < limit := hmess
  have hrest : mess + (limit - mess) ≤ limit := by omega
  refine within_bind (embedded_within (hvalid mess) (hwithin mess) hrest) fun size hs => ?_
  obtain ⟨-, htype, hfits, hok⟩ := embedded_yields hs
  have hfits : sizeOf m mess ≤ limit - mess := hfits
  refine within_bind (hcheck i mess htype hok (by omega)) fun _ _ => within_pure

end Extent

/-! ## Messages to look at

A deployment whose digests are the first bytes of what they cover, and whose signatures
show their signer and the digest, so that its messages can be written down. -/

/-- Signatures that show what they sign. -/
def plainCrypto : Crypto where
  makeDigest l := (l ++ List.replicate digestSize 0).take digestSize
  verifyServer server digest sig := decide (sig.take 21 = UInt8.ofNat server :: digest)
  verifyClient client digest sig := decide (sig.take 21 = UInt8.ofNat client :: digest)
  verifyThreshold _ _ := false

/-- Server 1, with every server in its first incarnation. -/
def plainReceiver (c : Config) : Receiver where
  config := c
  me := 1
  status := .normal
  installedIncarnations _ := 1
  jumpIncarnation _ := none
  crypto := plainCrypto
  stack _ := 0

/-- The header from `mt_num` on, of a message that is alone in its tree. -/
def headerBytes (server : Nat) (type : PacketType) (len : Nat) : Bytes :=
  leBytes 2 1 ++ leBytes 2 1 ++ leBytes 4 0 ++ leBytes 4 server ++ leBytes 4 len ++ leBytes 4 type.code ++
    leBytes 4 1 ++ leBytes 4 0

/-- The bytes that matter of the signature on a message with that header. -/
def signatureBytes (server : Nat) (type : PacketType) (header : Bytes) : Bytes :=
  UInt8.ofNat server :: (if signedAlone type = true then header else header.drop 4).take digestSize

/-- Memory with a message of `server` at `mess`, and its signature. -/
def withMessage (m : Memory) (mess server : Nat) (type : PacketType) (content : Bytes) : Memory :=
  let header := headerBytes server type content.length
  ((m.write mess (signatureBytes server type header)).write (mess + signatureSize) header).write
    (SignedMessage.content mess) content

/-- Memory with messages one behind the other from an address. -/
def withMessages (m : Memory) (mess : Nat) : List (Nat × PacketType × Bytes) → Memory
  | [] => m
  | (server, type, content) :: rest =>
    withMessages (withMessage m mess server type content) (mess + (SignedMessage.size + content.length)) rest

/-- The bytes of messages one behind the other. -/
def messagesBytes : List (Nat × PacketType × Bytes) → Bytes
  | [] => []
  | (server, type, content) :: rest =>
    let header := headerBytes server type content.length
    signatureBytes server type header ++ (List.replicate (signatureSize - 1 - digestSize) 0 ++ (header ++
      (content ++ messagesBytes rest)))

/-- How long those messages are. -/
def messagesLength (messages : List (Nat × PacketType × Bytes)) : Nat :=
  (messages.map fun message => SignedMessage.size + message.2.2.length).sum

/-- Messages of the given servers, in that order, with one content. -/
def messagesOf (servers : List Nat) (type : PacketType) (content : Bytes) : List (Nat × PacketType × Bytes) :=
  servers.map fun server => (server, type, content)

end Spire.Validate
