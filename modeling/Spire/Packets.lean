import Spire.Def

/-!
# Packets

The message structures of `packets.h` that the replication core exchanges, as
records. Every message is a `signed_message` header followed by a body; the byte
layout of both is the subject of `Spire.Wire`, and nothing here depends on it.

Digests are a parameter. The records that carry one are generic in its type, so
that the ordering results can speak of an arbitrary collision-free digest while
the wire format uses the twenty bytes of SHA-1.
-/

namespace Spire

/-- A byte string. -/
abbrev Bytes := List UInt8

/-- `enum packet_types`, in the order of the source. -/
inductive PacketType
  | dummy | poRequest | poAck | poAru | proofMatrix | prePrepare | prepare | commit | recon
  | tatMeasure | rttPing | rttPong | rttMeasure | tatUb | newLeader | newLeaderProof
  | rbInit | rbEcho | rbReady | report | pcSet | vcList | vcPartialSig | vcProof
  | replay | replayPrepare | replayCommit | ordCert | poCert | catchupRequest | jump
  | newIncarnation | incarnationAck | incarnationCert | pendingState | pendingShare
  | resetVote | resetShare | resetProposal | resetPrepare | resetCommit | resetNewLeader
  | resetNewLeaderProof | resetViewChange | resetNewView | resetCert
  | update | clientResponse
deriving DecidableEq, Repr

namespace PacketType

/-- The types below `MAX_MESS_TYPE`, each at the position of its code. -/
def all : List PacketType :=
  [dummy, poRequest, poAck, poAru, proofMatrix, prePrepare, prepare, commit, recon,
   tatMeasure, rttPing, rttPong, rttMeasure, tatUb, newLeader, newLeaderProof,
   rbInit, rbEcho, rbReady, report, pcSet, vcList, vcPartialSig, vcProof,
   replay, replayPrepare, replayCommit, ordCert, poCert, catchupRequest, jump,
   newIncarnation, incarnationAck, incarnationCert, pendingState, pendingShare,
   resetVote, resetShare, resetProposal, resetPrepare, resetCommit, resetNewLeader,
   resetNewLeaderProof, resetViewChange, resetNewView, resetCert,
   update, clientResponse]

/-- The type a header's `type` field names, if it names one. -/
def ofCode (n : Nat) : Option PacketType := all[n]?

/-- The value of the enumerator. -/
def code (t : PacketType) : Nat := all.idxOf t

theorem ofCode_code (t : PacketType) : ofCode t.code = some t := by
  cases t <;> rfl

theorem code_injective {t t' : PacketType} (h : t.code = t'.code) : t = t' := by
  have hof : ofCode t.code = ofCode t'.code := by rw [h]
  rwa [ofCode_code, ofCode_code, Option.some.injEq] at hof

theorem code_of_ofCode {n : Nat} {t : PacketType} (h : ofCode n = some t) : t.code = n := by
  have hn : n < all.length := (List.getElem?_eq_some_iff.mp h).1
  have hall : ∀ m : Fin all.length, ∀ t, ofCode m = some t → t.code = m := by decide
  exact hall ⟨n, hn⟩ t h

end PacketType

/-- `signed_message`: the header every message starts with. -/
structure Header where
  sig : Bytes
  mtNum : Nat
  mtIndex : Nat
  siteId : Nat
  machineId : Nat
  len : Nat
  type : Nat
  incarnation : Nat
  monotonicCounter : Nat
deriving DecidableEq, Repr, Inhabited

/-- A header and the body that follows it. -/
structure Signed (α : Type) where
  header : Header
  body : α
deriving DecidableEq, Repr

/-- The server whose key a message claims to be signed with. -/
def Signed.machineId {α : Type} (m : Signed α) : Nat := m.header.machineId

/-- `po_seq_pair`: a pre-order sequence number within an incarnation. -/
structure PoSeqPair where
  incarnation : Nat
  seqNum : Nat
deriving DecidableEq, Repr, Inhabited

/-- `zero_ps`. -/
def PoSeqPair.zero : PoSeqPair := ⟨0, 0⟩

/-- `po_aru_message`: how far its sender has cumulatively acknowledged each
server, one entry for each server. -/
structure PoAru where
  num : Nat
  ackForServer : List PoSeqPair
deriving DecidableEq, Repr, Inhabited

/-- `po_aru_signed_message`: one row of a proof matrix. -/
abbrev PoAruSigned := Signed PoAru

/-- A row of zero bytes, which the source calls a null vector. -/
def PoAruSigned.null (c : Config) : PoAruSigned :=
  { header := { sig := List.replicate 128 0, mtNum := 0, mtIndex := 0, siteId := 0, machineId := 0,
                len := 0, type := 0, incarnation := 0, monotonicCounter := 0 }
    body := { num := 0, ackForServer := List.replicate c.numServers PoSeqPair.zero } }

/-- `pre_prepare_message` with the rows that follow it. -/
structure PrePrepare where
  seqNum : Nat
  view : Nat
  proposalDigest : Bytes
  lastExecuted : List PoSeqPair
  partNum : Nat
  totalParts : Nat
  /-- `num_acks_in_this_message` rows. -/
  rows : List PoAruSigned
deriving DecidableEq, Repr

/-- `complete_pre_prepare_message`: the proposal a slot assembles. -/
structure CompletePrePrepare where
  seqNum : Nat
  view : Nat
  proposalDigest : Bytes
  lastExecuted : List PoSeqPair
  cumAcks : List PoAruSigned
deriving DecidableEq, Repr

/-- The zeroed structure of a new slot. -/
def CompletePrePrepare.null (c : Config) : CompletePrePrepare :=
  { seqNum := 0, view := 0, proposalDigest := List.replicate 20 0,
    lastExecuted := List.replicate c.numServers PoSeqPair.zero,
    cumAcks := List.replicate c.numServers (PoAruSigned.null c) }

/-- `prepare_message` and `commit_message` have the same fields: the proposal a
server vouches for, and the incarnations it has preinstalled. -/
structure Vouch (D : Type) where
  seqNum : Nat
  view : Nat
  digest : D
  preinstalledIncarnations : List Nat
deriving DecidableEq, Repr

end Spire
