import Spire.Lib.Reader
import Spire.Packets

/-!
# The byte layout of messages

`packets.h`: where the fields of a message lie behind a pointer to it, on a 64-bit
little-endian machine. A `Field` is an integer of the structure and a `Blob` an array
of bytes; both are read from an address and can be looked at in a memory.

Sizes and offsets that depend on the number of servers take the configuration.
-/

namespace Spire

open Lib

namespace Wire

/-- An unsigned integer at an offset within a structure. -/
structure Field where
  offset : Nat
  width : Nat

namespace Field

/-- Read the field of the structure at `a`. -/
def read (f : Field) (a : Nat) : Reader Nat := Reader.int (a + f.offset) f.width

/-- The field of the structure at `a`. -/
def get (f : Field) (m : Memory) (a : Nat) : Nat := m.int (a + f.offset) f.width

variable {f : Field} {m : Memory} {a v B : Nat}

@[simp] theorem yields_read : Reader.Yields (f.read a) m v ↔ v = f.get m a := Reader.yields_int

theorem within_read {n : Nat} (hf : f.offset + f.width ≤ n) (h : a + n ≤ B) :
    Reader.Within (f.read a) m B :=
  Reader.within_int (by omega)

/-- A field within the first `n` bytes of a structure is read, and what follows uses it. -/
theorem within_bind {α : Type} {g : Nat → Reader α} (n : Nat) (hf : f.offset + f.width ≤ n)
    (h : a + n ≤ B) (hg : Reader.Within (g (f.get m a)) m B) : Reader.Within (f.read a >>= g) m B :=
  Reader.within_bind (within_read hf h) fun _ hv => yields_read.mp hv ▸ hg

theorem inside_read : Reader.Inside (f.read a) m B ↔ a + f.offset + f.width ≤ B := Iff.rfl

/-- A field is read, and what follows uses it. -/
theorem inside_read_bind {α : Type} {g : Nat → Reader α} :
    Reader.Inside (f.read a >>= g) m B ↔ a + f.offset + f.width ≤ B ∧ Reader.Inside (g (f.get m a)) m B := by
  rw [Reader.inside_bind, inside_read]
  refine and_congr_right fun _ => ⟨fun h => h _ (yields_read.mpr rfl), fun h v hv => yields_read.mp hv ▸ h⟩

theorem get_lt : f.get m a < 256 ^ f.width := m.int_lt (a + f.offset) f.width

/-- A field is the same in two copies of its structure. -/
theorem get_congr {m' : Memory} {b : Nat} (n : Nat) (hf : f.offset + f.width ≤ n)
    (h : ∀ i < n, m (a + i) = m' (b + i)) : f.get m a = f.get m' b := by
  apply Memory.int_congr
  intro i hi
  rw [Nat.add_assoc, Nat.add_assoc]
  exact h _ (by omega)

end Field

/-- An array of bytes at an offset within a structure. -/
structure Blob where
  offset : Nat
  length : Nat

namespace Blob

/-- Read the array of the structure at `a`. -/
def read (b : Blob) (a : Nat) : Reader Bytes := Reader.bytes (a + b.offset) b.length

/-- The array of the structure at `a`. -/
def get (b : Blob) (m : Memory) (a : Nat) : Bytes := m.bytes (a + b.offset) b.length

variable {b : Blob} {m : Memory} {a B : Nat} {l : Bytes}

@[simp] theorem yields_read : Reader.Yields (b.read a) m l ↔ l = b.get m a := Reader.yields_bytes

theorem within_read {n : Nat} (hb : b.offset + b.length ≤ n) (h : a + n ≤ B) :
    Reader.Within (b.read a) m B :=
  Reader.within_bytes (by omega)

/-- An array is the same in two copies of its structure. -/
theorem get_congr {m' : Memory} {a' : Nat} (n : Nat) (hb : b.offset + b.length ≤ n)
    (h : ∀ i < n, m (a + i) = m' (a' + i)) : b.get m a = b.get m' a' := by
  apply Memory.bytes_congr
  intro i hi
  rw [Nat.add_assoc, Nat.add_assoc]
  exact h _ (by omega)

/-- An array within the first `n` bytes of a structure is read, and what follows uses it. -/
theorem within_bind {α : Type} {g : Bytes → Reader α} (n : Nat) (hb : b.offset + b.length ≤ n)
    (h : a + n ≤ B) (hg : Reader.Within (g (b.get m a)) m B) : Reader.Within (b.read a >>= g) m B :=
  Reader.within_bind (within_read hb h) fun _ hv => yields_read.mp hv ▸ hg

end Blob

/-- `DIGEST_SIZE`. -/
def digestSize : Nat := 20

/-- `SIGNATURE_SIZE`. -/
def signatureSize : Nat := 128

/-- `PRIME_MAX_PACKET_SIZE`. -/
def maxPacketSize : Nat := 32000

/-- `UPDATE_SIZE`. -/
def updateSize : Nat := 300

/-- `NUM_CLIENTS`. -/
def numClients : Nat := 150

/-! ## The header -/

namespace SignedMessage

/-- `sizeof(signed_message)`. -/
def size : Nat := 156

def sig : Blob := ⟨0, signatureSize⟩
def mtNum : Field := ⟨128, 2⟩
def mtIndex : Field := ⟨130, 2⟩
def siteId : Field := ⟨132, 4⟩
def machineId : Field := ⟨136, 4⟩
def len : Field := ⟨140, 4⟩
def type : Field := ⟨144, 4⟩
def incarnation : Field := ⟨148, 4⟩
def monotonicCounter : Field := ⟨152, 4⟩

/-- The content that follows the header at `mess`, the source's `mess + 1`. -/
def content (mess : Nat) : Nat := mess + size

end SignedMessage

/-! ## Bodies -/

namespace Update

def size : Nat := 16
def serverId : Field := ⟨0, 4⟩
def seqNum : Field := ⟨12, 4⟩

end Update

namespace PoRequest

def size : Nat := 12
def incarnation : Field := ⟨0, 4⟩
def seqNum : Field := ⟨4, 4⟩
def numEvents : Field := ⟨8, 4⟩

end PoRequest

namespace PoAck

def size (c : Config) : Nat := 4 + 4 * c.numServers
def numAckParts : Field := ⟨0, 4⟩
def preinstalledIncarnations (c : Config) : Blob := ⟨4, 4 * c.numServers⟩

end PoAck

namespace PoAckPart

def size : Nat := 32
def originator : Field := ⟨0, 4⟩
def incarnation : Field := ⟨4, 4⟩
def seqNum : Field := ⟨8, 4⟩
def digest : Blob := ⟨12, digestSize⟩

end PoAckPart

namespace PoAruMessage

def size (c : Config) : Nat := 4 + 8 * c.numServers
def num : Field := ⟨0, 4⟩

/-- The entry for `server`, counted from one. -/
def ackIncarnation (server : Nat) : Field := ⟨4 + 8 * (server - 1), 4⟩
def ackSeqNum (server : Nat) : Field := ⟨8 + 8 * (server - 1), 4⟩

end PoAruMessage

/-- `sizeof(po_aru_signed_message)`. -/
def poAruSignedSize (c : Config) : Nat := SignedMessage.size + PoAruMessage.size c

namespace ProofMatrix

def size : Nat := 12
def numAcks : Field := ⟨0, 4⟩

end ProofMatrix

namespace PrePrepareMessage

def size (c : Config) : Nat := 36 + 8 * c.numServers
def seqNum : Field := ⟨0, 4⟩
def view : Field := ⟨4, 4⟩
def proposalDigest : Blob := ⟨8, digestSize⟩
def lastExecuted (c : Config) : Blob := ⟨28, 8 * c.numServers⟩
def partNum (c : Config) : Field := ⟨28 + 8 * c.numServers, 2⟩
def totalParts (c : Config) : Field := ⟨30 + 8 * c.numServers, 2⟩
def numAcks (c : Config) : Field := ⟨32 + 8 * c.numServers, 4⟩

theorem fields_le (c : Config) : ∀ f ∈ [seqNum, view, partNum c, totalParts c, numAcks c],
    f.offset + f.width ≤ size c := by
  simp only [List.forall_mem_cons, seqNum, view, partNum, totalParts, numAcks, size]
  refine ⟨by omega, by omega, by omega, by omega, by omega, ?_⟩
  exact fun f hf => absurd hf List.not_mem_nil

theorem blobs_le (c : Config) : ∀ b ∈ [proposalDigest, lastExecuted c],
    b.offset + b.length ≤ size c := by
  simp only [List.forall_mem_cons, proposalDigest, lastExecuted, size, digestSize]
  refine ⟨by omega, by omega, ?_⟩
  exact fun b hb => absurd hb List.not_mem_nil

end PrePrepareMessage

namespace VouchMessage

/-- `prepare_message` and `commit_message` have one layout. -/
def size (c : Config) : Nat := 28 + 4 * c.numServers
def seqNum : Field := ⟨0, 4⟩
def view : Field := ⟨4, 4⟩
def digest : Blob := ⟨8, digestSize⟩
def preinstalledIncarnations (c : Config) : Blob := ⟨28, 4 * c.numServers⟩

end VouchMessage

namespace NewLeader

def size : Nat := 4
def newView : Field := ⟨0, 4⟩

end NewLeader

namespace RbTag

def machineId : Field := ⟨0, 4⟩

end RbTag

namespace OrdCertificate

def size : Nat := 12
def view : Field := ⟨0, 4⟩
def seqNum : Field := ⟨4, 4⟩
def type : Field := ⟨8, 4⟩

end OrdCertificate

namespace PoCertificate

def size : Nat := 12
def server : Field := ⟨0, 4⟩
def incarnation : Field := ⟨4, 4⟩
def seqNum : Field := ⟨8, 4⟩

end PoCertificate

namespace Jump

def size (c : Config) : Nat := 28 + 4 * c.numServers
def seqNum : Field := ⟨0, 4⟩

end Jump

namespace IncarnationAck

def size : Nat := 28
def ackedId : Field := ⟨0, 4⟩
def ackedIncarnation : Field := ⟨4, 4⟩
def digest : Blob := ⟨8, digestSize⟩

end IncarnationAck

namespace PendingShare

def size : Nat := 12
def type : Field := ⟨4, 4⟩

end PendingShare

namespace ResetProposal

def size : Nat := 8
def view : Field := ⟨0, 4⟩
def numShares : Field := ⟨4, 4⟩

end ResetProposal

namespace ResetVouch

/-- `reset_prepare_message` and `reset_commit_message` have one layout. -/
def size : Nat := 24
def view : Field := ⟨0, 4⟩
def digest : Blob := ⟨4, digestSize⟩

end ResetVouch

namespace ResetViewChange

def size : Nat := 16
def containsProposal : Field := ⟨12, 4⟩

end ResetViewChange

namespace VcProofMessage

def size : Nat := 140

/-- `view`, `list` and `startSeq`, which the threshold signature covers. -/
def signedPart : Blob := ⟨0, 12⟩
def threshSig : Blob := ⟨12, signatureSize⟩

end VcProofMessage

end Wire

end Spire
