import Mathlib
import Spire.Lib.Runs
import Spire.OrdQueue
import Spire.ItrcMaster
import Spire.Wire

/-!
# What a client can write into an update

Prime orders the contents of an update without looking at them. `ITRC_Master` and the SCADA
master take them apart: by a type, which is also that of Prime's own messages, and by the fields
that the type has. Of those `ITRC_Validate_Message` checks only some, and the length in the header
nobody checks, so that a short message leaves what the master's buffer held before.

`Admits` is what the contents have to be, and a run does no harm exactly if each update is so.
Whatever else happens in the two processes may come between the updates.
-/

namespace Spire.Contents

open Lib Wire Scada
open Spire.Itrc (OrdConsec ordCompare zeroOrd quiet)

/-! ## The layout -/

namespace MessageType

@[match_pattern] def rtuData : Nat := 1
@[match_pattern] def hmiCommand : Nat := 4
@[match_pattern] def stateRequest : Nat := 7
@[match_pattern] def stateXfer : Nat := 8
@[match_pattern] def systemReset : Nat := 9
@[match_pattern] def benchmark : Nat := 10
@[match_pattern] def primeNoOp : Nat := 101
@[match_pattern] def primeStateTransfer : Nat := 102
@[match_pattern] def primeSystemReset : Nat := 103

end MessageType

/-- An integer of four bytes as an `int32_t`. -/
def int32 (n : Nat) : Int := if n < 2 ^ 31 then n else (n : Int) - 2 ^ 32

section Layout

variable (c : Memory)

def type : Nat := SignedMessage.type.get c 0

def machineId : Nat := SignedMessage.machineId.get c 0

/-- An integer behind the header. -/
def word (offset : Nat) : Nat := c.int (SignedMessage.size + offset) 4

/-- `seq`, with which each of the messages starts. -/
def seq : SeqPair := ⟨word c 0, word c 4⟩

/-- `rtu_id`, `hmi_id` or `sender`, and what the code takes for the client. -/
def client : Nat := word c 8

/-- `scen_type`. -/
def scenario : Scenario :=
  match word c 12 with
  | 1 => .jhu
  | 2 => .pnnl
  | 3 => .ems
  | n => .unknown n

/-- `id` of the `ems_fields` of a RTU_DATA, and `ttip_pos` of a HMI_COMMAND. -/
def emsId : Nat := word c 24

def ttipPos : Int := int32 (word c 20)

/-- `data` of a RTU_DATA. -/
def rtuFields : Option RtuFields :=
  match scenario c with
  | .jhu => some (.jhu (int32 (word c 24)) fun i => int32 (word c (28 + 4 * i)))
  | .pnnl => some (.pnnl { padd := word c 24, body := fun i => c (SignedMessage.size + 28 + i) })
  | .ems =>
    some (.ems
      { id := emsId c, status := word c 28, maxGeneration := word c 32, currGeneration := word c 36
        targetGeneration := word c 40, padd := fun i => word c (44 + 4 * i) })
  | .unknown _ => none

def rtuData (data : RtuFields) : RtuData :=
  { seq := seq c, rtuId := client c, sec := word c 16, usec := word c 20, data := data }

def hmiCommand : HmiCommand :=
  { seq := seq c, hmiId := client c, scenType := scenario c, type := int32 (word c 16), ttipPos := ttipPos c }

def benchmark : Benchmark :=
  { seq := seq c, sender := int32 (client c), pingSec := word c 12, pingUsec := word c 16, pongSec := word c 20
    pongUsec := word c 24 }

def stateRequest : StateRequest :=
  { target := word c 0, latestUpdate := (List.range numProgress).map fun i => ⟨word c (4 + 8 * i), word c (8 + 8 * i)⟩ }

/-- What `ITRC_Valid_Type` and `ITRC_Process_Prime_Ordinal` take the contents for. A RTU_DATA of an
unknown scenario is not valid, and a PRIME_SYSTEM_RESET that comes here is nothing. -/
def decode : PrimeMsg :=
  match type c with
  | MessageType.primeNoOp => .noOp (machineId c)
  | MessageType.primeStateTransfer => .stateTransfer (machineId c)
  | MessageType.rtuData =>
    match rtuFields c with
    | some data => .rtuData (rtuData c data)
    | none => .other
  | MessageType.hmiCommand => .hmiCommand (hmiCommand c)
  | MessageType.benchmark => .benchmark (benchmark c)
  | _ => .other

end Layout

/-! ## The SCADA master -/

/-- Failing assertions, accesses out of range, and a buffer that is freed but was not allocated. -/
inductive Crash
  | resetOrdinal | progress | upHist | emptyQueue | invalidFree | outside
  | master (e : Fault)
deriving DecidableEq, Repr

section Master

variable (t : Topology) (me : Nat)

/-- The slots that the loop of `apply_state` walks from an offset of the buffer, as long as they
and their fields are where they should be. The result is the offset behind them. -/
def walkSlots (buf : Memory) : Nat → Nat → Option Nat
  | 0, p => some p
  | n + 1, p =>
    let client := buf.int p 4
    let numFields := buf.int (p + 4) 4
    if p + 8 + numFields ≤ maxLen ∧ client < t.numSubs ∧ 0 < numFields ∧ numFields ≤ 1 + (t.sub client).swList.length then
      walkSlots buf n (p + 8 + numFields)
    else none

/-- `target`, `num_clients` and `state_size` of a STATE_XFER. -/
def xferTarget (buf : Memory) : Nat := word buf 12

def numClients (buf : Memory) : Nat := word buf 848

def stateSize (buf : Memory) : Nat := word buf 852

/-- `apply_state` on the buffer. The slot after those of the substations is that of PNNL. -/
def applyBuffer (s : State) (buf : Memory) : Except Crash State :=
  if xferTarget buf ≠ me then .ok s
  else if maxLen < SignedMessage.size + SignedMessage.len.get buf 0 then .ok s
  else
    match walkSlots t buf ((numClients buf + 2 ^ 32 - 1) % 2 ^ 32) stateXferSize with
    | none => .error .outside
    | some p =>
      if maxLen < p + 8 + pnnlLen then .error .outside
      else if p + 8 + pnnlLen ≠ stateXferSize + stateSize buf then .error (.master .stateSize)
      else
        let grid := (applySlots t (numClients buf - 1) (buf.bytes stateXferSize (stateSize buf)) s.grid).1
        let pnnl := { s.pnnl with body := fun i => if i < pnnlLen then buf (p + 8 + i) else s.pnnl.body i }
        .ok { s with grid := process t grid, pnnl := pnnl }

/-- The main loop on what is in its buffer. For a RTU_DATA of an unknown scenario no HMI_UPDATE is
constructed, and the buffer itself is freed. -/
def handleBuffer (s : State) (buf : Memory) : Except Crash (State × Option Reply) :=
  match type buf with
  | MessageType.rtuData =>
    match rtuFields buf with
    | some data => (handle t me s (.rtuData (rtuData buf data))).mapError .master
    | none => .error .invalidFree
  | MessageType.hmiCommand => (handle t me s (.hmiCommand (hmiCommand buf))).mapError .master
  | MessageType.benchmark => (handle t me s (.benchmark (benchmark buf))).mapError .master
  | MessageType.stateRequest => (handle t me s (.stateRequest (stateRequest buf))).mapError .master
  | MessageType.stateXfer => (applyBuffer t me s buf).map fun s => (s, none)
  | MessageType.systemReset => (handle t me s .systemReset).mapError .master
  | _ => .ok (s, none)

end Master

/-! ## The reliable channel -/

/-- An update that Prime has ordered: who signed it, and its contents. -/
structure Ordered where
  signer : Nat
  contents : Memory

/-- The variables of `ITRC_Master` and of the master that other messages set as well. `buf` is the
buffer of the master's main loop. -/
structure Vars where
  recvdOrd : Itrc.Ordinal
  progress : Nat → SeqPair
  collecting : Bool
  ordQueue : List Itrc.Ordinal
  buf : Memory
  sm : State

/-- The two processes. `parked` are the updates that wait for a state transfer. At the end is what
updates have done: the resets, and the transfers with the replica and the signer of each. -/
structure Side extends Vars where
  parked : List (Itrc.Ordinal × Ordered)
  crash : Option Crash
  resets : Nat
  started : List (Nat × Nat)

/-- The bytes of a message over what was in the buffer. -/
def overlay (buf : Memory) (n : Nat) (c : Memory) : Memory := fun i => if i < n then c i else buf i

/-- `nBytes` of `ITRC_Process_Prime_Ordinal`. -/
def messageSize (c : Memory) : Nat := (SignedMessage.size + SignedMessage.len.get c 0) % 2 ^ 32

/-- The header of a message that `ITRC_Master` makes. -/
def header (me len type : Nat) : List UInt8 :=
  List.replicate 136 0 ++ int32Bytes me ++ int32Bytes len ++ int32Bytes type ++ List.replicate 8 0

def requestBytes (me target : Nat) (progress : Nat → SeqPair) : List UInt8 :=
  header me 836 MessageType.stateRequest ++ int32Bytes target ++
    (List.range numProgress).flatMap fun i => int32Bytes (progress i).incarnation ++ int32Bytes (progress i).seqNum

section Channel

variable (t : Topology) (me : Nat)

/-- The ordinal of a reply. -/
def Side.pop (s : Side) : Side :=
  match s.ordQueue with
  | [] => { s with crash := some .emptyQueue }
  | _ :: rest => { s with ordQueue := rest }

/-- `ITRC_Master` on a reply, of which it needs the type. A BENCHMARK comes back in the size in
which it was sent. -/
def Side.hear (s : Side) (nBytes : Nat) : Option Reply → Side
  | none => s
  | some (.benchmark _) => if nBytes ≤ 144 then s else s.pop
  | some _ => s.pop

/-- The master takes a message, and the channel its reply. -/
def Side.serve (s : Side) (buf : Memory) (nBytes : Nat) : Side :=
  match handleBuffer t me s.sm buf with
  | .error e => { s with buf := buf, crash := some e }
  | .ok (sm, reply) =>
    let resets := if type buf = MessageType.systemReset then s.resets + 1 else s.resets
    Side.hear { s with buf := buf, sm := sm, resets := resets } nBytes reply

/-- An update that goes to the master. -/
def Side.pass (s : Side) (c : Memory) : Side :=
  if updateSize < messageSize c then { s with crash := some .upHist }
  else s.serve t me (overlay s.buf (messageSize c) c) (messageSize c)

/-- The request for a state that goes to the master. -/
def Side.request (s : Side) (target signer : Nat) : Side :=
  let request := { target := target, latestUpdate := (List.range numProgress).map s.progress }
  let buf := s.buf.write 0 (requestBytes me target s.progress)
  let s := { s with buf := buf, started := s.started ++ [(target, signer)] }
  match packageState t s.sm request with
  | .error e => { s with crash := some (.master e) }
  | .ok st => s.hear maxLen (some (.stateXfer st))

/-- A transfer to the replica itself. -/
def Side.ownTransfer (s : Side) (o : Itrc.Ordinal) (signer : Nat) : Side :=
  if OrdConsec s.recvdOrd o then s
  else { s with collecting := true, started := s.started ++ [(me, signer)] }

/-- The client of a valid message is the index of an entry of `progress`. -/
def indexed (m : PrimeMsg) : Prop := ∀ c ∈ m.client, c.1 < numProgress

instance (m : PrimeMsg) : Decidable (indexed m) :=
  match h : m.client with
  | none => .isTrue fun c hc => by rw [h] at hc; cases hc
  | some c => decidable_of_iff (c.1 < numProgress) ⟨fun hlt d hd => by rw [h] at hd; cases hd; exact hlt, fun hall => hall c h⟩

/-- `ITRC_Process_Prime_Ordinal` once the ordinal is taken. -/
def Side.take (s : Side) (o : Itrc.Ordinal) (u : Ordered) : Side :=
  let m := decode u.contents
  let silent := quiet me s.progress m || m.transfersTo me
  let s := if m.transfersTo me then s.ownTransfer me o u.signer else s
  let s := { s with recvdOrd := o }
  if silent then s
  else
    let s := { s with ordQueue := s.ordQueue ++ [o], progress := m.advance s.progress }
    match m with
    | .stateTransfer target => s.request t me target u.signer
    | _ => s.pass t me u.contents

/-- `ITRC_Process_Prime_Ordinal`. -/
def Side.process (s : Side) (o : Itrc.Ordinal) (u : Ordered) : Side :=
  let m := decode u.contents
  if s.collecting then { s with parked := s.parked ++ [(o, u)] }
  else if ¬OrdConsec s.recvdOrd o ∧ m.transfersTo me = false then s
  else if m.valid me = true ∧ ¬indexed m then { s with crash := some .progress }
  else s.take t me o u

/-- A system reset, with `ITRC_Reset_Master_Data_Structures`. -/
def Side.reset (s : Side) : Side :=
  { s with
    recvdOrd := zeroOrd
    collecting := false
    ordQueue := []
    parked := []
    buf := s.buf.write 0 (header me 0 MessageType.systemReset)
    sm := { s.sm with grid := Grid.fresh, pnnl := { padd := 0, body := fun _ => 0 } } }

/-- `ITRC_Master` on an update that Prime has ordered. -/
def Side.onPrime (s : Side) (o : Itrc.Ordinal) (u : Ordered) : Side :=
  if type u.contents = MessageType.primeSystemReset then
    if o.ordNum ≠ 0 then { s with crash := some .resetOrdinal } else { s.reset me with resets := s.resets + 1 }
  else if ordCompare o s.recvdOrd ≤ 0 then s
  else s.process t me o u

/-- The next of the updates that waited for a transfer. -/
def Side.replay (s : Side) : Side :=
  match s.parked with
  | [] => s
  | (o, u) :: rest =>
    if s.collecting then s
    else
      let s := { s with parked := rest }
      if 0 < ordCompare o s.recvdOrd then s.process t me o u else s

/-- What happens: an update is ordered, one that waited is replayed, Prime itself executes a system
reset, or whatever else there is in the two processes sets their variables. -/
inductive Input
  | prime (o : Itrc.Ordinal) (u : Ordered)
  | replay
  | systemReset
  | elsewhere (x : Vars)

/-- One step, unless the process has crashed. -/
def Side.step (s : Side) (x : Input) : Side :=
  if s.crash ≠ none then s
  else
    match x with
    | .prime o u => s.onPrime t me o u
    | .replay => s.replay t me
    | .systemReset => s.reset me
    | .elsewhere x => { s with toVars := x }

def Side.init (buf : Memory) : Side :=
  { recvdOrd := zeroOrd, progress := fun _ => ⟨0, 0⟩, collecting := false, ordQueue := [], buf := buf, sm := State.init
    parked := [], crash := none, resets := 0, started := [] }

end Channel

/-! ## Contents that do no harm -/

/-- What is expected in every state: nothing has crashed, no update has reset the system, and each
transfer that an update has started is for the replica that signed it. -/
structure Side.Right (s : Side) : Prop where
  running : s.crash = none
  resets : s.resets = 0
  started : ∀ p ∈ s.started, p.1 = p.2

section Conditions

variable (t : Topology) (me : Nat)

/-- The bytes from which the master makes a state fit a message. -/
def StateFits : Prop := stateXferSize + stateLen t ≤ maxLen

/-- A STATE_XFER in the buffer is not for this replica, is too long, or has its slots in place. -/
def XferFits (buf : Memory) : Prop :=
  xferTarget buf = me → SignedMessage.size + SignedMessage.len.get buf 0 ≤ maxLen →
    ∃ p, walkSlots t buf ((numClients buf + 2 ^ 32 - 1) % 2 ^ 32) stateXferSize = some p ∧ p + 8 + pnnlLen ≤ maxLen ∧
      p + 8 + pnnlLen = stateXferSize + stateSize buf

/-- What has to be in the buffer when the master takes a message. -/
def WellTyped (buf : Memory) : Prop :=
  match type buf with
  | MessageType.rtuData =>
    match scenario buf with
    | .ems => client buf < numRtu ∧ word buf 4 ≠ 0 ∧ emsId buf < emsNumGenerators
    | .unknown _ => False
    | _ => True
  | MessageType.hmiCommand =>
    match scenario buf with
    | .pnnl => 0 ≤ ttipPos buf ∧ ttipPos buf < numBreaker
    | .ems => 0 ≤ ttipPos buf ∧ ttipPos buf < emsNumGenerators
    | _ => True
  | MessageType.stateRequest => 0 < word buf 0 ∧ word buf 0 ≤ numSm ∧ StateFits t
  | MessageType.stateXfer => XferFits t me buf
  | MessageType.systemReset => False
  | _ => True

/-- An update that is processed: a transfer is for its signer, and what goes to the master has a
client, a size and, in the buffer, contents as they should be. -/
def Harmless (x : Vars) (o : Itrc.Ordinal) (u : Ordered) : Prop :=
  match decode u.contents with
  | .stateTransfer target =>
    if target = me then OrdConsec x.recvdOrd o ∨ u.signer = me
    else target ≤ numSm → OrdConsec x.recvdOrd o → target = u.signer ∧ target ≠ 0 ∧ StateFits t
  | m =>
    m.valid me = true → OrdConsec x.recvdOrd o → indexed m ∧
      (m.client ≠ none → m.duplicate x.progress = false →
        messageSize u.contents ≤ updateSize ∧ WellTyped t me (overlay x.buf (messageSize u.contents) u.contents))

/-- The condition of a step. -/
def Admits (s : Side) : Input → Prop
  | .prime o u =>
    type u.contents ≠ MessageType.primeSystemReset ∧
      (0 < ordCompare o s.recvdOrd → s.collecting = false → Harmless t me s.toVars o u)
  | .replay =>
    match s.parked with
    | [] => True
    | (o, u) :: _ => 0 < ordCompare o s.recvdOrd → s.collecting = false → Harmless t me s.toVars o u
  | .systemReset => True
  | .elsewhere _ => True

end Conditions

/-! ## The master -/

section Master

variable {t : Topology} {me : Nat} {s : State} {buf : Memory}

theorem not_ok {ε α : Type} {e : ε} : ¬ ∃ r : α, (Except.error e : Except ε α) = .ok r := by
  rintro ⟨r, h⟩
  cases h

theorem mapError_ok {α : Type} {x : Except Fault α} : (∃ r, x.mapError Crash.master = .ok r) ↔ ∃ r, x = .ok r := by
  cases x with
  | error e => exact iff_of_false not_ok not_ok
  | ok a => exact ⟨fun _ => ⟨a, rfl⟩, fun _ => ⟨a, rfl⟩⟩

theorem map_ok {ε α β : Type} {f : α → β} {x : Except ε α} : (∃ r, x.map f = .ok r) ↔ ∃ r, x = .ok r := by
  cases x with
  | error e => exact iff_of_false not_ok not_ok
  | ok a => exact ⟨fun _ => ⟨a, rfl⟩, fun _ => ⟨f a, rfl⟩⟩

theorem onRtuData_ok (payload : RtuData) :
    (∃ r, onRtuData t s payload = .ok r) ↔ ∀ f, payload.data = .ems f →
      payload.rtuId < numRtu ∧ payload.seq.seqNum ≠ 0 ∧ f.id < emsNumGenerators := by
  cases hd : payload.data with
  | jhu txStatus swStatus =>
    simp only [onRtuData, hd]
    refine iff_of_true ⟨_, rfl⟩ fun f hf => ?_
    cases hf
  | pnnl pf =>
    simp only [onRtuData, hd]
    refine iff_of_true ⟨_, rfl⟩ fun f hf => ?_
    cases hf
  | ems f =>
    by_cases hguard : numRtu ≤ payload.rtuId ∨ payload.seq.seqNum = 0
    · simp only [onRtuData, readFromRtu, if_pos hguard, hd]
      refine iff_of_false not_ok fun h => ?_
      rcases hguard with hle | hzero
      · exact absurd (h f rfl).1 (not_lt.mpr hle)
      · exact (h f rfl).2.1 hzero
    · obtain ⟨hlt, hne⟩ := not_or.mp hguard
      simp only [onRtuData, readFromRtu, if_neg hguard, hd]
      by_cases hid : f.id < emsNumGenerators
      · rw [if_pos hid]
        refine iff_of_true ⟨_, rfl⟩ fun g hg => ?_
        cases hg
        exact ⟨not_le.mp hlt, hne, hid⟩
      · rw [if_neg hid]
        exact iff_of_false not_ok fun h => hid (h f rfl).2.2

theorem readFromHmi_ok :
    (∃ r, readFromHmi t s (hmiCommand buf) = .ok r) ↔
      match scenario buf with
      | .pnnl => 0 ≤ ttipPos buf ∧ ttipPos buf < numBreaker
      | .ems => 0 ≤ ttipPos buf ∧ ttipPos buf < emsNumGenerators
      | _ => True := by
  unfold readFromHmi hmiCommand
  cases scenario buf with
  | jhu =>
    dsimp only
    split_ifs <;> exact iff_of_true ⟨_, rfl⟩ trivial
  | pnnl =>
    dsimp only
    split_ifs with hpos
    · exact iff_of_true ⟨_, rfl⟩ hpos
    · exact iff_of_false nofun hpos
  | ems =>
    dsimp only
    split_ifs with hpos
    · exact iff_of_true ⟨_, rfl⟩ hpos
    · exact iff_of_false nofun hpos
  | unknown n => exact iff_of_true ⟨_, rfl⟩ trivial

theorem packageState_ok (sr : StateRequest) :
    (∃ st, packageState t s sr = .ok st) ↔ 0 < sr.target ∧ sr.target ≤ numSm ∧ StateFits t := by
  unfold packageState StateFits
  simp only [length_state]
  split_ifs with htarget hsize
  · exact iff_of_false nofun (by omega)
  · exact iff_of_false nofun (by omega)
  · exact iff_of_true ⟨_, rfl⟩ (by omega)

theorem applyBuffer_ok : (∃ r, applyBuffer t me s buf = .ok r) ↔ XferFits t me buf := by
  unfold applyBuffer XferFits
  by_cases htarget : xferTarget buf = me
  · rw [if_neg (not_not.mpr htarget)]
    by_cases hlen : maxLen < SignedMessage.size + SignedMessage.len.get buf 0
    · rw [if_pos hlen]
      exact iff_of_true ⟨_, rfl⟩ fun _ hle => absurd hlen (not_lt.mpr hle)
    · rw [if_neg hlen]
      cases hwalk : walkSlots t buf ((numClients buf + 2 ^ 32 - 1) % 2 ^ 32) stateXferSize with
      | none =>
        refine iff_of_false nofun fun h => ?_
        obtain ⟨p, hp, -⟩ := h htarget (not_lt.mp hlen)
        cases hp
      | some p =>
        dsimp only
        split_ifs with hend hsize
        · refine iff_of_false nofun fun h => ?_
          obtain ⟨q, hq, hle, -⟩ := h htarget (not_lt.mp hlen)
          cases hq
          exact absurd hend (not_lt.mpr hle)
        · refine iff_of_false nofun fun h => ?_
          obtain ⟨q, hq, -, heq⟩ := h htarget (not_lt.mp hlen)
          cases hq
          exact hsize heq
        · exact iff_of_true ⟨_, rfl⟩ fun _ _ => ⟨p, rfl, not_lt.mp hend, not_not.mp hsize⟩
  · rw [if_pos htarget]
    exact iff_of_true ⟨_, rfl⟩ fun heq => absurd heq htarget

/-- The master takes what is well typed, and nothing else, without a crash or a reset. -/
theorem handleBuffer_ok :
    ((∃ r, handleBuffer t me s buf = .ok r) ∧ type buf ≠ MessageType.systemReset) ↔ WellTyped t me buf := by
  unfold handleBuffer WellTyped
  split
  · rename_i htype
    rw [htype, and_iff_left (by decide)]
    cases hdata : rtuFields buf with
    | none =>
      refine iff_of_false not_ok ?_
      unfold rtuFields at hdata
      cases hscen : scenario buf <;> simp [hscen] at hdata ⊢
    | some data =>
      dsimp only
      rw [mapError_ok, handle, onRtuData_ok]
      unfold rtuFields at hdata
      cases hscen : scenario buf <;> simp only [hscen, Option.some.injEq, reduceCtorEq] at hdata ⊢ <;> subst hdata <;>
        simp [rtuData, seq]
  · rename_i htype
    rw [htype, and_iff_left (by decide), mapError_ok, handle]
    exact readFromHmi_ok
  · rename_i htype
    rw [htype, and_iff_left (by decide)]
    exact iff_of_true ⟨_, rfl⟩ trivial
  · rename_i htype
    rw [htype, and_iff_left (by decide), mapError_ok, handle]
    exact map_ok.trans (packageState_ok _)
  · rename_i htype
    rw [htype, and_iff_left (by decide)]
    exact map_ok.trans applyBuffer_ok
  · rename_i htype
    rw [htype]
    exact iff_of_false (fun h => h.2 rfl) id
  · rename_i h1 h2 h3 h4 h5 h6
    refine iff_of_true ⟨⟨_, rfl⟩, h6⟩ ?_
    split
    · exact absurd ‹_› h1
    · exact absurd ‹_› h2
    · exact absurd ‹_› h4
    · exact absurd ‹_› h5
    · exact absurd ‹_› h6
    · trivial

end Master

/-! ## Whole messages -/

section Whole

variable {t : Topology} {me n : Nat} {buf c : Memory}

theorem overlay_int {a w : Nat} (h : a + w ≤ n) : (overlay buf n c).int a w = c.int a w := by
  refine Memory.int_congr fun i hi => ?_
  have hlt : a + i < n := by omega
  exact if_pos hlt

theorem type_overlay (h : 148 ≤ n) : type (overlay buf n c) = type c := overlay_int h

theorem word_overlay {offset : Nat} (h : 160 + offset ≤ n) : word (overlay buf n c) offset = word c offset := by
  refine overlay_int ?_
  simp only [SignedMessage.size]
  omega

theorem scenario_overlay (h : 172 ≤ n) : scenario (overlay buf n c) = scenario c := by
  rw [scenario, word_overlay h, scenario]

/-- The types of what clients send. -/
theorem type_of_client {k : Nat × SeqPair} (h : (decode c).client = some k) :
    type c = MessageType.rtuData ∨ type c = MessageType.hmiCommand ∨ type c = MessageType.benchmark := by
  unfold decode at h
  split at h
  · cases h
  · cases h
  · exact .inl ‹_›
  · exact .inr (.inl ‹_›)
  · exact .inr (.inr ‹_›)
  · cases h

theorem decode_rtuData (h : type c = MessageType.rtuData) :
    decode c = match rtuFields c with
      | some data => .rtuData (rtuData c data)
      | none => .other := by
  unfold decode
  rw [h]
  rfl

/-- Of a valid message that is as long as its fields, the master needs no more than that a command
is for a breaker or a generator that there is. What was in the buffer does not matter. -/
theorem wellTyped_whole {k : Nat × SeqPair} (hn : 184 ≤ n) (hclient : (decode c).client = some k)
    (hvalid : (decode c).valid me = true) :
    WellTyped t me (overlay buf n c) ↔ (type c = MessageType.hmiCommand →
      match scenario c with
      | .pnnl => 0 ≤ ttipPos c ∧ ttipPos c < numBreaker
      | .ems => 0 ≤ ttipPos c ∧ ttipPos c < emsNumGenerators
      | _ => True) := by
  have hscen : scenario (overlay buf n c) = scenario c := scenario_overlay (by omega)
  unfold WellTyped
  rw [type_overlay (by omega), hscen]
  rcases type_of_client hclient with htype | htype | htype
  · rw [htype]
    refine iff_of_true ?_ nofun
    have hseq : word (overlay buf n c) 4 = word c 4 := word_overlay (by omega)
    have hrtu : client (overlay buf n c) = client c := word_overlay (by omega)
    have hems : emsId (overlay buf n c) = emsId c := word_overlay (by omega)
    -- `ITRC_Validate_Message` has checked the fields of a RTU_DATA.
    rw [decode_rtuData htype] at hvalid
    cases hdata : rtuFields c with
    | none =>
      rw [hdata] at hvalid
      cases hvalid
    | some data =>
      rw [hdata] at hvalid
      obtain ⟨hid, hne, hall⟩ := of_decide_eq_true hvalid
      unfold rtuFields at hdata
      dsimp only [MessageType.rtuData]
      rw [hseq, hrtu, hems]
      cases hscenario : scenario c with
      | jhu => trivial
      | pnnl => trivial
      | unknown code => simp only [hscenario, reduceCtorEq] at hdata
      | ems =>
        simp only [hscenario, Option.some.injEq] at hdata
        exact ⟨hid, hne, hall _ hdata.symm⟩
  · have httip : ttipPos (overlay buf n c) = ttipPos c := by
      rw [ttipPos, word_overlay (by omega), ttipPos]
    rw [htype, httip]
    exact ⟨fun hok _ => hok, fun hok => hok rfl⟩
  · rw [htype]
    exact iff_of_true trivial nofun

end Whole

/-! ## The channel -/

section Channel

variable {t : Topology} {me nBytes : Nat} {s s' : Side} {o : Itrc.Ordinal} {u : Ordered} {buf c : Memory}

/-- Only what updates have done matters. -/
theorem Side.Right.frame (h : s.Right) (hcrash : s'.crash = s.crash) (hresets : s'.resets = s.resets)
    (hstarted : s'.started = s.started) : s'.Right :=
  ⟨hcrash.trans h.running, hresets.trans h.resets, hstarted ▸ h.started⟩

theorem Side.Right.pop (h : s.Right) (hqueue : s.ordQueue ≠ []) : s.pop.Right := by
  unfold Side.pop
  split
  · rename_i hnil
    exact absurd hnil hqueue
  · exact h.frame rfl rfl rfl

theorem Side.Right.hear (h : s.Right) (hqueue : s.ordQueue ≠ []) (reply : Option Reply) :
    (s.hear nBytes reply).Right := by
  unfold Side.hear
  split
  · exact h
  · split_ifs
    · exact h
    · exact h.pop hqueue
  · exact h.pop hqueue

/-- A reply changes neither. -/
theorem hear_resets (reply : Option Reply) : (s.hear nBytes reply).resets = s.resets := by
  unfold Side.hear Side.pop
  split
  · rfl
  · split_ifs
    · rfl
    · split <;> rfl
  · split <;> rfl

theorem serve_right (h : s.Right) (hqueue : s.ordQueue ≠ []) :
    (s.serve t me buf nBytes).Right ↔ WellTyped t me buf := by
  rw [← handleBuffer_ok (s := s.sm)]
  unfold Side.serve
  cases hhandle : handleBuffer t me s.sm buf with
  | error e =>
    refine iff_of_false (fun hright => ?_) fun hok => ?_
    · have hrunning := hright.running
      cases hrunning
    · obtain ⟨⟨r, hr⟩, -⟩ := hok
      cases hr
  | ok r =>
    obtain ⟨sm, reply⟩ := r
    dsimp only
    by_cases hreset : type buf = MessageType.systemReset
    · rw [if_pos hreset]
      refine iff_of_false (fun hright => ?_) fun hok => hok.2 hreset
      have hresets := hright.resets
      rw [hear_resets] at hresets
      cases hresets
    · rw [if_neg hreset]
      refine iff_of_true (Side.Right.hear ?_ ?_ reply) ⟨⟨_, rfl⟩, hreset⟩
      · exact h.frame rfl rfl rfl
      · exact hqueue

theorem pass_right (h : s.Right) (hqueue : s.ordQueue ≠ []) :
    (s.pass t me c).Right ↔ messageSize c ≤ updateSize ∧ WellTyped t me (overlay s.buf (messageSize c) c) := by
  unfold Side.pass
  by_cases hsize : messageSize c ≤ updateSize
  · rw [if_neg (Nat.not_lt.mpr hsize), serve_right h hqueue, and_iff_right hsize]
  · rw [if_pos (Nat.lt_of_not_le hsize)]
    constructor
    · intro hright
      have hrunning := hright.running
      cases hrunning
    · intro hok
      exact absurd hok.1 hsize

theorem started_concat {l : List (Nat × Nat)} {target signer : Nat} (h : ∀ p ∈ l, p.1 = p.2) :
    (∀ p ∈ l ++ [(target, signer)], p.1 = p.2) ↔ target = signer := by
  constructor
  · exact fun hall => hall _ (List.mem_append_right _ List.mem_cons_self)
  · intro heq p hp
    rcases List.mem_append.mp hp with hp | hp
    · exact h p hp
    · rw [List.mem_singleton.mp hp]
      exact heq

theorem hear_started (reply : Option Reply) : (s.hear nBytes reply).started = s.started := by
  unfold Side.hear Side.pop
  split
  · rfl
  · split_ifs
    · rfl
    · split <;> rfl
  · split <;> rfl

theorem request_right {target signer : Nat} (h : s.Right) (hqueue : s.ordQueue ≠ []) :
    (s.request t me target signer).Right ↔ target = signer ∧ 0 < target ∧ target ≤ numSm ∧ StateFits t := by
  rw [← packageState_ok (s := s.sm) { target := target, latestUpdate := (List.range numProgress).map s.progress }]
  unfold Side.request
  dsimp only
  cases packageState t s.sm { target := target, latestUpdate := (List.range numProgress).map s.progress } with
  | error e =>
    refine iff_of_false (fun hright => ?_) fun hok => ?_
    · have hrunning := hright.running
      cases hrunning
    · obtain ⟨-, st, hst⟩ := hok
      cases hst
  | ok st =>
    dsimp only
    constructor
    · intro hright
      have hstarted := hright.started
      rw [hear_started] at hstarted
      exact ⟨(started_concat h.started).mp hstarted, st, rfl⟩
    · rintro ⟨heq, -⟩
      refine Side.Right.hear ?_ ?_ _
      · exact ⟨h.running, h.resets, (started_concat h.started).mpr heq⟩
      · exact hqueue

theorem ownTransfer_right {signer : Nat} (h : s.Right) :
    (s.ownTransfer me o signer).Right ↔ OrdConsec s.recvdOrd o ∨ signer = me := by
  unfold Side.ownTransfer
  split_ifs with hnext
  · exact iff_of_true h (.inl hnext)
  · constructor
    · exact fun hright => .inr ((started_concat h.started).mp hright.started).symm
    · intro hsigner
      exact ⟨h.running, h.resets, (started_concat h.started).mpr (hsigner.resolve_left hnext).symm⟩

/-- What nobody is given leaves the ordinal alone. -/
theorem take_silent (hquiet : quiet me s.progress (decode u.contents) = true)
    (hto : (decode u.contents).transfersTo me = false) : s.take t me o u = { s with recvdOrd := o } := by
  simp only [Side.take, hquiet, hto, Bool.or_false, Bool.false_eq_true, if_false, if_true]

/-- A message without a client, and not for a transfer, is for nobody. -/
theorem process_empty (h : s.Right) (hidle : s.collecting = false) (hclient : (decode u.contents).client = none)
    (hto : (decode u.contents).transfersTo me = false) (hquiet : quiet me s.progress (decode u.contents) = true) :
    (s.process t me o u).Right := by
  have hindexed : indexed (decode u.contents) := by
    unfold indexed
    rw [hclient]
    exact nofun
  unfold Side.process
  rw [hidle, if_neg Bool.false_ne_true]
  split_ifs with hgap hout
  · exact h
  · exact absurd hindexed hout.2
  · rw [take_silent hquiet hto]
    exact h.frame rfl rfl rfl

/-- A message of a client. -/
theorem process_client {k : Nat × SeqPair} (h : s.Right) (hidle : s.collecting = false)
    (hclient : (decode u.contents).client = some k) :
    (s.process t me o u).Right ↔
      ((decode u.contents).valid me = true → OrdConsec s.recvdOrd o → indexed (decode u.contents) ∧
        ((decode u.contents).client ≠ none → (decode u.contents).duplicate s.progress = false →
          messageSize u.contents ≤ updateSize ∧
            WellTyped t me (overlay s.buf (messageSize u.contents) u.contents))) := by
  have hto : (decode u.contents).transfersTo me = false := by
    cases hm : decode u.contents <;> rw [hm] at hclient <;> first | rfl | cases hclient
  have hno : Itrc.isNoOp (decode u.contents) = false := by
    cases hm : decode u.contents <;> rw [hm] at hclient <;> first | rfl | cases hclient
  unfold Side.process
  rw [hidle, if_neg Bool.false_ne_true]
  by_cases hnext : OrdConsec s.recvdOrd o
  · rw [if_neg fun hand => hand.1 hnext]
    cases hvalid : (decode u.contents).valid me with
    | false =>
      have hquiet : quiet me s.progress (decode u.contents) = true := by simp only [quiet, hvalid, Bool.not_false, Bool.true_or]
      rw [if_neg fun hand => Bool.false_ne_true hand.1, take_silent hquiet hto]
      exact iff_of_true (h.frame rfl rfl rfl) nofun
    | true =>
      by_cases hindexed : indexed (decode u.contents)
      · rw [if_neg fun hand => hand.2 hindexed]
        cases hdup : (decode u.contents).duplicate s.progress with
        | true =>
          have hquiet : quiet me s.progress (decode u.contents) = true := by simp only [quiet, hdup, Bool.or_true]
          rw [take_silent hquiet hto]
          exact iff_of_true (h.frame rfl rfl rfl) fun _ _ => ⟨hindexed, fun _ => nofun⟩
        | false =>
          have hquiet : quiet me s.progress (decode u.contents) = false := by
            simp only [quiet, hvalid, hno, hdup, Bool.not_true, Bool.or_false]
          have htake : s.take t me o u =
              Side.pass t me
                { s with recvdOrd := o, ordQueue := s.ordQueue ++ [o], progress := (decode u.contents).advance s.progress }
                u.contents := by
            simp only [Side.take, hquiet, hto, Bool.or_false, Bool.false_eq_true, if_false]
            cases hm : decode u.contents <;> first | rfl | (rw [hm] at hclient; cases hclient)
          rw [htake]
          refine (pass_right ?_ ?_).trans ⟨fun hok _ _ => ⟨hindexed, fun _ _ => hok⟩, fun hok => (hok rfl hnext).2 ?_ rfl⟩
          · exact h.frame rfl rfl rfl
          · exact List.append_ne_nil_of_right_ne_nil _ (List.cons_ne_nil o [])
          · rw [hclient]
            exact nofun
      · rw [if_pos ⟨rfl, hindexed⟩]
        refine iff_of_false (fun hright => ?_) fun hok => hindexed (hok rfl hnext).1
        have hrunning := hright.running
        cases hrunning
  · rw [if_pos ⟨hnext, hto⟩]
    exact iff_of_true h fun _ hnext' => absurd hnext' hnext

/-- A transfer. -/
theorem process_transfer {target : Nat} (h : s.Right) (hidle : s.collecting = false)
    (hm : decode u.contents = .stateTransfer target) :
    (s.process t me o u).Right ↔
      if target = me then OrdConsec s.recvdOrd o ∨ u.signer = me
      else target ≤ numSm → OrdConsec s.recvdOrd o → target = u.signer ∧ target ≠ 0 ∧ StateFits t := by
  have hindexed : indexed (.stateTransfer target) := nofun
  unfold Side.process
  rw [hidle, if_neg Bool.false_ne_true, hm]
  have hin : ¬((PrimeMsg.stateTransfer target).valid me = true ∧ ¬indexed (.stateTransfer target)) := fun hand =>
    hand.2 hindexed
  by_cases hme : target = me
  · have hto : (PrimeMsg.stateTransfer target).transfersTo me = true := decide_eq_true hme
    rw [hto, if_neg fun hand => Bool.noConfusion hand.2, if_neg hin, if_pos hme, ← ownTransfer_right (s := s) (o := o) h]
    simp only [Side.take, hm, hto, Bool.or_true, if_true]
    exact ⟨fun hright => hright.frame rfl rfl rfl, fun hright => hright.frame rfl rfl rfl⟩
  · have hto : (PrimeMsg.stateTransfer target).transfersTo me = false := decide_eq_false hme
    rw [hto, if_neg hme]
    by_cases hnext : OrdConsec s.recvdOrd o
    · rw [if_neg fun hand => hand.1 hnext, if_neg hin]
      by_cases hserver : target ≤ numSm
      · have hquiet : quiet me s.progress (.stateTransfer target) = false := by
          simp only [quiet, PrimeMsg.valid, hserver, decide_true, Itrc.isNoOp, PrimeMsg.duplicate, PrimeMsg.client,
            Bool.not_true, Bool.or_false]
        simp only [Side.take, hm, hquiet, hto, Bool.or_false, Bool.false_eq_true, if_false]
        refine (request_right ?_ ?_).trans ?_
        · exact h.frame rfl rfl rfl
        · exact List.append_ne_nil_of_right_ne_nil _ (List.cons_ne_nil o [])
        constructor
        · rintro ⟨heq, hpos, -, hfits⟩ - -
          exact ⟨heq, hpos.ne', hfits⟩
        · intro hok
          obtain ⟨heq, hne, hfits⟩ := hok hserver hnext
          exact ⟨heq, Nat.pos_of_ne_zero hne, hserver, hfits⟩
      · have hquiet : quiet me s.progress (decode u.contents) = true := by
          simp only [hm, quiet, PrimeMsg.valid, hserver, decide_false, Bool.not_false, Bool.true_or]
        rw [take_silent hquiet (hm ▸ hto)]
        exact iff_of_true (h.frame rfl rfl rfl) fun hle => absurd hle hserver
    · rw [if_pos ⟨hnext, rfl⟩]
      exact iff_of_true h fun _ hnext' => absurd hnext' hnext

/-- **An update is processed** without harm exactly if it is harmless. -/
theorem process_right (h : s.Right) :
    (s.process t me o u).Right ↔ (s.collecting = false → Harmless t me s.toVars o u) := by
  by_cases hcollecting : s.collecting = true
  · unfold Side.process
    rw [if_pos hcollecting]
    refine iff_of_true (h.frame rfl rfl rfl) fun hidle => ?_
    rw [hcollecting] at hidle
    cases hidle
  have hidle : s.collecting = false := Bool.eq_false_iff.mpr hcollecting
  rw [iff_true_intro hidle, true_implies]
  unfold Harmless
  cases hm : decode u.contents with
  | stateTransfer target => exact process_transfer h hidle hm
  | noOp i =>
    refine iff_of_true (process_empty h hidle (hm ▸ rfl) (hm ▸ rfl) ?_) fun _ _ => ⟨nofun, fun hne => absurd rfl hne⟩
    simp only [hm, quiet, Itrc.isNoOp, Bool.or_true, Bool.true_or]
  | other =>
    refine iff_of_true (process_empty h hidle (hm ▸ rfl) (hm ▸ rfl) ?_) fun hvalid => absurd hvalid Bool.false_ne_true
    simp only [hm, quiet, PrimeMsg.valid, Bool.not_false, Bool.true_or]
  | rtuData payload =>
    have hsome : (decode u.contents).client = some (payload.rtuId, payload.seq) := by
      rw [hm]
      rfl
    have hclient : (s.process t me o u).Right ↔ _ := process_client h hidle hsome
    rw [hm] at hclient
    exact hclient
  | hmiCommand payload =>
    have hsome : (decode u.contents).client = some (payload.hmiId, payload.seq) := by
      rw [hm]
      rfl
    have hclient : (s.process t me o u).Right ↔ _ := process_client h hidle hsome
    rw [hm] at hclient
    exact hclient
  | benchmark ben =>
    have hsome : (decode u.contents).client = some ((ben.sender % 2 ^ 32).toNat, ben.seq) := by
      rw [hm]
      rfl
    have hclient : (s.process t me o u).Right ↔ _ := process_client h hidle hsome
    rw [hm] at hclient
    exact hclient

/-- One step keeps all right exactly if it is admitted. -/
theorem step_right (h : s.Right) (x : Input) : (s.step t me x).Right ↔ Admits t me s x := by
  unfold Side.step
  rw [if_neg (not_not.mpr h.running)]
  cases x with
  | systemReset => exact iff_of_true (h.frame rfl rfl rfl) trivial
  | elsewhere x => exact iff_of_true (h.frame rfl rfl rfl) trivial
  | prime o u =>
    dsimp only [Side.onPrime, Admits]
    by_cases hreset : type u.contents = MessageType.primeSystemReset
    · rw [if_pos hreset]
      refine iff_of_false (fun hright => ?_) fun hok => hok.1 hreset
      split_ifs at hright
      · have hrunning := hright.running
        cases hrunning
      · have hresets := hright.resets
        cases hresets
    · rw [if_neg hreset, and_iff_right hreset]
      by_cases hold : ordCompare o s.recvdOrd ≤ 0
      · rw [if_pos hold]
        exact iff_of_true h fun hpos => absurd hpos (not_lt.mpr hold)
      · rw [if_neg hold, process_right h, iff_true_intro (not_le.mp hold), true_implies]
  | replay =>
    dsimp only [Side.replay, Admits]
    cases hparked : s.parked with
    | nil => exact iff_of_true h trivial
    | cons p rest =>
      obtain ⟨o, u⟩ := p
      dsimp only
      by_cases hcollecting : s.collecting = true
      · rw [if_pos hcollecting]
        refine iff_of_true h fun _ hidle => ?_
        rw [hcollecting] at hidle
        cases hidle
      · rw [if_neg hcollecting]
        split_ifs with hlater
        · refine (process_right ?_).trans ?_
          · exact h.frame rfl rfl rfl
          · rw [iff_true_intro hlater, true_implies]
        · exact iff_of_true (h.frame rfl rfl rfl) fun hpos => absurd hpos hlater

end Channel

/-- **Contents do no harm** in a run exactly if each update that is processed is as it should be. -/
theorem contents_harmless_iff (t : Topology) (me : Nat) (buf : Memory) (xs : List Input) :
    Always (Side.step t me) Side.Right (Side.init buf) xs ↔ Steps (Side.step t me) (Admits t me) (Side.init buf) xs :=
  always_iff_steps (I := fun _ => True) (fun _ x _ h => step_right h x) (fun _ _ _ _ _ => trivial) trivial
    ⟨rfl, rfl, List.forall_mem_nil _⟩

/-! ## Updates of a client that do harm -/

section Examples

instance (s : Side) : Decidable s.Right :=
  decidable_of_iff (s.crash = none ∧ s.resets = 0 ∧ ∀ p ∈ s.started, p.1 = p.2)
    ⟨fun h => ⟨h.1, h.2.1, h.2.2⟩, fun h => ⟨h.running, h.resets, h.started⟩⟩

/-- An update of the seventh client: the fields of the header, and what follows it. -/
def fromSeventh (machineId len type : Nat) (payload : List Nat) : Ordered where
  signer := 7
  contents i := (header machineId len type ++ payload.flatMap int32Bytes).getD i 0

/-- A system reset, a transfer to the third replica, a measurement of a client that there is not, a
command for a breaker and one for a generator that there are not, and a message that is too long. -/
def harmful : List Ordered :=
  [fromSeventh 7 0 MessageType.primeSystemReset [], fromSeventh 3 0 MessageType.primeStateTransfer [],
    fromSeventh 7 28 MessageType.benchmark [1, 1, 104, 0, 0, 0, 0],
    fromSeventh 7 24 MessageType.hmiCommand [1, 1, 101, 2, 3, 14],
    fromSeventh 7 24 MessageType.hmiCommand [1, 1, 101, 3, 50, 6],
    fromSeventh 7 145 MessageType.hmiCommand [1, 1, 101, 2, 3, 0]]

/-- Each of them is the first update that is ordered. -/
theorem contents_harmful :
    harmful.Forall fun u => ¬Always (Side.step (feeder [0]) 1) Side.Right (Side.init fun _ => 0) [.prime ⟨1, 1, 1⟩ u] := by
  rw [List.forall_iff_forall_mem]
  intro u hu h
  have hall : ∀ u ∈ harmful, ¬((Side.init fun _ => 0).step (feeder [0]) 1 (.prime ⟨1, 1, 1⟩ u)).Right := by decide +kernel
  exact hall u hu h.2

end Examples

end Spire.Contents
