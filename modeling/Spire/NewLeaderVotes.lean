import Spire.Lib.Runs
import Spire.SuspectLeader

/-!
# The threshold for a new leader

`SUSPECT_Process_New_Leader` counts the stored messages for the view of the one that has just
come, and goes on only where they are exactly `2f + k + 1`. It then builds the proof from a second
count, which it asserts to be the same, and preinstalls the view.

A message for a view that is not later than the current one is dropped before it is stored, in
this function and in the one for proofs. So each view is preinstalled once, whichever of the two
does it, and the branch is taken for ever later views (`newLeader_fires_once`).
-/

namespace Spire.Suspect

open Lib Wire

variable {c : Config} {me : Nat} {st : Node} {m m' : Memory}

/-- The messages that make views change. -/
inductive Message
  | newLeader (m : Memory)
  | newLeaderProof (m : Memory)

/-- What a server does with one. -/
def process (c : Config) (me : Nat) (st : Node) : Message → Node
  | .newLeader m => processNewLeader c me st m
  | .newLeaderProof m => processNewLeaderProof c me st m

/-- A sequence of messages, in the order they are processed. -/
def processAll (c : Config) (me : Nat) (st : Node) (ms : List Message) : Node := ms.foldl (process c me) st

/-! ## The branch -/

/-- `SUSPECT_Process_New_Leader` drops the message. -/
def Node.drops (st : Node) (m : Memory) : Bool :=
  newViewAt m 0 ≤ st.view ||
    (st.newLeader (SignedMessage.machineId.get m 0)).any fun stored => decide (newViewAt m 0 ≤ newViewAt (packet stored) 0)

/-- The messages stored once a message is. -/
def Node.store (st : Node) (m : Memory) : Node :=
  { st with newLeader := Function.update st.newLeader (SignedMessage.machineId.get m 0) (some (m.bytes 0 newLeaderSize)) }

/-- `SUSPECT_Process_New_Leader` gets past its last test. -/
def Node.completes (c : Config) (st : Node) (m : Memory) : Bool :=
  !st.drops m &&
    (tally c.numServers fun i =>
      ((st.store m).newLeader i).any fun stored => decide (newViewAt (packet stored) 0 = newViewAt m 0)) = c.quorum

/-- The state in which the proof is constructed. -/
def Node.ready (st : Node) (m : Memory) : Node := { st.store m with view := newViewAt m 0 }

/-- What `SUSPECT_Process_New_Leader` does, by the branch it takes. -/
theorem processNewLeader_eq (c : Config) (me : Nat) (st : Node) (m : Memory) :
    processNewLeader c me st m =
      if st.drops m then st
      else if st.completes c m then (st.store m).preinstall (newViewAt m 0) (constructNewLeaderProof c me (st.ready m))
      else st.store m := by
  unfold processNewLeader
  dsimp only
  by_cases hold : newViewAt m 0 ≤ st.view
  · have hdrops : st.drops m = true := by rw [Node.drops, decide_eq_true hold, Bool.true_or]
    rw [if_pos hold, if_pos hdrops]
  · rw [if_neg hold]
    split
    · rename_i hstored
      have hdrops : st.drops m = true := by rw [Node.drops, hstored, Bool.or_true]
      rw [if_pos hdrops]
    · rename_i hstored
      have hkept : st.drops m = false := by
        rw [Node.drops, decide_eq_false hold, Bool.false_or]
        exact Bool.not_eq_true _ ▸ hstored
      rw [hkept, if_neg Bool.false_ne_true, Node.completes, hkept, Bool.not_false, Bool.true_and]
      split
      · rename_i hcount
        exact (if_neg (decide_eq_true_iff.not.mpr hcount)).symm
      · rename_i hcount
        exact (if_pos (decide_eq_true (not_not.mp hcount))).symm

/-- The messages counted are those that go into the proof. -/
theorem length_votesFor (c : Config) (st : Node) (view : Nat) :
    (votesFor c st view).length =
      tally c.numServers fun i => (st.newLeader i).any fun stored => decide (newViewAt (packet stored) 0 = view) := by
  unfold votesFor tally
  rw [List.length_filterMap_eq_countP]
  refine List.countP_congr fun i _ => ?_
  cases st.newLeader i with
  | none => exact Iff.rfl
  | some stored => by_cases h : newViewAt (packet stored) 0 = view <;> simp [h]

theorem Node.completes_iff : st.completes c m = true ↔
    st.drops m = false ∧ (votesFor c (st.ready m) (st.ready m).view).length = c.quorum := by
  rw [length_votesFor, Node.completes, Bool.and_eq_true, Bool.not_eq_true', decide_eq_true_eq]
  exact Iff.rfl

theorem Node.view_lt_of_completes (h : st.completes c m = true) : st.view < newViewAt m 0 := by
  have hkept := (Node.completes_iff.mp h).1
  rw [Node.drops, Bool.or_eq_false_iff, decide_eq_false_iff_not, not_le] at hkept
  exact hkept.1

/-! ## One message, and all of them -/

/-- No view is preinstalled, or a later one is. -/
def Advances (st st' : Node) : Prop :=
  st'.view = st.view ∧ st'.raised = st.raised ∨ st.view < st'.view ∧ st'.raised = st'.view :: st.raised

theorem process_advances (c : Config) (me : Nat) (st : Node) (x : Message) : Advances st (process c me st x) := by
  cases x with
  | newLeader m =>
    show Advances st (processNewLeader c me st m)
    rw [processNewLeader_eq]
    split
    · exact .inl ⟨rfl, rfl⟩
    · split
      · rename_i hcompletes
        exact .inr ⟨Node.view_lt_of_completes hcompletes, rfl⟩
      · exact .inl ⟨rfl, rfl⟩
  | newLeaderProof m =>
    show Advances st (processNewLeaderProof c me st m)
    unfold processNewLeaderProof
    dsimp only
    split
    · exact .inl ⟨rfl, rfl⟩
    · rename_i hview
      split
      · exact .inl ⟨rfl, rfl⟩
      · exact .inr ⟨Nat.lt_of_not_le hview, rfl⟩

theorem view_le_processAll (c : Config) (me : Nat) (st : Node) (ms : List Message) :
    st.view ≤ (processAll c me st ms).view := by
  refine foldl_inv (I := fun s : Node => st.view ≤ s.view) (fun s x hle => ?_) (le_refl _)
  rcases process_advances c me s x with ⟨hview, -⟩ | ⟨hview, -⟩
  · exact hview ▸ hle
  · exact hle.trans hview.le

theorem view_of_completes (h : st.completes c m = true) : (processNewLeader c me st m).view = newViewAt m 0 := by
  rw [processNewLeader_eq, if_neg (by rw [(Node.completes_iff.mp h).1]; exact Bool.false_ne_true), if_pos h]
  rfl

/-- **Each view is preinstalled once.** Whatever NEW_LEADERs and NEW_LEADER_PROOFs a server has
processed: the next one leaves the view or raises it. When a NEW_LEADER gets past the count, the
view was earlier than the one it is for, the stored messages for that view are as many as
`SUSPECT_Construct_New_Leader_Proof` asserts, and every NEW_LEADER that gets past the count
afterwards is for a later view. -/
theorem newLeader_fires_once (c : Config) (me : Nat) (st : Node) (before : List Message) :
    (∀ x, Advances (processAll c me st before) (processAll c me st (before ++ [x]))) ∧
    ∀ m, (processAll c me st before).completes c m = true →
      (processAll c me st before).view < newViewAt m 0 ∧
      (processAll c me st (before ++ [.newLeader m])).view = newViewAt m 0 ∧
      (votesFor c ((processAll c me st before).ready m) ((processAll c me st before).ready m).view).length = c.quorum ∧
      ∀ between m', (processAll c me st (before ++ .newLeader m :: between)).completes c m' = true →
        newViewAt m 0 < newViewAt m' 0 := by
  refine ⟨fun x => ?_, fun m hm => ⟨Node.view_lt_of_completes hm, ?_, (Node.completes_iff.mp hm).2, ?_⟩⟩
  · rw [processAll, processAll, List.foldl_append]
    exact process_advances c me _ x
  · rw [processAll, List.foldl_append]
    exact view_of_completes hm
  · intro between m' hm'
    have hview : (process c me (processAll c me st before) (.newLeader m)).view = newViewAt m 0 := view_of_completes hm
    have hle := view_le_processAll c me (process c me (processAll c me st before) (.newLeader m)) between
    rw [processAll, List.foldl_append] at hm'
    calc newViewAt m 0
        ≤ (processAll c me (process c me (processAll c me st before) (.newLeader m)) between).view := hview ▸ hle
      _ < newViewAt m' 0 := Node.view_lt_of_completes hm'

/-- Servers 2 and 3 suspect the leader of the first view. -/
theorem newLeader_fires_threeServers :
    let vote (server : Nat) := packet (constructNewLeader plainKeys server 1 1)
    (processAll threeServers.toConfig 1 ((start plainSurroundings).node 1) [.newLeader (vote 2), .newLeader (vote 3)]).view =
      newViewAt (vote 3) 0 := by
  intro vote
  have hcompletes : (processAll threeServers.toConfig 1 ((start plainSurroundings).node 1) [.newLeader (vote 2)]).completes
      threeServers.toConfig (vote 3) = true := by
    decide +kernel
  exact ((newLeader_fires_once threeServers.toConfig 1 ((start plainSurroundings).node 1) [.newLeader (vote 2)]).2 _
    hcompletes).2.1

end Spire.Suspect
