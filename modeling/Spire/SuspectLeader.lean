import Spire.Accepted
import Spire.Lib.Network

/-!
# Preinstalling a view

`suspect_leader.c`: a server that suspects the leader signs a NEW_LEADER for the next
view. With `2f + k + 1` of them for one view a server preinstalls the view, and passes
them on in a NEW_LEADER_PROOF with which others preinstall it too.

Packets are byte strings, and the adversary may send any. `raised_backed` says that
every view a correct server preinstalls is one that `2f + k + 1` servers signed a
NEW_LEADER for, in runs in which no proof that is acted on repeats a sender. The
validator does not look for that.

What the rest of the program does to this state is one action, `elsewhere`, which may do
anything to the view.
-/

namespace Spire.Suspect

open Lib Lib.Reader Wire Merkle Validate

/-! ## The code -/

/-- The keys of the servers: what `OPENSSL_RSA_Sign` makes of a digest verifies. -/
structure Keys extends Crypto where
  sign : Nat → Bytes → Bytes
  length_sign : ∀ server digest, (sign server digest).length = signatureSize
  verifies : ∀ server l, verifyServer server (makeDigest l) (sign server (makeDigest l)) = true

/-- What the rest of the program sets. -/
structure Surroundings where
  status : RecoveryStatus
  installedIncarnations : Nat → Nat
  jumpIncarnation : Nat → Option Nat
  /-- The server's own entry of `DATA.PR.new_incarnation_val`. -/
  incarnation : Nat
  stack : Memory
  /-- What the buffer for packets holds. -/
  buffer : Memory

/-- The server as its validators see it. -/
def Surroundings.receiver (a : Surroundings) (c : Config) (S : Keys) (me : Nat) : Receiver where
  config := c
  me := me
  status := a.status
  installedIncarnations := a.installedIncarnations
  jumpIncarnation := a.jumpIncarnation
  crypto := S.toCrypto
  stack := a.stack

/-- The state of one server. -/
structure Node where
  /-- `DATA.View`. -/
  view : Nat
  /-- `DATA.SUSP.new_leader`. -/
  newLeader : Nat → Option Bytes
  /-- What `DATA.SUSP.new_leader_proof` is and has been: an earlier proof may still wait
  to be signed. -/
  proofs : List Bytes
  /-- `DATA.SUSP.leader_suspected`. -/
  leaderSuspected : Bool
  around : Surroundings
  /-- The views preinstalled so far. -/
  raised : List Nat

/-- `sizeof(signed_message) + sizeof(new_leader_message)`. -/
def newLeaderSize : Nat := SignedMessage.size + NewLeader.size

/-- A packet in a buffer of its own. -/
def packet (l : Bytes) : Memory := Memory.write (fun _ => 0) 0 l

/-- The view that a NEW_LEADER or a NEW_LEADER_PROOF is for. -/
def newViewAt (m : Memory) (mess : Nat) : Nat := NewLeader.newView.get m (SignedMessage.content mess)

/-- The header of a new message, from `mt_num` on. -/
def newHeader (me : Nat) (type : PacketType) (incarnation len : Nat) : Bytes :=
  leBytes 2 0 ++ leBytes 2 0 ++ leBytes 4 0 ++ leBytes 4 me ++ leBytes 4 len ++ leBytes 4 type.code ++
    leBytes 4 incarnation ++ leBytes 4 0

/-- `SUSPECT_Construct_New_Leader` and `UTIL_RSA_Sign_Message`. -/
def constructNewLeader (S : Keys) (me incarnation view : Nat) : Bytes :=
  let body := newHeader me .newLeader incarnation NewLeader.size ++ leBytes 4 (view + 1)
  S.sign me (S.makeDigest body) ++ body

/-- The messages for a view that are stored. -/
def votesFor (c : Config) (st : Node) (view : Nat) : List Bytes :=
  (List.range' 1 c.numServers).filterMap fun i =>
    (st.newLeader i).filter fun stored => decide (newViewAt (packet stored) 0 = view)

/-- `SUSPECT_Construct_New_Leader_Proof`, which is signed later. -/
def constructNewLeaderProof (c : Config) (me : Nat) (st : Node) : Bytes :=
  let votes := (votesFor c st st.view).flatten
  List.replicate signatureSize 0 ++ newHeader me .newLeaderProof st.around.incarnation (NewLeader.size + votes.length) ++
    (leBytes 4 st.view ++ votes)

/-- The size of a NEW_LEADER_PROOF without its header. -/
def proofSize (c : Config) : Nat := NewLeader.size + c.quorum * newLeaderSize

/-- A proof that is claimed as one's own: the header is erased and filled in anew, and
the content stays where it is. -/
def claimProof (c : Config) (me incarnation : Nat) (m : Memory) : Bytes :=
  List.replicate signatureSize 0 ++ newHeader me .newLeaderProof incarnation (SignedMessage.len.get m 0) ++
    m.bytes (SignedMessage.content 0) (proofSize c)

/-- What both functions below do with a view they preinstall, and
`SUSPECT_Initialize_Upon_View_Change` after that. -/
def Node.preinstall (st : Node) (view : Nat) (proof : Bytes) : Node :=
  { st with
    view
    proofs := proof :: st.proofs
    raised := view :: st.raised
    newLeader := fun _ => none
    leaderSuspected := false }

/-- `SUSPECT_Process_New_Leader`, of the message at address zero. -/
def processNewLeader (c : Config) (me : Nat) (st : Node) (m : Memory) : Node :=
  let newView := newViewAt m 0
  let sender := SignedMessage.machineId.get m 0
  if newView ≤ st.view then st
  else if (st.newLeader sender).any (fun stored => decide (newView ≤ newViewAt (packet stored) 0)) = true then st
  else
    let st := { st with newLeader := Function.update st.newLeader sender (some (m.bytes 0 newLeaderSize)) }
    let count := tally c.numServers fun i =>
      (st.newLeader i).any fun stored => decide (newViewAt (packet stored) 0 = newView)
    if count ≠ c.quorum then st
    else st.preinstall newView (constructNewLeaderProof c me { st with view := newView })

/-- Where the NEW_LEADERs of a NEW_LEADER_PROOF at address zero lie. -/
def proofEntries (c : Config) : List Nat :=
  (List.range c.quorum).map fun i => SignedMessage.content 0 + NewLeader.size + i * newLeaderSize

/-- `SUSPECT_Process_New_Leader_Proof`, of the message at address zero. -/
def processNewLeaderProof (c : Config) (me : Nat) (st : Node) (m : Memory) : Node :=
  let newView := newViewAt m 0
  if newView ≤ st.view then st
  else if ∃ nl ∈ proofEntries c, newViewAt m nl ≠ newView then st
  else st.preinstall newView (claimProof c me st.around.incarnation m)

/-- What a server does without a packet. -/
inductive Action
  /-- The leader is too slow, or sent inconsistent Pre-Prepares. -/
  | suspect
  /-- A proof of the server's own has been signed, and is applied before it is sent. -/
  | apply (proof : Bytes)
  /-- Other code changes the view or what it shares with this code. -/
  | elsewhere (around : Surroundings) (view : Nat) (cleared : Bool)

/-- A packet is looked at and passes validation. -/
def accepts (c : Config) (S : Keys) (me : Nat) (a : Surroundings) (p : Bytes) : Bool :=
  let m := a.buffer.write 0 p
  (PacketType.ofCode (SignedMessage.type.get m 0)).any (statePermitsMessage a.status) &&
    (validateMessage (a.receiver c S me) p.length false 0 p.length).accepts m

/-- What a server does with a packet or on its own. A NEW_LEADER is sent when it is
signed; where it is the last one that was missing it goes out within the proof. The
adversary sends everything else. -/
def handle (c : Config) (S : Keys) : Lib.Handler Node Bytes Action
  | me, st, .msg p =>
    let m := st.around.buffer.write 0 p
    if accepts c S me st.around p = true then
      match PacketType.ofCode (SignedMessage.type.get m 0) with
      | some .newLeader => (processNewLeader c me st m, [])
      | some .newLeaderProof => (processNewLeaderProof c me st m, [])
      | _ => (st, [])
    else (st, [])
  | me, st, .act .suspect =>
    if st.leaderSuspected = true then (st, [])
    else
      let mess := constructNewLeader S me st.around.incarnation st.view
      (processNewLeader c me { st with leaderSuspected := true } (packet mess), [mess])
  | me, st, .act (.apply proof) =>
    if proof ∈ st.proofs then (processNewLeaderProof c me st (packet proof), []) else (st, [])
  | _, st, .act (.elsewhere around view cleared) =>
    if cleared = true then ({ st with around, view, newLeader := fun _ => none, leaderSuspected := false }, [])
    else ({ st with around, view }, [])

theorem handle_msg_sent (c : Config) (S : Keys) (me : Nat) (st : Node) (p : Bytes) :
    (handle c S me st (.msg p)).2 = [] := by
  simp only [handle]
  split
  · split <;> rfl
  · rfl

/-- Correct servers follow the code, and any byte string may be sent. -/
def env (d : Deployment) : Lib.Env Bytes where
  correct := d.correct
  forge _ _ := true

/-- Nothing has been signed, and every server is in view 1. -/
def start (around : Nat → Surroundings) : Lib.World Node Bytes where
  node i :=
    { view := 1, newLeader := fun _ => none, proofs := [], leaderSuspected := false, around := around i, raised := [] }
  sent := []

/-! ## Ballots -/

variable {c : Config} {C : Crypto} {S : Keys} {me : Nat} {st : Node} {m : Memory} {sent : List Bytes}

/-- The bytes are a NEW_LEADER for view `v` that `s` signed. -/
structure Ballot (c : Config) (C : Crypto) (b : Bytes) (s v : Nat) : Prop where
  type : SignedMessage.type.get (packet b) 0 = PacketType.newLeader.code
  len : SignedMessage.len.get (packet b) 0 = NewLeader.size
  machineId : SignedMessage.machineId.get (packet b) 0 = s
  exists_server : s ∈ c.servers
  /-- The signature covers the rest of the message. -/
  verifies : C.verifyServer s
    (C.makeDigest ((packet b).bytes signatureSize (newLeaderSize - signatureSize)))
    (SignedMessage.sig.get (packet b) 0) = true
  newView : newViewAt (packet b) 0 = v

/-- The bytes occur in something that was sent. -/
def Occurs (sent : List Bytes) (b : Bytes) : Prop :=
  ∃ p ∈ sent, ∃ a, a + newLeaderSize ≤ p.length ∧ b = (p.drop a).take newLeaderSize

/-- Server `s` has signed a NEW_LEADER for view `v`. -/
def HasSigned (c : Config) (C : Crypto) (sent : List Bytes) (s v : Nat) : Prop :=
  ∃ b, Occurs sent b ∧ Ballot c C b s v

/-- Enough servers have signed a NEW_LEADER for view `v`. -/
def Backed (c : Config) (C : Crypto) (sent : List Bytes) (v : Nat) : Prop :=
  AtLeast c.quorum fun s => HasSigned c C sent s v

theorem HasSigned.mono {sent' : List Bytes} {s v : Nat} (h : HasSigned c C sent s v)
    (hsub : ∀ p ∈ sent, p ∈ sent') : HasSigned c C sent' s v := by
  obtain ⟨b, ⟨p, hp, a, ha⟩, hb⟩ := h
  exact ⟨b, ⟨p, hsub p hp, a, ha⟩, hb⟩

theorem Backed.mono {sent' : List Bytes} {v : Nat} (h : Backed c C sent v)
    (hsub : ∀ p ∈ sent, p ∈ sent') : Backed c C sent' v :=
  AtLeast.mono h fun _ hs => hs.mono hsub

/-- A copy of a NEW_LEADER has its bytes. -/
theorem packet_bytes {mess i : Nat} (h : i < newLeaderSize) :
    packet (m.bytes mess newLeaderSize) (0 + i) = m (mess + i) :=
  Memory.write_bytes h

@[simp] theorem newViewAt_copy (m : Memory) (mess : Nat) :
    newViewAt (packet (m.bytes mess newLeaderSize)) 0 = newViewAt m mess := by
  apply Memory.int_congr
  intro i hi
  have hlt : 156 + i < newLeaderSize := by
    simp only [NewLeader.newView] at hi
    simp only [newLeaderSize, SignedMessage.size, NewLeader.size]
    omega
  have hbyte : packet (m.bytes mess newLeaderSize) (0 + (156 + i)) = m (mess + (156 + i)) := packet_bytes hlt
  rw [← Nat.add_assoc, ← Nat.add_assoc] at hbyte
  exact hbyte

/-- A valid NEW_LEADER is a ballot of its sender. -/
theorem ballot_of_accepted {R : Receiver} {ignore : Bool} {mess n : Nat} (h : Accepted R m ignore mess n)
    (htype : SignedMessage.type.get m mess = PacketType.newLeader.code) :
    newLeaderSize ≤ n ∧ Ballot R.config R.crypto (m.bytes mess newLeaderSize)
      (SignedMessage.machineId.get m mess) (newViewAt m mess) := by
  obtain ⟨depth, hcontent⟩ := h.content
  rw [htype, PacketType.ofCode_code] at hcontent
  have hlen : SignedMessage.len.get m mess = NewLeader.size := yields_require.mp hcontent
  have hsigned := h.header.signedBy htype (by decide)
  have hfield : ∀ f : Field, f.offset + f.width ≤ newLeaderSize →
      f.get (packet (m.bytes mess newLeaderSize)) 0 = f.get m mess := fun f hf =>
    Field.get_congr newLeaderSize hf fun i hi => packet_bytes hi
  have hblob : ∀ b : Blob, b.offset + b.length ≤ newLeaderSize →
      b.get (packet (m.bytes mess newLeaderSize)) 0 = b.get m mess := fun b hb =>
    Blob.get_congr newLeaderSize hb fun i hi => packet_bytes hi
  refine ⟨?_, (hfield _ (by decide)).trans htype, (hfield _ (by decide)).trans hlen, hfield _ (by decide),
    hsigned.exists_server, ?_, newViewAt_copy m mess⟩
  · have hsize := h.header.size
    rw [hlen] at hsize
    simp only [newLeaderSize]
    omega
  · have hdigest : signedDigest R.crypto m mess = R.crypto.makeDigest
        ((packet (m.bytes mess newLeaderSize)).bytes signatureSize (newLeaderSize - signatureSize)) := by
      have hcovered : (packet (m.bytes mess newLeaderSize)).bytes signatureSize (newLeaderSize - signatureSize) =
          m.bytes (mess + signatureSize) (newLeaderSize - signatureSize) :=
        (hblob ⟨signatureSize, newLeaderSize - signatureSize⟩ (by decide))
      rw [signedDigest, htype, PacketType.ofCode_code, Option.any_some, signedAlone, if_pos rfl,
        messageDigest_value, hlen, hcovered]
      rfl
    rw [hblob _ (by decide), ← hdigest]
    exact hsigned.verifies

/-! ## Messages the server makes -/

/-- A field of a packet that was put together from its parts. -/
theorem get_packet {f : Field} {l : Bytes} {a v : Nat} (pre post : Bytes) (hl : l = pre ++ (leBytes f.width v ++ post))
    (hpre : pre.length = a + f.offset) : f.get (packet l) a = v % 256 ^ f.width := by
  subst hl
  have hread := int_write_leBytes (m := fun _ => 0) 0 f.width v pre post
  rw [Nat.zero_add, hpre] at hread
  exact hread

theorem packet_bytes_self (l : Bytes) : (packet l).bytes 0 l.length = l := by
  have hread := Memory.bytes_write (m := fun _ => 0) (a := 0) (l := l) (i := 0) (n := l.length) (by omega)
  rw [List.drop_zero, List.take_length] at hread
  exact hread

section Made

variable {sig rest : Bytes} {type : PacketType} {incarnation len : Nat} (hsig : sig.length = signatureSize)

include hsig

theorem machineId_packet : SignedMessage.machineId.get (packet (sig ++ newHeader me type incarnation len ++ rest)) 0 =
    me % 256 ^ 4 := by
  refine get_packet (sig ++ leBytes 2 0 ++ leBytes 2 0 ++ leBytes 4 0)
    (leBytes 4 len ++ leBytes 4 type.code ++ leBytes 4 incarnation ++ leBytes 4 0 ++ rest) ?_ ?_
  · simp [newHeader, SignedMessage.machineId]
  · simp [length_leBytes, hsig, SignedMessage.machineId, signatureSize]

theorem len_packet : SignedMessage.len.get (packet (sig ++ newHeader me type incarnation len ++ rest)) 0 =
    len % 256 ^ 4 := by
  refine get_packet (sig ++ leBytes 2 0 ++ leBytes 2 0 ++ leBytes 4 0 ++ leBytes 4 me)
    (leBytes 4 type.code ++ leBytes 4 incarnation ++ leBytes 4 0 ++ rest) ?_ ?_
  · simp [newHeader, SignedMessage.len]
  · simp [length_leBytes, hsig, SignedMessage.len, signatureSize]

theorem type_packet : SignedMessage.type.get (packet (sig ++ newHeader me type incarnation len ++ rest)) 0 =
    type.code % 256 ^ 4 := by
  refine get_packet (sig ++ leBytes 2 0 ++ leBytes 2 0 ++ leBytes 4 0 ++ leBytes 4 me ++ leBytes 4 len)
    (leBytes 4 incarnation ++ leBytes 4 0 ++ rest) ?_ ?_
  · simp [newHeader, SignedMessage.type]
  · simp [length_leBytes, hsig, SignedMessage.type, signatureSize]

theorem newViewAt_packet (v : Nat) :
    newViewAt (packet (sig ++ newHeader me type incarnation len ++ (leBytes 4 v ++ rest))) 0 = v % 256 ^ 4 := by
  refine get_packet (f := NewLeader.newView) (sig ++ newHeader me type incarnation len) rest ?_ ?_
  · simp [NewLeader.newView]
  · simp [newHeader, length_leBytes, hsig, NewLeader.newView, signatureSize, SignedMessage.content, SignedMessage.size]

end Made

theorem newViewAt_constructNewLeaderProof (c : Config) (me : Nat) (st : Node) :
    newViewAt (packet (constructNewLeaderProof c me st)) 0 = st.view % 256 ^ 4 :=
  newViewAt_packet (List.length_replicate ..) st.view

/-- A proof that is claimed is for the view it was for. -/
theorem newViewAt_claimProof (c : Config) (me incarnation : Nat) (m : Memory) :
    newViewAt (packet (claimProof c me incarnation m)) 0 = newViewAt m 0 := by
  have hview : m.bytes (SignedMessage.content 0) 4 = leBytes 4 (newViewAt m 0) := (leBytes_int m _ 4).symm
  rw [claimProof, proofSize, NewLeader.size, Memory.bytes_add, hview]
  rw [newViewAt_packet (List.length_replicate ..)]
  exact Nat.mod_eq_of_lt Field.get_lt

/-- The NEW_LEADER a server makes is its ballot. -/
theorem ballot_constructNewLeader (incarnation view : Nat) (hme : me ∈ c.servers) (hid : me < 2 ^ 32) :
    (constructNewLeader S me incarnation view).length = newLeaderSize ∧
      Ballot c S.toCrypto (constructNewLeader S me incarnation view) me
        (newViewAt (packet (constructNewLeader S me incarnation view)) 0) := by
  have hsig := S.length_sign me (S.makeDigest (newHeader me .newLeader incarnation NewLeader.size ++
    leBytes 4 (view + 1)))
  have hbody : (newHeader me .newLeader incarnation NewLeader.size ++ leBytes 4 (view + 1)).length =
      newLeaderSize - signatureSize := by
    simp [newHeader, length_leBytes, newLeaderSize, signatureSize, SignedMessage.size, NewLeader.size]
  have hmess : constructNewLeader S me incarnation view = S.sign me (S.makeDigest
      (newHeader me .newLeader incarnation NewLeader.size ++ leBytes 4 (view + 1))) ++
      newHeader me .newLeader incarnation NewLeader.size ++ leBytes 4 (view + 1) :=
    (List.append_assoc _ _ _).symm
  have hlength : (constructNewLeader S me incarnation view).length = newLeaderSize := by
    rw [constructNewLeader, List.length_append, hsig, hbody]
    rfl
  have hread : ∀ i n, i + n ≤ newLeaderSize → (packet (constructNewLeader S me incarnation view)).bytes i n =
      ((constructNewLeader S me incarnation view).drop i).take n := by
    intro i n hn
    have hwrite := Memory.bytes_write (m := fun _ => 0) (a := 0) (hlength ▸ hn)
    rwa [Nat.zero_add] at hwrite
  refine ⟨hlength, ?_, ?_, ?_, hme, ?_, rfl⟩
  · rw [hmess, type_packet hsig]
    rfl
  · rw [hmess, len_packet hsig]
    rfl
  · rw [hmess, machineId_packet hsig]
    exact Nat.mod_eq_of_lt hid
  · have hcovered : (packet (constructNewLeader S me incarnation view)).bytes signatureSize
        (newLeaderSize - signatureSize) =
          newHeader me .newLeader incarnation NewLeader.size ++ leBytes 4 (view + 1) := by
      rw [hread _ _ (by decide), constructNewLeader, List.drop_left' hsig, List.take_of_length_le hbody.le]
    have hsignature : SignedMessage.sig.get (packet (constructNewLeader S me incarnation view)) 0 =
        S.sign me (S.makeDigest (newHeader me .newLeader incarnation NewLeader.size ++ leBytes 4 (view + 1))) := by
      refine (hread 0 signatureSize (by decide)).trans ?_
      rw [List.drop_zero, constructNewLeader, List.take_left' hsig]
    rw [hcovered, hsignature]
    exact S.verifies me _

/-! ## One server -/

/-- What a server has stored, claimed and preinstalled is backed by what was sent. -/
structure NodeInv (c : Config) (C : Crypto) (sent : List Bytes) (st : Node) : Prop where
  stored : ∀ s b, st.newLeader s = some b → HasSigned c C sent s (newViewAt (packet b) 0)
  proofs : ∀ proof ∈ st.proofs, Backed c C sent (newViewAt (packet proof) 0)
  raised : ∀ v ∈ st.raised, Backed c C sent v

theorem NodeInv.mono {sent' : List Bytes} (h : NodeInv c C sent st) (hsub : ∀ p ∈ sent, p ∈ sent') :
    NodeInv c C sent' st where
  stored s b hb := (h.stored s b hb).mono hsub
  proofs proof hproof := (h.proofs proof hproof).mono hsub
  raised v hv := (h.raised v hv).mono hsub

/-- A view that is backed may be preinstalled with a proof for it. -/
theorem NodeInv.preinstall (h : NodeInv c C sent st) {v : Nat} {proof : Bytes} (hv : Backed c C sent v)
    (hproof : newViewAt (packet proof) 0 = v) : NodeInv c C sent (st.preinstall v proof) where
  stored _ _ hb := nomatch hb
  proofs p hp := by
    rcases List.mem_cons.mp hp with rfl | hp
    · exact hproof ▸ hv
    · exact h.proofs p hp
  raised w hw := by
    rcases List.mem_cons.mp hw with rfl | hw
    · exact hv
    · exact h.raised w hw

/-- A NEW_LEADER that was signed may be stored. -/
theorem NodeInv.store (h : NodeInv c C sent st) {s : Nat} {b : Bytes}
    (hb : HasSigned c C sent s (newViewAt (packet b) 0)) :
    NodeInv c C sent { st with newLeader := Function.update st.newLeader s (some b) } where
  stored i b' hb' := by
    by_cases hi : i = s
    · subst hi
      have heq : b = b' := by simpa using hb'
      exact heq ▸ hb
    · refine h.stored i b' ?_
      simpa [hi] using hb'
  proofs := h.proofs
  raised := h.raised

/-- As many stored messages for a view as the quorum back the view. -/
theorem NodeInv.backed_of_tally (h : NodeInv c C sent st) {v : Nat}
    (hcount : tally c.numServers (fun i =>
      (st.newLeader i).any fun stored => decide (newViewAt (packet stored) 0 = v)) = c.quorum) :
    Backed c C sent v := by
  refine ⟨accepted c.numServers fun i =>
    (st.newLeader i).any fun stored => decide (newViewAt (packet stored) 0 = v), ?_, fun s hs => ?_⟩
  · rw [card_accepted, hcount]
  · obtain ⟨stored, hstored, hview⟩ := (Option.any_eq_true _ _).mp (mem_accepted.mp hs).2
    exact of_decide_eq_true hview ▸ h.stored s stored hstored

/-- **Counting votes.** A NEW_LEADER that was signed leaves what the server holds backed. -/
theorem processNewLeader_inv (h : NodeInv c C sent st)
    (hsigned : HasSigned c C sent (SignedMessage.machineId.get m 0) (newViewAt m 0)) :
    NodeInv c C sent (processNewLeader c me st m) := by
  unfold processNewLeader
  dsimp only
  split
  · exact h
  split
  · exact h
  have hstore := h.store (s := SignedMessage.machineId.get m 0) (b := m.bytes 0 newLeaderSize) (by
    rw [newViewAt_copy]
    exact hsigned)
  split
  · exact hstore
  · rename_i hcount
    refine hstore.preinstall (hstore.backed_of_tally (not_not.mp hcount)) ?_
    rw [newViewAt_constructNewLeaderProof]
    exact Nat.mod_eq_of_lt Field.get_lt

/-- A proof for a view that is backed leaves what the server holds backed. -/
theorem processNewLeaderProof_inv (h : NodeInv c C sent st)
    (hbacked : st.view < newViewAt m 0 → Backed c C sent (newViewAt m 0)) :
    NodeInv c C sent (processNewLeaderProof c me st m) := by
  unfold processNewLeaderProof
  dsimp only
  split
  · exact h
  split
  · exact h
  · rename_i hview _
    exact h.preinstall (hbacked (Nat.lt_of_not_le hview)) (newViewAt_claimProof c me _ m)

/-! ## Packets that are accepted -/

section Packets

variable {a : Surroundings} {p : Bytes}

/-- What lies in a packet occurs in what was sent. -/
theorem occurs_of_buffer (buffer : Memory) (hp : p ∈ sent) {i : Nat} (hi : i + newLeaderSize ≤ p.length) :
    Occurs sent ((buffer.write 0 p).bytes i newLeaderSize) := by
  have hread := Memory.bytes_write (m := buffer) (a := 0) hi
  rw [Nat.zero_add] at hread
  exact ⟨p, hp, i, hi, hread⟩

theorem accepted_of_accepts (h : accepts c S me a p = true) :
    Accepted (a.receiver c S me) (a.buffer.write 0 p) false 0 p.length :=
  accepted_of_validateMessage (yields_of_accepts (Bool.and_eq_true_iff.mp h).2)

/-- An accepted NEW_LEADER was signed by its sender. -/
theorem hasSigned_of_accepts (h : accepts c S me a p = true) (hp : p ∈ sent)
    (htype : SignedMessage.type.get (a.buffer.write 0 p) 0 = PacketType.newLeader.code) :
    HasSigned c S.toCrypto sent (SignedMessage.machineId.get (a.buffer.write 0 p) 0)
      (newViewAt (a.buffer.write 0 p) 0) := by
  obtain ⟨hlen, hballot⟩ := ballot_of_accepted (accepted_of_accepts h) htype
  exact ⟨_, occurs_of_buffer a.buffer hp (by omega), hballot⟩

theorem validateNewLeaders_yields {R : Receiver} {depth newView k nl : Nat} {ignore : Bool}
    (h : Yields (validateNewLeaders (validateMessage R depth) ignore newView k nl) m ()) :
    ∀ i < k, SignedMessage.type.get m (nl + i * newLeaderSize) = PacketType.newLeader.code ∧
      Accepted R m ignore (nl + i * newLeaderSize) newLeaderSize ∧
      newViewAt m (nl + i * newLeaderSize) = newView := by
  induction k generalizing nl with
  | zero => exact fun i hi => absurd hi (Nat.not_lt_zero i)
  | succ k ih =>
    simp only [validateNewLeaders, yields_bind, yields_require, Field.yields_read, exists_eq_left,
      exists_unit] at h
    obtain ⟨htype, hvalid, hview, hrest⟩ := h
    intro i hi
    cases i with
    | zero =>
      rw [Nat.zero_mul, Nat.add_zero]
      exact ⟨htype, accepted_of_validateMessage hvalid, hview⟩
    | succ i =>
      have hnext := ih hrest i (Nat.lt_of_succ_lt_succ hi)
      rw [Nat.succ_mul, Nat.add_comm (i * newLeaderSize), ← Nat.add_assoc]
      exact hnext

theorem length_proofEntries (c : Config) : (proofEntries c).length = c.quorum := by
  simp [proofEntries]

/-- **What a proof shows.** An accepted NEW_LEADER_PROOF whose messages come from
different servers backs its view. -/
theorem backed_of_accepts (h : accepts c S me a p = true) (hp : p ∈ sent)
    (htype : SignedMessage.type.get (a.buffer.write 0 p) 0 = PacketType.newLeaderProof.code)
    (hdistinct : ((proofEntries c).map fun nl => SignedMessage.machineId.get (a.buffer.write 0 p) nl).Nodup) :
    Backed c S.toCrypto sent (newViewAt (a.buffer.write 0 p) 0) := by
  have haccepted := accepted_of_accepts h
  obtain ⟨depth, hcontent⟩ := haccepted.content
  rw [htype, PacketType.ofCode_code] at hcontent
  have hcontent : Yields (validateNewLeaderProof (a.receiver c S me) (validateMessage (a.receiver c S me) depth)
    false (SignedMessage.content 0) (SignedMessage.len.get (a.buffer.write 0 p) 0)) _ () := hcontent
  simp only [validateNewLeaderProof, yields_bind, yields_require, Field.yields_read, exists_eq_left,
    exists_unit] at hcontent
  obtain ⟨-, hsize, hentries⟩ := hcontent
  have hall := validateNewLeaders_yields hentries
  have hend := haccepted.header.end_eq
  rw [Nat.zero_add, hsize] at hend
  have hsigned : ∀ nl ∈ proofEntries c, HasSigned c S.toCrypto sent
      (SignedMessage.machineId.get (a.buffer.write 0 p) nl) (newViewAt (a.buffer.write 0 p) 0) := by
    intro nl hnl
    obtain ⟨i, hi, rfl⟩ := List.mem_map.mp hnl
    obtain ⟨htype, hvalid, hview⟩ := hall i (List.mem_range.mp hi)
    obtain ⟨-, hballot⟩ := ballot_of_accepted hvalid htype
    have hfits : SignedMessage.content 0 + NewLeader.size + i * newLeaderSize + newLeaderSize ≤ p.length := by
      have hmul := Nat.mul_le_mul_right newLeaderSize (Nat.succ_le_of_lt (List.mem_range.mp hi))
      have hquorum : (a.receiver c S me).config.quorum * (SignedMessage.size + NewLeader.size) =
        c.quorum * newLeaderSize := rfl
      rw [Nat.succ_mul] at hmul
      omega
    refine ⟨_, occurs_of_buffer a.buffer hp hfits, ?_⟩
    rw [hview] at hballot
    exact hballot
  refine AtLeast.mono (p := fun s => ∃ nl ∈ proofEntries c,
    SignedMessage.machineId.get (a.buffer.write 0 p) nl = s ∧ True) ?_ fun s hs => ?_
  · rw [← length_proofEntries c]
    exact atLeast_length_iff.mpr ⟨hdistinct, fun _ _ => trivial⟩
  · obtain ⟨nl, hnl, rfl, -⟩ := hs
    exact hsigned nl hnl

end Packets

/-! ## Runs -/

/-- A NEW_LEADER_PROOF that is acted on does not repeat a sender. -/
def DistinctSenders (c : Config) (S : Keys) (me : Nat) (st : Node) : Lib.Input Bytes Action → Prop
  | .msg p =>
    let m := st.around.buffer.write 0 p
    SignedMessage.type.get m 0 = PacketType.newLeaderProof.code → accepts c S me st.around p = true →
      st.view < newViewAt m 0 → ((proofEntries c).map fun nl => SignedMessage.machineId.get m nl).Nodup
  | .act _ => True

/-- **One step.** Whatever a server handles leaves what it holds backed, as long as a
proof it acts on does not repeat a sender. -/
theorem handle_inv (h : NodeInv c S.toCrypto sent st) (hme : me ∈ c.servers) (hid : me < 2 ^ 32)
    {x : Lib.Input Bytes Action} (hx : ∀ p, x = .msg p → p ∈ sent) (hok : DistinctSenders c S me st x) :
    NodeInv c S.toCrypto ((handle c S me st x).2 ++ sent) (handle c S me st x).1 := by
  cases x with
  | msg p =>
    simp only [handle]
    split
    · rename_i haccepts
      split
      · rename_i htype
        have htype := (PacketType.code_of_ofCode htype).symm
        exact processNewLeader_inv h (hasSigned_of_accepts haccepts (hx p rfl) htype)
      · rename_i htype
        have htype := (PacketType.code_of_ofCode htype).symm
        exact processNewLeaderProof_inv h fun hview =>
          backed_of_accepts haccepts (hx p rfl) htype (hok htype haccepts hview)
      · exact h
    · exact h
  | act t =>
    cases t with
    | suspect =>
      simp only [handle]
      split
      · exact h
      · obtain ⟨hlength, hballot⟩ := ballot_constructNewLeader (c := c) (S := S) st.around.incarnation st.view
          hme hid
        have hsub : ∀ p ∈ sent, p ∈ [constructNewLeader S me st.around.incarnation st.view] ++ sent :=
          fun p hp => List.mem_append_right _ hp
        refine processNewLeader_inv ⟨(h.mono hsub).stored, (h.mono hsub).proofs, (h.mono hsub).raised⟩ ?_
        rw [hballot.machineId]
        refine ⟨_, ⟨_, List.mem_append_left _ (List.mem_singleton_self _), 0, ?_, ?_⟩, hballot⟩
        · rw [Nat.zero_add, hlength]
        · rw [List.drop_zero, ← hlength, List.take_length]
    | apply proof =>
      simp only [handle]
      split
      · rename_i hproof
        exact processNewLeaderProof_inv h fun _ => h.proofs proof hproof
      · exact h
    | elsewhere around view cleared =>
      simp only [handle]
      split
      · exact ⟨fun _ _ hb => (nomatch hb), h.proofs, h.raised⟩
      · exact ⟨h.stored, h.proofs, h.raised⟩

/-- **Views are preinstalled by quorums.** In every run in which no proof that a correct
server acts on repeats a sender, `2f + k + 1` servers signed a NEW_LEADER for every view
that a correct server preinstalls. Identifiers are of type `int32u`. -/
theorem raised_backed (d : Deployment) (S : Keys) (hid : d.numServers < 2 ^ 32) (around : Nat → Surroundings)
    {evs : List (Lib.Event Bytes Action)}
    (hok : Lib.World.Along (env d) (handle d.toConfig S)
      (fun w i x => DistinctSenders d.toConfig S i (w.node i) x) (start around) evs) :
    ∀ i, d.correct i = true → ∀ v ∈ (((start around).run (env d) (handle d.toConfig S) evs).node i).raised,
      Backed d.toConfig S.toCrypto ((start around).run (env d) (handle d.toConfig S) evs).sent v := by
  suffices hinv : ∀ i, NodeInv d.toConfig S.toCrypto ((start around).run (env d) (handle d.toConfig S) evs).sent
      (((start around).run (env d) (handle d.toConfig S) evs).node i) from fun i _ v hv => (hinv i).raised v hv
  refine run_inv_along (P := fun w => ∀ i, NodeInv d.toConfig S.toCrypto w.sent (w.node i))
    (fun i => ⟨fun _ _ hb => absurd hb (by simp [start]), fun _ hp => absurd hp List.not_mem_nil,
      fun _ hv => absurd hv List.not_mem_nil⟩) ?_ ?_ hok
  · intro w i x hw hx hc ha
    have hme : i ∈ d.servers := (d.correct_iff.mp hc).1
    have hlt : i < 2 ^ 32 := by
      have := (Finset.mem_Icc.mp hme).2
      omega
    have hhanded : ∀ p, x = .msg p → p ∈ w.sent := by
      rintro p rfl
      exact World.available_msg.mp ha
    refine World.move_node_inv (I := fun _ st => NodeInv d.toConfig S.toCrypto _ st)
      (fun j => (hw j).mono fun p hp => List.mem_append_right _ hp) ?_
    exact handle_inv (hw i) hme hlt hhanded hx
  · intro w m hw _ i
    exact (hw i).mono fun p hp => List.mem_cons_of_mem _ hp

/-- Signatures that show what they sign. -/
def plainKeys : Keys where
  toCrypto := plainCrypto
  sign server digest := (UInt8.ofNat server :: (digest ++ List.replicate signatureSize 0)).take signatureSize
  length_sign server digest := by
    rw [List.length_take, List.length_cons, List.length_append, List.length_replicate]
    omega
  verifies server l := by
    have hlen : (plainCrypto.makeDigest l).length = digestSize := by
      simp [plainCrypto]
    refine decide_eq_true ?_
    rw [List.take_take, show min 21 signatureSize = digestSize + 1 from rfl, List.take_succ_cons,
      List.take_left' hlen]

/-- Servers in normal operation, each in its first incarnation. -/
def plainSurroundings (_ : Nat) : Surroundings where
  status := .normal
  installedIncarnations _ := 1
  jumpIncarnation _ := none
  incarnation := 1
  stack _ := 0
  buffer _ := 0

/-- A NEW_LEADER_PROOF of a server for view 2, with messages of servers. -/
def proofPacket (server : Nat) (servers : List Nat) : Bytes :=
  messagesBytes [(server, .newLeaderProof,
    leBytes 4 2 ++ messagesBytes (messagesOf servers .newLeader (leBytes 4 2)))]

/-- Server 1 is sent a packet. -/
def deliverTo1 (p : Bytes) : List (Lib.Event Bytes Action) := [.inject p, .handle 1 (.msg p)]

/-- Servers 2 and 3 suspect the leader. -/
theorem raised_backed_threeServers :
    (((start plainSurroundings).run (env threeServers) (handle threeServers.toConfig plainKeys)
        (deliverTo1 (proofPacket 3 [2, 3]))).node 1).raised = [2] ∧
      Backed threeServers.toConfig plainCrypto ((start plainSurroundings).run (env threeServers)
        (handle threeServers.toConfig plainKeys) (deliverTo1 (proofPacket 3 [2, 3]))).sent 2 := by
  have hraised : (((start plainSurroundings).run (env threeServers) (handle threeServers.toConfig plainKeys)
      (deliverTo1 (proofPacket 3 [2, 3]))).node 1).raised = [2] := by
    decide +kernel
  have hok : Lib.World.Along (env threeServers) (handle threeServers.toConfig plainKeys)
      (fun w i x => DistinctSenders threeServers.toConfig plainKeys i (w.node i) x) (start plainSurroundings)
      (deliverTo1 (proofPacket 3 [2, 3])) := by
    refine And.intro (fun i x _ he => nomatch he) (And.intro (fun i x _ he => ?_) trivial)
    cases he
    intro _ _ _
    decide +kernel
  refine ⟨hraised, raised_backed threeServers plainKeys (by decide) plainSurroundings hok 1 (by decide) 2 ?_⟩
  rw [hraised]
  exact List.mem_singleton_self 2

theorem sent_deliverTo1 (d : Deployment) (p : Bytes) :
    ((start plainSurroundings).run (env d) (handle d.toConfig S) (deliverTo1 p)).sent = [p] := by
  have hinject : (start plainSurroundings).step (env d) (handle d.toConfig S) (.inject p) =
      { start plainSurroundings with sent := [p] } := rfl
  show (World.step (env d) (handle d.toConfig S) (World.step (env d) (handle d.toConfig S)
    (start plainSurroundings) (.inject p)) (.handle 1 (.msg p))).sent = [p]
  rw [hinject, World.step]
  split
  · rw [World.move_sent, handle_msg_sent]
    rfl
  · rfl

/-- Where every NEW_LEADER in the only packet names one sender, nobody else has signed
one. A NEW_LEADER is where the first byte of its type is. -/
theorem HasSigned.eq_of_packet {p : Bytes} {s v k : Nat} (h : HasSigned c C [p] s v)
    (hplaces : ∀ x ∈ (p.drop SignedMessage.type.offset).zipIdx, x.1 = UInt8.ofNat PacketType.newLeader.code →
      SignedMessage.machineId.get (packet p) x.2 = k) : s = k := by
  obtain ⟨b, ⟨p', hp', i, hi, rfl⟩, hb⟩ := h
  obtain rfl := List.mem_singleton.mp hp'
  have hread := Memory.bytes_write (m := fun _ => 0) (a := 0) hi
  rw [Nat.zero_add] at hread
  rw [← hread] at hb
  have hfield : ∀ f : Field, f.offset + f.width ≤ newLeaderSize →
      f.get (packet ((packet p').bytes i newLeaderSize)) 0 = f.get (packet p') i := fun f hf =>
    Field.get_congr newLeaderSize hf fun j hj => packet_bytes hj
  have htype : (packet p').int (i + SignedMessage.type.offset) 4 = PacketType.newLeader.code :=
    (hfield SignedMessage.type (by decide)).symm.trans hb.type
  have hsize : SignedMessage.type.offset < newLeaderSize := by decide
  have hlt : i + SignedMessage.type.offset < p'.length := by omega
  have hbyte : p'[i + SignedMessage.type.offset] = UInt8.ofNat PacketType.newLeader.code := by
    have hfirst : (packet p' (i + SignedMessage.type.offset)).toNat = PacketType.newLeader.code := by
      have hcode : PacketType.newLeader.code < 256 := by decide
      rw [Memory.int] at htype
      omega
    have hwritten := Memory.write_apply (m := fun _ => 0) (a := 0) hlt
    rw [Nat.zero_add] at hwritten
    rw [← hwritten]
    exact UInt8.toNat_inj.mp hfirst
  refine hb.machineId.symm.trans ((hfield SignedMessage.machineId (by decide)).trans (hplaces (_, i) ?_ hbyte))
  rw [List.mem_zipIdx_iff_getElem?, List.getElem?_drop, Nat.add_comm, List.getElem?_eq_getElem hlt]

/-- One controlled server makes a server preinstall view 2 alone: nobody else signed a
NEW_LEADER for it. -/
theorem forgedProof_raises :
    (((start plainSurroundings).run (env fourServers) (handle fourServers.toConfig plainKeys)
        (deliverTo1 (proofPacket 4 [4, 4, 4]))).node 1).raised = [2] ∧
      ¬ Backed fourServers.toConfig plainCrypto ((start plainSurroundings).run (env fourServers)
        (handle fourServers.toConfig plainKeys) (deliverTo1 (proofPacket 4 [4, 4, 4]))).sent 2 := by
  have hplaces : ∀ x ∈ ((proofPacket 4 [4, 4, 4]).drop SignedMessage.type.offset).zipIdx,
      x.1 = UInt8.ofNat PacketType.newLeader.code →
        SignedMessage.machineId.get (packet (proofPacket 4 [4, 4, 4])) x.2 = 4 := by
    decide +kernel
  refine ⟨by decide +kernel, fun h => ?_⟩
  rw [sent_deliverTo1] at h
  have hone : fourServers.quorum ≤ 1 :=
    AtLeast.le_card (T := {4}) h fun s hs => Finset.mem_singleton.mpr (hs.eq_of_packet hplaces)
  exact absurd hone (by decide)

end Spire.Suspect
