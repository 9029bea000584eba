import Spire.Wire

/-!
# Signatures over many messages

`merkle.c`: a server signs the root of a binary tree of message digests, and a message
carries its index among the leaves and the digests of the siblings on its way to the
root. `mtVerify` recomputes the root from them.

What is proved is where it reads: the siblings lie in the room that `MT_Digests_`
reserves for them behind the message (`makeDigestFromSet_extent`).
-/

namespace Spire

open Lib Lib.Reader Wire

/-- `OPENSSL_RSA_*` and `TC_Verify_Signature`, over the keys of the deployment. -/
structure Crypto where
  makeDigest : Bytes → Bytes
  /-- `RSA_SERVER`: a signature of a digest under the key of a server. -/
  verifyServer : Nat → Bytes → Bytes → Bool
  /-- `RSA_CLIENT`: the same for a client. -/
  verifyClient : Nat → Bytes → Bytes → Bool
  /-- A threshold signature of a digest. -/
  verifyThreshold : Bytes → Bytes → Bool

namespace Merkle

/-- `MT_Digests_`: how many sibling digests follow a message that is one of `n`. More
than 256 end the process. -/
def mtDigests (n : Nat) : Option Nat :=
  if n ≤ 1 then some 0
  else if n ≤ 2 then some 1
  else if n ≤ 4 then some 2
  else if n ≤ 8 then some 3
  else if n ≤ 16 then some 4
  else if n ≤ 32 then some 5
  else if n ≤ 64 then some 6
  else if n ≤ 128 then some 7
  else if n ≤ 256 then some 8
  else none

/-- The number of sibling digests, where the process does not end. -/
def digestsOf (n : Nat) : Nat := (mtDigests n).getD 0

/-- `MT_Digests_`, as a step of a validator. -/
def countDigests (n : Nat) : Reader Nat :=
  match mtDigests n with
  | some d => pure d
  | none => stop .exited

/-- `MT_S`: the sibling of a node. -/
def mtS (n : Nat) : Nat := if n % 2 = 0 then n + 1 else n - 1

/-- The loop of `MT_Make_Digest_From_Set`, from node `n` with `di` siblings read. The
fuel is the node, which every round halves. -/
def climb (makeDigest : Bytes → Bytes) (digests : Nat) :
    Nat → Nat → Nat → (Nat → Bytes) → Reader (Nat → Bytes)
  | 0, _, _, tree => pure tree
  | fuel + 1, n, di, tree =>
    if 1 < n then do
      -- the sibling of a node above the root is above the root
      let sibling ← bytes (digests + di * digestSize) digestSize
      let tree := Function.update tree (mtS n) sibling
      let parent := n / 2
      climb makeDigest digests fuel parent (di + 1)
        (Function.update tree parent (makeDigest (tree (2 * parent) ++ tree (2 * parent + 1))))
    else pure tree

/-- `verify_dt` after `MT_Clear_Verify`. -/
def clearTree : Nat → Bytes := fun _ => List.replicate digestSize 0

/-- `MT_Make_Digest_From_Set`. The digest of a message whose index and number are both
zero is put in front of the array, so that the root stays clear. -/
def makeDigestFromSet (makeDigest : Bytes → Bytes) (messNum digests : Nat) (messDigest : Bytes)
    (mtNum : Nat) : Reader Bytes :=
  if messNum + mtNum = 0 then pure (clearTree 1)
  else do
    let n := messNum + mtNum - 1
    let tree ← climb makeDigest digests n n 0 (Function.update clearTree n messDigest)
    pure (tree 1)

/-- The root that the message at `mess` and the digests behind it lead to. -/
def rootOf (C : Crypto) (mess : Nat) : Reader Bytes := do
  let len ← SignedMessage.len.read mess
  let mtNum ← SignedMessage.mtNum.read mess
  let mtIndex ← SignedMessage.mtIndex.read mess
  -- all but the signature, `mt_num` and `mt_index`
  let covered ← bytes (mess + signatureSize + 4) (len + SignedMessage.size - signatureSize - 4)
  makeDigestFromSet C.makeDigest mtIndex (SignedMessage.content mess + len) (C.makeDigest covered) mtNum

/-- `OPENSSL_RSA_Verify` reads and digests everything but the signature. -/
def messageDigest (C : Crypto) (mess : Nat) : Reader Bytes := do
  let len ← SignedMessage.len.read mess
  let covered ← bytes (mess + signatureSize) (len + SignedMessage.size - signatureSize)
  pure (C.makeDigest covered)

/-- `MT_Verify`, for a message that is not an update. -/
def mtVerify (C : Crypto) (mess : Nat) : Reader Bool := do
  let root ← rootOf C mess
  let sig ← SignedMessage.sig.read mess
  let machineId ← SignedMessage.machineId.read mess
  pure (C.verifyServer machineId root sig)

/-! ## Where it reads -/

variable {m : Memory} {n v B : Nat}

theorem messageDigest_value (C : Crypto) (m : Memory) (mess : Nat) :
    (messageDigest C mess).value m = C.makeDigest (m.bytes (mess + signatureSize)
      (SignedMessage.len.get m mess + SignedMessage.size - signatureSize)) := by
  apply Yields.value_eq
  simp [messageDigest]

@[simp] theorem yields_countDigests : Yields (countDigests n) m v ↔ mtDigests n = some v := by
  unfold countDigests
  cases mtDigests n <;> simp [eq_comm]

theorem within_countDigests : Within (countDigests n) m B := by
  unfold countDigests
  cases mtDigests n with
  | none => exact within_stop
  | some d => exact within_pure

/-- Room for the siblings of a leaf of a tree with `n` leaves. -/
theorem le_two_pow_of_mtDigests (h : mtDigests n = some v) : n ≤ 2 ^ v := by
  unfold mtDigests at h
  split_ifs at h <;> cases h <;> omega

/-- A node below `2 ^ (k + 1)` is at most `k` siblings from the root. -/
theorem climb_within {makeDigest : Bytes → Bytes} {digests k fuel di : Nat} {tree : Nat → Bytes}
    (hn : n < 2 ^ (k + 1)) :
    Within (climb makeDigest digests fuel n di tree) m (digests + (di + k) * digestSize) := by
  induction fuel generalizing n di k tree with
  | zero => exact within_pure
  | succ fuel ih =>
    refine within_ite (fun hone => ?_) fun _ => within_pure
    cases k with
    | zero => omega
    | succ k =>
      have hhalf : n / 2 < 2 ^ (k + 1) := by
        rw [Nat.div_lt_iff_lt_mul Nat.two_pos, ← Nat.pow_succ]
        exact hn
      refine within_bind (within_bytes ?_) fun sibling _ => (ih hhalf).mono ?_
      · simp only [digestSize]
        omega
      · simp only [digestSize]
        omega

/-- The siblings of a message lie within the room behind it. -/
theorem makeDigestFromSet_within {makeDigest : Bytes → Bytes} {messNum digests mtNum : Nat}
    {messDigest : Bytes} (hindex : messNum ≤ mtNum) (hroom : mtDigests mtNum = some v) :
    Within (makeDigestFromSet makeDigest messNum digests messDigest mtNum) m
      (digests + v * digestSize) := by
  refine within_ite (fun _ => within_pure) fun _ => ?_
  have hlt : messNum + mtNum - 1 < 2 ^ (v + 1) := by
    have := le_two_pow_of_mtDigests hroom
    rw [Nat.pow_succ]
    omega
  refine within_bind ((climb_within hlt).mono ?_) fun tree _ => within_pure
  rw [Nat.zero_add]

/-- `MT_Verify` stays within the message and its siblings. -/
theorem mtVerify_within {C : Crypto} {mess : Nat}
    (hindex : SignedMessage.mtIndex.get m mess ≤ SignedMessage.mtNum.get m mess)
    (hroom : mtDigests (SignedMessage.mtNum.get m mess) = some v)
    (hB : mess + SignedMessage.size + SignedMessage.len.get m mess + v * digestSize ≤ B) :
    Within (mtVerify C mess) m B := by
  have hheader : mess + SignedMessage.size ≤ B := by omega
  refine Reader.within_bind ?_ fun root _ => ?_
  · apply Field.within_bind SignedMessage.size (by decide) hheader
    apply Field.within_bind SignedMessage.size (by decide) hheader
    apply Field.within_bind SignedMessage.size (by decide) hheader
    refine Reader.within_bind (within_bytes ?_) fun covered _ => ?_
    · simp only [SignedMessage.size, signatureSize] at hB ⊢
      omega
    · exact (makeDigestFromSet_within hindex hroom).mono hB
  · apply Blob.within_bind SignedMessage.size (by decide) hheader
    apply Field.within_bind SignedMessage.size (by decide) hheader
    exact within_pure

/-- A signature over the message alone is checked without reading past it. -/
theorem messageDigest_within {C : Crypto} {mess : Nat}
    (hB : mess + SignedMessage.size + SignedMessage.len.get m mess ≤ B) :
    Within (messageDigest C mess) m B := by
  apply Field.within_bind SignedMessage.size (by decide) (by omega)
  refine Reader.within_bind (within_bytes ?_) fun covered _ => within_pure
  simp only [SignedMessage.size, signatureSize] at hB ⊢
  omega

end Merkle

end Spire
