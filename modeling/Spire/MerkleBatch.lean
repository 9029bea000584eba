import Spire.Lib.HashTree
import Spire.Accepted

/-!
# Signing many messages at once

`MT_Make_Digest_From_List` builds the tree over the digests of the messages that wait for a signature,
padded with zeros to a power of two, and `SIG_Finish_Pending_Messages` writes into each of them the
signature of the root, its index and what `MT_Extract_Set` takes from the tree. `rootOf` recomputes the
root from the message alone.

The builder, the extractor and the verifier each count in their own way. What they have in common is the
position of a message among the leaves, and `ascend` from there to the root: `yields_rootOf` says that
the verifier computes it, and `attached_extractSet` that the extractor has left it the siblings of the
tree. `batch_verified` is then the library's `ascend_path`.
-/

namespace Spire.Merkle

open Lib Lib.Reader Lib.HashTree Wire Validate

/-- `MAX_MERKLE_DIGESTS`: the messages are built with room for as many. -/
def maxMerkleDigests : Nat := 6

/-- The node over two others. -/
def join (makeDigest : Bytes → Bytes) (left right : Bytes) : Bytes := makeDigest (left ++ right)

/-! ## Building the tree -/

/-- `MT_Set_Num`: the number of leaves for `n` messages. More than 256 end the process. -/
def mtSetNum (n : Nat) : Option Nat :=
  if n = 1 then some 1
  else if n ≤ 2 then some 2
  else if n ≤ 4 then some 4
  else if n ≤ 8 then some 8
  else if n ≤ 16 then some 16
  else if n ≤ 32 then some 32
  else if n ≤ 64 then some 64
  else if n ≤ 128 then some 128
  else if n ≤ 256 then some 256
  else none

/-- `MT_L`: the node of leaf `n`, counted from 1. -/
def mtL (mtNum n : Nat) : Nat := mtNum - 1 + n

/-- `MT_Put_Mess_Digest`. -/
def putMessDigest (mtNum n : Nat) (digest : Bytes) (dt : Nat → Bytes) : Nat → Bytes :=
  Function.update dt (mtL mtNum n) digest

/-- `MT_Make_Digest_From_All`. The root is at position 1 of what it leaves. -/
def makeDigestFromAll (makeDigest : Bytes → Bytes) (mtNum : Nat) (dt : Nat → Bytes) : Nat → Bytes :=
  fill (join makeDigest) (mtNum - 1) dt

/-- What a server signs of the message at `mess`: all but the signature, `mt_num` and `mt_index`. -/
def covered (m : Memory) (mess : Nat) : Bytes :=
  m.bytes (mess + signatureSize + 4) (SignedMessage.len.get m mess + SignedMessage.size - signatureSize - 4)

/-- The loop of `MT_Make_Digest_From_List` over the messages, each in its own buffer, from the `i`-th on. -/
def putMessDigests (makeDigest : Bytes → Bytes) (mtNum : Nat) : Nat → List Memory → (Nat → Bytes) → (Nat → Bytes)
  | _, [], dt => dt
  | i, mess :: list, dt =>
    putMessDigests makeDigest mtNum (i + 1) list (putMessDigest mtNum i (makeDigest (covered mess 0)) dt)

/-- The tree over the messages, with `mtNum` leaves. -/
def batchTree (makeDigest : Bytes → Bytes) (mtNum : Nat) (list : List Memory) : Nat → Bytes :=
  makeDigestFromAll makeDigest mtNum (putMessDigests makeDigest mtNum 1 list clearTree)

/-- `MT_Make_Digest_From_List`: `dt`, unless the process ends. It asserts that the digests of a message
fit into the room for them. -/
def makeDigestFromList (makeDigest : Bytes → Bytes) (list : List Memory) : Option (Nat → Bytes) := do
  let mtNum ← mtSetNum list.length
  if mtNum ≤ 2 <<< (maxMerkleDigests - 1) then some (batchTree makeDigest mtNum list) else none

/-! ## Finishing the messages -/

/-- The loop of `MT_Extract_Set`, from node `n` with `di` digests written: the buffer and the number of
digests in it. -/
def extractLoop (dt : Nat → Bytes) (digests : Nat) : Nat → Nat → Nat → Memory → Memory × Nat
  | 0, _, di, m => (m, di)
  | fuel + 1, n, di, m =>
    if 1 < n then
      if 1 < mtS n then extractLoop dt digests fuel (n / 2) (di + 1) (m.write (digests + di * digestSize) (dt (mtS n)))
      else extractLoop dt digests fuel (n / 2) di m
    else (m, di)

/-- The fields that `MT_Extract_Set` writes. -/
def stampSet (mtNum messNum : Nat) (mess : Memory) : Memory :=
  (mess.write SignedMessage.mtIndex.offset (leBytes SignedMessage.mtIndex.width messNum)).write
    SignedMessage.mtNum.offset (leBytes SignedMessage.mtNum.width mtNum)

/-- `MT_Extract_Set`. -/
def extractSet (dt : Nat → Bytes) (mtNum messNum : Nat) (mess : Memory) : Memory × Nat :=
  let mess := stampSet mtNum messNum mess
  let n := messNum + mtNum - 1
  extractLoop dt (SignedMessage.content 0 + SignedMessage.len.get mess 0) n n 0 mess

/-- What `SIG_Finish_Pending_Messages` does to the `i`-th message, unless its assertion ends the process:
the message and the number of digests behind it. -/
def finishMessage (dt : Nat → Bytes) (mtNum : Nat) (signature : Bytes) (i : Nat) (mess : Memory) : Option (Memory × Nat) :=
  let finished := extractSet dt mtNum i (mess.write 0 signature)
  if SignedMessage.mtIndex.get finished.1 0 ≤ SignedMessage.mtNum.get finished.1 0 then some finished else none

/-- The first loop of `SIG_Finish_Pending_Messages`, from the `i`-th message on. -/
def finishMessages (dt : Nat → Bytes) (mtNum : Nat) (signature : Bytes) : Nat → List Memory → Option (List (Memory × Nat))
  | _, [] => some []
  | i, mess :: list => do
    let finished ← finishMessage dt mtNum signature i mess
    let rest ← finishMessages dt mtNum signature (i + 1) list
    pure (finished :: rest)

/-! ## What the verifier computes -/

/-- The `d` digests at an address. -/
def attached (m : Memory) : Nat → Nat → List Bytes
  | _, 0 => []
  | a, d + 1 => m.bytes a digestSize :: attached m (a + digestSize) d

variable {m m' : Memory} {makeDigest : Bytes → Bytes} {dt : Nat → Bytes} {n d e fuel digests di : Nat}

theorem length_attached (m : Memory) (a d : Nat) : (attached m a d).length = d := by
  induction d generalizing a with
  | zero => rfl
  | succ d ih => rw [attached, List.length_cons, ih]

/-- A node that is `d` levels below the root and not the root. -/
theorem one_lt_of_top (htop : n / 2 ^ (d + 1) = 1) : 1 < n := by
  obtain ⟨-, hpos⟩ := top_half htop
  omega

/-- The loop of `MT_Make_Digest_From_Set` goes up to the root with the digests that it reads. -/
theorem yields_climb {tree : Nat → Bytes} (htop : n / 2 ^ d = 1) (hfuel : n ≤ fuel) :
    ∃ tree', Yields (climb makeDigest digests fuel n di tree) m tree' ∧
      tree' 1 = ascend (join makeDigest) n (tree n) (attached m (digests + di * digestSize) d) := by
  induction d generalizing n fuel di tree with
  | zero =>
    rw [Nat.pow_zero, Nat.div_one] at htop
    subst htop
    cases fuel with
    | zero => omega
    | succ fuel => exact ⟨tree, yields_pure.mpr rfl, rfl⟩
  | succ d ih =>
    obtain ⟨hup, -⟩ := top_half htop
    have hn := one_lt_of_top htop
    cases fuel with
    | zero => omega
    | succ fuel =>
      obtain ⟨tree', hyields, hroot⟩ := @ih (n / 2) fuel (di + 1)
        (Function.update (Function.update tree (mtS n) (m.bytes (digests + di * digestSize) digestSize)) (n / 2)
          (makeDigest (Function.update tree (mtS n) (m.bytes (digests + di * digestSize) digestSize) (2 * (n / 2)) ++
            Function.update tree (mtS n) (m.bytes (digests + di * digestSize) digestSize) (2 * (n / 2) + 1))))
        hup (by omega)
      refine ⟨tree', ?_, ?_⟩
      · unfold climb
        rw [if_pos hn]
        exact yields_bind.mpr ⟨_, yields_bytes.mpr rfl, hyields⟩
      · -- The children of the parent are the node and the sibling that has been read.
        have hchildren := pair_sibling (Function.update tree (mtS n) (m.bytes (digests + di * digestSize) digestSize)) n
        have hself : Function.update tree (mtS n) (m.bytes (digests + di * digestSize) digestSize) n = tree n :=
          Function.update_of_ne (sibling_ne (by omega)).symm _ _
        rw [hself, show sibling n = mtS n from rfl, Function.update_self] at hchildren
        have hnext : digests + (di + 1) * digestSize = digests + di * digestSize + digestSize := by
          rw [Nat.succ_mul, Nat.add_assoc]
        rw [hroot, Function.update_self, attached, ascend, hchildren, hnext]
        rfl

/-- **The root that a message leads to**: what its digest and the digests behind it come to from its
position among the leaves. -/
theorem yields_rootOf {C : Crypto} {mess : Nat}
    (htop : (SignedMessage.mtIndex.get m mess + SignedMessage.mtNum.get m mess - 1) / 2 ^ d = 1) :
    Yields (rootOf C mess) m (ascend (join C.makeDigest)
      (SignedMessage.mtIndex.get m mess + SignedMessage.mtNum.get m mess - 1) (C.makeDigest (covered m mess))
      (attached m (SignedMessage.content mess + SignedMessage.len.get m mess) d)) := by
  have hpos : SignedMessage.mtIndex.get m mess + SignedMessage.mtNum.get m mess ≠ 0 := by
    intro hzero
    rw [hzero, Nat.zero_sub, Nat.zero_div] at htop
    exact absurd htop (by decide)
  obtain ⟨tree', hyields, hroot⟩ := @yields_climb m C.makeDigest _ d _
    (SignedMessage.content mess + SignedMessage.len.get m mess) 0
    (Function.update clearTree (SignedMessage.mtIndex.get m mess + SignedMessage.mtNum.get m mess - 1)
      (C.makeDigest (covered m mess))) htop (le_refl _)
  rw [Function.update_self, Nat.zero_mul, Nat.add_zero] at hroot
  simp only [rootOf, yields_bind, Field.yields_read, yields_bytes, exists_eq_left]
  unfold makeDigestFromSet
  rw [if_neg hpos]
  exact yields_bind.mpr ⟨tree', hyields, yields_pure.mpr hroot.symm⟩

/-! ## What the extractor leaves -/

theorem attached_congr {a : Nat} (h : ∀ i < d * digestSize, m (a + i) = m' (a + i)) : attached m a d = attached m' a d := by
  induction d generalizing a with
  | zero => rfl
  | succ d ih =>
    rw [attached, attached]
    rw [Nat.succ_mul] at h
    refine List.cons_eq_cons.mpr ⟨Memory.bytes_congr fun i hi => h i (by omega), ih fun i hi => ?_⟩
    rw [Nat.add_assoc]
    exact h _ (by omega)

/-- The siblings of the tree, one behind the other. What lies before them stays. -/
theorem extractLoop_spec (hdt : ∀ i, (dt i).length = digestSize) (htop : n / 2 ^ d = 1) (hfuel : n ≤ fuel) :
    (extractLoop dt digests fuel n di m).2 = di + d ∧
      (∀ a < digests + di * digestSize, (extractLoop dt digests fuel n di m).1 a = m a) ∧
      attached (extractLoop dt digests fuel n di m).1 (digests + di * digestSize) d = path dt n d := by
  induction d generalizing n fuel di m with
  | zero =>
    rw [Nat.pow_zero, Nat.div_one] at htop
    subst htop
    cases fuel with
    | zero => omega
    | succ fuel => exact ⟨rfl, fun _ _ => rfl, rfl⟩
  | succ d ih =>
    obtain ⟨hup, -⟩ := top_half htop
    have hn := one_lt_of_top htop
    cases fuel with
    | zero => omega
    | succ fuel =>
      obtain ⟨hcount, hbefore, hdigests⟩ := @ih (m.write (digests + di * digestSize) (dt (mtS n))) (n / 2)
        fuel (di + 1) hup (by omega)
      have hstep : extractLoop dt digests (fuel + 1) n di m =
          extractLoop dt digests fuel (n / 2) (di + 1) (m.write (digests + di * digestSize) (dt (mtS n))) := by
        rw [extractLoop, if_pos hn, if_pos (show 1 < mtS n from one_lt_sibling hn)]
      have hnext : digests + (di + 1) * digestSize = digests + di * digestSize + digestSize := by
        rw [Nat.succ_mul, Nat.add_assoc]
      rw [hstep]
      rw [hnext] at hbefore hdigests
      refine ⟨by omega, fun a ha => ?_, ?_⟩
      · rw [hbefore a (by omega), Memory.write_outside (.inl ha)]
      · rw [attached, path, hdigests]
        refine List.cons_eq_cons.mpr ⟨?_, rfl⟩
        have hwritten := @Memory.bytes_write m (digests + di * digestSize) digestSize (dt (mtS n)) 0
          (by rw [hdt, Nat.zero_add])
        rw [Nat.add_zero, List.drop_zero, List.take_of_length_le (hdt _).le] at hwritten
        exact (Memory.bytes_congr fun i hi => hbefore _ (by omega)).trans hwritten

/-! ## The tree over the messages -/

/-- There are as many levels as digests behind a message. -/
theorem mtSetNum_eq (hpos : 0 < n) : mtSetNum n = (mtDigests n).map fun e => 2 ^ e := by
  unfold mtSetNum mtDigests
  split_ifs
  all_goals first
    | rfl
    | omega

theorem exists_mtDigests (hmost : n ≤ 256) : ∃ e, mtDigests n = some e := by
  unfold mtDigests
  split_ifs
  all_goals exact ⟨_, rfl⟩

/-- The room for digests is that of 64 messages. -/
theorem le_maxMerkleDigests_iff (h : mtDigests n = some e) : e ≤ maxMerkleDigests ↔ n ≤ 64 := by
  unfold mtDigests at h
  unfold maxMerkleDigests
  split_ifs at h
  all_goals
    cases h
    omega

theorem le_eight_of_mtDigests (h : mtDigests n = some e) : e ≤ 8 := by
  unfold mtDigests at h
  split_ifs at h
  all_goals
    cases h
    omega

/-- What is put in place is a digest or what was there. -/
theorem length_putMessDigests (hdigest : ∀ l, (makeDigest l).length = digestSize) {mtNum i : Nat} {list : List Memory}
    (hdt : ∀ p, (dt p).length = digestSize) (p : Nat) :
    (putMessDigests makeDigest mtNum i list dt p).length = digestSize := by
  induction list generalizing i dt with
  | nil => exact hdt p
  | cons mess list ih =>
    refine ih fun p => ?_
    rw [putMessDigest, Function.update_apply]
    split
    · exact hdigest _
    · exact hdt p

theorem putMessDigests_outside {mtNum i p : Nat} {list : List Memory}
    (hp : p < mtL mtNum i ∨ mtL mtNum i + list.length ≤ p) : putMessDigests makeDigest mtNum i list dt p = dt p := by
  induction list generalizing i dt with
  | nil => rfl
  | cons mess list ih =>
    unfold mtL at hp ih
    rw [List.length_cons] at hp
    rw [putMessDigests, ih (by omega), putMessDigest, Function.update_of_ne]
    unfold mtL
    omega

/-- Each message has a leaf of its own. -/
theorem putMessDigests_leaf {mtNum i j : Nat} {list : List Memory} (hj : j < list.length) :
    putMessDigests makeDigest mtNum i list dt (mtL mtNum i + j) = makeDigest (covered list[j] 0) := by
  induction list generalizing i j dt with
  | nil => exact absurd hj (Nat.not_lt_zero j)
  | cons mess list ih =>
    cases j with
    | zero =>
      rw [putMessDigests, putMessDigests_outside (.inl (by unfold mtL; omega)), putMessDigest]
      exact Function.update_self _ _ _
    | succ j =>
      have hnext : mtL mtNum i + (j + 1) = mtL mtNum (i + 1) + j := by
        unfold mtL
        omega
      rw [putMessDigests, hnext]
      exact ih (Nat.lt_of_succ_lt_succ hj)

section Tree

variable {list : List Memory}

theorem batchTree_hashed (makeDigest : Bytes → Bytes) (e : Nat) (list : List Memory) :
    Hashed (join makeDigest) e (batchTree makeDigest (2 ^ e) list) :=
  hashed_fill _ _ _

theorem mtL_one (e i : Nat) : mtL (2 ^ e) 1 + i = 2 ^ e + i := by
  have hpos := Nat.two_pow_pos e
  unfold mtL
  omega

theorem batchTree_leaf {i : Nat} (hi : i < list.length) :
    batchTree makeDigest (2 ^ e) list (2 ^ e + i) = makeDigest (covered list[i] 0) := by
  unfold batchTree makeDigestFromAll
  rw [fill_leaf (Nat.le_add_right _ _), ← mtL_one, putMessDigests_leaf hi]

/-- The other leaves are zero. -/
theorem batchTree_padding {i : Nat} (hi : list.length ≤ i) :
    batchTree makeDigest (2 ^ e) list (2 ^ e + i) = List.replicate digestSize 0 := by
  unfold batchTree makeDigestFromAll
  rw [fill_leaf (Nat.le_add_right _ _), ← mtL_one, putMessDigests_outside (.inr (by omega))]
  rfl

theorem length_batchTree (hdigest : ∀ l, (makeDigest l).length = digestSize) (mtNum : Nat) (list : List Memory) (p : Nat) :
    (batchTree makeDigest mtNum list p).length = digestSize :=
  fill_all (P := fun l : Bytes => l.length = digestSize) (fun _ _ => hdigest _)
    (length_putMessDigests hdigest fun _ => List.length_replicate) p

end Tree

/-! ## Finished messages -/

section Finished

variable {C : Crypto} {signature : Bytes} {mtNum i : Nat} {mess : Memory} {list : List Memory}

theorem stampSet_outside {a : Nat} (ha : a < SignedMessage.mtNum.offset ∨ SignedMessage.siteId.offset ≤ a) :
    stampSet mtNum i mess a = mess a := by
  simp only [SignedMessage.mtNum, SignedMessage.siteId] at ha
  unfold stampSet
  rw [Memory.write_outside, Memory.write_outside]
  · rw [length_leBytes]
    simp only [SignedMessage.mtIndex]
    omega
  · rw [length_leBytes]
    simp only [SignedMessage.mtNum]
    omega

theorem stampSet_mtNum : SignedMessage.mtNum.get (stampSet mtNum i mess) 0 = mtNum % 256 ^ 2 := by
  unfold stampSet Field.get
  rw [Nat.zero_add]
  exact int_write _ _ _

theorem stampSet_mtIndex : SignedMessage.mtIndex.get (stampSet mtNum i mess) 0 = i % 256 ^ 2 := by
  unfold stampSet Field.get
  rw [Nat.zero_add, ← @int_write mess SignedMessage.mtIndex.offset]
  refine Memory.int_congr fun j _ => Memory.write_outside (.inr ?_)
  rw [length_leBytes]
  simp only [SignedMessage.mtNum, SignedMessage.mtIndex]
  omega

/-- A message that waits for its signature and what becomes of it: it has the index and the number of
leaves, the signature, and the digests that lead to the root; the rest stays. -/
structure Finished (C : Crypto) (dt : Nat → Bytes) (mtNum : Nat) (signature : Bytes) (i : Nat)
    (mess finished : Memory) : Prop where
  index : SignedMessage.mtIndex.get finished 0 = i
  number : SignedMessage.mtNum.get finished 0 = mtNum
  signed : SignedMessage.sig.get finished 0 = signature
  unchanged : ∀ a, SignedMessage.siteId.offset ≤ a → a < SignedMessage.content 0 + SignedMessage.len.get mess 0 →
    finished a = mess a
  root : Yields (rootOf C 0) finished (dt 1)

/-- A finished message is verified, if the signature is that of its sender on the root. -/
theorem Finished.verified {finished : Memory} (h : Finished C dt mtNum signature i mess finished)
    (hsigned : C.verifyServer (SignedMessage.machineId.get mess 0) (dt 1) signature = true) :
    Yields (mtVerify C 0) finished true := by
  have hsender : SignedMessage.machineId.get finished 0 = SignedMessage.machineId.get mess 0 := by
    refine Memory.int_congr fun j hj => h.unchanged _ ?_ ?_
    all_goals
      simp only [SignedMessage.machineId, SignedMessage.siteId, SignedMessage.content, SignedMessage.size] at hj ⊢
      omega
  simp only [mtVerify, yields_bind, Blob.yields_read, Field.yields_read, exists_eq_left, yields_pure]
  refine ⟨_, h.root, ?_⟩
  rw [h.signed, hsender, hsigned]

/-- What is signed of a message, its length and its sender are behind the fields that are written. -/
theorem covered_congr {m m' : Memory} (h : ∀ a, SignedMessage.siteId.offset ≤ a →
    a < SignedMessage.content 0 + SignedMessage.len.get m 0 → m' a = m a) :
    SignedMessage.len.get m' 0 = SignedMessage.len.get m 0 ∧ covered m' 0 = covered m 0 := by
  have hlen : SignedMessage.len.get m' 0 = SignedMessage.len.get m 0 := by
    refine Memory.int_congr fun j hj => h _ ?_ ?_
    all_goals
      simp only [SignedMessage.len, SignedMessage.siteId, SignedMessage.content, SignedMessage.size] at hj ⊢
      omega
  refine ⟨hlen, ?_⟩
  unfold covered
  rw [hlen]
  refine Memory.bytes_congr fun j hj => h _ ?_ ?_
  all_goals
    simp only [SignedMessage.siteId, SignedMessage.content, SignedMessage.size, signatureSize] at hj ⊢
    omega

/-- The message before the digests are written. -/
theorem stamped_unchanged (hsignature : signature.length = signatureSize) {a : Nat} (ha : SignedMessage.siteId.offset ≤ a) :
    stampSet mtNum i (mess.write 0 signature) a = mess a := by
  rw [stampSet_outside (.inr ha)]
  refine Memory.write_outside (.inr ?_)
  rw [hsignature]
  simp only [SignedMessage.siteId, signatureSize] at ha ⊢
  omega

theorem stamped_signed (hsignature : signature.length = signatureSize) :
    SignedMessage.sig.get (stampSet mtNum i (mess.write 0 signature)) 0 = signature := by
  have hwritten := @Memory.bytes_write mess 0 signatureSize signature 0 (by rw [hsignature, Nat.zero_add])
  rw [List.drop_zero, List.take_of_length_le hsignature.le] at hwritten
  refine (Memory.bytes_congr fun j hj => stampSet_outside (.inl ?_)).trans hwritten
  simp only [SignedMessage.sig, SignedMessage.mtNum, signatureSize] at hj ⊢
  omega

/-- **What becomes of the message at a leaf.** -/
theorem finishMessage_spec (hdt : ∀ p, (dt p).length = digestSize) (hhashed : Hashed (join C.makeDigest) e dt)
    (he : e ≤ 8) (hi : i < 2 ^ e) (hleaf : dt (2 ^ e + i) = C.makeDigest (covered mess 0))
    (hsignature : signature.length = signatureSize) :
    ∃ finished, finishMessage dt (2 ^ e) signature (i + 1) mess = some (finished, e) ∧
      Finished C dt (2 ^ e) signature (i + 1) mess finished := by
  have hpow : 2 ^ e ≤ 2 ^ 8 := Nat.pow_le_pow_right Nat.two_pos he
  have hnode : i + 1 + 2 ^ e - 1 = 2 ^ e + i := by omega
  have htop : (2 ^ e + i) / 2 ^ e = 1 := by
    rw [Nat.add_div_left _ (Nat.two_pow_pos e), Nat.div_eq_of_lt hi]
  obtain ⟨hlen, -⟩ := @covered_congr mess (stampSet (2 ^ e) (i + 1) (mess.write 0 signature))
    fun a ha _ => stamped_unchanged hsignature ha
  obtain ⟨hcount, hbefore, hdigests⟩ := @extractLoop_spec (stampSet (2 ^ e) (i + 1) (mess.write 0 signature)) dt
    (2 ^ e + i) e (2 ^ e + i) (SignedMessage.content 0 + SignedMessage.len.get mess 0) 0 hdt htop (le_refl _)
  have hextract : extractSet dt (2 ^ e) (i + 1) (mess.write 0 signature) =
      extractLoop dt (SignedMessage.content 0 + SignedMessage.len.get mess 0) (2 ^ e + i) (2 ^ e + i) 0
        (stampSet (2 ^ e) (i + 1) (mess.write 0 signature)) := by
    unfold extractSet
    simp only [hlen, hnode]
  simp only [Nat.zero_mul, Nat.add_zero] at hbefore hdigests
  rw [← hextract] at hcount hbefore hdigests
  generalize hresult : extractSet dt (2 ^ e) (i + 1) (mess.write 0 signature) = result at hcount hbefore hdigests
  have hheader : ∀ a < SignedMessage.size, result.1 a = stampSet (2 ^ e) (i + 1) (mess.write 0 signature) a :=
    fun a ha => hbefore a (by unfold SignedMessage.content; omega)
  have hunchanged : ∀ a, SignedMessage.siteId.offset ≤ a →
      a < SignedMessage.content 0 + SignedMessage.len.get mess 0 → result.1 a = mess a :=
    fun a ha hlt => (hbefore a hlt).trans (stamped_unchanged hsignature ha)
  have hindex : SignedMessage.mtIndex.get result.1 0 = i + 1 := by
    rw [Field.get_congr SignedMessage.size (by decide) fun a ha => hheader (0 + a) (by omega), stampSet_mtIndex]
    exact Nat.mod_eq_of_lt (by omega)
  have hnumber : SignedMessage.mtNum.get result.1 0 = 2 ^ e := by
    rw [Field.get_congr SignedMessage.size (by decide) fun a ha => hheader (0 + a) (by omega), stampSet_mtNum]
    exact Nat.mod_eq_of_lt (by omega)
  have hsigned : SignedMessage.sig.get result.1 0 = signature := by
    rw [Blob.get_congr SignedMessage.size (by decide) fun a ha => hheader (0 + a) (by omega), stamped_signed hsignature]
  refine ⟨result.1, ?_, hindex, hnumber, hsigned, hunchanged, ?_⟩
  · have hle : SignedMessage.mtIndex.get result.1 0 ≤ SignedMessage.mtNum.get result.1 0 := by
      rw [hindex, hnumber]
      exact hi
    have hpair : result = (result.1, e) := Prod.ext rfl (by rw [hcount, Nat.zero_add])
    unfold finishMessage
    rw [hresult]
    simp only [if_pos hle]
    exact congrArg some hpair
  · -- From the position of the leaf, with the siblings of the tree, the way goes to its root.
    obtain ⟨hlen', hcovered⟩ := covered_congr hunchanged
    have hyields := @yields_rootOf result.1 e C 0 (by rw [hindex, hnumber, hnode, htop])
    rw [hindex, hnumber, hnode, hcovered, hlen', hdigests, ← hleaf] at hyields
    rwa [ascend_path hhashed (by rw [Nat.pow_succ]; omega) htop] at hyields

/-- **What becomes of the messages** from the one at leaf `i` on. -/
theorem finishMessages_spec (hdt : ∀ p, (dt p).length = digestSize) (hhashed : Hashed (join C.makeDigest) e dt)
    (he : e ≤ 8) (hroom : i + list.length ≤ 2 ^ e)
    (hleaf : ∀ j (hj : j < list.length), dt (2 ^ e + (i + j)) = C.makeDigest (covered list[j] 0))
    (hsignature : signature.length = signatureSize) :
    ∃ finished, finishMessages dt (2 ^ e) signature (i + 1) list = some finished ∧ finished.length = list.length ∧
      ∀ j (hj : j < list.length) (hj' : j < finished.length),
        finished[j].2 = e ∧ Finished C dt (2 ^ e) signature (i + j + 1) list[j] finished[j].1 := by
  induction list generalizing i with
  | nil => exact ⟨[], rfl, rfl, fun j hj => absurd hj (Nat.not_lt_zero j)⟩
  | cons mess list ih =>
    rw [List.length_cons] at hroom
    have hown : dt (2 ^ e + i) = C.makeDigest (covered mess 0) := hleaf 0 (Nat.succ_pos _)
    obtain ⟨first, hfirst, hfinished⟩ := finishMessage_spec hdt hhashed he (by omega) hown hsignature
    have hothers : ∀ j (hj : j < list.length), dt (2 ^ e + (i + 1 + j)) = C.makeDigest (covered list[j] 0) := by
      intro j hj
      rw [Nat.add_assoc i, Nat.add_comm 1]
      exact hleaf (j + 1) (Nat.succ_lt_succ hj)
    obtain ⟨rest, hrest, hlength, hlater⟩ := ih (by omega) hothers
    refine ⟨(first, e) :: rest, ?_, by rw [List.length_cons, List.length_cons, hlength], fun j hj hj' => ?_⟩
    · rw [finishMessages, hfirst, hrest]
      rfl
    · cases j with
      | zero => exact ⟨rfl, hfinished⟩
      | succ j =>
        have hnext := hlater j (Nat.lt_of_succ_lt_succ hj) (Nat.lt_of_succ_lt_succ hj')
        rw [Nat.add_assoc i, Nat.add_comm 1] at hnext
        exact hnext

end Finished

/-! ## A batch and its verification -/

/-- The messages of a batch are finished, each with as many digests as `MT_Digests_` says for the batch, and
each is verified if the signature is that of its sender on the root. -/
structure RoundTrip (C : Crypto) (dt : Nat → Bytes) (mtNum : Nat) (signature : Bytes) (list : List Memory)
    (finished : List (Memory × Nat)) : Prop where
  length : finished.length = list.length
  digests : ∀ j (hj : j < finished.length), some finished[j].2 = mtDigests list.length
  leaves : ∀ j (hj : j < list.length) (hj' : j < finished.length),
    Finished C dt mtNum signature (j + 1) list[j] finished[j].1
  verified : ∀ j (hj : j < list.length) (hj' : j < finished.length),
    C.verifyServer (SignedMessage.machineId.get list[j] 0) (dt 1) signature = true →
      Yields (mtVerify C 0) finished[j].1 true

/-- The batch is signed: the tree is built, the messages are finished, and their digests fit into the room
for them. -/
def BatchSigned (C : Crypto) (signature : Bytes) (list : List Memory) : Prop :=
  ∃ mtNum dt finished, mtSetNum list.length = some mtNum ∧ makeDigestFromList C.makeDigest list = some dt ∧
    finishMessages dt mtNum signature 1 list = some finished ∧ RoundTrip C dt mtNum signature list finished ∧
      digestsOf list.length ≤ maxMerkleDigests

/-- **Batches are verified.** The tree over up to 256 messages is one from which each of them is verified.
`MT_Make_Digest_From_List` builds it for those whose digests fit, the batches of up to 64 messages. -/
theorem batch_roundTrip {C : Crypto} {signature : Bytes} {list : List Memory}
    (hdigest : ∀ l, (C.makeDigest l).length = digestSize) (hsignature : signature.length = signatureSize)
    (hpos : 0 < list.length) (hmost : list.length ≤ 256) :
    (∃ mtNum finished, mtSetNum list.length = some mtNum ∧
      finishMessages (batchTree C.makeDigest mtNum list) mtNum signature 1 list = some finished ∧
        RoundTrip C (batchTree C.makeDigest mtNum list) mtNum signature list finished) ∧
      (BatchSigned C signature list ↔ list.length ≤ 64) := by
  obtain ⟨e, he⟩ := exists_mtDigests hmost
  have hset : mtSetNum list.length = some (2 ^ e) := by rw [mtSetNum_eq hpos, he, Option.map_some]
  have hlevels : e ≤ 8 := le_eight_of_mtDigests he
  obtain ⟨finished, hfinished, hlength, hleaves⟩ := @finishMessages_spec (batchTree C.makeDigest (2 ^ e) list) e C
    signature 0 list (length_batchTree hdigest _ _) (batchTree_hashed _ _ _) hlevels
    (by rw [Nat.zero_add]; exact le_two_pow_of_mtDigests he)
    (fun j hj => by rw [Nat.zero_add]; exact batchTree_leaf hj) hsignature
  have hround : RoundTrip C (batchTree C.makeDigest (2 ^ e) list) (2 ^ e) signature list finished :=
    { length := hlength
      digests := fun j hj => by rw [(hleaves j (hlength ▸ hj) hj).1, he]
      leaves := fun j hj hj' => by
        have hleaf := (hleaves j hj hj').2
        rwa [Nat.zero_add] at hleaf
      verified := fun j hj hj' => (hleaves j hj hj').2.verified }
  refine ⟨⟨2 ^ e, finished, hset, hfinished, hround⟩, ?_⟩
  have hroom := le_maxMerkleDigests_iff he
  have hdigests : digestsOf list.length = e := by
    unfold digestsOf
    rw [he, Option.getD_some]
  constructor
  · rintro ⟨-, -, -, -, -, -, -, hfits⟩
    rwa [hdigests, hroom] at hfits
  · intro hle
    have hfits : e ≤ maxMerkleDigests := hroom.mpr hle
    have hthreshold : 2 ^ e ≤ 2 <<< (maxMerkleDigests - 1) :=
      (Nat.pow_le_pow_right Nat.two_pos hfits).trans (by decide)
    refine ⟨2 ^ e, batchTree C.makeDigest (2 ^ e) list, finished, hset, ?_, hfinished, hround, by rwa [hdigests]⟩
    unfold makeDigestFromList
    rw [hset]
    exact if_pos hthreshold

theorem length_plainDigest (l : Bytes) : (plainCrypto.makeDigest l).length = digestSize := by
  show ((l ++ List.replicate digestSize 0).take digestSize).length = digestSize
  rw [List.length_take, List.length_append, List.length_replicate]
  omega

/-- Three Prepares of server 1 that wait for a signature, and the signature on their root. -/
def waitingMessages : List Memory := List.replicate 3 (withMessage (fun _ => 0) 0 1 .prepare (List.replicate 28 0))

def waitingSignature : Bytes :=
  1 :: (batchTree plainCrypto.makeDigest 4 waitingMessages 1 ++ List.replicate (signatureSize - 1 - digestSize) 0)

/-- They are signed, and the signature is that of server 1. -/
theorem waitingMessages_signed :
    BatchSigned plainCrypto waitingSignature waitingMessages ∧
      plainCrypto.verifyServer 1 (batchTree plainCrypto.makeDigest 4 waitingMessages 1) waitingSignature = true := by
  have hsignature : waitingSignature.length = signatureSize := by
    rw [waitingSignature, List.length_cons, List.length_append, length_batchTree length_plainDigest, List.length_replicate]
    rfl
  have hlength : waitingMessages.length = 3 := List.length_replicate
  refine ⟨(batch_roundTrip length_plainDigest hsignature (by rw [hlength]; decide) (by rw [hlength]; decide)).2.mpr ?_, ?_⟩
  · rw [hlength]
    decide
  · decide +kernel

/-- The digests behind 65 messages do not fit. -/
theorem largeBatch_unsigned :
    ¬ ∀ (C : Crypto) (signature : Bytes) (list : List Memory), (∀ l, (C.makeDigest l).length = digestSize) →
      signature.length = signatureSize → 0 < list.length → list.length ≤ 256 → BatchSigned C signature list := by
  intro hall
  have hlength : (List.replicate 65 (fun _ => 0 : Memory)).length = 65 := List.length_replicate
  obtain ⟨-, -, -, -, -, -, -, hfits⟩ := hall plainCrypto (List.replicate signatureSize 0) (List.replicate 65 fun _ => 0)
    length_plainDigest List.length_replicate (by rw [hlength]; decide) (by rw [hlength]; decide)
  rw [hlength] at hfits
  exact absurd hfits (by decide)

end Spire.Merkle
