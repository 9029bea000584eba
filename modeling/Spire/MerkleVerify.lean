import Spire.MerkleBatch

/-!
# Verifying a message of a batch

`mt_num` and `mt_index` come from the sender, and the signature does not cover them.
`MT_Make_Digest_From_Set` starts at the position `mt_index + mt_num - 1` of an array of 512 digests. The
validator has bounded both, from above: `verification_inside_iff` says that the array is left at its lower
end, for a message that claims to be none of none or none of one.

That a message leads to the root of a batch means that it is one of the batch, at whatever depth and
position it claims to be (`batch_binding`). Leaves and inner nodes are digested alike, and what keeps them
apart is the length of what is digested.
-/

namespace Spire.Merkle

open Lib Lib.Reader Lib.HashTree Wire Validate

variable {C : Crypto} {makeDigest : Bytes → Bytes} {m : Memory} {mess n d fuel digests : Nat}

/-! ## The positions of the array -/

/-- `verify_dt` by position, which positions have been written and read, and how many of the digests behind
the message have been used. -/
structure Verification where
  tree : Int → Bytes
  written : List Int
  read : List Int
  consumed : Nat

namespace Verification

/-- `MT_Clear_Verify`. -/
def clear : Verification := { tree := fun _ => List.replicate digestSize 0, written := [], read := [], consumed := 0 }

def put (v : Verification) (position : Int) (digest : Bytes) : Verification :=
  { v with tree := Function.update v.tree position digest, written := position :: v.written }

/-- The next of the digests becomes the sibling. -/
def take (v : Verification) (m : Memory) (digests sib : Nat) : Verification :=
  { v.put sib (m.bytes (digests + v.consumed * digestSize) digestSize) with consumed := v.consumed + 1 }

/-- The digest of the children becomes the parent. -/
def digest (v : Verification) (makeDigest : Bytes → Bytes) (parent : Nat) : Verification :=
  { v.put parent (makeDigest (v.tree (2 * parent : Nat) ++ v.tree (2 * parent + 1 : Nat))) with
    read := (2 * parent : Nat) :: (2 * parent + 1 : Nat) :: v.read }

end Verification

/-- The loop of `MT_Make_Digest_From_Set`, from node `n`. -/
def setLoop (makeDigest : Bytes → Bytes) (m : Memory) (digests : Nat) : Nat → Nat → Verification → Verification
  | 0, _, v => v
  | fuel + 1, n, v =>
    if 1 < n then
      let v := if 1 < mtS n then v.take m digests (mtS n) else v
      setLoop makeDigest m digests fuel (n / 2) (v.digest makeDigest (n / 2))
    else v

/-- `MT_Make_Digest_From_Set`. The position of the message is computed without a sign and kept with one. -/
def fromSet (makeDigest : Bytes → Bytes) (m : Memory) (messNum digests : Nat) (messDigest : Bytes) (mtNum : Nat) :
    Verification :=
  let n : Int := messNum + mtNum - 1
  setLoop makeDigest m digests n.toNat n.toNat (Verification.clear.put n messDigest)

/-- What `MT_Verify` does for the message at `mess`. -/
def verification (C : Crypto) (m : Memory) (mess : Nat) : Verification :=
  fromSet C.makeDigest m (SignedMessage.mtIndex.get m mess)
    (SignedMessage.content mess + SignedMessage.len.get m mess) (C.makeDigest (covered m mess))
    (SignedMessage.mtNum.get m mess)

/-- What a position of the array may be. -/
def InArray (p : Int) : Prop := 1 ≤ p ∧ p ≤ 511

/-- What the loop does from a node that is `d` levels below the root. -/
structure Climbed (makeDigest : Bytes → Bytes) (m : Memory) (digests n d : Nat) (v v' : Verification) : Prop where
  written : ∀ p ∈ v'.written, p ∈ v.written ∨ InArray p
  read : ∀ p ∈ v'.read, p ∈ v.read ∨ InArray p
  consumed : v'.consumed = v.consumed + d
  reached : (n : Int) ∈ v.written → (1 : Int) ∈ v'.written
  root : v'.tree 1 = ascend (join makeDigest) n (v.tree n) (attached m (digests + v.consumed * digestSize) d)

theorem mtS_le (hn : 1 < n) (hmost : n ≤ 511) : InArray (mtS n) := by
  unfold mtS InArray
  split
  all_goals omega

/-- The digest of the parent is that of the node and the digest that has been taken for its sibling. -/
theorem digest_take_tree (v : Verification) (hn : 1 < n) :
    ((v.take m digests (mtS n)).digest makeDigest (n / 2)).tree (n / 2 : Nat) =
      join makeDigest (pair n (v.tree n) (m.bytes (digests + v.consumed * digestSize) digestSize)).1
        (pair n (v.tree n) (m.bytes (digests + v.consumed * digestSize) digestSize)).2 := by
  have hne : (n : Int) ≠ (mtS n : Int) := fun heq => sibling_ne (by omega) (Int.ofNat_inj.mp heq).symm
  have hself : (v.take m digests (mtS n)).tree n = v.tree n := Function.update_of_ne hne _ _
  have hsibling : (v.take m digests (mtS n)).tree (mtS n) = m.bytes (digests + v.consumed * digestSize) digestSize :=
    Function.update_self _ _ _
  have hchildren := pair_sibling (fun i : Nat => (v.take m digests (mtS n)).tree i) n
  rw [hself, show sibling n = mtS n from rfl, hsibling] at hchildren
  rw [hchildren]
  exact Function.update_self _ _ _

/-- **What the loop does**, from a node within the array. -/
theorem setLoop_climbs {v : Verification} (htop : n / 2 ^ d = 1) (hfuel : n ≤ fuel) (hmost : n ≤ 511) :
    Climbed makeDigest m digests n d v (setLoop makeDigest m digests fuel n v) := by
  induction d generalizing n fuel v with
  | zero =>
    rw [Nat.pow_zero, Nat.div_one] at htop
    subst htop
    have hstop : setLoop makeDigest m digests fuel 1 v = v := by
      cases fuel with
      | zero => rfl
      | succ fuel => rfl
    rw [hstop]
    exact ⟨fun p hp => .inl hp, fun p hp => .inl hp, rfl, id, rfl⟩
  | succ d ih =>
    obtain ⟨hup, hpos⟩ := top_half htop
    have hn := one_lt_of_top htop
    cases fuel with
    | zero => omega
    | succ fuel =>
      have hstep : setLoop makeDigest m digests (fuel + 1) n v =
          setLoop makeDigest m digests fuel (n / 2) ((v.take m digests (mtS n)).digest makeDigest (n / 2)) := by
        rw [setLoop, if_pos hn, if_pos (show 1 < mtS n from one_lt_sibling hn)]
      have hrest := @ih (n / 2) fuel ((v.take m digests (mtS n)).digest makeDigest (n / 2)) hup (by omega) (by omega)
      have hparent : InArray (n / 2 : Nat) := ⟨by omega, by omega⟩
      have hchildren : InArray (2 * (n / 2) : Nat) ∧ InArray (2 * (n / 2) + 1 : Nat) :=
        ⟨⟨by omega, by omega⟩, ⟨by omega, by omega⟩⟩
      rw [hstep]
      refine
        { written := fun p hp => ?_, read := fun p hp => ?_, consumed := by rw [hrest.consumed]; exact Nat.succ_add_eq_add_succ _ _
          reached := fun _ => hrest.reached List.mem_cons_self, root := ?_ }
      · rcases hrest.written p hp with hwritten | hin
        · rcases List.mem_cons.mp hwritten with rfl | hwritten
          · exact .inr hparent
          · exact (List.mem_cons.mp hwritten).elim (fun heq => .inr (heq ▸ mtS_le hn hmost)) .inl
        · exact .inr hin
      · rcases hrest.read p hp with hread | hin
        · rcases List.mem_cons.mp hread with rfl | hread
          · exact .inr hchildren.1
          · exact (List.mem_cons.mp hread).elim (fun heq => .inr (heq ▸ hchildren.2)) .inl
        · exact .inr hin
      · have hnext : digests + (v.consumed + 1) * digestSize = digests + v.consumed * digestSize + digestSize := by
          rw [Nat.succ_mul, Nat.add_assoc]
        rw [hrest.root, digest_take_tree v hn, attached, ascend, ← hnext]
        rfl

/-- The message at `mess`, in `n` bytes, has the number, the index and the length that
`VAL_Validate_Signed_Message` admits, before any signature is looked at. -/
structure TreeAdmitted (m : Memory) (mess n : Nat) : Prop where
  number : SignedMessage.mtNum.get m mess ≤ 256
  index : SignedMessage.mtIndex.get m mess ≤ SignedMessage.mtNum.get m mess
  size : n = SignedMessage.len.get m mess + SignedMessage.size +
    digestsOf (SignedMessage.mtNum.get m mess) * digestSize
  fits : n ≤ maxPacketSize

/-- The verification of the message stays in its arrays and comes to a root: it writes and reads positions of
the array, uses no more digests than there are, and what it leaves at the root is computed from the digest
of the message and those digests. -/
structure VerifiesInside (C : Crypto) (m : Memory) (mess : Nat) : Prop where
  written : ∀ p ∈ (verification C m mess).written, InArray p
  read : ∀ p ∈ (verification C m mess).read, InArray p
  consumed : (verification C m mess).consumed ≤ digestsOf (SignedMessage.mtNum.get m mess)
  reached : (1 : Int) ∈ (verification C m mess).written
  root : (verification C m mess).tree 1 = ascend (join C.makeDigest)
    (SignedMessage.mtIndex.get m mess + SignedMessage.mtNum.get m mess - 1) (C.makeDigest (covered m mess))
    (attached m (SignedMessage.content mess + SignedMessage.len.get m mess) (verification C m mess).consumed)

/-- The verification, from the position of the message. -/
theorem verification_eq {i : Nat} (hi : SignedMessage.mtIndex.get m mess + SignedMessage.mtNum.get m mess = i + 1) :
    verification C m mess = setLoop C.makeDigest m (SignedMessage.content mess + SignedMessage.len.get m mess) i i
      (Verification.clear.put i (C.makeDigest (covered m mess))) := by
  have hposition : (SignedMessage.mtIndex.get m mess : Int) + SignedMessage.mtNum.get m mess - 1 = i := by omega
  unfold verification fromSet
  simp only [hposition, Int.toNat_natCast]

/-- **How far the verification goes**, from a position that is one of the array. -/
theorem verification_climbs (C : Crypto) {i : Nat} (hadmitted : TreeAdmitted m mess n)
    (hi : SignedMessage.mtIndex.get m mess + SignedMessage.mtNum.get m mess = i + 1) (hpos : 1 ≤ i) :
    ∃ d, i / 2 ^ d = 1 ∧ d ≤ digestsOf (SignedMessage.mtNum.get m mess) ∧ InArray i ∧
      Climbed C.makeDigest m (SignedMessage.content mess + SignedMessage.len.get m mess) i d
        (Verification.clear.put i (C.makeDigest (covered m mess))) (verification C m mess) := by
  have hnumber := hadmitted.number
  have hindex := hadmitted.index
  obtain ⟨d, htop⟩ := exists_top hpos
  obtain ⟨e, he⟩ := exists_mtDigests hnumber
  have hlevels : d ≤ e := by
    refine le_of_top htop ?_
    have hleaves := le_two_pow_of_mtDigests he
    rw [Nat.pow_succ]
    omega
  refine ⟨d, htop, ?_, ⟨by omega, by omega⟩, ?_⟩
  · unfold digestsOf
    rwa [he, Option.getD_some]
  · rw [verification_eq hi]
    exact setLoop_climbs htop (le_refl _) (by omega)

/-- A message that claims to be none of none or none of one leaves the root clear. -/
theorem rootOf_clear (C : Crypto) (hfew : SignedMessage.mtIndex.get m mess + SignedMessage.mtNum.get m mess ≤ 1) :
    Yields (rootOf C mess) m (clearTree 1) := by
  simp only [rootOf, yields_bind, Field.yields_read, yields_bytes, exists_eq_left, makeDigestFromSet]
  rcases Nat.le_one_iff_eq_zero_or_eq_one.mp hfew with hnone | hone
  · rw [if_pos hnone]
    exact yields_pure.mpr rfl
  · rw [hone, if_neg Nat.one_ne_zero]
    exact yields_bind.mpr ⟨_, yields_pure.mpr rfl, yields_pure.mpr rfl⟩

/-- What the verification leaves at the root is what `MT_Verify` takes for the root. -/
theorem verification_root (C : Crypto) (hadmitted : TreeAdmitted m mess n) :
    Yields (rootOf C mess) m ((verification C m mess).tree 1) := by
  cases hi : SignedMessage.mtIndex.get m mess + SignedMessage.mtNum.get m mess with
  | zero =>
    have hposition : (SignedMessage.mtIndex.get m mess : Int) + SignedMessage.mtNum.get m mess - 1 = -1 := by omega
    have hclear : (verification C m mess).tree 1 = clearTree 1 := by
      unfold verification fromSet
      simp only [hposition]
      rfl
    rw [hclear]
    exact rootOf_clear C (by omega)
  | succ i =>
    cases i with
    | zero =>
      have hclear : (verification C m mess).tree 1 = clearTree 1 := by
        rw [verification_eq hi]
        rfl
      rw [hclear]
      exact rootOf_clear C (by omega)
    | succ i =>
      obtain ⟨d, htop, -, -, hclimbed⟩ := verification_climbs C hadmitted hi (Nat.succ_pos i)
      have hposition : SignedMessage.mtIndex.get m mess + SignedMessage.mtNum.get m mess - 1 = i + 1 := by omega
      have hroot := hclimbed.root
      rw [show (Verification.clear.put (i + 1 : Nat) (C.makeDigest (covered m mess))).tree (i + 1 : Nat) =
        C.makeDigest (covered m mess) from Function.update_self _ _ _] at hroot
      rw [hroot, ← hposition]
      exact yields_rootOf (by rw [hposition, htop])

/-- **The verification stays in its arrays** unless the message claims to be none of none or none of one. -/
theorem verification_inside_iff (hadmitted : TreeAdmitted m mess n) :
    VerifiesInside C m mess ↔ 2 ≤ SignedMessage.mtNum.get m mess + SignedMessage.mtIndex.get m mess := by
  constructor
  · intro h
    by_contra hfew
    -- The digest of the message is put at position -1 or 0.
    have hstart : ((SignedMessage.mtIndex.get m mess : Int) + SignedMessage.mtNum.get m mess - 1) ∈
        (verification C m mess).written := by
      have hnone : ((SignedMessage.mtIndex.get m mess : Int) + SignedMessage.mtNum.get m mess - 1).toNat = 0 := by omega
      unfold verification fromSet
      simp only [hnone]
      exact List.mem_cons_self
    have hin := (h.written _ hstart).1
    omega
  · intro hmany
    obtain ⟨i, hi⟩ := Nat.exists_eq_succ_of_ne_zero
      (show SignedMessage.mtIndex.get m mess + SignedMessage.mtNum.get m mess ≠ 0 by omega)
    obtain ⟨d, htop, hlevels, hstart, hclimbed⟩ := verification_climbs C hadmitted hi (by omega)
    have hconsumed : (verification C m mess).consumed = d := hclimbed.consumed.trans (Nat.zero_add d)
    have hposition : SignedMessage.mtIndex.get m mess + SignedMessage.mtNum.get m mess - 1 = i := by omega
    refine
      { written := fun p hp => (hclimbed.written p hp).elim (fun h => List.mem_singleton.mp h ▸ hstart) id
        read := fun p hp => (hclimbed.read p hp).resolve_left List.not_mem_nil
        consumed := hconsumed ▸ hlevels, reached := hclimbed.reached List.mem_cons_self, root := ?_ }
    have hroot := hclimbed.root
    rw [show (Verification.clear.put i (C.makeDigest (covered m mess))).tree i = C.makeDigest (covered m mess) from
      Function.update_self _ _ _] at hroot
    rw [hroot, hconsumed, hposition]
    rfl

/-- A Prepare that is alone in its batch. -/
theorem loneMessage_inside :
    TreeAdmitted (withMessage (fun _ => 0) 0 1 .prepare (List.replicate 28 0)) 0 184 ∧
      VerifiesInside plainCrypto (withMessage (fun _ => 0) 0 1 .prepare (List.replicate 28 0)) 0 := by
  have hadmitted : TreeAdmitted (withMessage (fun _ => 0) 0 1 .prepare (List.replicate 28 0)) 0 184 :=
    ⟨by decide +kernel, by decide +kernel, by decide +kernel, by decide⟩
  exact ⟨hadmitted, (verification_inside_iff hadmitted).mpr (by decide +kernel)⟩

/-- A Prepare that claims to be none of none. -/
def noneOfNone : Memory :=
  (withMessage (fun _ => 0) 0 1 .prepare (List.replicate 28 0)).write SignedMessage.mtNum.offset (leBytes 4 0)

/-- Its digest is put in front of the array. -/
theorem noneOfNone_outside :
    ¬ ∀ (C : Crypto) (m : Memory) (mess n : Nat), TreeAdmitted m mess n → VerifiesInside C m mess := by
  intro hall
  have hadmitted : TreeAdmitted noneOfNone 0 184 := ⟨by decide +kernel, by decide +kernel, by decide +kernel, by decide⟩
  have hnumber : SignedMessage.mtNum.get noneOfNone 0 = 0 := by decide +kernel
  have hindex : SignedMessage.mtIndex.get noneOfNone 0 = 0 := by decide +kernel
  have hstart : (-1 : Int) ∈ (verification plainCrypto noneOfNone 0).written := by
    unfold verification fromSet
    rw [hnumber, hindex]
    exact List.mem_cons_self
  exact absurd ((hall plainCrypto noneOfNone 0 184 hadmitted).written _ hstart).1 (by decide)

/-! ## What a signed root stands for -/

/-- The strings that are digested for the batch, and for the message at `mess` when it is verified. -/
inductive Digested (C : Crypto) (list : List Memory) (dt : Nat → Bytes) (m : Memory) (mess : Nat) : Bytes → Prop
  | member {member : Memory} : member ∈ list → Digested C list dt m mess (covered member 0)
  | inner {mtNum i : Nat} : mtSetNum list.length = some mtNum → 1 ≤ i → i < mtNum →
      Digested C list dt m mess (dt (2 * i) ++ dt (2 * i + 1))
  | message : Digested C list dt m mess (covered m mess)
  | way {d : Nat} {p : Bytes × Bytes} :
      (SignedMessage.mtIndex.get m mess + SignedMessage.mtNum.get m mess - 1) / 2 ^ d = 1 →
        p ∈ digested (join C.makeDigest) (SignedMessage.mtIndex.get m mess + SignedMessage.mtNum.get m mess - 1)
          (C.makeDigest (covered m mess)) (attached m (SignedMessage.content mess + SignedMessage.len.get m mess) d) →
          Digested C list dt m mess (p.1 ++ p.2)

/-- Different strings have different digests, and none is the padding. -/
structure Separating (C : Crypto) (strings : Bytes → Prop) : Prop where
  injective : ∀ l l', strings l → strings l' → C.makeDigest l = C.makeDigest l' → l = l'
  nonzero : ∀ l, strings l → C.makeDigest l ≠ List.replicate digestSize 0

theorem length_of_mem_attached {a : Nat} {s : Bytes} (h : s ∈ attached m a d) : s.length = digestSize := by
  induction d generalizing a with
  | zero => exact absurd h List.not_mem_nil
  | succ d ih =>
    rcases List.mem_cons.mp h with rfl | h
    · exact Memory.length_bytes _ _ _
    · exact ih h

/-- Digests are digested in pairs. -/
theorem length_of_mem_digested (hdigest : ∀ l, (makeDigest l).length = digestSize) {x : Bytes} {ss : List Bytes}
    (hx : x.length = digestSize) (hss : ∀ s ∈ ss, s.length = digestSize) {p : Bytes × Bytes}
    (hp : p ∈ digested (join makeDigest) n x ss) : p.1.length = digestSize ∧ p.2.length = digestSize := by
  induction ss generalizing n x with
  | nil => exact absurd hp List.not_mem_nil
  | cons s ss ih =>
    have hs := hss s List.mem_cons_self
    rcases List.mem_cons.mp hp with rfl | hp
    · unfold pair
      split
      · exact ⟨hx, hs⟩
      · exact ⟨hs, hx⟩
    · exact ih (hdigest _) (fun s' hs' => hss s' (List.mem_cons_of_mem _ hs')) hp

/-- The number of leaves is a power of two, and one message is its own root. -/
theorem mtSetNum_two_pow {k : Nat} (h : mtSetNum n = some k) : ∃ e, k = 2 ^ e ∧ n ≤ 2 ^ e ∧ (e = 0 → n = 1) := by
  unfold mtSetNum at h
  split_ifs at h
  all_goals cases h
  · exact ⟨0, rfl, by omega, fun _ => by assumption⟩
  · exact ⟨1, rfl, by omega, by omega⟩
  · exact ⟨2, rfl, by omega, by omega⟩
  · exact ⟨3, rfl, by omega, by omega⟩
  · exact ⟨4, rfl, by omega, by omega⟩
  · exact ⟨5, rfl, by omega, by omega⟩
  · exact ⟨6, rfl, by omega, by omega⟩
  · exact ⟨7, rfl, by omega, by omega⟩
  · exact ⟨8, rfl, by omega, by omega⟩

theorem batchTree_of_makeDigestFromList {list : List Memory} {dt : Nat → Bytes}
    (h : makeDigestFromList makeDigest list = some dt) :
    ∃ e, mtSetNum list.length = some (2 ^ e) ∧ (e = 0 → list.length = 1) ∧ dt = batchTree makeDigest (2 ^ e) list := by
  unfold makeDigestFromList at h
  obtain ⟨k, hset, hbuilt⟩ := Option.bind_eq_some_iff.mp h
  obtain ⟨e, rfl, -, hone⟩ := mtSetNum_two_pow hset
  split at hbuilt
  · exact ⟨e, hset, hone, (Option.some.inj hbuilt).symm⟩
  · cases hbuilt

section Binding

variable {list : List Memory} {dt : Nat → Bytes} {e : Nat}

/-- A leaf is the digest of a message of the batch or the padding. -/
theorem leaf_cases (hdt : dt = batchTree C.makeDigest (2 ^ e) list) {i : Nat} (hi : 2 ^ e ≤ i) :
    (∃ member ∈ list, dt i = C.makeDigest (covered member 0)) ∨ dt i = List.replicate digestSize 0 := by
  obtain ⟨j, rfl⟩ := Nat.exists_eq_add_of_le hi
  subst hdt
  rcases Nat.lt_or_ge j list.length with hlt | hge
  · exact .inl ⟨list[j], List.getElem_mem hlt, batchTree_leaf hlt⟩
  · exact .inr (batchTree_padding hge)

/-- The root of a batch is the digest of a string. -/
theorem root_nonzero (hset : mtSetNum list.length = some (2 ^ e)) (hone : e = 0 → list.length = 1)
    (hdt : dt = batchTree C.makeDigest (2 ^ e) list) (hseparating : Separating C (Digested C list dt m mess)) :
    dt 1 ≠ List.replicate digestSize 0 := by
  rcases Nat.eq_zero_or_pos e with rfl | hpos
  · have hlt : 0 < list.length := by rw [hone rfl]; decide
    have hroot : dt 1 = C.makeDigest (covered list[0] 0) := hdt ▸ batchTree_leaf hlt
    rw [hroot]
    exact hseparating.nonzero _ (.member (List.getElem_mem hlt))
  · have hinner : 1 < 2 ^ e := Nat.one_lt_two_pow (by omega)
    have hroot : dt 1 = C.makeDigest (dt (2 * 1) ++ dt (2 * 1 + 1)) := by
      subst hdt
      exact batchTree_hashed C.makeDigest e list 1 (le_refl 1) hinner
    rw [hroot]
    exact hseparating.nonzero _ (.inner hset (le_refl 1) hinner)

/-- **A signed root binds its batch.** A message that leads to the root of a batch, whatever number and index
it claims, is covered as a message of the batch is, unless what is covered of it or of a message of the
batch is as long as two digests. -/
theorem batch_binding (hdigest : ∀ l, (C.makeDigest l).length = digestSize)
    (hbatch : makeDigestFromList C.makeDigest list = some dt)
    (hseparating : Separating C (Digested C list dt m mess)) (hroot : Yields (rootOf C mess) m (dt 1)) :
    (∃ member ∈ list, covered m mess = covered member 0) ∨ (covered m mess).length = 2 * digestSize ∨
      ∃ member ∈ list, (covered member 0).length = 2 * digestSize := by
  obtain ⟨e, hset, hone, hdt⟩ := batchTree_of_makeDigestFromList hbatch
  have hhashed : Hashed (join C.makeDigest) e dt := hdt ▸ batchTree_hashed _ _ _
  have hlength : ∀ i, (dt i).length = digestSize := hdt ▸ length_batchTree hdigest _ _
  have hnode : 1 ≤ SignedMessage.mtIndex.get m mess + SignedMessage.mtNum.get m mess - 1 := by
    by_contra hfew
    exact root_nonzero hset hone hdt hseparating (hroot.unique (rootOf_clear C (by omega)))
  obtain ⟨d, htop⟩ := exists_top hnode
  have hascend := (yields_rootOf htop).unique hroot
  have hpairs : ∀ p ∈ digested (join C.makeDigest)
      (SignedMessage.mtIndex.get m mess + SignedMessage.mtNum.get m mess - 1) (C.makeDigest (covered m mess))
      (attached m (SignedMessage.content mess + SignedMessage.len.get m mess) d),
      p.1.length = digestSize ∧ p.2.length = digestSize :=
    fun p hp => length_of_mem_digested hdigest (hdigest _) (fun s hs => length_of_mem_attached hs) hp
  have hbinds := ascend_binds hhashed (fun p hp i hpos hlt heq => ?_)
    (by rw [length_attached, htop]) hascend
  · rcases hbinds with ⟨hlt, hvalue⟩ | ⟨p, hp, i, hle, -, hvalue⟩
    · rcases Nat.lt_or_ge (SignedMessage.mtIndex.get m mess + SignedMessage.mtNum.get m mess - 1) (2 ^ e) with hinner | hleaf
      · -- The message stands for an inner node.
        rw [hhashed _ hnode hinner] at hvalue
        have hcovered := hseparating.injective _ _ .message (.inner hset hnode hinner) hvalue
        refine .inr (.inl ?_)
        rw [hcovered, List.length_append, hlength, hlength, Nat.two_mul]
      · rcases leaf_cases hdt hleaf with ⟨member, hmember, heq⟩ | hzero
        · exact .inl ⟨member, hmember, hseparating.injective _ _ .message (.member hmember) (hvalue.trans heq)⟩
        · exact absurd (hvalue.trans hzero) (hseparating.nonzero _ .message)
    · -- A pair on its way stands for a leaf.
      rcases leaf_cases hdt hle with ⟨member, hmember, heq⟩ | hzero
      · have hcovered := hseparating.injective _ _ (.way htop hp) (.member hmember) (hvalue.trans heq)
        refine .inr (.inr ⟨member, hmember, ?_⟩)
        rw [← hcovered, List.length_append, (hpairs p hp).1, (hpairs p hp).2, Nat.two_mul]
      · exact absurd (hvalue.trans hzero) (hseparating.nonzero _ (.way htop hp))
  · have hstrings := hseparating.injective _ _ (.way htop hp) (.inner hset hpos hlt) heq
    obtain ⟨hleft, hright⟩ := List.append_inj hstrings ((hpairs p hp).1.trans (hlength _).symm)
    exact Prod.ext hleft hright

end Binding

/-- Digests that begin with the length of what they cover. -/
def lengthCrypto : Crypto :=
  { plainCrypto with
    makeDigest l := (UInt8.ofNat l.length :: (l ++ List.replicate digestSize 0)).take digestSize }

/-- A Prepare and a Commit of server 1 that wait for a signature. -/
def pendingPrepare : Memory := withMessage (fun _ => 0) 0 1 .prepare (List.replicate 28 0)

def pendingCommit : Memory := withMessage (fun _ => 0) 0 1 .commit (List.replicate 29 0)

def pairTree : Nat → Bytes := batchTree lengthCrypto.makeDigest 2 [pendingPrepare, pendingCommit]

/-- The Prepare, with what leads to the root. -/
def sentPrepare : Memory := (extractSet pairTree 2 1 pendingPrepare).1

theorem pair_strings {l : Bytes} (h : Digested lengthCrypto [pendingPrepare, pendingCommit] pairTree sentPrepare 0 l) :
    l = covered pendingPrepare 0 ∨ l = covered pendingCommit 0 ∨ l = pairTree 2 ++ pairTree 3 := by
  cases h with
  | member hmember =>
    rcases List.mem_pair.mp hmember with rfl | rfl
    · exact .inl rfl
    · exact .inr (.inl rfl)
  | inner hset hpos hlt =>
    obtain rfl := Option.some.inj hset
    obtain rfl := Nat.le_antisymm (Nat.le_of_lt_succ hlt) hpos
    exact .inr (.inr rfl)
  | message => exact .inl (by decide +kernel)
  | @way d p htop hp =>
    have hnode : SignedMessage.mtIndex.get sentPrepare 0 + SignedMessage.mtNum.get sentPrepare 0 - 1 = 2 := by
      decide +kernel
    rw [hnode] at htop hp
    have hlevel : d = 1 := by
      match d, htop with
      | 0, htop => exact absurd htop (by decide)
      | 1, _ => rfl
      | d + 2, htop =>
        have hpow := Nat.one_le_two_pow (n := d)
        rw [Nat.div_eq_of_lt (by rw [Nat.pow_add]; omega)] at htop
        cases htop
    subst hlevel
    have hpair := List.mem_singleton.mp hp
    exact .inr (.inr (by rw [hpair]; decide +kernel))

/-- It is one of the batch. -/
theorem sentPrepare_bound :
    (∃ member ∈ [pendingPrepare, pendingCommit], covered sentPrepare 0 = covered member 0) ∨
      (covered sentPrepare 0).length = 2 * digestSize ∨
        ∃ member ∈ [pendingPrepare, pendingCommit], (covered member 0).length = 2 * digestSize := by
  have hdigest : ∀ l, (lengthCrypto.makeDigest l).length = digestSize := by
    intro l
    show ((UInt8.ofNat l.length :: (l ++ List.replicate digestSize 0)).take digestSize).length = digestSize
    rw [List.length_take, List.length_cons, List.length_append, List.length_replicate]
    omega
  have hbatch : makeDigestFromList lengthCrypto.makeDigest [pendingPrepare, pendingCommit] = some pairTree := rfl
  have hroot : Yields (rootOf lengthCrypto 0) sentPrepare (pairTree 1) := by
    unfold Reader.Yields
    decide +kernel
  refine batch_binding hdigest hbatch { injective := fun l l' hl hl' heq => ?_, nonzero := fun l hl => ?_ } hroot
  · have hdifferent : lengthCrypto.makeDigest (covered pendingPrepare 0) ≠ lengthCrypto.makeDigest (covered pendingCommit 0) ∧
        lengthCrypto.makeDigest (covered pendingPrepare 0) ≠ lengthCrypto.makeDigest (pairTree 2 ++ pairTree 3) ∧
          lengthCrypto.makeDigest (covered pendingCommit 0) ≠ lengthCrypto.makeDigest (pairTree 2 ++ pairTree 3) := by
      decide +kernel
    obtain ⟨hpc, hpt, hct⟩ := hdifferent
    rcases pair_strings hl with rfl | rfl | rfl <;> rcases pair_strings hl' with rfl | rfl | rfl
    · rfl
    · exact absurd heq hpc
    · exact absurd heq hpt
    · exact absurd heq.symm hpc
    · rfl
    · exact absurd heq hct
    · exact absurd heq.symm hpt
    · exact absurd heq.symm hct
    · rfl
  · rcases pair_strings hl with rfl | rfl | rfl
    all_goals decide +kernel

end Spire.Merkle
