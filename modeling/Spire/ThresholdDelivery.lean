import Mathlib.Data.Nat.Digits.Lemmas
import Spire.TcDelivery
import Spire.ThresholdSignatures

/-!
# Delivering with the threshold library

`tc_wrapper.c` hands the numbers of the threshold library to messages: a share and a signature
are 128 bytes. With it as the cryptography of the queue of threshold signatures, a control-center
replica that gets shares from correct replicas always combines them (`shares_deliver`), and what
it delivers is, byte for byte, what every other replica delivers.
-/

namespace Spire.Itrc

open Threshold Lib

/-! ## Numbers as bytes -/

/-- `BN_bin2bn`. -/
def bin2bn (bytes : List ℕ) : ℕ := Nat.ofDigits 256 bytes.reverse

/-- A number at the end of 128 bytes, with zeroes before it. The numbers of a key fit. -/
def padded (a : ℕ) : List ℕ := List.replicate (128 - (bnBytes a).length) 0 ++ bnBytes a

variable {a : ℕ}

theorem length_bnBytes (h : a < 256 ^ 128) : (bnBytes a).length ≤ 128 := by
  rw [bnBytes, List.length_reverse]
  exact (Nat.digits_length_le_iff (by decide) a).mpr h

theorem length_padded (h : a < 256 ^ 128) : (padded a).length = 128 := by
  have := length_bnBytes h
  rw [padded, List.length_append, List.length_replicate]
  omega

theorem bin2bn_padded (a : ℕ) : bin2bn (padded a) = a := by
  rw [bin2bn, padded, List.reverse_append, List.reverse_replicate, Nat.ofDigits_append_replicate_zero, bnBytes,
    List.reverse_reverse, Nat.ofDigits_digits]

theorem bin2bn_take_padded (h : a < 256 ^ 128) : bin2bn ((padded a).take 128) = a := by
  rw [List.take_of_length_le (length_padded h).le, bin2bn_padded]

/-! ## The wrapper -/

section Wrapper

variable (hp : List ℕ → ℕ)

/-- `TC_Generate_Sig_Share`, which does not look at what `genIndSig` returns: where it fails the
signature is still 0. -/
def generateSigShare (key : IndKey) (hash : List ℕ) : List ℕ :=
  match genIndSig hp key (bin2bn hash) none with
  | .ok sign => padded sign.sig
  | .error _ => padded 0

/-- `TC_Add_Share_To_Be_Combined`. -/
def addShare (sigs : ℕ → Option IndSig) (share : ℕ × List ℕ) : ℕ → Option IndSig :=
  Function.update sigs (share.1 - 1) (some ⟨bin2bn (share.2.take 128), 0, 0⟩)

/-- `TC_Initialize_Combine_Phase`, and then the shares one after the other. -/
def partialSignatures (shares : List (ℕ × List ℕ)) : ℕ → Option IndSig := shares.foldl addShare fun _ => none

/-- `TC_Combine_Shares`; `garbage` is what the memory holds that it uses where it has no signature. -/
def combineShares (key : IndKey) (garbage : List ℕ) (shares : List (ℕ × List ℕ)) (digest : List ℕ) : List ℕ :=
  match combineSigs hp (partialSignatures shares) key (bin2bn digest) false with
  | .ok sig => padded sig
  | .error _ => garbage

/-- `TC_Verify_Signature`, for the one site there is. -/
def verifySignature (pk : PublicKey) (signature digest : List ℕ) : Bool :=
  verify (bin2bn digest) (bin2bn (signature.take 128)) pk

variable {P : Type} (makeDigest : Ordinal → P → List ℕ)

/-- The threshold library as the cryptography of a replica. -/
def thresholdCrypto (key : IndKey) (pk : PublicKey) (garbage : List ℕ) : Crypto P (List ℕ) (List ℕ) where
  makeDigest := makeDigest
  combineShares := combineShares hp key garbage
  verifySignature := verifySignature pk

/-- `PKT_Construct_TC_Share_Msg`. -/
def constructTcShare (key : IndKey) (o : Ordinal) (payload : P) : TcShare P (List ℕ) :=
  { ord := o, payload, partialSig := generateSigShare hp key (makeDigest o payload) }

end Wrapper

/-- The share of a member is the last one that was added for it. -/
theorem partialSignatures_eq (shares : List (ℕ × List ℕ)) (j : ℕ) :
    partialSignatures shares j =
      (shares.reverse.find? fun s => s.1 - 1 = j).map fun s => ⟨bin2bn (s.2.take 128), 0, 0⟩ := by
  induction shares using List.reverseRecOn with
  | nil => rfl
  | append_singleton shares s ih =>
    rw [partialSignatures, List.foldl_append, List.foldl_cons, List.foldl_nil, addShare, List.reverse_append,
      List.reverse_singleton, List.singleton_append, List.find?_cons]
    by_cases hs : s.1 - 1 = j
    · simp [hs]
    · rw [Function.update_of_ne (Ne.symm hs), ← partialSignatures, ih]
      simp [hs]

theorem mem_of_partialSignatures {shares : List (ℕ × List ℕ)} {j : ℕ} {share : IndSig}
    (h : partialSignatures shares j = some share) : ∃ s ∈ shares, s.1 - 1 = j ∧ share.sig = bin2bn (s.2.take 128) := by
  rw [partialSignatures_eq, Option.map_eq_some_iff] at h
  obtain ⟨s, hfind, rfl⟩ := h
  have hs := List.find?_some hfind
  exact ⟨s, List.mem_reverse.mp (List.mem_of_find?_eq_some hfind), of_decide_eq_true hs, rfl⟩

/-! ## Correct replicas -/

/-- The replicas have the keys of a dealer, and every message a digest that can be signed. -/
structure Deployed {P : Type} (tc : Dealer) (c : Site) (makeDigest : Ordinal → P → List ℕ) : Prop where
  dealt : ∃ p q coeffs vs us, generate p q coeffs vs us c.numSm c.reqShares tc.e = some tc ∧ p.half ≠ q.half
  odd : Odd tc.e
  fits : tc.n < 256 ^ 128
  digests : ∀ o payload, bin2bn (makeDigest o payload) < tc.n ∧ (bin2bn (makeDigest o payload)).Coprime tc.n

/-- A share that the replica `i` makes for one of the ordinals `os`, of the payload that the correct
replicas have for it. -/
structure Correct {P : Type} (hp : List ℕ → ℕ) (tc : Dealer) (c : Site) (makeDigest : Ordinal → P → List ℕ) (os : Set Ordinal)
    (payload : Ordinal → P) (i : ℕ) (tcm : TcShare P (List ℕ)) : Prop where
  replica : i ∈ List.range' 1 c.numSm
  ordinal : tcm.ord ∈ os
  made : ∃ mine, getInd i tc = some mine ∧ tcm = constructTcShare hp makeDigest mine tcm.ord (payload tcm.ord)

section Nodes

variable {P : Type} {hp : List ℕ → ℕ} {tc : Dealer} {c : Site} {makeDigest : Ordinal → P → List ℕ} {os : Set Ordinal}
variable {payload : Ordinal → P} {key : IndKey} {garbage : List ℕ} {n : TcNode P (List ℕ)} {o : Ordinal}

theorem mem_matching {i : ℕ} {tcm : TcShare P (List ℕ)} :
    (i, tcm) ∈ n.matching c o ↔ i ∈ List.range' 1 c.numSm ∧ n.recvd i = true ∧ n.shares i = some tcm ∧ tcm.ord = o := by
  rw [TcNode.matching, List.mem_filterMap]
  constructor
  · rintro ⟨j, hj, hsome⟩
    split_ifs at hsome with hrecvd
    rw [Option.map_eq_some_iff] at hsome
    obtain ⟨tc', htc, heq⟩ := hsome
    cases heq
    obtain ⟨hshare, hord⟩ := Option.filter_eq_some_iff.mp htc
    exact ⟨hj, hrecvd, hshare, of_decide_eq_true hord⟩
  · rintro ⟨hi, hrecvd, hshare, hord⟩
    refine ⟨i, hi, ?_⟩
    rw [if_pos hrecvd, hshare]
    simp [hord]

/-- Where all shares are for the ordinal, those that match are those that were received. -/
theorem map_fst_matching (hall : ∀ i, n.recvd i = true → ∃ tcm, n.shares i = some tcm ∧ tcm.ord = o) :
    (n.matching c o).map Prod.fst = (List.range' 1 c.numSm).filter fun i => n.recvd i := by
  rw [TcNode.matching]
  induction List.range' 1 c.numSm with
  | nil => rfl
  | cons i is ih =>
    rw [List.filterMap_cons, List.filter_cons]
    by_cases hrecvd : n.recvd i = true
    · obtain ⟨tcm, htcm, hord⟩ := hall i hrecvd
      rw [if_pos hrecvd, if_pos hrecvd, htcm, Option.filter_some, if_pos (decide_eq_true hord), Option.map_some,
        List.map_cons, ih]
    · rw [if_neg hrecvd, if_neg hrecvd]
      exact ih

/-- What a replica has when every share is from a correct one. -/
theorem partialSignatures_matching (hall : ∀ i, n.recvd i = true → ∃ tcm, n.shares i = some tcm ∧ tcm.ord = o) {j : ℕ}
    (hj : j < c.numSm) :
    (partialSignatures ((n.matching c o).map fun s => (s.1, s.2.partialSig)) j).isSome = n.recvd (j + 1) := by
  have hmem : j + 1 ∈ List.range' 1 c.numSm := by
    rw [List.mem_range'_1]
    omega
  rw [Bool.eq_iff_iff]
  constructor
  · intro hsome
    obtain ⟨share, hshare⟩ := Option.isSome_iff_exists.mp hsome
    obtain ⟨s, hs, hij, -⟩ := mem_of_partialSignatures hshare
    obtain ⟨⟨i, tcm⟩, hm, rfl⟩ := List.mem_map.mp hs
    obtain ⟨hrange, hrecvd, -⟩ := mem_matching.mp hm
    rw [List.mem_range'_1] at hrange
    obtain rfl : i = j + 1 := by omega
    exact hrecvd
  · intro hrecvd
    obtain ⟨tcm, htcm, hord⟩ := hall _ hrecvd
    rw [partialSignatures_eq, Option.isSome_map, List.find?_isSome]
    refine ⟨(j + 1, tcm.partialSig), List.mem_reverse.mpr (List.mem_map.mpr ⟨(j + 1, tcm), ?_, rfl⟩), by simp⟩
    exact mem_matching.mpr ⟨hmem, hrecvd, htcm, hord⟩

/-- The message that the replicas make for an ordinal from their shares. -/
def finalMessage (payload : Ordinal → P) (signature : Ordinal → ℕ) (o : Ordinal) : TcFinal P (List ℕ) :=
  { ord := o, payload := payload o, threshSig := padded (signature o) }

/-- What a signature for every ordinal has to be. -/
structure Signs (hp : List ℕ → ℕ) (tc : Dealer) (makeDigest : Ordinal → P → List ℕ) (payload : Ordinal → P)
    (signature : Ordinal → ℕ) : Prop where
  lt : ∀ o, signature o < tc.n
  verifies : ∀ o, verify (bin2bn (makeDigest o (payload o))) (signature o) (getPub tc) = true
  combines : ∀ o sigs key, Honest tc hp sigs key (bin2bn (makeDigest o (payload o))) false →
    combineSigs hp sigs key (bin2bn (makeDigest o (payload o))) false = .ok (signature o)

theorem Deployed.bounds (h : Deployed tc c makeDigest) : tc.l = c.numSm ∧ tc.k = c.reqShares := by
  obtain ⟨p, q, coeffs, vs, us, hgen, -⟩ := h.dealt
  exact ⟨(generate_dealt hgen).1.1, (generate_dealt hgen).1.2.1⟩

/-- The bytes of a share of a correct replica are the number it made. -/
theorem generateSigShare_eq (h : Deployed tc c makeDigest) {mine : IndKey} {j : ℕ} (hmine : getInd (j + 1) tc = some mine)
    (hp : List ℕ → ℕ) (o : Ordinal) (p : P) : ∃ made, genIndSig hp mine (bin2bn (makeDigest o p)) none = .ok made ∧
      bin2bn ((generateSigShare hp mine (makeDigest o p)).take 128) = made.sig := by
  obtain ⟨p', q, coeffs, vs, us, hgen, -⟩ := h.dealt
  obtain ⟨-, d, inv, hdealt⟩ := generate_dealt hgen
  obtain ⟨uh, huh⟩ := exists_represents (h.digests o p).2
  obtain ⟨uu, huu⟩ := exists_represents hdealt.coprime_u
  obtain ⟨s, made, -, hmade, hlt, -⟩ := genIndSig_represents hp hdealt hmine huh huu none
  refine ⟨made, hmade, ?_⟩
  rw [generateSigShare, hmade]
  exact bin2bn_take_padded (hlt.trans h.fits)

/-- **With enough shares of correct replicas the message is made**, and it is the one that the
ordinal has. -/
theorem constructTcFinal_eq (h : Deployed tc c makeDigest) {signature : Ordinal → ℕ}
    (hsigns : Signs hp tc makeDigest payload signature) (hkey : IsKey tc key)
    (hcounted : ∃ senders : Finset ℕ, (∀ i, n.recvd i = true ↔ i ∈ senders) ∧ n.count = senders.card)
    (hall : ∀ i, n.recvd i = true → ∃ tcm, n.shares i = some tcm ∧ tcm.ord = o ∧
      Correct hp tc c makeDigest os payload i tcm) (henough : c.reqShares ≤ n.count) :
    constructTcFinal (thresholdCrypto hp makeDigest key (getPub tc) garbage) c o n = some (finalMessage payload signature o) := by
  obtain ⟨hl, hk⟩ := h.bounds
  have hord : ∀ i, n.recvd i = true → ∃ tcm, n.shares i = some tcm ∧ tcm.ord = o :=
    fun i hi => (hall i hi).imp fun tcm htcm => ⟨htcm.1, htcm.2.1⟩
  -- as many shares match as were counted
  have hcount : n.count = (List.range' 1 c.numSm).countP fun i => n.recvd i := by
    obtain ⟨senders, hmem, hcard⟩ := hcounted
    rw [hcard, List.countP_eq_length_filter, ← List.toFinset_card_of_nodup ((List.nodup_range' 1).filter _)]
    congr 1
    ext i
    rw [List.mem_toFinset, List.mem_filter, ← hmem]
    constructor
    · intro hi
      obtain ⟨tcm, -, -, hcorrect⟩ := hall i hi
      exact ⟨hcorrect.replica, hi⟩
    · exact And.right
  have hlen : (n.matching c o).length = n.count := by
    rw [hcount, ← List.length_map (f := Prod.fst), map_fst_matching hord, List.countP_eq_length_filter]
  have hpayload : ∀ s ∈ n.matching c o, s.2.payload = payload o ∧ ∃ mine, getInd s.1 tc = some mine ∧
      s.2.partialSig = generateSigShare hp mine (makeDigest o (payload o)) := by
    rintro ⟨i, tcm⟩ hs
    obtain ⟨-, hrecvd, hshare, rfl⟩ := mem_matching.mp hs
    obtain ⟨tcm', hshare', -, -, -, mine, hmine, hmade⟩ := hall i hrecvd
    obtain rfl : tcm = tcm' := Option.some_inj.mp (hshare.symm.trans hshare')
    exact ⟨by rw [hmade, constructTcShare], mine, hmine, congrArg TcShare.partialSig hmade⟩
  have hhonest : Honest tc hp (partialSignatures ((n.matching c o).map fun s => (s.1, s.2.partialSig))) key
      (bin2bn (makeDigest o (payload o))) false := by
    refine ⟨hkey, fun j _ huse => ?_, ?_⟩
    · rw [usable_false] at huse
      obtain ⟨share, hshare⟩ := Option.isSome_iff_exists.mp huse
      obtain ⟨s', hs', hij, hsig⟩ := mem_of_partialSignatures hshare
      obtain ⟨s, hs, rfl⟩ := List.mem_map.mp hs'
      have hrange := List.mem_range'_1.mp (mem_matching.mp hs).1
      obtain ⟨-, mine, hmine, hmade⟩ := hpayload s hs
      have hs1 : s.1 = j + 1 := by omega
      rw [hs1] at hmine
      obtain ⟨made, hgen, hbytes⟩ := generateSigShare_eq h hmine hp o (payload o)
      exact ⟨share, mine, none, made, hshare, hmine, hgen, by rw [hsig, ← hbytes, ← hmade]⟩
    · rw [hk, hl]
      refine henough.trans ?_
      rw [hcount, List.range'_eq_map_range, List.countP_map]
      refine List.countP_mono_left fun j hj hrecvd => ?_
      rw [usable_false, partialSignatures_matching hord (List.mem_range.mp hj), Nat.add_comm]
      exact hrecvd
  have hsig : combineShares hp key garbage ((n.matching c o).map fun s => (s.1, s.2.partialSig)) (makeDigest o (payload o)) =
      padded (signature o) := by
    rw [combineShares, hsigns.combines o _ key hhonest]
  have hver : verifySignature (getPub tc) (padded (signature o)) (makeDigest o (payload o)) = true := by
    rw [verifySignature, bin2bn_take_padded ((hsigns.lt o).trans h.fits), hsigns.verifies]
  unfold constructTcFinal
  rw [if_neg (by omega)]
  dsimp only
  split
  · rename_i hnil
    rw [hnil, List.length_nil] at hlen
    have : 0 < c.reqShares := Nat.succ_pos _
    omega
  · rename_i i first rest hcons
    have hfirst := (hpayload (i, first) (hcons ▸ List.mem_cons_self)).1
    dsimp only at hfirst
    rw [if_neg (by omega), hfirst]
    simp only [thresholdCrypto, hsig, hver, ↓reduceIte, finalMessage]

/-! ## Entries of the queue -/

/-- What holds of an entry at any time: until it is done it has the shares it counted, too few of
them or not the replica's own, and then its message, unless the replica passed over it. -/
structure Filled (hp : List ℕ → ℕ) (tc : Dealer) (c : Site) (makeDigest : Ordinal → P → List ℕ) (os : Set Ordinal)
    (payload : Ordinal → P) (signature : Ordinal → ℕ) (skipped : Nat ×ₗ Nat → Prop) (n : TcNode P (List ℕ)) : Prop where
  counted : ∃ senders : Finset ℕ, (∀ i, n.recvd i = true ↔ i ∈ senders) ∧ n.count = senders.card
  shares : n.done = false → ∀ i, n.recvd i = true → ∃ tcm, n.shares i = some tcm ∧ tcm.ord.key = n.key ∧
    Correct hp tc c makeDigest os payload i tcm
  final : n.done = true → skipped n.key ∨
    n.skip = false ∧ ∃ o ∈ os, o.key = n.key ∧ n.tcf = some (finalMessage payload signature o)
  unskipped : n.done = false → n.skip = false
  tried : n.done = true ∨ ¬(c.reqShares ≤ n.count ∧ n.recvd c.myId = true)

variable {signature : Ordinal → ℕ} {skipped : Nat ×ₗ Nat → Prop} {i : ℕ} {tcm : TcShare P (List ℕ)}

theorem filled_new (o : Ordinal) : Filled hp tc c makeDigest os payload signature skipped (TcNode.new o) where
  counted := ⟨∅, fun i => by simp [TcNode.new], rfl⟩
  shares _ i hi := by cases hi
  final hd := by cases hd
  unskipped _ := rfl
  tried := .inr fun h => by cases h.2

theorem Filled.pass (h : Filled hp tc c makeDigest os payload signature skipped n) (hskip : skipped n.key) :
    Filled hp tc c makeDigest os payload signature skipped (n.pass c) := by
  unfold TcNode.pass
  split_ifs with hdone
  · exact h
  · rw [not_or, Bool.not_eq_true, Bool.not_eq_true] at hdone
    exact ⟨mark_counted h.counted hdone.2, fun hd => (by cases hd), fun _ => .inl hskip, fun hd => (by cases hd), .inl rfl⟩

theorem Filled.receive (hdep : Deployed tc c makeDigest) (hsigns : Signs hp tc makeDigest payload signature)
    (hkey : IsKey tc key) (hos : Set.InjOn Ordinal.key os) (h : Filled hp tc c makeDigest os payload signature skipped n)
    (hord : tcm.ord.key = n.key) (hcorrect : Correct hp tc c makeDigest os payload i tcm) :
    Filled hp tc c makeDigest os payload signature skipped
      (n.receive (thresholdCrypto hp makeDigest key (getPub tc) garbage) c i tcm) := by
  unfold TcNode.receive
  split_ifs with hold
  · exact h
  rw [not_or, Bool.not_eq_true, Bool.not_eq_true] at hold
  obtain ⟨hdone, hi⟩ := hold
  have hcounted : ∃ senders : Finset ℕ, (∀ j, (n.store i tcm).recvd j = true ↔ j ∈ senders) ∧
      (n.store i tcm).count = senders.card := mark_counted h.counted hi
  have hnd : (n.store i tcm).done = false := hdone
  have hshares : ∀ j, (n.store i tcm).recvd j = true → ∃ tc', (n.store i tcm).shares j = some tc' ∧ tc'.ord.key = n.key ∧
      Correct hp tc c makeDigest os payload j tc' := by
    intro j hj
    by_cases hji : j = i
    · subst hji
      exact ⟨tcm, by simp [TcNode.store], hord, hcorrect⟩
    · have hjn : n.recvd j = true := by simpa [TcNode.store, TcNode.mark, hji] using hj
      obtain ⟨tc', htc⟩ := h.shares hdone j hjn
      exact ⟨tc', by simpa [TcNode.store, hji] using htc⟩
  unfold TcNode.combine
  split_ifs with hready
  · -- every share is for the ordinal of the one that came last
    have hall : ∀ j, (n.store i tcm).recvd j = true → ∃ tc', (n.store i tcm).shares j = some tc' ∧ tc'.ord = tcm.ord ∧
        Correct hp tc c makeDigest os payload j tc' := by
      intro j hj
      obtain ⟨tc', htc, hkey', hcor⟩ := hshares j hj
      exact ⟨tc', htc, hos hcor.ordinal hcorrect.ordinal (hkey'.trans hord.symm), hcor⟩
    rw [constructTcFinal_eq hdep hsigns hkey hcounted hall hready.1]
    refine ⟨hcounted, fun hd => (by cases hd), fun _ => .inr ⟨h.unskipped hdone, ?_⟩, fun hd => (by cases hd), .inl rfl⟩
    exact ⟨tcm.ord, hcorrect.ordinal, hord, rfl⟩
  · refine ⟨hcounted, fun _ => hshares, fun hd => ?_, fun _ => h.unskipped hdone, .inr hready⟩
    rw [hnd] at hd
    cases hd

end Nodes

/-! ## Runs -/

section Runs

variable {P : Type} {hp : List ℕ → ℕ} {tc : Dealer} {c : Site} {makeDigest : Ordinal → P → List ℕ} {os : Set Ordinal}
variable {payload : Ordinal → P} {signature : Ordinal → ℕ} {skipped : Nat ×ₗ Nat → Prop} {key : IndKey} {garbage : List ℕ}

/-- A share is from a correct replica, and what is passed over is recorded. -/
def FromCorrect (hp : List ℕ → ℕ) (tc : Dealer) (c : Site) (makeDigest : Ordinal → P → List ℕ) (os : Set Ordinal)
    (payload : Ordinal → P) (skipped : Nat ×ₗ Nat → Prop) : Input P (List ℕ) → Prop
  | .share i tcm => Correct hp tc c makeDigest os payload i tcm
  | .skip o => skipped o.key
  | .deliver => True

theorem mem_place {S : Type} {o : Ordinal} {f : TcNode P S → TcNode P S} {l : List (TcNode P S)} {n : TcNode P S}
    (h : n ∈ place o f l) : n ∈ l ∨ ∃ m, (m = TcNode.new o ∨ m ∈ l) ∧ m.key = o.key ∧ n = f m := by
  induction l with
  | nil => exact .inr ⟨TcNode.new o, .inl rfl, rfl, List.mem_singleton.mp h⟩
  | cons m ms ih =>
    unfold place at h
    split_ifs at h with hgt heq
    · rcases List.mem_cons.mp h with rfl | hn
      · exact .inl List.mem_cons_self
      · rcases ih hn with hmem | ⟨m', hm', hrest⟩
        · exact .inl (List.mem_cons_of_mem _ hmem)
        · exact .inr ⟨m', hm'.imp id (List.mem_cons_of_mem _), hrest⟩
    · rcases List.mem_cons.mp h with rfl | hn
      · exact .inr ⟨m, .inr List.mem_cons_self, ordCompare_eq_zero.mp heq, rfl⟩
      · exact .inl (List.mem_cons_of_mem _ hn)
    · rcases List.mem_cons.mp h with rfl | hn
      · exact .inr ⟨TcNode.new o, .inl rfl, rfl, rfl⟩
      · exact .inl hn

/-- Every entry that is or was in the queue. -/
def AllFilled (hp : List ℕ → ℕ) (tc : Dealer) (c : Site) (makeDigest : Ordinal → P → List ℕ) (os : Set Ordinal)
    (payload : Ordinal → P) (signature : Ordinal → ℕ) (skipped : Nat ×ₗ Nat → Prop) (s : Tcq P (List ℕ)) : Prop :=
  ∀ n ∈ s.removed ++ s.queue, Filled hp tc c makeDigest os payload signature skipped n

theorem AllFilled.insert {s : Tcq P (List ℕ)} {o : Ordinal} {f : TcNode P (List ℕ) → TcNode P (List ℕ)}
    (h : AllFilled hp tc c makeDigest os payload signature skipped s)
    (hf : ∀ n, n.key = o.key → Filled hp tc c makeDigest os payload signature skipped n →
      Filled hp tc c makeDigest os payload signature skipped (f n)) :
    AllFilled hp tc c makeDigest os payload signature skipped (insertTcId s o f) := by
  unfold insertTcId
  split_ifs
  · exact h
  intro n hn
  rcases List.mem_append.mp hn with hn | hn
  · exact h n (List.mem_append_left _ hn)
  rcases mem_place hn with hmem | ⟨m, rfl | hm, hkey, rfl⟩
  · exact h n (List.mem_append_right _ hmem)
  · exact hf _ hkey (filled_new o)
  · exact hf m hkey (h m (List.mem_append_right _ hm))

theorem AllFilled.step {s : Tcq P (List ℕ)} (hdep : Deployed tc c makeDigest)
    (hsigns : Signs hp tc makeDigest payload signature) (hkey : IsKey tc key) (hos : Set.InjOn Ordinal.key os)
    (x : Input P (List ℕ)) (hx : FromCorrect hp tc c makeDigest os payload skipped x)
    (h : AllFilled hp tc c makeDigest os payload signature skipped s) :
    AllFilled hp tc c makeDigest os payload signature skipped
      (step (thresholdCrypto hp makeDigest key (getPub tc) garbage) c s x) := by
  cases x with
  | share i tcm => exact h.insert fun n hn hfilled => hfilled.receive hdep hsigns hkey hos hn.symm hx
  | skip o =>
    refine h.insert fun n hn hfilled => hfilled.pass ?_
    rw [hn]
    exact hx
  | deliver =>
    show AllFilled _ _ _ _ _ _ _ _ (deliverHead c s)
    unfold deliverHead
    split
    · exact h
    · rename_i n ns hqueue
      split_ifs
      · intro m hm
        refine h m ?_
        rw [hqueue]
        simpa using hm
      · exact h

end Runs

end Spire.Itrc
