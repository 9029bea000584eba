import Mathlib.Algebra.BigOperators.Fin
import Mathlib.FieldTheory.Finite.Basic
import Mathlib.RingTheory.Polynomial.Basic
import Mathlib.Tactic.NormNum.Prime
import Spire.Lib.SharedExponent
import Spire.ThresholdRsa

/-!
# The shares of the threshold key

The numbers of the threshold library stand for units modulo `n` (`Represents`). What the dealer
gives the members are values of a polynomial whose value at 0 is the secret exponent
(`Dealt.share_modEq`), and what a member makes of a digest is the power of its unit with its
share (`genIndSig_represents`). A proof that is made honestly is accepted
(`checkProof_genIndSig`); but the range of its random number is so small that it gives the share
away (`proof_reveals_share`).
-/

namespace Spire.Threshold

open Polynomial Spire.Lib

/-! ## Numbers that stand for units -/

section Represents

variable {n a b : ℕ} {x y : (ZMod n)ˣ}

def Represents (n a : ℕ) (x : (ZMod n)ˣ) : Prop := (a : ZMod n) = x

theorem Represents.coprime (h : Represents n a x) : a.Coprime n := by
  rw [← ZMod.isUnit_iff_coprime]
  exact ⟨x, h.symm⟩

theorem exists_represents (h : a.Coprime n) : ∃ x, Represents n a x := ⟨ZMod.unitOfCoprime a h, rfl⟩

theorem Represents.congr (h : Represents n a x) (hxy : x = y) : Represents n a y := hxy ▸ h

theorem Represents.unique (hx : Represents n a x) (hy : Represents n a y) : x = y := Units.ext (hx.symm.trans hy)

theorem Represents.eq (ha : Represents n a x) (hb : Represents n b x) (han : a < n) (hbn : b < n) : a = b := by
  have hmod : a % n = b % n := (ZMod.natCast_eq_natCast_iff' a b n).mp (ha.trans hb.symm)
  rwa [Nat.mod_eq_of_lt han, Nat.mod_eq_of_lt hbn] at hmod

theorem Represents.mul (ha : Represents n a x) (hb : Represents n b y) : Represents n (a * b % n) (x * y) := by
  rw [Represents, ZMod.natCast_mod, Nat.cast_mul, ha, hb, Units.val_mul]

theorem Represents.expAbs (h : Represents n a x) (b : ℤ) : Represents n (bnModExp a b n) (x ^ b.natAbs) := by
  rw [Represents, bnModExp, ZMod.natCast_mod, Nat.cast_pow, h, Units.val_pow_eq_pow_val]

theorem Represents.exp (h : Represents n a x) (b : ℕ) : Represents n (bnModExp a b n) (x ^ (b : ℤ)) := by
  simpa using h.expAbs b

theorem bnModExp_lt (hn : 0 < n) (b : ℤ) : bnModExp a b n < n := Nat.mod_lt _ hn

theorem bnModInverse_eq_some (hn : 0 < n) {t : ℕ} (h : bnModInverse a n = some t) : a.Coprime n ∧ (a : ZMod n) * t = 1 := by
  rw [bnModInverse] at h
  split at h
  · rename_i hgcd
    rw [Option.some_inj] at h
    refine ⟨hgcd, ?_⟩
    have hmod : (t : ℤ) = a.gcdA n % n := by
      rw [← h, Int.toNat_of_nonneg (Int.emod_nonneg _ (by omega))]
    have hbezout := congrArg (Int.cast (R := ZMod n)) (Nat.gcd_eq_gcd_ab a n)
    rw [hgcd] at hbezout
    have ht : (t : ZMod n) = (a.gcdA n : ZMod n) := by
      rw [← Int.cast_natCast t, hmod, ZMod.intCast_mod]
    rw [ht]
    simpa using hbezout.symm
  · simp at h

theorem Represents.inverse (hn : 0 < n) (h : Represents n a x) : ∃ t, bnModInverse a n = some t ∧ Represents n t x⁻¹ := by
  have hsome : bnModInverse a n = some (a.gcdA n % n).toNat := if_pos h.coprime
  refine ⟨_, hsome, ?_⟩
  have hone := (bnModInverse_eq_some hn hsome).2
  rw [h] at hone
  rw [Represents, Units.inv_eq_of_mul_eq_one_right hone]

theorem Represents.modifiedExp (hn : 0 < n) (h : Represents n a x) (b : ℤ) :
    ∃ t, modifiedModExp a b n = some t ∧ Represents n t (x ^ b) := by
  rw [modifiedModExp]
  split
  · rename_i hneg
    obtain ⟨t, ht, hinv⟩ := h.inverse hn
    refine ⟨bnModExp t b n, by rw [ht]; rfl, (hinv.expAbs b).congr ?_⟩
    rw [← zpow_natCast, inv_zpow', Int.ofNat_natAbs_of_nonpos (le_of_lt hneg), neg_neg]
  · rename_i hpos
    refine ⟨_, rfl, (h.expAbs b).congr ?_⟩
    rw [← zpow_natCast, Int.natAbs_of_nonneg (by omega)]

end Represents

/-! ## The dealer -/

theorem SafePrime.half_pos (p : SafePrime) : 0 < p.half := p.half_prime.pos

theorem foldl_mul_range (l : ℕ) : (List.range l).foldl (fun delta i => delta * (i + 1)) 1 = l.factorial := by
  induction l with
  | zero => rfl
  | succ l ih => rw [List.range_succ, List.foldl_append, ih, List.foldl_cons, List.foldl_nil, Nat.factorial_succ, mul_comm]

/-- The polynomial with the coefficients of a list. -/
noncomputable def sharePoly (fX : List ℕ) : ℤ[X] := ∑ i : Fin fX.length, C (fX[i] : ℤ) * X ^ (i : ℕ)

theorem degree_sharePoly (fX : List ℕ) : (sharePoly fX).degree < fX.length := degree_sum_fin_lt _

theorem eval_zero_sharePoly (d : ℕ) (coeffs : List ℕ) : (sharePoly (d :: coeffs)).eval 0 = d := by
  simp only [sharePoly, List.length_cons, Fin.sum_univ_succ, eval_add, eval_finsetSum, eval_mul, eval_C, eval_pow, eval_X]
  simp

theorem foldl_zipIdx_eq_sum (fX : List ℕ) (x acc k : ℕ) :
    (fX.zipIdx k).foldl (fun sum a => sum + a.1 * x ^ a.2) acc = acc + ∑ i : Fin fX.length, fX[i] * x ^ (k + i) := by
  induction fX generalizing acc k with
  | nil => simp
  | cons a fX ih =>
    rw [List.zipIdx_cons, List.foldl_cons, ih]
    simp only [List.length_cons, Fin.sum_univ_succ, add_assoc, Nat.add_comm 1]
    simp

theorem secretShare_modEq (fX : List ℕ) (invDelta m i : ℕ) :
    (secretShare fX invDelta m i : ℤ) ≡ (sharePoly fX).eval (i : ℤ) * invDelta [ZMOD m] := by
  have hsum : (sharePoly fX).eval (i : ℤ) = ((fX.zipIdx.foldl (fun sum a => sum + a.1 * i ^ a.2) 0 : ℕ) : ℤ) := by
    rw [foldl_zipIdx_eq_sum]
    simp [sharePoly, eval_finsetSum]
  rw [secretShare, hsum, Int.natCast_mod, Nat.cast_mul]
  exact Int.mod_modEq _ _

/-- What a dealer that `generate` yields is made of: the secret exponent is `d`. -/
structure Dealt (p q : SafePrime) (coeffs : List ℕ) (d inv : ℕ) (tc : Dealer) : Prop where
  bounds : coeffs.length < tc.k ∧ tc.k < tc.l
  modulus : tc.n = p.val * q.val
  secret : (tc.e * d : ℤ) ≡ 1 [ZMOD (p.half * q.half : ℕ)]
  inverse : (tc.l.factorial * inv : ℤ) ≡ 1 [ZMOD (p.half * q.half : ℕ)]
  shares : tc.si = (List.range tc.l).map fun i => secretShare (d :: coeffs) inv (p.half * q.half) (i + 1)
  keys : tc.vki = tc.si.map fun (s : ℕ) => bnModExp tc.v s tc.n
  symbol : jacobi tc.n tc.u = -1

section Dealt

variable {p q : SafePrime} {coeffs vs us : List ℕ} {l k e d inv : ℕ} {tc : Dealer}

theorem modEq_of_bnModInverse {a m t : ℕ} (hm : 0 < m) (h : bnModInverse a m = some t) : (a * t : ℤ) ≡ 1 [ZMOD m] := by
  have hone := (bnModInverse_eq_some hm h).2
  rw [← ZMod.intCast_eq_intCast_iff]
  simpa using hone

theorem generate_dealt (h : generate p q coeffs vs us l k e = some tc) :
    (tc.l = l ∧ tc.k = k ∧ tc.e = e) ∧ ∃ d inv, Dealt p q (coeffs.take (k - 1)) d inv tc := by
  have hhalf : ∀ r : SafePrime, (r.val - 1) / 2 = r.half := fun r => by rw [SafePrime.val]; omega
  unfold generate at h
  split at h
  · simp at h
  rename_i hbounds
  rw [hhalf, hhalf, foldl_mul_range] at h
  simp only [Option.bind_eq_bind, Option.bind_eq_some_iff, Option.some_inj] at h
  obtain ⟨d, hd, inv, hinv, a, -, u, hu, rfl⟩ := h
  have hm : 0 < p.half * q.half := Nat.mul_pos p.half_pos q.half_pos
  have hlen : (coeffs.take (k - 1)).length ≤ k - 1 := List.length_take_le _ _
  exact ⟨⟨rfl, rfl, rfl⟩, d, inv, by dsimp only; omega, rfl, modEq_of_bnModInverse hm hd, modEq_of_bnModInverse hm hinv,
    rfl, rfl, by simpa using List.find?_some hu⟩

/-- A key of four members, two of which can sign. -/
def eleven : SafePrime := ⟨5, by norm_num, by norm_num⟩

def twentyThree : SafePrime := ⟨11, by norm_num, by norm_num⟩

def fourMembers : Dealer :=
  { u := 5, e := 17, n := 253, l := 4, k := 2, v := 4, vki := [124, 26, 185, 100], si := [19, 26, 33, 40] }

theorem generate_fourMembers : generate eleven twentyThree [3] [0, 2] [2, 3, 5] 4 2 17 = some fourMembers := by decide +kernel

theorem Dealt.modulus_eq (h : Dealt p q coeffs d inv tc) : tc.n = 4 * (p.half * q.half) + 2 * (p.half + q.half) + 1 := by
  rw [h.modulus, SafePrime.val, SafePrime.val]
  ring

theorem Dealt.modulus_pos (h : Dealt p q coeffs d inv tc) : 0 < tc.n := by
  have := h.modulus_eq
  omega

theorem Dealt.modulus_odd (h : Dealt p q coeffs d inv tc) : tc.n % 2 = 1 := by
  have := h.modulus_eq
  omega

theorem Dealt.zpow_eq_one (h : Dealt p q coeffs d inv tc) (hpq : p.half ≠ q.half) (x : (ZMod tc.n)ˣ) :
    x ^ (2 * 2 * ((p.half * q.half : ℕ) : ℤ)) = 1 := by
  have htotient : tc.n.totient = 4 * (p.half * q.half) := by
    have hcop : p.val.Coprime q.val := (Nat.coprime_primes p.prime q.prime).mpr (by omega)
    rw [h.modulus, Nat.totient_mul hcop, SafePrime.val, SafePrime.val, Nat.totient_prime p.prime, Nat.totient_prime q.prime,
      Nat.add_sub_cancel, Nat.add_sub_cancel]
    ring
  have hpow := ZMod.pow_totient x
  rw [htotient] at hpow
  rw [show (2 * 2 * ((p.half * q.half : ℕ) : ℤ)) = ((4 * (p.half * q.half) : ℕ) : ℤ) by push_cast; ring, zpow_natCast, hpow]

theorem Dealt.si_eq_some (h : Dealt p q coeffs d inv tc) {j s : ℕ} (hs : tc.si[j]? = some s) :
    j < tc.l ∧ s = secretShare (d :: coeffs) inv (p.half * q.half) (j + 1) := by
  rw [h.shares, List.getElem?_map, Option.map_eq_some_iff] at hs
  obtain ⟨i, hi, rfl⟩ := hs
  obtain ⟨hlt, heq⟩ := List.getElem?_eq_some_iff.mp hi
  rw [List.getElem_range] at heq
  subst heq
  exact ⟨by simpa using hlt, rfl⟩

/-- The shares are small enough for a member to double them modulo `n`. -/
theorem Dealt.two_mul_mod (h : Dealt p q coeffs d inv tc) {j s : ℕ} (hs : tc.si[j]? = some s) : 2 * s % tc.n = 2 * s := by
  have hlt : s < p.half * q.half := by
    rw [(h.si_eq_some hs).2]
    exact Nat.mod_lt _ (Nat.mul_pos p.half_pos q.half_pos)
  have := h.modulus_eq
  exact Nat.mod_eq_of_lt (by omega)

theorem Dealt.share_modEq (h : Dealt p q coeffs d inv tc) {j s : ℕ} (hs : tc.si[j]? = some s) :
    (s : ℤ) ≡ (sharePoly (d :: coeffs)).eval ((j + 1 : ℕ) : ℤ) * inv [ZMOD (p.half * q.half : ℕ)] := by
  rw [(h.si_eq_some hs).2]
  exact secretShare_modEq _ _ _ _

theorem Dealt.coprime_u (h : Dealt p q coeffs d inv tc) : tc.u.Coprime tc.n := by
  have hsym := h.symbol
  by_cases hodd : tc.u % 2 = 1
  · have : NeZero tc.u := ⟨by omega⟩
    rw [jacobi_eq _ hodd] at hsym
    by_contra hnot
    rw [jacobiSym.eq_zero_iff_not_coprime.mpr] at hsym
    · omega
    · rw [Int.gcd_natCast_natCast, Nat.gcd_comm]
      exact hnot
  · rw [jacobi, if_pos (by omega)] at hsym
    omega

end Dealt

/-! ## What a member makes of a digest -/

/-- A key that was made from what the dealer has. -/
def IsKey (tc : Dealer) (key : IndKey) : Prop := key = getCombine tc ∨ ∃ i, getInd i tc = some key

/-- Every key has the public part of what the dealer has. -/
structure Public (tc : Dealer) (key : IndKey) : Prop where
  l : key.l = tc.l
  k : key.k = tc.k
  v : key.v = tc.v
  u : key.u = tc.u
  e : key.e = tc.e
  n : key.n = tc.n
  vki : key.vki = tc.vki

theorem getInd_eq_some {tc : Dealer} {key : IndKey} {j : ℕ} (h : getInd (j + 1) tc = some key) :
    ∃ s, tc.si[j]? = some s ∧ key.si = some s ∧ key.mynum = j ∧ Public tc key := by
  rw [getInd, if_neg (by omega), Nat.add_sub_cancel, Option.map_eq_some_iff] at h
  obtain ⟨s, hs, rfl⟩ := h
  exact ⟨s, hs, rfl, by simp, ⟨rfl, rfl, rfl, rfl, rfl, rfl, rfl⟩⟩

theorem IsKey.public {tc : Dealer} {key : IndKey} (h : IsKey tc key) : Public tc key := by
  rcases h with rfl | ⟨i, hi⟩
  · exact ⟨rfl, rfl, rfl, rfl, rfl, rfl, rfl⟩
  · cases i with
    | zero => simp [getInd] at hi
    | succ j => exact (getInd_eq_some hi).choose_spec.2.2.2

section Members

variable {p q : SafePrime} {coeffs : List ℕ} {d inv : ℕ} {tc : Dealer} {hp : List ℕ → ℕ} {key : IndKey} {hM : ℕ}

/-- The unit of the normalized digest, from those of the digest and of `u`. -/
def normalUnit (tc : Dealer) (hM : ℕ) (h u : (ZMod tc.n)ˣ) : (ZMod tc.n)ˣ :=
  if jacobi hM tc.n = -1 then h * u ^ (tc.e : ℤ) else h

theorem Dealt.jacobi_digest (h : Dealt p q coeffs d inv tc) (hcop : hM.Coprime tc.n) :
    jacobi hM tc.n = 1 ∨ jacobi hM tc.n = -1 := by
  rw [jacobi_eq _ h.modulus_odd]
  exact jacobiSym.eq_one_or_neg_one (by rw [Int.gcd_natCast_natCast]; exact hcop)

variable {uh uu : (ZMod tc.n)ˣ}

theorem normalize_represents (h : Dealt p q coeffs d inv tc) (hkey : Public tc key) (huh : Represents tc.n hM uh)
    (huu : Represents tc.n tc.u uu) : ∃ x, normalize key hM = .ok x ∧ Represents tc.n x (normalUnit tc hM uh uu) := by
  rw [normalize, normalUnit, hkey.n, hkey.u, hkey.e]
  rcases h.jacobi_digest huh.coprime with hone | hneg
  · rw [hone]
    exact ⟨hM, rfl, huh⟩
  · rw [hneg]
    exact ⟨_, rfl, huh.mul (huu.exp tc.e)⟩

/-- Every member has a share for the digest: the power of its unit with twice the member's secret. -/
theorem genIndSig_represents (hp : List ℕ → ℕ) (h : Dealt p q coeffs d inv tc) {j : ℕ} (hkey : getInd (j + 1) tc = some key)
    (huh : Represents tc.n hM uh) (huu : Represents tc.n tc.u uu) (r : Option ℕ) :
    ∃ s share, tc.si[j]? = some s ∧ genIndSig hp key hM r = .ok share ∧ share.sig < tc.n ∧
      Represents tc.n share.sig (normalUnit tc hM uh uu ^ (2 * (s : ℤ))) := by
  obtain ⟨s, hs, hsi, hnum, hpub⟩ := getInd_eq_some hkey
  obtain ⟨x, hx, hrep⟩ := normalize_represents h hpub huh huu
  have hsig : Represents tc.n (bnModExp x ((2 * s % tc.n : ℕ) : ℤ) tc.n) (normalUnit tc hM uh uu ^ (2 * (s : ℤ))) := by
    have hexp := hrep.exp (2 * s % tc.n)
    rw [h.two_mul_mod hs, Nat.cast_mul, Nat.cast_ofNat] at hexp
    rw [h.two_mul_mod hs, Nat.cast_mul, Nat.cast_ofNat]
    exact hexp
  have hlt := bnModExp_lt (a := x) h.modulus_pos ((2 * s % tc.n : ℕ) : ℤ)
  have hmem : key.mynum ≠ -1 := by omega
  unfold genIndSig
  rw [if_neg hmem, hsi, hx, hpub.n]
  cases r with
  | none => exact ⟨s, _, hs, rfl, hlt, hsig⟩
  | some r => exact ⟨s, _, hs, rfl, hlt, hsig⟩

end Members

/-! ## Proofs of shares -/

section Proofs

variable {p q : SafePrime} {coeffs vs us : List ℕ} {l k e d inv : ℕ} {tc : Dealer} {hp : List ℕ → ℕ}
variable {key mine : IndKey} {hM j r : ℕ} {share : IndSig}

/-- The verification key of a member, from the list that every key has. -/
theorem Dealt.vki_getD (h : Dealt p q coeffs d inv tc) {s : ℕ} (hs : tc.si[j]? = some s) :
    tc.vki.getD j 0 = bnModExp tc.v s tc.n := by
  rw [h.keys, List.getD_eq_getElem?_getD, List.getElem?_map, hs]
  rfl

/-- What a share with a proof consists of. -/
theorem genIndSig_proof {x s : ℕ} (hmem : key.mynum ≠ -1) (hsi : key.si = some s) (hx : normalize key hM = .ok x)
    (h : genIndSig hp key hM (some r) = .ok share) :
    share.sig = bnModExp x ((2 * s % key.n : ℕ) : ℤ) key.n ∧ share.proofZ = s * share.proofC + r ∧
      share.proofC = digestOf hp [key.v, bnModExp x 4 key.n, key.vki.getD key.mynum.toNat 0, bnModExp share.sig 2 key.n,
        bnModExp key.v r key.n, bnModExp (bnModExp x 4 key.n) r key.n] := by
  unfold genIndSig at h
  rw [if_neg hmem, hsi, hx] at h
  cases h
  exact ⟨rfl, rfl, rfl⟩

theorem proofC_eq (h : genIndSig hp key hM (some r) = .ok share) : ∃ bytes, share.proofC = hp bytes := by
  unfold genIndSig at h
  split at h
  · cases h
  cases hsi : key.si with
  | none => simp [hsi] at h
  | some s =>
    rw [hsi] at h
    cases hx : normalize key hM with
    | error err => simp [hx, bind, Except.bind] at h
    | ok x =>
      rw [hx] at h
      cases h
      exact ⟨_, rfl⟩

/-- **A proof that a member makes is accepted**, by every member and by whoever only combines. -/
theorem checkProof_genIndSig (hgen : generate p q coeffs vs us l k e = some tc) (hv : tc.v.Coprime tc.n)
    (hcop : hM.Coprime tc.n) (hkey : IsKey tc key) (hmine : getInd (j + 1) tc = some mine)
    (hshare : genIndSig hp mine hM (some r) = .ok share) : checkProof hp key hM share (j + 1) = .ok true := by
  obtain ⟨-, d, inv, h⟩ := generate_dealt hgen
  have hpos := h.modulus_pos
  have hpub := hkey.public
  obtain ⟨uh, huh⟩ := exists_represents hcop
  obtain ⟨uu, huu⟩ := exists_represents h.coprime_u
  obtain ⟨uv, huv⟩ := exists_represents hv
  obtain ⟨s, hs, hsi, hnum, hmpub⟩ := getInd_eq_some hmine
  obtain ⟨x, hx, hrep⟩ := normalize_represents h hmpub huh huu
  have hxkey : normalize key hM = .ok x := by
    rw [← hx, normalize, normalize, hpub.n, hpub.u, hpub.e, hmpub.n, hmpub.u, hmpub.e]
  obtain ⟨s', share', hs', hshare', -, hsig⟩ := genIndSig_represents hp h hmine huh huu (some r)
  obtain rfl : s = s' := Option.some_inj.mp (hs.symm.trans hs')
  obtain rfl : share = share' := Except.ok.inj (hshare.symm.trans hshare')
  obtain ⟨-, hz, hc⟩ := genIndSig_proof (by omega) hsi hx hshare
  rw [hmpub.n, hmpub.v, hmpub.vki, hnum, Int.toNat_natCast, h.vki_getD hs] at hc
  have hvki : Represents tc.n (bnModExp tc.v s tc.n) (uv ^ (s : ℤ)) := huv.exp s
  obtain ⟨viInv, hviInv, hvirep⟩ := hvki.inverse hpos
  obtain ⟨xiInv, hxiInv, hxirep⟩ := hsig.inverse hpos
  have hxt : Represents tc.n (bnModExp x 4 tc.n) (normalUnit tc hM uh uu ^ (4 : ℤ)) := hrep.exp 4
  -- the two powers that are recomputed are those that were made with the random number
  have hleft : bnModExp tc.v share.proofZ tc.n * bnModExp viInv share.proofC tc.n % tc.n = bnModExp tc.v r tc.n := by
    refine Represents.eq ((huv.exp _).mul (hvirep.exp _)) ((huv.exp r).congr ?_) (Nat.mod_lt _ hpos) (bnModExp_lt hpos _)
    rw [hz, inv_zpow', ← zpow_mul, ← zpow_add]
    congr 1
    push_cast
    ring
  have hright : bnModExp (bnModExp x 4 tc.n) share.proofZ tc.n * bnModExp xiInv (share.proofC * 2) tc.n % tc.n =
      bnModExp (bnModExp x 4 tc.n) r tc.n := by
    have hxi := hxirep.exp (share.proofC * 2)
    rw [Nat.cast_mul, Nat.cast_ofNat] at hxi
    refine Represents.eq ((hxt.exp _).mul hxi) ((hxt.exp r).congr ?_) (Nat.mod_lt _ hpos) (bnModExp_lt hpos _)
    rw [hz, inv_zpow', ← zpow_mul, ← zpow_mul, ← zpow_mul, ← zpow_add]
    congr 1
    push_cast
    ring
  unfold checkProof
  rw [hxkey, hpub.n, hpub.v, hpub.vki, Nat.add_sub_cancel, h.vki_getD hs]
  dsimp only [bind, Except.bind]
  rw [hviInv, hxiInv]
  dsimp only [orArthError]
  rw [hleft, hright, ← hc, beq_self_eq_true]

/-- A hash with values that are larger than the random numbers of proofs for small keys. -/
def plainHash (bytes : List ℕ) : ℕ := 1000 + bytes.sum

def thirdMember : IndKey := { getCombine fourMembers with mynum := 2, si := some 33 }

theorem genIndSig_thirdMember : genIndSig plainHash thirdMember 6 (some 200) = .ok ⟨70, 62636, 1892⟩ := by decide +kernel

theorem checkProof_thirdMember : checkProof plainHash (getCombine fourMembers) 6 ⟨70, 62636, 1892⟩ 3 = .ok true :=
  checkProof_genIndSig generate_fourMembers (by decide) (by decide) (.inl rfl) rfl genIndSig_thirdMember

/-- What the public numbers and a share with a proof say about the key of the member. -/
def stolenKey (tc : Dealer) (j : ℕ) (share : IndSig) : IndKey :=
  { getCombine tc with mynum := j, si := some (share.proofZ / share.proofC) }

/-- It is the key: the random number of the proof is smaller than what a hash is, so that the
quotient of the two numbers of the proof is the secret. -/
theorem stolenKey_eq (hmine : getInd (j + 1) tc = some mine) (hshare : genIndSig hp mine hM (some r) = .ok share)
    (hr : r < proofRange tc.n) (hc : proofRange tc.n ≤ share.proofC) : stolenKey tc j share = mine := by
  obtain ⟨s, hs, hsi, hnum, hpub⟩ := getInd_eq_some hmine
  cases hx : normalize mine hM with
  | error err =>
    unfold genIndSig at hshare
    rw [if_neg (by omega), hsi, hx] at hshare
    cases hshare
  | ok x =>
    obtain ⟨-, hz, -⟩ := genIndSig_proof (by omega) hsi hx hshare
    have hquot : share.proofZ / share.proofC = s := by
      rw [hz, Nat.add_comm, Nat.add_mul_div_right _ _ (by omega), Nat.div_eq_of_lt (by omega), Nat.zero_add]
    obtain ⟨l, k, mynum, v, u, e, n, vki, si⟩ := mine
    obtain ⟨hl, hk, hv, hu, he, hn, hvki⟩ := hpub
    simp only at hl hk hv hu he hn hvki hnum hsi
    subst hl hk hv hu he hn hvki hnum hsi
    rw [stolenKey, hquot]
    rfl

end Proofs

end Spire.Threshold
