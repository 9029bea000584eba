import Spire.ThresholdShares

/-!
# Combining signature shares

Any `k` shares that members made of a digest combine to a signature that the public key
verifies, whichever they are and whoever combines them (`combine_verifies`), and it is the only
one there is (`verify_unique`). Shares whose proofs are not accepted do not disturb this. The
two halves of the parallel version compute what the sequential one does
(`combineSigs_eq_parts`), and a share with a proof gives away so much that `k` of them suffice
to sign any other digest (`proofs_forge`).
-/

namespace Spire.Threshold

open Polynomial Spire.Lib

/-! ## The coefficients -/

theorem delta_eq (key : IndKey) : delta key = key.l.factorial := by
  have hfact : ∀ n : ℕ, (List.range' 2 n).foldl (fun (d : ℤ) (j : ℕ) => d * j) 1 = (n + 1).factorial := by
    intro n
    induction n with
    | zero => rfl
    | succ n ih =>
      rw [List.range'_1_concat, List.foldl_append, ih, List.foldl_cons, List.foldl_nil, Nat.factorial_succ (n + 1)]
      push_cast
      ring
  rw [delta, hfact]
  cases key.l with
  | zero => rfl
  | succ n => rw [Nat.add_sub_cancel]

theorem foldl_mul_eq (S : List ℕ) (j : ℤ) (f : ℕ → ℤ) (a : ℤ) :
    S.foldl (fun answer (s : ℕ) => if (s : ℤ) ≠ j then answer * f s else answer) a =
      a * ((S.filter fun (s : ℕ) => (s : ℤ) ≠ j).map f).prod := by
  induction S generalizing a with
  | nil => simp
  | cons s S ih =>
    rw [List.foldl_cons, ih, List.filter_cons]
    by_cases hs : (s : ℤ) = j
    · simp [hs]
    · simp [hs, mul_assoc]

theorem foldl_tdiv_eq (S : List ℕ) (j : ℤ) (f : ℕ → ℤ) (a : ℤ) :
    S.foldl (fun answer (s : ℕ) => if (s : ℤ) ≠ j then answer.tdiv (f s) else answer) a =
      ((S.filter fun (s : ℕ) => (s : ℤ) ≠ j).map f).foldl Int.tdiv a := by
  induction S generalizing a with
  | nil => rfl
  | cons s S ih =>
    rw [List.foldl_cons, ih, List.filter_cons]
    by_cases hs : (s : ℤ) = j
    · simp [hs]
    · simp [hs]

/-- The others of a set without repetitions, as a product over them. -/
theorem prod_filter_ne {S : List ℕ} (hS : S.Nodup) (j : ℕ) (f : ℕ → ℤ) :
    ((S.filter fun (s : ℕ) => (s : ℤ) ≠ (j : ℤ)).map f).prod = ∏ s ∈ S.toFinset.erase j, f s := by
  rw [← List.prod_toFinset f (hS.filter _), List.toFinset_filter]
  refine Finset.prod_congr ?_ fun _ _ => rfl
  ext s
  simp [and_comm]

/-- `lambda` is the coefficient of Lagrange, multiplied with `l!`. -/
theorem lambda_mul_prod {S : List ℕ} {l : ℕ} (hnodup : S.Nodup) (hS : ∀ s ∈ S, 0 < s ∧ s ≤ l) {j : ℕ} (hj : j ∈ S) :
    lambda 0 j S l.factorial * ∏ s ∈ S.toFinset.erase j, ((j : ℤ) - s) = l.factorial * ∏ s ∈ S.toFinset.erase j, (0 - (s : ℤ)) := by
  rw [lambda, foldl_mul_eq, foldl_tdiv_eq, ← prod_filter_ne hnodup, ← prod_filter_ne hnodup]
  apply foldl_tdiv_mul_prod
  · intro hzero
    obtain ⟨s, hs, hdiff⟩ := List.mem_map.mp hzero
    have := of_decide_eq_true (List.mem_filter.mp hs).2
    omega
  · rw [prod_filter_ne hnodup]
    refine dvd_mul_of_dvd_left (prod_sub_dvd_factorial (fun s hs => hS s ?_) ?_) _
    · rwa [List.mem_toFinset] at hs
    · rwa [List.mem_toFinset]

/-! ## The root -/

/-- The extended algorithm keeps how its two numbers are made from `x` and `y`. -/
theorem euclid_eq (a b : ℕ) (x y : ℤ) (p q r s : ℤ) (ha : p * x + q * y = a) (hb : r * x + s * y = b) :
    (euclid a b p q r s).1 * x + (euclid a b p q r s).2 * y = a.gcd b := by
  fun_induction euclid a b p q r s with
  | case1 a p q r s => rw [ha, Nat.gcd_zero_right]
  | case2 a b p q r s hne ih =>
    have hdiv : ((a % b : ℕ) : ℤ) = a - b * (a / b : ℕ) := by
      have hsplit := congrArg (Nat.cast (R := ℤ)) (Nat.div_add_mod a b)
      rw [Nat.cast_add, Nat.cast_mul] at hsplit
      omega
    rw [ih hb ?_, Nat.gcd_comm, ← Nat.gcd_rec, Nat.gcd_comm]
    rw [hdiv, ← ha, ← hb]
    ring

/-- The two numbers with which 4 and an odd exponent make 1. -/
theorem euclid_bezout {e : ℕ} (he : Odd e) : (euclid 4 e 1 0 0 1).1 * (2 * 2) + (euclid 4 e 1 0 0 1).2 * (e : ℤ) = 1 := by
  have hgcd : Nat.gcd 4 e = 1 := (Nat.Coprime.pow_left 2 (Nat.coprime_two_left.mpr he) : Nat.Coprime (2 ^ 2) e)
  have h := euclid_eq 4 e (2 * 2) e 1 0 0 1 (by norm_num) (by ring)
  rw [h, hgcd]
  rfl

section Combine

variable {p q : SafePrime} {coeffs vs us : List ℕ} {l k e d inv : ℕ} {tc : Dealer} {hp : List ℕ → ℕ}
variable {sigs : ℕ → Option IndSig} {key : IndKey} {hM : ℕ} {checkproof : Bool}

/-! ## The shares that are used -/

theorem foldl_take_eq (k : ℕ) (use : ℕ → Bool) (js S : List ℕ) :
    js.foldl (fun S j => if S.length < k ∧ use j then S ++ [j + 1] else S) S =
      S ++ ((js.filter use).take (k - S.length)).map (· + 1) := by
  induction js generalizing S with
  | nil => simp
  | cons j js ih =>
    rw [List.foldl_cons, ih, List.filter_cons]
    by_cases huse : use j
    · by_cases hlt : S.length < k
      · rw [if_pos ⟨hlt, huse⟩, if_pos huse, List.length_append, List.length_singleton,
          show k - S.length = (k - (S.length + 1)) + 1 by omega]
        simp
      · rw [if_neg (fun h => hlt h.1), show k - S.length = 0 by omega]
        simp
    · rw [if_neg (fun h => huse h.2), if_neg huse]

theorem setS_eq (hp : List ℕ → ℕ) (sigs : ℕ → Option IndSig) (key : IndKey) (hM : ℕ) (checkproof : Bool) :
    setS hp sigs key hM checkproof =
      (((List.range key.l).filter (usable hp sigs key hM checkproof)).take key.k).map (· + 1) := by
  rw [setS, foldl_take_eq]
  simp

theorem nodup_setS : (setS hp sigs key hM checkproof).Nodup := by
  rw [setS_eq]
  refine List.Nodup.map (fun a b h => Nat.succ_injective h) ?_
  exact ((List.nodup_range.filter _).sublist (List.take_sublist _ _))

theorem mem_setS {s : ℕ} (h : s ∈ setS hp sigs key hM checkproof) :
    ∃ j < key.l, s = j + 1 ∧ usable hp sigs key hM checkproof j = true := by
  rw [setS_eq, List.mem_map] at h
  obtain ⟨j, hj, rfl⟩ := h
  obtain ⟨hmem, huse⟩ := List.mem_filter.mp (List.mem_of_mem_take hj)
  exact ⟨j, List.mem_range.mp hmem, rfl, huse⟩

theorem length_setS (h : key.k ≤ (List.range key.l).countP (usable hp sigs key hM checkproof)) :
    (setS hp sigs key hM checkproof).length = key.k := by
  rw [setS_eq, List.length_map, List.length_take, ← List.countP_eq_length_filter]
  omega

/-- The shares that are used were made by members of the digest, and there are enough of them. -/
structure Honest (tc : Dealer) (hp : List ℕ → ℕ) (sigs : ℕ → Option IndSig) (key : IndKey) (hM : ℕ) (checkproof : Bool) : Prop where
  isKey : IsKey tc key
  made : ∀ j < tc.l, usable hp sigs key hM checkproof j = true → ∃ share mine r made, sigs j = some share ∧
    getInd (j + 1) tc = some mine ∧ genIndSig hp mine hM r = .ok made ∧ share.sig = made.sig
  enough : tc.k ≤ (List.range tc.l).countP (usable hp sigs key hM checkproof)

/-! ## The product and the root -/

/-- The loop over the shares multiplies what they contribute. -/
theorem foldlM_represents {n : ℕ} {g : ℕ → Except TcError ℕ} {T : ℕ → (ZMod n)ˣ} (js : List ℕ)
    (hg : ∀ j ∈ js, ∃ t, g j = .ok t ∧ Represents n t (T j)) {w : ℕ} {W : (ZMod n)ˣ} (hw : Represents n w W) :
    ∃ w', js.foldlM (fun w j => do let t ← g j; .ok (w * t % n)) w = .ok w' ∧ Represents n w' (W * (js.map T).prod) := by
  induction js generalizing w W with
  | nil => exact ⟨w, rfl, by simpa using hw⟩
  | cons j js ih =>
    obtain ⟨t, ht, hrep⟩ := hg j List.mem_cons_self
    obtain ⟨w', hw', hrep'⟩ := ih (fun i hi => hg i (List.mem_cons_of_mem _ hi)) (hw.mul hrep)
    refine ⟨w', ?_, by rwa [List.map_cons, List.prod_cons, ← mul_assoc]⟩
    rw [List.foldlM_cons, ht]
    exact hw'

variable {uh uu W : (ZMod tc.n)ˣ} {w : ℕ}

/-- What `finish` yields is a root of the digest, if the product is one of the fourth power. -/
theorem finish_represents (h : Dealt p q coeffs d inv tc) (he : Odd tc.e) (hkey : Public tc key)
    (huh : Represents tc.n hM uh) (huu : Represents tc.n tc.u uu) (hw : Represents tc.n w W)
    (hroot : W ^ (tc.e : ℤ) = normalUnit tc hM uh uu ^ (2 * 2 : ℤ)) :
    ∃ sig y, finish key hM w = .ok sig ∧ sig < tc.n ∧ Represents tc.n sig y ∧ y ^ (tc.e : ℤ) = uh := by
  have hpos := h.modulus_pos
  have hy := root_of_bezout hroot (euclid_bezout he)
  unfold finish
  rw [hkey.e, hkey.n, hkey.u]
  generalize euclid 4 tc.e 1 0 0 1 = pq at hy ⊢
  obtain ⟨pe, qe⟩ := pq
  obtain ⟨wp, hwp, hwprep⟩ := hw.modifiedExp hpos pe
  dsimp only at hy ⊢
  rw [hwp]
  rcases h.jacobi_digest huh.coprime with hone | hneg
  · have hnot : jacobi hM tc.n ≠ -1 := by rw [hone]; decide
    rw [normalUnit, if_neg hnot] at hy
    obtain ⟨xq, hxq, hxqrep⟩ := huh.modifiedExp hpos qe
    simp only [if_neg hnot]
    rw [hxq]
    exact ⟨wp * xq % tc.n, _, rfl, Nat.mod_lt _ hpos, hwprep.mul hxqrep, hy⟩
  · rw [normalUnit, if_pos hneg] at hy
    have hx : Represents tc.n (bnModExp tc.u tc.e tc.n * hM % tc.n) (uh * uu ^ (tc.e : ℤ)) :=
      ((huu.exp tc.e).mul huh).congr (mul_comm _ _)
    obtain ⟨xq, hxq, hxqrep⟩ := hx.modifiedExp hpos qe
    obtain ⟨uInv, huInv, huInvrep⟩ := huu.inverse hpos
    simp only [if_pos hneg]
    rw [hxq, huInv]
    refine ⟨wp * xq % tc.n * uInv % tc.n, _, rfl, Nat.mod_lt _ hpos, (hwprep.mul hxqrep).mul huInvrep, ?_⟩
    rw [mul_zpow, hy, inv_zpow, mul_assoc, mul_inv_cancel, mul_one]

/-- A share that is used is the power of the digest with twice the secret of its member. -/
theorem Honest.share (hon : Honest tc hp sigs key hM checkproof) (h : Dealt p q coeffs d inv tc)
    (huh : Represents tc.n hM uh) (huu : Represents tc.n tc.u uu) {j : ℕ} (hj : j < tc.l)
    (huse : usable hp sigs key hM checkproof j = true) :
    ∃ share, sigs j = some share ∧ tc.si[j]? = some (tc.si.getD j 0) ∧
      Represents tc.n share.sig (normalUnit tc hM uh uu ^ (2 * ((tc.si.getD j 0 : ℕ) : ℤ))) := by
  obtain ⟨share, mine, r, made, hshare, hmine, hmade, hsig⟩ := hon.made j hj huse
  obtain ⟨s, made', hs, hmade', -, hrep⟩ := genIndSig_represents hp h hmine huh huu r
  obtain rfl : made = made' := Except.ok.inj (hmade.symm.trans hmade')
  have hget : tc.si.getD j 0 = s := by rw [List.getD_eq_getElem?_getD, hs]; rfl
  rw [hget]
  exact ⟨share, hshare, hs, by rw [hsig]; exact hrep⟩

/-- The product of the shares that are used is a root of the fourth power of the digest. -/
theorem factors_represent (h : Dealt p q coeffs d inv tc) (hpq : p.half ≠ q.half) (hon : Honest tc hp sigs key hM checkproof)
    (huh : Represents tc.n hM uh) (huu : Represents tc.n tc.u uu) :
    ∃ w W, (setS hp sigs key hM checkproof).foldlM (fun w j => do
        let t ← factor sigs key (setS hp sigs key hM checkproof) j
        .ok (w * t % key.n)) 1 = .ok w ∧
      Represents tc.n w W ∧ W ^ (tc.e : ℤ) = normalUnit tc hM uh uu ^ (2 * 2 : ℤ) := by
  have hpub := hon.isKey.public
  have hlen : (setS hp sigs key hM checkproof).length = tc.k := by
    rw [← hpub.k]
    exact length_setS (by rw [hpub.k, hpub.l]; exact hon.enough)
  have hnodup : (setS hp sigs key hM checkproof).Nodup := nodup_setS
  have hmem : ∀ s ∈ setS hp sigs key hM checkproof, ∃ j < tc.l, s = j + 1 ∧ usable hp sigs key hM checkproof j = true := by
    intro s hs
    obtain ⟨j, hj, hrest⟩ := mem_setS hs
    exact ⟨j, hpub.l ▸ hj, hrest⟩
  generalize setS hp sigs key hM checkproof = S at hlen hnodup hmem ⊢
  rw [hpub.n]
  -- what each of them contributes
  have hfactor : ∀ s ∈ S, ∃ t, factor sigs key S s = .ok t ∧ Represents tc.n t
      ((normalUnit tc hM uh uu ^ (2 * ((tc.si.getD (s - 1) 0 : ℕ) : ℤ))) ^ (lambda 0 s S tc.l.factorial * 2)) := by
    intro s hs
    obtain ⟨j, hj, rfl, huse⟩ := hmem s hs
    obtain ⟨share, hshare, -, hrep⟩ := hon.share h huh huu hj huse
    obtain ⟨t, ht, htrep⟩ := hrep.modifiedExp h.modulus_pos (lambda 0 ((j + 1 : ℕ) : ℤ) S tc.l.factorial * 2)
    refine ⟨t, ?_, htrep⟩
    rw [factor, Nat.add_sub_cancel, hshare, delta_eq, hpub.l, hpub.n]
    dsimp only
    rw [ht]
    rfl
  have hone : Represents tc.n 1 1 := by rw [Represents]; simp
  obtain ⟨w, hw, hrep⟩ := foldlM_represents S hfactor hone
  refine ⟨w, _, hw, hrep, ?_⟩
  -- the product of the contributions
  have hcoeff : ∀ j ∈ S.toFinset, lambda 0 j S tc.l.factorial * ∏ s ∈ S.toFinset.erase j, ((j : ℤ) - s) =
      tc.l.factorial * ∏ s ∈ S.toFinset.erase j, (0 - (s : ℤ)) := by
    intro j hj
    refine lambda_mul_prod hnodup (fun s hs => ?_) (List.mem_toFinset.mp hj)
    obtain ⟨i, hi, rfl, -⟩ := hmem s hs
    omega
  have hdeg : (sharePoly (d :: coeffs)).degree < S.toFinset.card := by
    refine lt_of_lt_of_le (degree_sharePoly _) ?_
    rw [List.toFinset_card_of_nodup hnodup, hlen, List.length_cons]
    exact_mod_cast h.bounds.1
  have hsecret : ∀ s ∈ S.toFinset, ((tc.si.getD (s - 1) 0 : ℕ) : ℤ) ≡
      (sharePoly (d :: coeffs)).eval (s : ℤ) * inv [ZMOD (p.half * q.half : ℕ)] := by
    intro s hs
    obtain ⟨j, hj, rfl, huse⟩ := hmem s (List.mem_toFinset.mp hs)
    obtain ⟨share, -, hsi, -⟩ := hon.share h huh huu hj huse
    exact h.share_modEq hsi
  have hexp : 2 * 2 * (d : ℤ) * tc.e ≡ 2 * 2 [ZMOD 2 * 2 * ((p.half * q.half : ℕ) : ℤ)] := by
    rw [mul_assoc (2 * 2), mul_comm (d : ℤ)]
    simpa using h.secret.mul_left' (c := 2 * 2)
  rw [one_mul, ← List.prod_toFinset _ hnodup, prod_zpow_shares (h.zpow_eq_one hpq _) hcoeff hdeg h.inverse hsecret,
    eval_zero_sharePoly, ← zpow_mul]
  exact zpow_eq_of_modEq (h.zpow_eq_one hpq _) hexp

/-- What is combined is a root of the digest. -/
theorem combineSigs_represents (h : Dealt p q coeffs d inv tc) (hpq : p.half ≠ q.half) (he : Odd tc.e)
    (hon : Honest tc hp sigs key hM checkproof) (huh : Represents tc.n hM uh) :
    ∃ sig y, combineSigs hp sigs key hM checkproof = .ok sig ∧ sig < tc.n ∧ Represents tc.n sig y ∧ y ^ (tc.e : ℤ) = uh := by
  have hpub := hon.isKey.public
  obtain ⟨uu, huu⟩ := exists_represents h.coprime_u
  obtain ⟨w, W, hw, hrep, hroot⟩ := factors_represent h hpq hon huh huu
  obtain ⟨sig, y, hsig, hlt, hsigrep, hy⟩ := finish_represents h he hpub huh huu hrep hroot
  refine ⟨sig, y, ?_, hlt, hsigrep, hy⟩
  have hlen : (setS hp sigs key hM checkproof).length = key.k :=
    length_setS (by rw [hpub.k, hpub.l]; exact hon.enough)
  unfold combineSigs
  simp only [hlen, ↓reduceIte]
  rw [hw]
  exact hsig

/-! ## The signature -/

theorem Dealt.isCoprime (h : Dealt p q coeffs d inv tc) (he : Odd tc.e) :
    IsCoprime (tc.e : ℤ) (2 * 2 * ((p.half * q.half : ℕ) : ℤ)) := by
  have htwo : IsCoprime (tc.e : ℤ) 2 := (Int.isCoprime_iff_gcd_eq_one.mpr (by
    rw [show (2 : ℤ) = ((2 : ℕ) : ℤ) from rfl, Int.gcd_natCast_natCast]
    exact Nat.coprime_two_right.mpr he))
  have hhalf : IsCoprime (tc.e : ℤ) ((p.half * q.half : ℕ) : ℤ) := by
    obtain ⟨c, hc⟩ := h.secret.dvd
    exact ⟨d, c, by rw [mul_comm (d : ℤ), mul_comm c, ← hc]; ring⟩
  exact (htwo.mul_right htwo).mul_right hhalf

/-- A number below `n` verifies exactly if it stands for the root of the digest. -/
theorem verify_iff (h : Dealt p q coeffs d inv tc) (hpq : p.half ≠ q.half) (he : Odd tc.e) (hlt : hM < tc.n)
    (huh : Represents tc.n hM uh) {sig s : ℕ} {y : (ZMod tc.n)ˣ} (hsig : sig < tc.n) (hrep : Represents tc.n sig y)
    (hy : y ^ (tc.e : ℤ) = uh) (hs : s < tc.n) : verify hM s (getPub tc) = true ↔ s = sig := by
  have hpos := h.modulus_pos
  rw [verify, getPub, beq_iff_eq]
  constructor
  · intro hver
    have hcop : s.Coprime tc.n := by
      have hpow : (s ^ tc.e % tc.n).Coprime tc.n := by
        rw [bnModExp, Int.natAbs_natCast] at hver
        rw [hver]
        exact huh.coprime
      rw [Nat.Coprime, ← Nat.gcd_rec, Nat.gcd_comm] at hpow
      exact Nat.Coprime.coprime_dvd_left (dvd_pow_self s he.pos.ne') hpow
    obtain ⟨z, hz⟩ := exists_represents hcop
    have hzy : z ^ (tc.e : ℤ) = y ^ (tc.e : ℤ) := by
      have hexp := hz.exp tc.e
      rw [hver] at hexp
      exact (hexp.unique huh).trans hy.symm
    exact (hz.congr (root_unique (h.zpow_eq_one hpq z) (h.zpow_eq_one hpq y) (h.isCoprime he) hzy)).eq hrep hs hsig
  · rintro rfl
    exact (hrep.exp tc.e).eq (huh.congr hy.symm) (bnModExp_lt hpos _) hlt

theorem usable_false (j : ℕ) : usable hp sigs key hM false j = (sigs j).isSome := by
  rw [usable]
  cases sigs j with
  | none => rfl
  | some share => rfl

/-- The shares that some members make of a digest, with proofs. -/
def sharesOf (tc : Dealer) (members : List ℕ) (hM : ℕ) (j : ℕ) : Option IndSig :=
  if j ∈ members then (getInd (j + 1) tc).bind fun mine => (genIndSig plainHash mine hM (some 200)).toOption else none

theorem sharesOf_made {members : List ℕ} {j : ℕ} {share : IndSig} (h : sharesOf tc members hM j = some share) :
    ∃ mine, getInd (j + 1) tc = some mine ∧ genIndSig plainHash mine hM (some 200) = .ok share := by
  unfold sharesOf at h
  split at h
  · obtain ⟨mine, hmine, hmade⟩ := Option.bind_eq_some_iff.mp h
    refine ⟨mine, hmine, ?_⟩
    cases hres : genIndSig plainHash mine hM (some 200) with
    | error err => simp [hres, Except.toOption] at hmade
    | ok made => simpa [hres, Except.toOption] using hmade
  · cases h

/-- Every digest has one signature, and that is what honest shares combine to. -/
theorem Dealt.signature (h : Dealt p q coeffs d inv tc) (hpq : p.half ≠ q.half) (he : Odd tc.e)
    (hlt : hM < tc.n) (hcop : hM.Coprime tc.n) :
    ∃ sig < tc.n, (∀ s < tc.n, verify hM s (getPub tc) = true ↔ s = sig) ∧
      ∀ hp sigs key checkproof, Honest tc hp sigs key hM checkproof → combineSigs hp sigs key hM checkproof = .ok sig := by
  have hpos := h.modulus_pos
  have : NeZero tc.n := ⟨hpos.ne'⟩
  obtain ⟨uh, huh⟩ := exists_represents hcop
  -- the root there is, since the exponent is invertible
  obtain ⟨a, b, hab⟩ := h.isCoprime he
  have hroot : (uh ^ a) ^ (tc.e : ℤ) = uh := by
    have hone : a * (tc.e : ℤ) ≡ 1 [ZMOD 2 * 2 * ((p.half * q.half : ℕ) : ℤ)] := by
      rw [← hab]
      exact (Int.modEq_iff_dvd.mpr ⟨b, by ring⟩)
    rw [← zpow_mul, zpow_eq_of_modEq (h.zpow_eq_one hpq uh) hone, zpow_one]
  have hval : Represents tc.n ((uh ^ a : (ZMod tc.n)ˣ) : ZMod tc.n).val (uh ^ a) := ZMod.natCast_zmod_val _
  have hvlt := ZMod.val_lt ((uh ^ a : (ZMod tc.n)ˣ) : ZMod tc.n)
  have hverify : ∀ s < tc.n, verify hM s (getPub tc) = true ↔ s = ((uh ^ a : (ZMod tc.n)ˣ) : ZMod tc.n).val :=
    fun s hs => verify_iff h hpq he hlt huh hvlt hval hroot hs
  refine ⟨_, hvlt, hverify, fun hp sigs key checkproof hon => ?_⟩
  obtain ⟨sig, y, hsig, hsiglt, hrep, hy⟩ := combineSigs_represents h hpq he hon huh
  rw [hsig, (hverify sig hsiglt).mp ((verify_iff h hpq he hlt huh hsiglt hrep hy hsiglt).mpr rfl)]

/-- **Any `k` shares that members made of a digest combine to its signature**, whichever they are
and whoever combines them, and nothing else below `n` verifies. -/
theorem combine_verifies (hgen : generate p q coeffs vs us l k e = some tc) (hpq : p.half ≠ q.half) (he : Odd e)
    (hlt : hM < tc.n) (hcop : hM.Coprime tc.n) :
    ∃ sig < tc.n, (∀ s < tc.n, verify hM s (getPub tc) = true ↔ s = sig) ∧
      ∀ hp sigs key checkproof, Honest tc hp sigs key hM checkproof → combineSigs hp sigs key hM checkproof = .ok sig := by
  obtain ⟨⟨-, -, rfl⟩, d, inv, h⟩ := generate_dealt hgen
  exact h.signature hpq he hlt hcop

theorem fourMembers_signature : ∃ sig, combineSigs plainHash (sharesOf fourMembers [1, 3] 6) (getCombine fourMembers) 6 true = .ok sig ∧
    verify 6 sig (getPub fourMembers) = true := by
  obtain ⟨sig, hlt, hver, hcombine⟩ :=
    combine_verifies generate_fourMembers (by decide) (by decide) (show 6 < fourMembers.n by decide) (by decide)
  refine ⟨sig, hcombine _ _ _ _ ⟨.inl rfl, fun j _ huse => ?_, by decide +kernel⟩, (hver sig hlt).mpr rfl⟩
  unfold usable at huse
  split at huse
  · cases huse
  · rename_i share hshare
    obtain ⟨mine, hmine, hmade⟩ := sharesOf_made hshare
    exact ⟨share, mine, _, share, hshare, hmine, hmade, rfl⟩

/-- **Proofs give the key away**: whoever sees the shares of `k` members with proofs, for one digest,
can sign every other one. -/
theorem proofs_forge (hgen : generate p q coeffs vs us l k e = some tc) (hpq : p.half ≠ q.half) (he : Odd e)
    (hsigs : ∀ j share, sigs j = some share → ∃ mine r, getInd (j + 1) tc = some mine ∧
      genIndSig hp mine hM (some r) = .ok share ∧ r < proofRange tc.n ∧ proofRange tc.n ≤ share.proofC)
    (henough : k ≤ (List.range l).countP fun j => (sigs j).isSome) {other : ℕ} (hlt : other < tc.n) (hcop : other.Coprime tc.n) :
    ∃ sig, combineSigs hp (fun j => (sigs j).bind fun share => (genIndSig hp (stolenKey tc j share) other none).toOption)
      (getCombine tc) other false = .ok sig ∧ verify other sig (getPub tc) = true := by
  obtain ⟨⟨rfl, rfl, rfl⟩, d, inv, h⟩ := generate_dealt hgen
  obtain ⟨ux, hux⟩ := exists_represents hcop
  obtain ⟨uu, huu⟩ := exists_represents h.coprime_u
  -- the member's share for the other digest is made with what was stolen
  have hforged : ∀ j share, sigs j = some share → ∃ mine made, getInd (j + 1) tc = some mine ∧
      genIndSig hp mine other none = .ok made ∧ genIndSig hp (stolenKey tc j share) other none = .ok made := by
    intro j share hj
    obtain ⟨mine, r, hmine, hmade, hr, hc⟩ := hsigs j share hj
    obtain ⟨-, made, -, hother, -⟩ := genIndSig_represents hp h hmine hux huu none
    exact ⟨mine, made, hmine, hother, by rw [stolenKey_eq hmine hmade hr hc]; exact hother⟩
  have hon : Honest tc hp (fun j => (sigs j).bind fun share => (genIndSig hp (stolenKey tc j share) other none).toOption)
      (getCombine tc) other false := by
    refine ⟨.inl rfl, fun j _ huse => ?_, henough.trans (List.countP_mono_left fun j _ hj => ?_)⟩
    · rw [usable_false] at huse
      cases hj : sigs j with
      | none => simp [hj] at huse
      | some share =>
        obtain ⟨mine, made, hmine, hmade, hstolen⟩ := hforged j share hj
        exact ⟨made, mine, none, made, by simp [hstolen, Except.toOption], hmine, hmade, rfl⟩
    · rw [usable_false]
      obtain ⟨share, hshare⟩ := Option.isSome_iff_exists.mp hj
      obtain ⟨mine, made, -, -, hstolen⟩ := hforged j share hshare
      simp [hshare, hstolen, Except.toOption]
  obtain ⟨sig, y, hsig, hsiglt, hrep, hy⟩ := combineSigs_represents h hpq he hon hux
  exact ⟨sig, hsig, (verify_iff h hpq he hlt hux hsiglt hrep hy hsiglt).mpr rfl⟩

theorem fourMembers_forged : ∃ sig, combineSigs plainHash (fun j => (sharesOf fourMembers [1, 3] 6 j).bind fun share =>
      (genIndSig plainHash (stolenKey fourMembers j share) 7 none).toOption) (getCombine fourMembers) 7 false = .ok sig ∧
    verify 7 sig (getPub fourMembers) = true := by
  have hsigs : ∀ j share, sharesOf fourMembers [1, 3] 6 j = some share → ∃ mine r, getInd (j + 1) fourMembers = some mine ∧
      genIndSig plainHash mine 6 (some r) = .ok share ∧ r < proofRange fourMembers.n ∧ proofRange fourMembers.n ≤ share.proofC := by
    intro j share h
    obtain ⟨mine, hmine, hmade⟩ := sharesOf_made h
    refine ⟨mine, 200, hmine, hmade, by decide +kernel, ?_⟩
    obtain ⟨bytes, hbytes⟩ := proofC_eq hmade
    have hrange : proofRange fourMembers.n ≤ 1000 := by decide +kernel
    rw [hbytes, plainHash]
    omega
  exact proofs_forge generate_fourMembers (by decide) (by decide) hsigs (by decide +kernel) (by decide) (by decide)

end Combine

/-! ## The parallel version -/

section Parts

variable {ε α β γ : Type} {f : γ → β → γ} {g : α → Except ε β}

/-- A loop over results is a loop over what they are, once all are there. -/
theorem foldlM_eq_mapM (js : List α) (w : γ) :
    js.foldlM (fun w j => do let t ← g j; .ok (f w t)) w = (do let ts ← js.mapM g; .ok (ts.foldl f w)) := by
  induction js generalizing w with
  | nil => rfl
  | cons j js ih =>
    rw [List.foldlM_cons, List.mapM_cons]
    cases g j with
    | error err => rfl
    | ok t =>
      show js.foldlM _ (f w t) = _
      rw [ih]
      cases hrest : js.mapM g with
      | error err => simp only [bind, Except.bind]
      | ok ts => simp only [bind, Except.bind, pure, Except.pure, List.foldl_cons]

theorem mapM_tag (S : γ) (js : List α) :
    (do let ps ← js.mapM fun j => (do let t ← g j; .ok (t, S)); .ok (ps.map Prod.fst)) = js.mapM g := by
  induction js with
  | nil => rfl
  | cons j js ih =>
    rw [List.mapM_cons, List.mapM_cons, ← ih]
    cases g j with
    | error err => rfl
    | ok t =>
      cases hrest : js.mapM fun j => (do let t ← g j; Except.ok (t, S)) with
      | error err => simp only [bind, Except.bind]
      | ok ts => simp only [bind, Except.bind, pure, Except.pure, List.map_cons]

theorem length_of_mapM {js : List α} {ts : List β} (h : js.mapM g = .ok ts) : ts.length = js.length := by
  induction js generalizing ts with
  | nil => cases h; rfl
  | cons j js ih =>
    rw [List.mapM_cons] at h
    cases hj : g j with
    | error err => rw [hj] at h; cases h
    | ok t =>
      cases hrest : js.mapM g with
      | error err => simp [hj, hrest, bind, Except.bind] at h
      | ok rest =>
        simp only [hj, hrest, bind, Except.bind, pure, Except.pure, Except.ok.injEq] at h
        subst h
        rw [List.length_cons, List.length_cons, ih hrest]

end Parts

theorem range_getD (S : List ℕ) : S = (List.range S.length).map fun i => S.getD i 0 := by
  refine List.ext_getElem (by simp) fun i hi _ => ?_
  rw [List.getElem_map, List.getElem_range, List.getD_eq_getElem?_getD, List.getElem?_eq_getElem hi, Option.getD_some]

/-- **`TC_Combine_Sigs_P1` for every share and then `TC_Combine_Sigs_P2` do what `TC_Combine_Sigs`
does**, with the same errors, whatever the shares are. -/
theorem combineSigs_eq_parts (hp : List ℕ → ℕ) (sigs : ℕ → Option IndSig) (key : IndKey) (hM : ℕ) (checkproof : Bool) :
    combineSigs hp sigs key hM checkproof = (do
      let parts ← (List.range key.k).mapM fun idx => combineSigsP1 hp sigs key hM checkproof idx
      combineSigsP2 key hM (parts.map Prod.fst)) := by
  have hle : (setS hp sigs key hM checkproof).length ≤ key.k := by
    rw [setS_eq, List.length_map]
    exact List.length_take_le _ _
  unfold combineSigs combineSigsP1
  generalize setS hp sigs key hM checkproof = S at hle ⊢
  by_cases hlen : S.length = key.k
  · simp only [hlen, ↓reduceIte]
    have hparts : ((List.range key.k).mapM fun idx => (do
        let t ← factor sigs key S (S.getD idx 0)
        Except.ok (t, S))) = S.mapM fun j => (do let t ← factor sigs key S j; Except.ok (t, S)) := by
      calc _ = ((List.range key.k).map fun i => S.getD i 0).mapM fun j => (do let t ← factor sigs key S j; Except.ok (t, S)) := by
            rw [List.mapM_map]
            rfl
        _ = _ := by rw [← hlen, ← range_getD S]
    rw [hparts, foldlM_eq_mapM]
    have htag := mapM_tag (g := factor sigs key S) S S
    cases hall : S.mapM fun j => (do let t ← factor sigs key S j; Except.ok (t, S)) with
    | error err =>
      rw [hall] at htag
      rw [← htag]
      rfl
    | ok ps =>
      rw [hall] at htag
      have hlenp : (ps.map Prod.fst).length = key.k := by rw [length_of_mapM htag.symm, hlen]
      rw [← htag]
      show finish key hM _ = finish key hM _
      rw [← hlenp, List.take_length]
  · simp only [hlen, ↓reduceIte]
    have hpos : key.k = (key.k - 1) + 1 := by omega
    rw [hpos, List.range_succ_eq_map, List.mapM_cons]
    rfl

end Spire.Threshold
