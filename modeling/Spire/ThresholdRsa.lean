import Mathlib.Data.Nat.Factorial.Basic
import Mathlib.Data.Nat.Prime.Basic
import Mathlib.Data.Int.GCD
import Mathlib.Data.Nat.Digits.Defs
import Spire.Jacobi

/-!
# Threshold signatures

A dealer generates an RSA modulus from two safe primes, shares the secret exponent with a
polynomial, and gives each of `l` members a share. A member signs a digest with its share, and
may add a proof that it did so. Any `k` of these signature shares are combined to a signature
that the RSA public key verifies.

The random numbers that a function draws are parameters of it, and so is the hash function. An
arithmetic function of the number library that has no result makes the caller fail with
`bnArthError`.
-/

namespace Spire.Threshold

/-! ## Arithmetic -/

/-- `BN_mod_exp`, which does not look at the sign of the exponent. -/
def bnModExp (a : ℕ) (b : ℤ) (n : ℕ) : ℕ := a ^ b.natAbs % n

/-- `BN_mod_inverse`. -/
def bnModInverse (a n : ℕ) : Option ℕ :=
  if a.gcd n = 1 then some (a.gcdA n % n).toNat else none

/-- `modified_BN_mod_exp`: a negative power is a power of the inverse. -/
def modifiedModExp (a : ℕ) (b : ℤ) (n : ℕ) : Option ℕ :=
  if b < 0 then (bnModInverse a n).map fun t => bnModExp t b n else some (bnModExp a b n)

/-- The bytes that `add_bn_to_EVP_digest` adds, the highest first. -/
def bnBytes (a : ℕ) : List ℕ := (Nat.digits 256 a).reverse

/-- The digest of some numbers, one after the other. -/
def digestOf (hp : List ℕ → ℕ) (bns : List ℕ) : ℕ := hp (bns.flatMap bnBytes)

/-! ## Keys -/

structure Dealer where
  u : ℕ
  e : ℕ
  n : ℕ
  l : ℕ
  k : ℕ
  v : ℕ
  vki : List ℕ
  si : List ℕ
deriving DecidableEq

/-- A `TC_IND`: the key of a member, or of one who only combines. -/
structure IndKey where
  l : ℕ
  k : ℕ
  mynum : ℤ
  v : ℕ
  u : ℕ
  e : ℕ
  n : ℕ
  vki : List ℕ
  si : Option ℕ

structure PublicKey where
  e : ℕ
  n : ℕ

/-- A `TC_IND_SIG`. -/
structure IndSig where
  sig : ℕ
  proofZ : ℕ
  proofC : ℕ
deriving DecidableEq

inductive TcError
  | error
  | notEnoughSigs
  | bnArthError
deriving DecidableEq

/-- What `BN_generate_prime_ex` yields when a safe prime is asked for, by its half. -/
structure SafePrime where
  half : ℕ
  half_prime : half.Prime
  prime : (2 * half + 1).Prime

def SafePrime.val (p : SafePrime) : ℕ := 2 * p.half + 1

/-- The dealer's polynomial at `i`, times the inverse of `l!`. -/
def secretShare (fX : List ℕ) (invDelta m i : ℕ) : ℕ :=
  (fX.zipIdx.foldl (fun sum a => sum + a.1 * i ^ a.2) 0) * invDelta % m

/-- `TC_generate`: `coeffs` are the random coefficients, of which `k - 1` are drawn, and `vs` and
`us` the numbers that the two last loops try. -/
def generate (p q : SafePrime) (coeffs vs us : List ℕ) (l k e : ℕ) : Option Dealer :=
  if l ≤ k ∨ l = 0 ∨ k = 0 then none
  else do
    let n := p.val * q.val
    let m := (p.val - 1) / 2 * ((q.val - 1) / 2)
    let d ← bnModInverse e m
    let invDelta ← bnModInverse ((List.range l).foldl (fun delta i => delta * (i + 1)) 1) m
    let si := (List.range l).map fun i => secretShare (d :: coeffs.take (k - 1)) invDelta m (i + 1)
    let a ← vs.find? fun (a : ℕ) => a * a % n ≠ 0
    let v := a * a % n
    let u ← us.find? fun (a : ℕ) => jacobi n a = -1
    some { u, e, n, l, k, v, vki := si.map fun (s : ℕ) => bnModExp v s n, si }

/-- `TC_get_ind`. -/
def getInd (index : ℕ) (tcd : Dealer) : Option IndKey :=
  if index < 1 then none
  else (tcd.si[index - 1]?).map fun s =>
    { l := tcd.l, k := tcd.k, mynum := (index : ℤ) - 1, v := tcd.v, u := tcd.u, e := tcd.e, n := tcd.n
      vki := tcd.vki, si := some s }

/-- `TC_get_combine`. -/
def getCombine (tcd : Dealer) : IndKey :=
  { l := tcd.l, k := tcd.k, mynum := -1, v := tcd.v, u := tcd.u, e := tcd.e, n := tcd.n, vki := tcd.vki, si := none }

/-- `TC_get_pub`. -/
def getPub (tcd : Dealer) : PublicKey := { e := tcd.e, n := tcd.n }

/-! ## Signature shares -/

section Shares

variable (hp : List ℕ → ℕ) (key : IndKey) (hM : ℕ)

/-- The digest, or its multiple with Jacobi symbol 1. -/
def normalize : Except TcError ℕ :=
  if jacobi hM key.n = 1 then .ok hM
  else if jacobi hM key.n = -1 then .ok (hM * bnModExp key.u key.e key.n % key.n)
  else .error .bnArthError

/-- The bound of the random number of a proof: a sum where the comment beside it has a power of 2. -/
def proofRange (n : ℕ) : ℕ := n.size + 2 * 128 - 1

/-- `genIndSig`; with a proof if the random number for it is given. -/
def genIndSig (r : Option ℕ) : Except TcError IndSig :=
  if key.mynum = -1 then .error .error
  else match key.si with
  | none => .error .error
  | some s => do
    let x ← normalize key hM
    let sig := bnModExp x ((2 * s % key.n : ℕ) : ℤ) key.n
    match r with
    | none => .ok ⟨sig, 0, 0⟩
    | some r =>
      let vp := bnModExp key.v r key.n
      let xt := bnModExp x 4 key.n
      let xp := bnModExp xt r key.n
      let xiSq := bnModExp sig 2 key.n
      let c := digestOf hp [key.v, xt, key.vki.getD key.mynum.toNat 0, xiSq, vp, xp]
      .ok ⟨sig, s * c + r, c⟩

/-- A number that may be missing because the library has no result for it. -/
def orArthError {α : Type} (o : Option α) : Except TcError α :=
  match o with
  | some a => .ok a
  | none => .error .bnArthError

/-- `TC_Check_Proof`. -/
def checkProof (sign : IndSig) (signum : ℕ) : Except TcError Bool := do
  let x ← normalize key hM
  let xt := bnModExp x 4 key.n
  let xiSq := bnModExp sign.sig 2 key.n
  let vki := key.vki.getD (signum - 1) 0
  let viInv ← orArthError (bnModInverse vki key.n)
  let left := bnModExp key.v sign.proofZ key.n * bnModExp viInv sign.proofC key.n % key.n
  let xiInv ← orArthError (bnModInverse sign.sig key.n)
  let right := bnModExp xt sign.proofZ key.n * bnModExp xiInv (sign.proofC * 2) key.n % key.n
  .ok (digestOf hp [key.v, xt, vki, xiSq, left, right] == sign.proofC)

end Shares

/-! ## Combining -/

section Combine

/-- `lambda`: the coefficient of the share `j` of those in `S`, for the value at `i`. -/
def lambda (i j : ℤ) (S : List ℕ) (delta : ℤ) : ℤ :=
  S.foldl (fun answer (s : ℕ) => if (s : ℤ) ≠ j then answer.tdiv (j - s) else answer)
    (S.foldl (fun answer (s : ℕ) => if (s : ℤ) ≠ j then answer * (i - s) else answer) delta)

/-- The extended Euclidean algorithm. -/
def euclid (a b : ℕ) (p q r s : ℤ) : ℤ × ℤ :=
  if b = 0 then (p, q) else euclid b (a % b) r s (p - (a / b : ℕ) * r) (q - (a / b : ℕ) * s)
termination_by b
decreasing_by exact Nat.mod_lt _ (Nat.pos_of_ne_zero ‹_›)

variable (hp : List ℕ → ℕ) (sigs : ℕ → Option IndSig) (key : IndKey) (hM : ℕ) (checkproof : Bool)

/-- Whether the share of member `j + 1` is used. -/
def usable (j : ℕ) : Bool :=
  match sigs j with
  | none => false
  | some s =>
    if checkproof then
      match checkProof hp key hM s (j + 1) with
      | .ok good => good
      | .error _ => false
    else true

/-- `Set_S`: the first `k` members with a share that is used. -/
def setS : List ℕ :=
  (List.range key.l).foldl (fun S j => if S.length < key.k ∧ usable hp sigs key hM checkproof j then S ++ [j + 1] else S) []

/-- `delta`, which is `l!`. -/
def delta : ℤ := (List.range' 2 (key.l - 1)).foldl (fun d (j : ℕ) => d * j) 1

/-- What the share of one member contributes to the product. -/
def factor (S : List ℕ) (j : ℕ) : Except TcError ℕ :=
  match sigs (j - 1) with
  | none => .error .error
  | some s => orArthError (modifiedModExp s.sig (lambda 0 j S (delta key) * 2) key.n)

/-- The root, from the product of the shares. -/
def finish (w : ℕ) : Except TcError ℕ := do
  let (p, q) := euclid 4 key.e 1 0 0 1
  let wp ← orArthError (modifiedModExp w p key.n)
  let x := if jacobi hM key.n = -1 then bnModExp key.u key.e key.n * hM % key.n else hM
  let xq ← orArthError (modifiedModExp x q key.n)
  let y := wp * xq % key.n
  if jacobi hM key.n = -1 then
    let uInv ← orArthError (bnModInverse key.u key.n)
    .ok (y * uInv % key.n)
  else .ok y

/-- `TC_Combine_Sigs`. -/
def combineSigs : Except TcError ℕ := do
  let S := setS hp sigs key hM checkproof
  if S.length = key.k then
    let w ← S.foldlM (fun w j => do
      let t ← factor sigs key S j
      .ok (w * t % key.n)) 1
    finish key hM w
  else .error .notEnoughSigs

/-- `TC_Combine_Sigs_P1`: the factor of one of the shares, by its position. -/
def combineSigsP1 (idx : ℕ) : Except TcError (ℕ × List ℕ) := do
  let S := setS hp sigs key hM checkproof
  if S.length = key.k then
    let t ← factor sigs key S (S.getD idx 0)
    .ok (t, S)
  else .error .notEnoughSigs

/-- `TC_Combine_Sigs_P2`: the signature from the factors. -/
def combineSigsP2 (wexps : List ℕ) : Except TcError ℕ :=
  finish key hM ((wexps.take key.k).foldl (fun w t => w * t % key.n) 1)

end Combine

/-- `TC_verify`. -/
def verify (hM sig : ℕ) (pk : PublicKey) : Bool := bnModExp sig pk.e pk.n == hM

end Spire.Threshold
