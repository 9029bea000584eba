import Spire.Eligibility

/-!
# The rows of a proof matrix

`VAL_Validate_Pre_Prepare` and `VAL_Validate_Proof_Matrix` walk over the rows of a matrix with a
pointer, and pass over a null vector with `continue`. That leaves the pointer where it is, so that
all further rounds see the same null vector and what is behind it nobody looks at. The size that
the rows should have is a product that is cut to 32 bits.
-/

namespace Spire.Validate

open Lib Lib.Reader Wire Merkle Eligibility

variable {R : Receiver} {m : Memory} {depth base k i n pp : Nat}

/-- Where a row of a matrix lies. -/
def rowAddress (c : Config) (base i : Nat) : Nat := base + i * poAruSignedSize c

/-- The row is a null vector. -/
def IsDummy (m : Memory) (row : Nat) : Prop := SignedMessage.type.get m row = PacketType.dummy.code

instance (m : Memory) (row : Nat) : Decidable (IsDummy m row) := by
  unfold IsDummy
  infer_instance

/-- The row is a PO-ARU, accepted, of the size of one, and signed by the server it names. -/
structure RowSigned (R : Receiver) (m : Memory) (row : Nat) : Prop where
  type : SignedMessage.type.get m row = PacketType.poAru.code
  accepted : Accepted R m true row (poAruSignedSize R.config)
  len : SignedMessage.len.get m row = PoAruMessage.size R.config
  signed : SignedBy R m row (SignedMessage.machineId.get m row)

/-- What accepting a matrix of `k` rows, in `n` bytes behind a header, should guarantee. -/
structure RowsAuthenticated (R : Receiver) (m : Memory) (base k header n : Nat) : Prop where
  size : header + k * poAruSignedSize R.config = n
  rows : ∀ i < k, ¬ IsDummy m (rowAddress R.config base i) → RowSigned R m (rowAddress R.config base i)

/-- The size is not cut, and what is behind a null vector is another one, or a PO-ARU by itself. -/
structure RowsCondition (R : Receiver) (m : Memory) (base k header : Nat) : Prop where
  size : header + k * poAruSignedSize R.config < 2 ^ 32
  behind : ∀ j < k, IsDummy m (rowAddress R.config base j) → ∀ i < k, j < i →
    ¬ IsDummy m (rowAddress R.config base i) → RowSigned R m (rowAddress R.config base i)

/-- The loop over fewer rows accepts too. -/
theorem validateRows_take {valid : Bool → Nat → Nat → Reader Unit} {c : Config}
    (h : Yields (validateRows valid c k base) m ()) (hi : i ≤ k) : Yields (validateRows valid c i base) m () := by
  induction k generalizing i base with
  | zero => rwa [Nat.le_zero.mp hi]
  | succ k ih =>
    cases i with
    | zero => exact yields_pure.mpr rfl
    | succ i =>
      have hi := Nat.le_of_succ_le_succ hi
      unfold validateRows at h ⊢
      rw [yields_bind] at h ⊢
      obtain ⟨type, htype, h⟩ := h
      refine ⟨type, htype, ?_⟩
      by_cases hdummy : type = PacketType.dummy.code
      · rw [if_pos hdummy] at h ⊢
        exact ih h hi
      · rw [if_neg hdummy] at h ⊢
        simp only [yields_bind, exists_unit] at h ⊢
        exact ⟨h.1, h.2.1, ih h.2.2 hi⟩

/-- **Rows before a null vector** are what they should be. -/
theorem rowSigned_of_validateRows (h : Yields (validateRows (validateMessage R depth) R.config k base) m ()) (hi : i < k)
    (hdummy : ∀ j ≤ i, ¬ IsDummy m (rowAddress R.config base j)) : RowSigned R m (rowAddress R.config base i) := by
  obtain ⟨htype, haccepted⟩ := validateRows_yields (validateRows_take h hi)
    (fun j hj => hdummy j (Nat.le_of_lt_succ hj)) i (Nat.lt_succ_self i)
  obtain ⟨depth', hcontent⟩ := haccepted.content
  rw [htype, PacketType.ofCode_code] at hcontent
  exact ⟨htype, haccepted, yields_require.mp hcontent, haccepted.header.signedBy htype (by decide)⟩

/-- A size that is cut to 32 bits is the size exactly if it is below 2^32. -/
theorem eq_wrap32_iff {size : Nat} : size = wrap32 size ↔ size < 2 ^ 32 := by
  unfold wrap32
  constructor
  · intro h
    exact h ▸ Nat.mod_lt _ (by decide)
  · exact fun h => (Nat.mod_eq_of_lt h).symm

theorem rows_iff {header : Nat} (hsize : n = wrap32 (header + k * poAruSignedSize R.config))
    (hrows : Yields (validateRows (validateMessage R depth) R.config k base) m ()) :
    RowsAuthenticated R m base k header n ↔ RowsCondition R m base k header := by
  constructor
  · intro h
    exact ⟨eq_wrap32_iff.mp (h.size.trans hsize), fun j _ _ i hi _ => h.rows i hi⟩
  · intro h
    refine ⟨(eq_wrap32_iff.mpr h.size).trans hsize.symm, fun i hi hreal => ?_⟩
    by_cases hbehind : ∃ j ≤ i, IsDummy m (rowAddress R.config base j)
    · obtain ⟨j, hj, hdummy⟩ := hbehind
      have hlt : j < i := lt_of_le_of_ne hj fun heq => hreal (heq ▸ hdummy)
      exact h.behind j (hlt.trans hi) hdummy i hi hlt hreal
    · push Not at hbehind
      exact rowSigned_of_validateRows hrows hi hbehind

/-- **The rows of a Pre-Prepare.** Where one is accepted, its rows that are not null vectors are
signed PO-ARUs and fill the message exactly if the size of the rows is not cut, and each row
behind a null vector is one, or a signed PO-ARU by itself. -/
theorem prePrepare_rows_iff (h : Yields (validatePrePrepare R (validateMessage R depth) pp n) m ()) :
    RowsAuthenticated R m (pp + PrePrepareMessage.size R.config) (numAcks R m pp) (PrePrepareMessage.size R.config) n ↔
      RowsCondition R m (pp + PrePrepareMessage.size R.config) (numAcks R m pp) (PrePrepareMessage.size R.config) := by
  simp only [validatePrePrepare, yields_bind, yields_require, Field.yields_read, exists_eq_left, exists_unit] at h
  obtain ⟨-, hsize, -, -, hrows⟩ := h
  exact rows_iff hsize hrows

/-- The same of a proof matrix. -/
theorem proofMatrix_rows_iff {pm : Nat} (h : Yields (validateProofMatrix R (validateMessage R depth) pm n) m ()) :
    RowsAuthenticated R m (pm + ProofMatrix.size) (ProofMatrix.numAcks.get m pm) ProofMatrix.size n ↔
      RowsCondition R m (pm + ProofMatrix.size) (ProofMatrix.numAcks.get m pm) ProofMatrix.size := by
  simp only [validateProofMatrix, yields_bind, yields_require, Field.yields_read, exists_eq_left, exists_unit] at h
  obtain ⟨-, hsize, hrows⟩ := h
  exact rows_iff hsize hrows

/-! ## Two Pre-Prepares -/

/-- The rows of servers 1 and 2. -/
theorem genuine_rows :
    RowsAuthenticated (plainReceiver threeServers.toConfig) (proposalMemory threeServers.toConfig [1, 2])
      (156 + PrePrepareMessage.size threeServers.toConfig) 2 (PrePrepareMessage.size threeServers.toConfig) 428 := by
  have hvalid : Yields (validatePrePrepare (plainReceiver threeServers.toConfig)
      (validateMessage (plainReceiver threeServers.toConfig) 1) 156 428)
      (proposalMemory threeServers.toConfig [1, 2]) () := yields_of_accepts (by decide +kernel)
  have hacks : numAcks (plainReceiver threeServers.toConfig) (proposalMemory threeServers.toConfig [1, 2]) 156 = 2 := by
    decide +kernel
  have hiff := prePrepare_rows_iff hvalid
  rw [hacks] at hiff
  refine hiff.mpr ⟨by decide, fun j hj hdummy => ?_⟩
  have hnone : ∀ j < 2, ¬ IsDummy (proposalMemory threeServers.toConfig [1, 2])
      (rowAddress threeServers.toConfig (156 + PrePrepareMessage.size threeServers.toConfig) j) := by
    decide +kernel
  exact absurd hdummy (hnone j hj)

/-- A Pre-Prepare with a null vector, and a Commit of server 1 where the next row would be. -/
def hiddenRow (c : Config) : Memory :=
  Memory.write (fun _ => 0) 0
    ((prePrepareContent c 1 1).take (32 + 8 * c.numServers) ++ leBytes 4 2 ++
      List.replicate (poAruSignedSize c) 0 ++ messagesBytes [(1, .commit, List.replicate (PoAruMessage.size c) 0)])

/-- The Commit is accepted as a row. -/
theorem hiddenRow_accepted :
    ¬ ∀ (R : Receiver) (m : Memory) (depth pp n : Nat), Yields (validatePrePrepare R (validateMessage R depth) pp n) m () →
      RowsAuthenticated R m (pp + PrePrepareMessage.size R.config) (numAcks R m pp) (PrePrepareMessage.size R.config) n := by
  intro hall
  have hvalid : Yields (validatePrePrepare (plainReceiver threeServers.toConfig)
      (validateMessage (plainReceiver threeServers.toConfig) 1) 0 428) (hiddenRow threeServers.toConfig) () :=
    yields_of_accepts (by decide +kernel)
  have hrows := (hall _ _ 1 0 428 hvalid).rows 1 (by decide +kernel) (by decide +kernel)
  have htype : SignedMessage.type.get (hiddenRow threeServers.toConfig)
      (rowAddress threeServers.toConfig (0 + PrePrepareMessage.size threeServers.toConfig) 1) ≠ PacketType.poAru.code := by
    decide +kernel
  exact htype hrows.type

end Spire.Validate
