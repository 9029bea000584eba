import Mathlib.Data.Finset.Card
import Mathlib.Order.Interval.Finset.Nat

/-!
# Quorums

The counting argument every agreement result of the development rests on. A
committee is a finite set of members, the faulty ones among them, and a quorum
size large enough that two quorums always share a member that is not faulty.
The size condition is a field, so a committee whose quorums fail to overlap
cannot be built.

The second half relates a counting loop over the members `1 .. n`, which is how
programs establish that they hold a quorum, to the cardinality of the set the
loop counts.
-/

namespace Spire.Lib

/-- A finite set of members, the faulty ones, and a quorum size under which any
two quorums meet outside the faulty members. -/
structure Committee (α : Type*) where
  members : Finset α
  faulty : Finset α
  quorum : Nat
  overlap : members.card + faulty.card < 2 * quorum

namespace Committee

variable {α : Type*} [DecidableEq α] (C : Committee α)

/-- Two quorums share a member that is not faulty. -/
theorem exists_correct_inter {A B : Finset α} (hA : A ⊆ C.members) (hB : B ⊆ C.members)
    (qA : C.quorum ≤ A.card) (qB : C.quorum ≤ B.card) :
    ∃ i, i ∈ A ∧ i ∈ B ∧ i ∉ C.faulty := by
  have hsum := Finset.card_union_add_card_inter A B
  have hunion : (A ∪ B).card ≤ C.members.card := Finset.card_le_card (Finset.union_subset hA hB)
  have hover := C.overlap
  have hlt : C.faulty.card < (A ∩ B).card := by omega
  obtain ⟨i, hi, hnot⟩ := Finset.exists_mem_notMem_of_card_lt_card hlt
  obtain ⟨hiA, hiB⟩ := Finset.mem_inter.mp hi
  exact ⟨i, hiA, hiB, hnot⟩

/-- **Agreement.** When every member that is not faulty votes for at most one
value, two values that each have a quorum of votes are equal. -/
theorem agree_of_vote_once {β : Type*} {vote : α → β → Prop}
    (once : ∀ i, i ∉ C.faulty → ∀ {x y}, vote i x → vote i y → x = y)
    {A B : Finset α} {x y : β} (hA : A ⊆ C.members) (hB : B ⊆ C.members)
    (qA : C.quorum ≤ A.card) (qB : C.quorum ≤ B.card)
    (vA : ∀ i ∈ A, vote i x) (vB : ∀ i ∈ B, vote i y) : x = y := by
  obtain ⟨i, hiA, hiB, hi⟩ := C.exists_correct_inter hA hB qA qB
  exact once i hi (vA i hiA) (vB i hiB)

end Committee

/-! ## Counting loops -/

/-- The number of indices `1 .. n` a test accepts, as a counting loop finds it. -/
def tally (n : Nat) (p : Nat → Bool) : Nat :=
  (List.range' 1 n).countP p

/-- The indices `1 .. n` a test accepts. -/
def accepted (n : Nat) (p : Nat → Bool) : Finset Nat :=
  (Finset.Icc 1 n).filter (fun i => p i = true)

theorem mem_accepted {n : Nat} {p : Nat → Bool} {i : Nat} :
    i ∈ accepted n p ↔ (1 ≤ i ∧ i ≤ n) ∧ p i = true := by
  simp only [accepted, Finset.mem_filter, Finset.mem_Icc]

theorem accepted_subset (n : Nat) (p : Nat → Bool) : accepted n p ⊆ Finset.Icc 1 n :=
  Finset.filter_subset _ _

/-- The loop counts the set. -/
theorem card_accepted (n : Nat) (p : Nat → Bool) : (accepted n p).card = tally n p := by
  have hset : accepted n p = ((List.range' 1 n).filter p).toFinset := by
    ext i
    simp only [mem_accepted, List.mem_toFinset, List.mem_filter, List.mem_range'_1]
    constructor
    · rintro ⟨⟨h1, h2⟩, hp⟩
      exact ⟨⟨h1, by omega⟩, hp⟩
    · rintro ⟨⟨h1, h2⟩, hp⟩
      exact ⟨⟨h1, by omega⟩, hp⟩
  have hnodup : ((List.range' 1 n).filter p).Nodup := (List.nodup_range' (n := n)).filter _
  rw [hset, List.toFinset_card_of_nodup hnodup, tally, List.countP_eq_length_filter]

/-- A test that accepts more counts at least as much. -/
theorem tally_mono {n : Nat} {p q : Nat → Bool} (h : ∀ i, 1 ≤ i → i ≤ n → p i = true → q i = true) :
    tally n p ≤ tally n q := by
  rw [← card_accepted, ← card_accepted]
  refine Finset.card_le_card fun i hi => ?_
  obtain ⟨hr, hp⟩ := mem_accepted.mp hi
  exact mem_accepted.mpr ⟨hr, h i hr.1 hr.2 hp⟩

/-- One more index is accepted. -/
theorem tally_update {n i : Nat} {p : Nat → Bool} (hi : 1 ≤ i ∧ i ≤ n) (hp : p i = false) :
    tally n (Function.update p i true) = tally n p + 1 := by
  have hset : accepted n (Function.update p i true) = insert i (accepted n p) := by
    ext j
    simp only [mem_accepted, Finset.mem_insert]
    by_cases hj : j = i
    · subst hj
      simp [hi]
    · simp [hj]
  have hnot : i ∉ accepted n p := by
    simp [mem_accepted, hp]
  rw [← card_accepted, hset, Finset.card_insert_of_notMem hnot, card_accepted]

theorem tally_le (n : Nat) (p : Nat → Bool) : tally n p ≤ n := by
  have h := List.countP_le_length (p := p) (l := List.range' 1 n)
  rwa [List.length_range'] at h

/-- A test that accepts only what a list has counts at most as much as the list is long. -/
theorem tally_le_length {n : Nat} {p : Nat → Bool} {l : List Nat} (h : ∀ i, p i = true → i ∈ l) : tally n p ≤ l.length := by
  rw [← card_accepted]
  refine (Finset.card_le_card fun i hi => ?_).trans (List.toFinset_card_le l)
  exact List.mem_toFinset.mpr (h i (mem_accepted.mp hi).2)

/-! ## Distinct signers -/

section Signers

variable {α β : Type*} {p q : β → Prop} {k : Nat}

/-- At least `k` different values satisfy `p`. -/
def AtLeast (k : Nat) (p : β → Prop) : Prop := ∃ S : Finset β, k ≤ S.card ∧ ∀ s ∈ S, p s

theorem AtLeast.mono (h : AtLeast k p) (hpq : ∀ s, p s → q s) : AtLeast k q := by
  obtain ⟨S, hcard, hS⟩ := h
  exact ⟨S, hcard, fun s hs => hpq s (hS s hs)⟩

/-- No more values satisfy `p` than a set has that holds all of them. -/
theorem AtLeast.le_card (h : AtLeast k p) {T : Finset β} (hT : ∀ s, p s → s ∈ T) : k ≤ T.card := by
  obtain ⟨S, hcard, hS⟩ := h
  exact hcard.trans (Finset.card_le_card fun s hs => hT s (hS s hs))

/-- **Counting signers instead of items.** The items of a list come from as many signers
as there are items exactly when no signer signed two, and then every item counts. -/
theorem atLeast_length_iff {l : List α} {signer : α → β} {P : α → Prop} :
    AtLeast l.length (fun s => ∃ a ∈ l, signer a = s ∧ P a) ↔
      (l.map signer).Nodup ∧ ∀ a ∈ l, P a := by
  classical
  constructor
  · rintro ⟨S, hcard, hS⟩
    have hsub : S ⊆ ((l.filter fun a => decide (P a)).map signer).toFinset := by
      intro s hs
      obtain ⟨a, ha, hsigner, hP⟩ := hS s hs
      exact List.mem_toFinset.mpr (List.mem_map.mpr
        ⟨a, List.mem_filter.mpr ⟨ha, decide_eq_true hP⟩, hsigner⟩)
    have hle := (hcard.trans (Finset.card_le_card hsub)).trans (List.toFinset_card_le _)
    rw [List.length_map] at hle
    have hall : l.filter (fun a => decide (P a)) = l :=
      List.filter_sublist.eq_of_length_le hle
    rw [hall] at hsub
    refine ⟨?_, fun a ha => ?_⟩
    · have hcount := hcard.trans (Finset.card_le_card hsub)
      rw [List.card_toFinset] at hcount
      have hdedup : (l.map signer).dedup = l.map signer :=
        (List.dedup_sublist _).eq_of_length_le (by rwa [List.length_map])
      exact List.dedup_eq_self.mp hdedup
    · rw [← hall] at ha
      exact of_decide_eq_true (List.mem_filter.mp ha).2
  · rintro ⟨hnodup, hall⟩
    refine ⟨(l.map signer).toFinset, ?_, fun s hs => ?_⟩
    · rw [List.toFinset_card_of_nodup hnodup, List.length_map]
    · obtain ⟨a, ha, rfl⟩ := List.mem_map.mp (List.mem_toFinset.mp hs)
      exact ⟨a, ha, rfl, hall a ha⟩

end Signers

end Spire.Lib
