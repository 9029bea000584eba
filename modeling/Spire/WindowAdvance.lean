import Mathlib.Data.List.TakeWhile
import Spire.FlowSafety

/-!
# The three copies of the window advance

`Reliable_Flood_Process_Data`, `Reliable_Flood_Process_Acks` and `Reliable_Flood_Send_Data` each
look for the least of `head_seq - 1`, the neighbours' `flow_aru` and, with `HBH_Opt` off, their
`next_seq - 1`, and move `sow` behind it. The first two look for it in an `int64u`. The third has an
`int`, so a number from 2^31 on is cut, and what is left of it is extended again by its sign where
it is compared with the next one.

`advances_iff` says for which flows each of the copies comes to the same `sow`. The first two do
for all, but where every number is the last of the type and the loop does not end.
-/

namespace Spire.Flood

open Function (update)
open Lib

/-! ## The least number -/

section Least

variable {vs : List Nat} {sow m v x : Nat}

theorem le_foldl_min : x ≤ vs.foldl min m ↔ x ≤ m ∧ ∀ v ∈ vs, x ≤ v := by
  induction vs generalizing m with
  | nil => exact ⟨fun h => ⟨h, fun v hv => by cases hv⟩, And.left⟩
  | cons v vs ih => rw [List.foldl_cons, ih, le_min_iff, List.forall_mem_cons, and_assoc]

theorem foldl_min_lt : vs.foldl min m < x ↔ m < x ∨ ∃ v ∈ vs, v < x := by
  rw [← not_le, le_foldl_min, not_and_or, not_le]
  simp only [not_forall, not_le, exists_prop]

/-- A round of the search with an `int`. -/
def cutMin (m v : Nat) : Nat := if v < m then asInt v else m

/-- What an `int` keeps of the number is negative. -/
def negative (v : Nat) : Bool := 2 ^ 31 ≤ v % 2 ^ 32

/-- The numbers that a negative `int` is extended to. -/
def extended (v : Nat) : Bool := 2 ^ 64 - 2 ^ 31 ≤ v

/-- For which numbers the `int` comes to the right `sow`. Where some number is not negative in an
`int`, the first such is below 2^31, or a later number is no more than what the `int` keeps of it,
or the window is not to move. Where all are negative, none is below those that a negative `int` is
extended to, or the last of these and the numbers after it do not move the window. -/
def IntSuffices (sow : Nat) (vs : List Nat) : Prop :=
  match vs.dropWhile negative with
  | v :: later => v < 2 ^ 31 ∨ (∃ u ∈ later, u ≤ v % 2 ^ 32) ∨ ∃ u ∈ vs, u < sow
  | [] =>
    match vs.reverse.dropWhile extended with
    | v :: _ => asInt v < sow ∨ ∃ u ∈ vs.reverse.takeWhile extended, u < sow
    | [] => True

instance (sow : Nat) (vs : List Nat) : Decidable (IntSuffices sow vs) := by
  unfold IntSuffices
  split
  · infer_instance
  · split <;> infer_instance

theorem asInt_of_not_negative (h : negative v = false) : asInt v = v % 2 ^ 32 := by
  rw [negative, decide_eq_false_iff_not, not_le] at h
  exact if_pos h

theorem asInt_of_negative (h : negative v = true) : 2 ^ 64 - 2 ^ 31 ≤ asInt v := by
  rw [negative, decide_eq_true_eq] at h
  rw [asInt, if_neg (by omega)]
  omega

theorem asInt_of_extended (h : extended v = true) (hlt : v < 2 ^ 64) : asInt v = v := by
  rw [extended, decide_eq_true_eq] at h
  rw [asInt, if_neg (by omega)]
  omega

/-- Among small numbers nothing is cut. -/
theorem foldl_cutMin_of_small (hm : m < 2 ^ 31) : vs.foldl cutMin m = vs.foldl min m := by
  induction vs generalizing m with
  | nil => rfl
  | cons v vs ih =>
    have hround : cutMin m v = min m v := by
      unfold cutMin asInt
      split
      · rw [if_pos (by omega)]
        omega
      · omega
    rw [List.foldl_cons, List.foldl_cons, hround]
    exact ih (by omega)

/-- Nor is it among those that a negative `int` is extended to. -/
theorem foldl_cutMin_of_extended (hvs : ∀ v ∈ vs, extended v = true) (hlt : ∀ v ∈ vs, v < 2 ^ 64) :
    vs.foldl cutMin m = vs.foldl min m := by
  induction vs generalizing m with
  | nil => rfl
  | cons v vs ih =>
    obtain ⟨hv, hvs⟩ := List.forall_mem_cons.mp hvs
    obtain ⟨hlt, hlts⟩ := List.forall_mem_cons.mp hlt
    have hround : cutMin m v = min m v := by
      rw [cutMin, asInt_of_extended hv hlt]
      split <;> omega
    rw [List.foldl_cons, List.foldl_cons, hround]
    exact ih hvs hlts

/-- Negative numbers leave the minimum among those. -/
theorem le_foldl_cutMin (hvs : ∀ v ∈ vs, negative v = true) (hm : 2 ^ 64 - 2 ^ 31 ≤ m) :
    2 ^ 64 - 2 ^ 31 ≤ vs.foldl cutMin m := by
  induction vs generalizing m with
  | nil => exact hm
  | cons v vs ih =>
    obtain ⟨hv, hvs⟩ := List.forall_mem_cons.mp hvs
    refine ih hvs ?_
    unfold cutMin
    split
    · exact asInt_of_negative hv
    · exact hm

theorem not_negative_of_dropWhile {later : List Nat} (h : vs.dropWhile negative = v :: later) : negative v = false := by
  have hhead := List.head?_dropWhile_not negative vs
  rw [h] at hhead
  exact hhead

theorem mod_of_dropWhile {later : List Nat} (h : vs.dropWhile negative = v :: later) : v % 2 ^ 32 < 2 ^ 31 := by
  have hv := not_negative_of_dropWhile h
  rw [negative, decide_eq_false_iff_not, not_le] at hv
  exact hv

/-- The first number that is not negative decides, with those after it. -/
theorem foldl_cutMin_of_dropWhile {later : List Nat} (hlt : ∀ v ∈ vs, v < 2 ^ 64)
    (h : vs.dropWhile negative = v :: later) : vs.foldl cutMin (2 ^ 64) = later.foldl min (v % 2 ^ 32) := by
  have hvs : vs = vs.takeWhile negative ++ v :: later := by rw [← h, List.takeWhile_append_dropWhile]
  have hsmall := mod_of_dropWhile h
  have hbound : v < 2 ^ 64 := hlt v (hvs ▸ List.mem_append_right _ List.mem_cons_self)
  have hbefore : 2 ^ 64 - 2 ^ 31 ≤ (vs.takeWhile negative).foldl cutMin (2 ^ 64) :=
    le_foldl_cutMin (fun u hu => List.mem_takeWhile_imp hu) (by omega)
  rw [hvs, List.foldl_append, List.foldl_cons, cutMin, if_pos (by omega), asInt_of_not_negative (not_negative_of_dropWhile h),
    foldl_cutMin_of_small hsmall]

/-- Where all are negative, the last that is not among the extended ones does. -/
theorem foldl_cutMin_of_reverse {earlier : List Nat} (hlt : ∀ v ∈ vs, v < 2 ^ 64) (hneg : ∀ v ∈ vs, negative v = true)
    (h : vs.reverse.dropWhile extended = v :: earlier) :
    vs.foldl cutMin (2 ^ 64) = (vs.reverse.takeWhile extended).reverse.foldl min (asInt v) ∧ v < 2 ^ 64 - 2 ^ 31 ∧ v ∈ vs := by
  have hvs : vs = (earlier.reverse ++ [v]) ++ (vs.reverse.takeWhile extended).reverse := by
    rw [← List.reverse_cons, ← h, ← List.reverse_append, List.takeWhile_append_dropWhile, List.reverse_reverse]
  have hv : extended v = false := by
    have := List.head?_dropWhile_not extended vs.reverse
    rw [h] at this
    exact this
  rw [extended, decide_eq_false_iff_not, not_le] at hv
  have hmem : ∀ u ∈ earlier.reverse ++ [v], u ∈ vs := fun u hu => hvs ▸ List.mem_append_left _ hu
  have hbefore : 2 ^ 64 - 2 ^ 31 ≤ earlier.reverse.foldl cutMin (2 ^ 64) :=
    le_foldl_cutMin (fun u hu => hneg u (hmem u (List.mem_append_left _ hu))) (by omega)
  have hlater : ∀ u ∈ (vs.reverse.takeWhile extended).reverse, extended u = true ∧ u < 2 ^ 64 := by
    intro u hu
    have hu := List.mem_reverse.mp hu
    exact ⟨List.mem_takeWhile_imp hu, hlt u (List.mem_reverse.mp (List.takeWhile_prefix _ |>.subset hu))⟩
  refine ⟨?_, hv, hmem v (List.mem_append_right _ (List.mem_singleton_self v))⟩
  conv_lhs => rw [hvs]
  rw [List.foldl_append, List.foldl_append, List.foldl_cons, List.foldl_nil, cutMin, if_pos (by omega),
    foldl_cutMin_of_extended (fun u hu => (hlater u hu).1) fun u hu => (hlater u hu).2]

/-- Where all are extended, nothing is cut. -/
theorem foldl_cutMin_eq_least (hlt : ∀ v ∈ vs, v < 2 ^ 64) (hext : ∀ v ∈ vs, extended v = true) (hne : vs ≠ []) :
    vs.foldl cutMin (2 ^ 64) = vs.foldl min (2 ^ 64 - 1) := by
  rw [foldl_cutMin_of_extended hext hlt]
  have hle : ∀ u ∈ vs, vs.foldl min (2 ^ 64) ≤ u := (le_foldl_min.mp (le_refl _)).2
  refine le_antisymm (le_foldl_min.mpr ⟨?_, hle⟩)
    (le_foldl_min.mpr ⟨(le_foldl_min.mp (le_refl _)).1.trans (Nat.sub_le _ _), (le_foldl_min.mp (le_refl _)).2⟩)
  obtain ⟨u, hu⟩ := List.exists_mem_of_ne_nil vs hne
  have := hle u hu
  have := hlt u hu
  omega

/-- The search where some number is not negative. -/
theorem cutMin_iff_of_plain {later : List Nat} (hlt : ∀ v ∈ vs, v < 2 ^ 64) (hsow : sow < 2 ^ 64)
    (h : vs.dropWhile negative = v :: later) :
    vs.foldl cutMin (2 ^ 64) ≠ 2 ^ 64 - 1 ∧
      max sow (vs.foldl cutMin (2 ^ 64) + 1) = max sow (1 + vs.foldl min (2 ^ 64 - 1)) ↔
        v < 2 ^ 31 ∨ (∃ u ∈ later, u ≤ v % 2 ^ 32) ∨ ∃ u ∈ vs, u < sow := by
  rw [foldl_cutMin_of_dropWhile hlt h]
  have hleast_le : ∀ u ∈ vs, vs.foldl min (2 ^ 64 - 1) ≤ u := (le_foldl_min.mp (le_refl _)).2
  have hvs : vs = vs.takeWhile negative ++ v :: later := by rw [← h, List.takeWhile_append_dropWhile]
  have hv : v ∈ vs := hvs ▸ List.mem_append_right _ List.mem_cons_self
  have hlater : ∀ u ∈ later, u ∈ vs := fun u hu => hvs ▸ List.mem_append_right _ (List.mem_cons_of_mem v hu)
  have hsmall := mod_of_dropWhile h
  have hearly : ∀ u ∈ vs.takeWhile negative, 2 ^ 31 ≤ u := by
    intro u hu
    have := List.mem_takeWhile_imp hu
    rw [negative, decide_eq_true_eq] at this
    omega
  have hcut : later.foldl min (v % 2 ^ 32) ≤ v % 2 ^ 32 := (le_foldl_min.mp (le_refl _)).1
  have hcut_later : ∀ u ∈ later, later.foldl min (v % 2 ^ 32) ≤ u := (le_foldl_min.mp (le_refl _)).2
  -- below what is left of `v` there are only the later numbers
  have hsplit : ∀ x ≤ 2 ^ 31, x ≤ v → (∀ u ∈ later, x ≤ u) → x ≤ vs.foldl min (2 ^ 64 - 1) := by
    intro x hx hxv hxlater
    refine le_foldl_min.mpr ⟨by omega, fun u hu => ?_⟩
    rw [hvs] at hu
    rcases List.mem_append.mp hu with hu | hu
    · exact hx.trans (hearly u hu)
    · rcases List.mem_cons.mp hu with rfl | hu
      · exact hxv
      · exact hxlater u hu
  have hbelow : later.foldl min (v % 2 ^ 32) ≤ vs.foldl min (2 ^ 64 - 1) :=
    hsplit _ (by omega) (hcut.trans (Nat.mod_le _ _)) hcut_later
  have hstay : vs.foldl min (2 ^ 64 - 1) < sow ↔ ∃ u ∈ vs, u < sow := by
    rw [foldl_min_lt]
    exact or_iff_right (by omega)
  have hequal : later.foldl min (v % 2 ^ 32) = vs.foldl min (2 ^ 64 - 1) ↔ v < 2 ^ 31 ∨ ∃ u ∈ later, u ≤ v % 2 ^ 32 := by
    constructor
    · intro heq
      by_contra hnot
      obtain ⟨hbig, hall⟩ := not_or.mp hnot
      have hge : v % 2 ^ 32 + 1 ≤ vs.foldl min (2 ^ 64 - 1) :=
        hsplit _ (by omega) (by omega) fun u hu => Nat.lt_of_not_le fun hle => hall ⟨u, hu, hle⟩
      omega
    · intro hsuffices
      refine le_antisymm hbelow (le_foldl_min.mpr ⟨?_, fun u hu => hleast_le u (hlater u hu)⟩)
      rcases hsuffices with hsmall | ⟨u, hu, hle⟩
      · rw [Nat.mod_eq_of_lt (by omega)]
        exact hleast_le v hv
      · exact (hleast_le u (hlater u hu)).trans hle
  rw [← or_assoc, ← hequal, ← hstay]
  omega

/-- The search where all are negative and some number is not extended. -/
theorem cutMin_iff_of_negative {earlier : List Nat} (hlt : ∀ v ∈ vs, v < 2 ^ 64) (hsow : sow < 2 ^ 64)
    (hneg : ∀ v ∈ vs, negative v = true) (h : vs.reverse.dropWhile extended = v :: earlier) :
    vs.foldl cutMin (2 ^ 64) ≠ 2 ^ 64 - 1 ∧
      max sow (vs.foldl cutMin (2 ^ 64) + 1) = max sow (1 + vs.foldl min (2 ^ 64 - 1)) ↔
        asInt v < sow ∨ ∃ u ∈ vs.reverse.takeWhile extended, u < sow := by
  obtain ⟨heq, hv, hmem⟩ := foldl_cutMin_of_reverse hlt hneg h
  have hge : 2 ^ 64 - 2 ^ 31 ≤ vs.foldl cutMin (2 ^ 64) := le_foldl_cutMin hneg (by omega)
  have hle : vs.foldl min (2 ^ 64 - 1) ≤ v := (le_foldl_min.mp (le_refl _)).2 v hmem
  have hbelow : vs.foldl cutMin (2 ^ 64) < sow ↔ asInt v < sow ∨ ∃ u ∈ vs.reverse.takeWhile extended, u < sow := by
    rw [heq, foldl_min_lt]
    simp only [List.mem_reverse]
  rw [← hbelow]
  omega

/-- **What an `int` makes of the minimum.** The search with an `int` ends, and leads to the right
`sow`, for the numbers that `IntSuffices` says. -/
theorem cutMin_suffices_iff (hlt : ∀ v ∈ vs, v < 2 ^ 64) (hsow : sow < 2 ^ 64) (hleast : vs.foldl min (2 ^ 64 - 1) < 2 ^ 64 - 1) :
    vs.foldl cutMin (2 ^ 64) ≠ 2 ^ 64 - 1 ∧
      max sow (vs.foldl cutMin (2 ^ 64) + 1) = max sow (1 + vs.foldl min (2 ^ 64 - 1)) ↔ IntSuffices sow vs := by
  unfold IntSuffices
  split
  · rename_i v later h
    exact cutMin_iff_of_plain hlt hsow h
  · rename_i h
    have hneg := List.dropWhile_eq_nil_iff.mp h
    split
    · rename_i v earlier hrev
      exact cutMin_iff_of_negative hlt hsow hneg hrev
    · rename_i hrev
      have hext : ∀ v ∈ vs, extended v = true := fun v hv =>
        List.dropWhile_eq_nil_iff.mp hrev v (List.mem_reverse.mpr hv)
      have hne : vs ≠ [] := by
        rintro rfl
        exact lt_irrefl _ hleast
      rw [foldl_cutMin_eq_least hlt hext hne]
      exact iff_of_true ⟨hleast.ne, by rw [Nat.add_comm]⟩ trivial

end Least

/-! ## The copies -/

namespace Flow

variable {c : Conf} {f : Flow}

/-- `head_seq - 1`, and what a neighbour counts with. -/
def numbers (c : Conf) (f : Flow) : List Nat :=
  pred64 f.headSeq :: c.neighbors.flatMap fun j =>
    if c.hbhOpt then [f.flowAru j] else [f.flowAru j, pred64 (f.nextSeq j)]

/-- The least of them, in 64 bits. -/
def least (c : Conf) (f : Flow) : Nat := (f.numbers c).foldl min (2 ^ 64 - 1)

/-- A copy that works on the flow moves `sow` as it is meant to. -/
def Advanced (c : Conf) (f : Flow) (x : Except Fault Flow) : Prop :=
  ∃ g, x = .ok g ∧ g.sow = max f.sow (1 + f.least c)

/-- The state of the flow in which `Reliable_Flood_Process_Acks` looks for the minimum. -/
def learn (c : Conf) (f : Flow) (lastHop aru : Nat) : Flow :=
  let aru := if aru = 2 ^ 64 - 1 then 2 ^ 64 - 2 else aru
  let f := { f with flowAru := update f.flowAru lastHop aru }
  if c.hbhOpt = true ∧ f.nextSeq lastHop ≤ aru then ackUpTo lastHop aru (f.headSeq - f.nextSeq lastHop) f else f

theorem pred64_lt (x : Nat) : pred64 x < 2 ^ 64 := Nat.mod_lt _ (by decide)

theorem numbers_lt (haru : ∀ j, f.flowAru j < 2 ^ 64) : ∀ v ∈ f.numbers c, v < 2 ^ 64 := by
  intro v hv
  rcases List.mem_cons.mp hv with hv | hv
  · rw [hv]
    exact pred64_lt _
  · obtain ⟨j, -, hv⟩ := List.mem_flatMap.mp hv
    split at hv
    · rw [List.mem_singleton.mp hv]
      exact haru j
    · rcases List.mem_pair.mp hv with hv | hv
      · rw [hv]
        exact haru j
      · rw [hv]
        exact pred64_lt _

/-- The search with an `int64u` finds the least number. -/
theorem leastKnown_eq (c : Conf) (f : Flow) : f.leastKnown c = f.least c := by
  have hhead : min (2 ^ 64 - 1) (pred64 f.headSeq) = pred64 f.headSeq := by
    have := pred64_lt f.headSeq
    omega
  rw [least, numbers, List.foldl_cons, hhead, List.foldl_flatMap, leastKnown]
  refine List.foldl_ext _ _ _ fun m j _ => ?_
  generalize pred64 (f.nextSeq j) = next
  cases c.hbhOpt with
  | true =>
    rw [if_pos rfl, List.foldl_cons, List.foldl_nil]
    simp only [Bool.true_eq_false, false_and, if_false]
    split <;> omega
  | false =>
    rw [if_neg Bool.false_ne_true, List.foldl_cons, List.foldl_cons, List.foldl_nil]
    simp only [true_and]
    split <;> split <;> omega

/-- The search with an `int` goes through the same numbers. -/
theorem leastInt_eq (hopt : c.hbhOpt = false) : f.leastInt c = (f.numbers c).foldl cutMin (2 ^ 64) := by
  rw [numbers, List.foldl_cons, cutMin, if_pos (pred64_lt _), List.foldl_flatMap, leastInt]
  refine List.foldl_ext _ _ _ fun m j _ => ?_
  rw [hopt, if_neg Bool.false_ne_true, List.foldl_cons, List.foldl_cons, List.foldl_nil]
  rfl

theorem least_lt_iff : f.least c < 2 ^ 64 - 1 ↔ ∃ v ∈ f.numbers c, v < 2 ^ 64 - 1 := by
  rw [least, foldl_min_lt]
  exact or_iff_right (lt_irrefl _)

theorem advanced_release {b : Bool} {m : Nat} :
    Advanced c f ((f.release c b m).map fun f => f.catchUp c) ↔
      m ≠ 2 ^ 64 - 1 ∧ max f.sow (m + 1) = max f.sow (1 + f.least c) := by
  unfold release
  split
  · rename_i hm
    exact iff_of_false (by rintro ⟨g, hg, -⟩; cases hg) fun h => h.1 hm
  · rename_i hm
    constructor
    · rintro ⟨g, hg, hsow⟩
      cases hg
      exact ⟨hm, hsow⟩
    · exact fun h => ⟨_, rfl, h.2⟩

/-- The copies with an `int64u`. -/
theorem advanced_leastKnown (c : Conf) (f : Flow) (b : Bool) :
    Advanced c f ((f.release c b (f.leastKnown c)).map fun f => f.catchUp c) ↔ ∃ v ∈ f.numbers c, v < 2 ^ 64 - 1 := by
  have hle : f.least c ≤ 2 ^ 64 - 1 := (le_foldl_min.mp (le_refl _)).1
  rw [advanced_release, leastKnown_eq, ← least_lt_iff, Nat.add_comm, and_iff_left rfl]
  omega

/-- The copy with an `int`. -/
theorem advanced_leastInt (hopt : c.hbhOpt = false) (b : Bool) (hsow : f.sow < 2 ^ 64) (haru : ∀ j, f.flowAru j < 2 ^ 64) :
    Advanced c f ((f.release c b (f.leastInt c)).map fun f => f.catchUp c) ↔
      (∃ v ∈ f.numbers c, v < 2 ^ 64 - 1) ∧ IntSuffices f.sow (f.numbers c) := by
  rw [advanced_release, leastInt_eq hopt]
  by_cases hleast : f.least c < 2 ^ 64 - 1
  · rw [← least_lt_iff, and_iff_right hleast]
    exact cutMin_suffices_iff (numbers_lt haru) hsow hleast
  · have hall : ∀ v ∈ f.numbers c, 2 ^ 64 - 1 ≤ v := (le_foldl_min.mp (Nat.le_of_not_lt hleast)).2
    have hext : ∀ v ∈ f.numbers c, extended v = true := by
      intro v hv
      have := hall v hv
      rw [extended, decide_eq_true_eq]
      omega
    have hlast : (f.numbers c).foldl cutMin (2 ^ 64) = 2 ^ 64 - 1 := by
      rw [foldl_cutMin_eq_least (numbers_lt haru) hext (List.cons_ne_nil _ _)]
      exact le_antisymm (le_foldl_min.mp (le_refl _)).1 (le_foldl_min.mpr ⟨le_refl _, hall⟩)
    rw [← least_lt_iff]
    exact iff_of_false (fun h => h.1 hlast) fun h => hleast h.1

/-- Not every number is the last of its type. -/
def Moves (c : Conf) (f : Flow) : Prop := ∃ v ∈ f.numbers c, v < 2 ^ 64 - 1

/-- A flow that has carried fewer than 2^31 messages. -/
theorem intSuffices_of_headSeq (hpos : 1 ≤ f.headSeq) (hle : f.headSeq ≤ 2 ^ 31) : IntSuffices f.sow (f.numbers c) := by
  have hhead : pred64 f.headSeq = f.headSeq - 1 := pred64_eq hpos (by omega)
  have hplain : negative (pred64 f.headSeq) = false := by
    rw [negative, decide_eq_false_iff_not, hhead]
    omega
  rw [IntSuffices, numbers, List.dropWhile_cons, hplain, if_neg Bool.false_ne_true]
  left
  omega

/-- What the window moves over has been acknowledged. -/
theorem le_flowAru_of_advanced {x : Except Fault Flow} {g : Flow} (h : Advanced c f x) (hx : x = .ok g) {seq k : Nat}
    (hlo : f.sow ≤ seq) (hhi : seq < g.sow) (hk : c.Ngbr k) : seq ≤ f.flowAru k := by
  obtain ⟨g', hg', hsow⟩ := h
  obtain rfl : g = g' := by
    rw [hx] at hg'
    exact Except.ok.inj hg'
  have hmem : f.flowAru k ∈ f.numbers c := by
    refine List.mem_cons_of_mem _ (List.mem_flatMap.mpr ⟨k, Node.mem_neighbors.mpr hk, ?_⟩)
    split
    · exact List.mem_singleton_self _
    · exact List.mem_cons_self
  have hle : f.least c ≤ f.flowAru k := (le_foldl_min.mp (le_refl _)).2 _ hmem
  omega

theorem advanced_onSent (hadvance : c.hbhAdvance = true) (hopt : c.hbhOpt = false) (hsow : f.sow < 2 ^ 64)
    (haru : ∀ j, f.flowAru j < 2 ^ 64) (k : Nat) : Advanced c (f.markSent k) (f.onSent c k) ↔
      Moves c (f.markSent k) ∧ IntSuffices f.sow ((f.markSent k).numbers c) := by
  have hcode : f.onSent c k = ((f.markSent k).release c true ((f.markSent k).leastInt c)).map fun f => f.catchUp c :=
    if_pos ⟨hadvance, hopt⟩
  have hsow' : (f.markSent k).sow < 2 ^ 64 := hsow
  have haru' : ∀ j, (f.markSent k).flowAru j < 2 ^ 64 := haru
  rw [hcode]
  exact advanced_leastInt hopt true hsow' haru'

/-- **Where the copies agree.** In the configuration with hop-by-hop advance and for every flow:
`Reliable_Flood_Process_Data` and `Reliable_Flood_Process_Acks` move `sow` behind the least number
unless all numbers are 2^64 - 1, and `Reliable_Flood_Send_Data` does it when besides an `int`
suffices for them. What a copy discards that moves `sow` so has been acknowledged by all
neighbours. -/
theorem advances_iff (hadvance : c.hbhAdvance = true) (hsow : f.sow < 2 ^ 64) (haru : ∀ j, f.flowAru j < 2 ^ 64) :
    (∀ m, Advanced c f (f.afterStore c false m) ↔ Moves c f) ∧
    (∀ lastHop aru, Advanced c (f.learn c lastHop aru) (f.onAru c lastHop aru) ↔ Moves c (f.learn c lastHop aru)) ∧
    (c.hbhOpt = false → ∀ k, Advanced c (f.markSent k) (f.onSent c k) ↔
      Moves c (f.markSent k) ∧ IntSuffices f.sow ((f.markSent k).numbers c)) ∧
    ∀ (f' : Flow) x g, Advanced c f' x → x = .ok g →
      ∀ seq, f'.sow ≤ seq → seq < g.sow → ∀ k, c.Ngbr k → seq ≤ f'.flowAru k := by
  refine ⟨fun m => ?_, fun lastHop aru => ?_, fun hopt => advanced_onSent hadvance hopt hsow haru,
    fun f' x g h hx seq hlo hhi k hk => ?_⟩
  · rw [afterStore, if_pos ⟨hadvance, rfl⟩]
    exact advanced_leastKnown c f false
  · have hcode : f.onAru c lastHop aru = ((f.learn c lastHop aru).release c true
        ((f.learn c lastHop aru).leastKnown c)).map fun f => f.catchUp c := if_pos hadvance
    rw [hcode]
    exact advanced_leastKnown c _ true
  · exact le_flowAru_of_advanced h hx hlo hhi hk

/-- The message after 2^31 is to be sent to the only neighbour, which has those before it. -/
def farFlow : Flow :=
  { init with
    msg := fun i => if i = slot (2 ^ 31 + 1) then some ⟨2, 3, 7, 2 ^ 31 + 1, 1⟩ else none
    status := fun i _ => if i = slot (2 ^ 31 + 1) then .newUnsent else .empty
    sow := 2 ^ 31 + 1, nextSeq := fun _ => 2 ^ 31 + 1, headSeq := 2 ^ 31 + 2, srcEpoch := 7
    flowAru := fun _ => 2 ^ 31, flowSow := fun _ => 2 ^ 31 + 1, inFlowQueue := fun _ => true }

theorem farFlow_aru (j : Nat) : farFlow.flowAru j < 2 ^ 64 := show 2 ^ 31 < 2 ^ 64 by decide

theorem advances_farFlow : Advanced farConf farFlow (farFlow.afterStore farConf false ⟨2, 3, 7, 2 ^ 31 + 1, 1⟩) :=
  ((advances_iff rfl (by decide) farFlow_aru).1 ⟨2, 3, 7, 2 ^ 31 + 1, 1⟩).mpr
    ⟨2 ^ 31, List.mem_cons_of_mem _ List.mem_cons_self, by decide⟩

/-- Once it is sent, `Reliable_Flood_Send_Data` takes the window past it. -/
theorem sendData_advances_too_far : ¬ ∀ (c : Conf) (f : Flow), c.hbhAdvance = true → c.hbhOpt = false → f.sow < 2 ^ 64 →
    (∀ j, f.flowAru j < 2 ^ 64) → ∀ k, Advanced c (f.markSent k) (f.onSent c k) := by
  intro hall
  have hsow : farFlow.sow < 2 ^ 64 := by decide
  have hadvanced := (advanced_onSent rfl rfl hsow farFlow_aru 1).mp (hall farConf farFlow rfl rfl hsow farFlow_aru 1)
  have hnumbers : (farFlow.markSent 1).numbers farConf = [2 ^ 31 + 1, 2 ^ 31, 2 ^ 31 + 1] := by
    decide +kernel
  have hnot : ¬IntSuffices (2 ^ 31 + 1) [2 ^ 31 + 1, 2 ^ 31, 2 ^ 31 + 1] := by
    decide +kernel
  rw [hnumbers] at hadvanced
  exact hnot hadvanced.2

end Flow

end Spire.Flood
