import Mathlib.Algebra.Ring.Nat
import Mathlib.Data.List.Basic
import Mathlib.Order.Lattice
import Mathlib.Order.MinMax

/-!
# Programs that read memory

A reader computes from the bytes behind a pointer, as a C function does. Beside its
result it reports its *extent*, an address below which every byte lies that it has
read: whether a parser stays inside its message is a question about its extent. A
reader may also stop without a result, and says why.

Two statements are made about a reader `x` on memory `m`: `Yields x m a`, that it has
the result `a`, and `Within x m B`, that it has not read beyond `B` when it has a
result. The simp set for the first turns a statement about a composed reader into one
about its parts, so a validator's answer is unfolded by `simp` and taken apart by
`obtain`. The rules for the second follow the reader's text, and may rely on what it
has checked so far.

The last section is about loops that walk a stretch of memory record by record, where
each record says how long it is.
-/

namespace Spire.Lib

/-- The bytes at all addresses. -/
abbrev Memory := Nat → UInt8

namespace Memory

/-- The unsigned integer of `w` bytes at `a`, least significant byte first. -/
def int (m : Memory) (a : Nat) : Nat → Nat
  | 0 => 0
  | w + 1 => (m a).toNat + 256 * m.int (a + 1) w

/-- The `n` bytes at `a`. -/
def bytes (m : Memory) (a n : Nat) : List UInt8 :=
  (List.range n).map fun i => m (a + i)

theorem length_bytes (m : Memory) (a n : Nat) : (m.bytes a n).length = n := by
  simp [bytes]

/-- An integer of `w` bytes is below `256 ^ w`. -/
theorem int_lt (m : Memory) (a w : Nat) : m.int a w < 256 ^ w := by
  induction w generalizing a with
  | zero => simp [int]
  | succ w ih =>
    have hlow := (m a).toNat_lt
    have hhigh := ih (a + 1)
    rw [int, Nat.pow_succ]
    omega

theorem bytes_succ (m : Memory) (a n : Nat) : m.bytes a (n + 1) = m a :: m.bytes (a + 1) n := by
  simp only [bytes, List.range_succ_eq_map, List.map_cons, List.map_map, Nat.add_zero, List.cons.injEq,
    true_and]
  apply List.map_congr_left
  intro i _
  show m (a + (i + 1)) = m (a + 1 + i)
  rw [Nat.add_right_comm, Nat.add_assoc]

theorem bytes_add (m : Memory) (a n k : Nat) : m.bytes a (n + k) = m.bytes a n ++ m.bytes (a + n) k := by
  simp only [bytes, List.range_add, List.map_append, List.map_map, List.append_cancel_left_eq]
  apply List.map_congr_left
  intro i _
  rw [Function.comp_apply, Nat.add_assoc]

/-- Memory with `l` at `a`, and the bytes of `m` elsewhere. -/
def write (m : Memory) (a : Nat) (l : List UInt8) : Memory := fun i =>
  if a ≤ i then l.getD (i - a) (m i) else m i

section Written

variable {m m' : Memory} {a b n : Nat}

theorem int_congr {w : Nat} (h : ∀ i < w, m (a + i) = m' (b + i)) : m.int a w = m'.int b w := by
  induction w generalizing a b with
  | zero => rfl
  | succ w ih =>
    have hfirst : m a = m' b := h 0 (Nat.succ_pos w)
    rw [int, int, hfirst, ih fun i hi => ?_]
    have hnext := h (i + 1) (Nat.succ_lt_succ hi)
    rwa [← Nat.add_assoc, ← Nat.add_assoc, Nat.add_right_comm a, Nat.add_right_comm b] at hnext

theorem bytes_congr (h : ∀ i < n, m (a + i) = m' (b + i)) : m.bytes a n = m'.bytes b n :=
  List.map_congr_left fun i hi => h i (List.mem_range.mp hi)

/-- The same bytes at two addresses, byte for byte. -/
theorem bytes_eq_iff : m.bytes a n = m'.bytes b n ↔ ∀ i < n, m (a + i) = m' (b + i) := by
  refine ⟨fun h i hi => ?_, bytes_congr⟩
  exact List.map_inj_left.mp h i (List.mem_range.mpr hi)

theorem write_apply {l : List UInt8} {i : Nat} (h : i < l.length) : m.write a l (a + i) = l[i] := by
  rw [write, if_pos (Nat.le_add_right a i), Nat.add_sub_cancel_left, List.getD_eq_getElem?_getD,
    List.getElem?_eq_getElem h, Option.getD_some]

/-- The bytes around those that are written stay. -/
theorem write_outside {l : List UInt8} {i : Nat} (h : i < a ∨ a + l.length ≤ i) : m.write a l i = m i := by
  unfold write
  split
  · rw [List.getD_eq_getElem?_getD, List.getElem?_eq_none (by omega), Option.getD_none]
  · rfl

/-- Bytes that were written are read again. -/
theorem bytes_write {l : List UInt8} {i : Nat} (h : i + n ≤ l.length) :
    (m.write a l).bytes (a + i) n = (l.drop i).take n := by
  apply List.ext_getElem
  · rw [length_bytes, List.length_take, List.length_drop]
    omega
  · intro j hj _
    rw [length_bytes] at hj
    simp only [bytes, List.getElem_map, List.getElem_range, List.getElem_take, List.getElem_drop]
    rw [Nat.add_assoc, write_apply]

/-- Bytes that are copied are found where they were copied to. -/
theorem write_bytes {i : Nat} (h : i < n) : m'.write b (m.bytes a n) (b + i) = m (a + i) := by
  have hlen : i < (m.bytes a n).length := by rwa [length_bytes]
  rw [write_apply hlen]
  simp [bytes]

end Written

end Memory

/-- The `w` bytes of an integer, least significant first. -/
def leBytes : Nat → Nat → List UInt8
  | 0, _ => []
  | w + 1, v => UInt8.ofNat v :: leBytes w (v / 256)

/-- An integer that is read and written again is the same bytes. -/
theorem leBytes_int (m : Memory) (a w : Nat) : leBytes w (m.int a w) = m.bytes a w := by
  induction w generalizing a with
  | zero => rfl
  | succ w ih =>
    have hlow := (m a).toNat_lt
    have hdiv : ((m a).toNat + 256 * m.int (a + 1) w) / 256 = m.int (a + 1) w := by omega
    have hbyte : UInt8.ofNat ((m a).toNat + 256 * m.int (a + 1) w) = m a := by
      apply UInt8.toNat_inj.mp
      rw [UInt8.toNat_ofNat']
      omega
    rw [Memory.bytes_succ, Memory.int, leBytes, hdiv, hbyte, ih]

theorem length_leBytes (w v : Nat) : (leBytes w v).length = w := by
  induction w generalizing v with
  | zero => rfl
  | succ w ih => rw [leBytes, List.length_cons, ih]

/-- An integer that was written is read again. -/
theorem int_write_leBytes {m : Memory} (a w v : Nat) (pre post : List UInt8) :
    (m.write a (pre ++ (leBytes w v ++ post))).int (a + pre.length) w = v % 256 ^ w := by
  induction w generalizing v pre with
  | zero => rw [Memory.int, Nat.pow_zero, Nat.mod_one]
  | succ w ih =>
    have hlt : pre.length < (pre ++ (leBytes (w + 1) v ++ post)).length := by
      simp only [leBytes, List.length_append, List.length_cons]
      omega
    have hfirst : m.write a (pre ++ (leBytes (w + 1) v ++ post)) (a + pre.length) = UInt8.ofNat v := by
      rw [Memory.write_apply hlt]
      simp [leBytes]
    have hrest := ih (v / 256) (pre ++ [UInt8.ofNat v])
    rw [List.append_assoc, List.length_append, List.length_singleton, ← Nat.add_assoc] at hrest
    rw [Memory.int, hfirst, UInt8.toNat_ofNat', Nat.pow_succ' (n := w), Nat.mod_mul]
    exact congrArg (fun x => v % 2 ^ 8 + 256 * x) hrest

theorem int_write {m : Memory} (a w v : Nat) : (m.write a (leBytes w v)).int a w = v % 256 ^ w := by
  have h := int_write_leBytes (m := m) a w v [] []
  rwa [List.nil_append, List.append_nil, List.length_nil, Nat.add_zero] at h

/-- Why a reader has no result: it answered no, it ended the process, it wrote outside
its buffer, or it was given too little fuel. -/
inductive Stop
  | refused
  | exited
  | overran
  | unfinished
deriving DecidableEq, Repr

/-- A computation on memory, with its extent. -/
def Reader (α : Type) := Memory → Except Stop α × Nat

namespace Reader

variable {α β : Type}

instance : Monad Reader where
  pure a := fun _ => (.ok a, 0)
  bind x f := fun m =>
    match x m with
    | (.ok a, e) => ((f a m).1, max e (f a m).2)
    | (.error s, e) => (.error s, e)

/-- Stop without a result. -/
def stop (s : Stop) : Reader α := fun _ => (.error s, 0)

/-- Answer no unless `p` holds. -/
def require (p : Prop) [Decidable p] : Reader Unit :=
  if p then pure () else stop .refused

/-- The integer of `w` bytes at `a`. -/
def int (a w : Nat) : Reader Nat := fun m => (.ok (m.int a w), a + w)

/-- The `n` bytes at `a`. -/
def bytes (a n : Nat) : Reader (List UInt8) := fun m => (.ok (m.bytes a n), a + n)

/-- The result, where there is one. -/
def value [Inhabited α] (x : Reader α) (m : Memory) : α := (x m).1.toOption.getD default

/-- The reader has a result. -/
def accepts (x : Reader α) (m : Memory) : Bool := (x m).1.isOk

/-- On memory `m` the reader has result `a`. -/
def Yields (x : Reader α) (m : Memory) (a : α) : Prop := (x m).1 = .ok a

/-- The extent of a reader. -/
def extent (x : Reader α) (m : Memory) : Nat := (x m).2

/-- A reader that has a result has not read beyond `B`. -/
def Within (x : Reader α) (m : Memory) (B : Nat) : Prop := ∀ a, Yields x m a → x.extent m ≤ B

variable {x y : Reader α} {f : α → Reader β} {m : Memory} {a a' : α} {b : β} {B B' : Nat}

theorem Yields.value_eq [Inhabited α] (h : Yields x m a) : x.value m = a := by
  rw [value, show (x m).1 = _ from h]
  rfl

theorem Yields.unique (h : Yields x m a) (h' : Yields x m a') : a = a' :=
  Except.ok.inj ((show (x m).1 = _ from h).symm.trans h')

theorem accepts_iff : x.accepts m = true ↔ ∃ a, Yields x m a := by
  unfold accepts Yields
  cases (x m).1 <;> simp [Except.isOk, Except.toBool]

theorem yields_of_accepts {x : Reader Unit} (h : x.accepts m = true) : Yields x m () := by
  obtain ⟨_, h⟩ := accepts_iff.mp h
  exact h

/-! ## Taking results apart -/

@[simp] theorem yields_pure : Yields (pure a) m a' ↔ a' = a := by
  show (.ok a : Except Stop α) = .ok a' ↔ _
  rw [Except.ok.injEq, eq_comm]

theorem bind_of_yields (h : Yields x m a) :
    (x >>= f) m = ((f a m).1, max (x.extent m) (f a m).2) := by
  have hx : x m = (.ok a, x.extent m) := Prod.ext h rfl
  show (match x m with
    | (.ok a, e) => ((f a m).1, max e (f a m).2)
    | (.error s, e) => (.error s, e)) = _
  rw [hx]

@[simp] theorem yields_bind :
    Yields (x >>= f) m b ↔ ∃ a, Yields x m a ∧ Yields (f a) m b := by
  constructor
  · intro h
    cases hx : (x m).1 with
    | ok a =>
      refine ⟨a, hx, ?_⟩
      rw [Yields, bind_of_yields hx] at h
      exact h
    | error s =>
      have hstop : ((x >>= f) m).1 = .error s := by
        show (match x m with
          | (.ok a, e) => ((f a m).1, max e (f a m).2)
          | (.error s, e) => (.error s, e)).1 = _
        rw [show x m = (.error s, (x m).2) from Prod.ext hx rfl]
      cases hstop.symm.trans h
  · rintro ⟨a, hx, hf⟩
    rw [Yields, bind_of_yields hx]
    exact hf

@[simp] theorem yields_stop {s : Stop} : ¬ Yields (stop s : Reader α) m a := by
  intro h
  cases h

@[simp] theorem yields_require {p : Prop} [Decidable p] {u : Unit} : Yields (require p) m u ↔ p := by
  unfold require
  split <;> simp [*]

@[simp] theorem yields_int {p w v : Nat} : Yields (int p w) m v ↔ v = m.int p w := by
  show (.ok _ : Except Stop Nat) = .ok v ↔ _
  rw [Except.ok.injEq, eq_comm]

@[simp] theorem yields_bytes {p n : Nat} {l : List UInt8} :
    Yields (bytes p n) m l ↔ l = m.bytes p n := by
  show (.ok _ : Except Stop (List UInt8)) = .ok l ↔ _
  rw [Except.ok.injEq, eq_comm]

/-- The result of a check carries nothing. -/
theorem exists_unit {p : Unit → Prop} : (∃ u, p u) ↔ p () :=
  ⟨fun ⟨_, h⟩ => h, fun h => ⟨(), h⟩⟩

theorem yields_ite {p : Prop} [Decidable p] :
    Yields (if p then x else y) m a ↔ (p ∧ Yields x m a) ∨ (¬ p ∧ Yields y m a) := by
  split <;> simp [*]

/-! ## Where readers read -/

theorem Within.mono (h : Within x m B) (hle : B ≤ B') : Within x m B' := fun a ha => (h a ha).trans hle

/-- Where a reader reads matters only when it has a result. -/
theorem Within.of_yields (h : ∀ a, Yields x m a → Within x m B) : Within x m B := fun a ha => h a ha a ha

theorem within_pure : Within (pure a) m B := fun _ _ => Nat.zero_le B

theorem within_stop {s : Stop} : Within (stop s : Reader α) m B := fun _ h => absurd h yields_stop

theorem within_require {p : Prop} [Decidable p] : Within (require p) m B := by
  unfold require
  split
  · exact within_pure
  · exact within_stop

theorem within_int {p w : Nat} (h : p + w ≤ B) : Within (int p w) m B := fun _ _ => h

theorem within_bytes {p n : Nat} (h : p + n ≤ B) : Within (bytes p n) m B := fun _ _ => h

/-- What follows a reader may rely on its result. -/
theorem within_bind (hx : Within x m B) (hf : ∀ a, Yields x m a → Within (f a) m B) :
    Within (x >>= f) m B := by
  intro b hb
  obtain ⟨a, ha, hfa⟩ := yields_bind.mp hb
  rw [extent, bind_of_yields ha]
  exact max_le (hx a ha) (hf a ha b hfa)

/-- What follows a check may rely on it. -/
theorem within_require_bind {p : Prop} [Decidable p] {g : Unit → Reader β} (h : p → Within (g ()) m B) :
    Within (require p >>= g) m B :=
  within_bind within_require fun _ hp => h (yields_require.mp hp)

theorem within_ite {p : Prop} [Decidable p] (hx : p → Within x m B) (hy : ¬ p → Within y m B) :
    Within (if p then x else y) m B := by
  split
  · exact hx ‹p›
  · exact hy ‹¬ p›

/-! ## Where readers read that may have no result -/

/-- The reader has not read beyond `B`, whether it has a result or stops. -/
def Inside (x : Reader α) (m : Memory) (B : Nat) : Prop := x.extent m ≤ B

theorem inside_pure : Inside (pure a) m B := Nat.zero_le B

theorem inside_stop {s : Stop} : Inside (stop s : Reader α) m B := Nat.zero_le B

@[simp] theorem inside_require {p : Prop} [Decidable p] : Inside (require p) m B := by
  unfold require
  split
  · exact inside_pure
  · exact inside_stop

@[simp] theorem inside_int {p w : Nat} : Inside (int p w) m B ↔ p + w ≤ B := Iff.rfl

@[simp] theorem inside_bytes {p n : Nat} : Inside (bytes p n) m B ↔ p + n ≤ B := Iff.rfl

/-- What follows a reader counts where it has a result. -/
theorem inside_bind : Inside (x >>= f) m B ↔ Inside x m B ∧ ∀ a, Yields x m a → Inside (f a) m B := by
  unfold Inside extent
  cases hx : (x m).1 with
  | ok a =>
    have hyields : Yields x m a := hx
    rw [bind_of_yields hyields, max_le_iff]
    refine and_congr_right fun _ => ⟨fun h a' ha' => hyields.unique ha' ▸ h, fun h => h a hyields⟩
  | error s =>
    have hstop : (x >>= f) m = (.error s, (x m).2) := by
      show (match x m with
        | (.ok a, e) => ((f a m).1, max e (f a m).2)
        | (.error s, e) => (.error s, e)) = _
      rw [show x m = (.error s, (x m).2) from Prod.ext hx rfl]
    rw [hstop]
    refine ⟨fun h => ⟨h, fun a ha => ?_⟩, And.left⟩
    cases hx.symm.trans ha

theorem inside_require_bind {p : Prop} [Decidable p] {g : Unit → Reader β} :
    Inside (require p >>= g) m B ↔ (p → Inside (g ()) m B) := by
  rw [inside_bind]
  exact ⟨fun h hp => h.2 () (yields_require.mpr hp), fun h => ⟨inside_require, fun _ hp => h (yields_require.mp hp)⟩⟩

theorem inside_ite {p : Prop} [Decidable p] :
    Inside (if p then x else y) m B ↔ (p → Inside x m B) ∧ (¬ p → Inside y m B) := by
  split <;> simp [*]

/-! ## Walks -/

/-- The address after `k` records from `a`, where the record at an address is `size`
of it long. -/
def after (size : Nat → Nat) (a : Nat) : Nat → Nat
  | 0 => a
  | k + 1 => after size (a + size a) k

/-- The addresses of `k` records from `a`. -/
def positions (size : Nat → Nat) (a k : Nat) : List Nat := (List.range k).map (after size a)

theorem length_positions (size : Nat → Nat) (a k : Nat) : (positions size a k).length = k := by
  simp [positions]

theorem mem_positions {size : Nat → Nat} {a k b : Nat} :
    b ∈ positions size a k ↔ ∃ i < k, after size a i = b := by
  simp [positions]

theorem after_succ (size : Nat → Nat) (a k : Nat) :
    after size a (k + 1) = after size a k + size (after size a k) := by
  induction k generalizing a with
  | zero => rfl
  | succ k ih => exact ih (a + size a)

/-- A later record lies behind an earlier one. -/
theorem after_le_after (size : Nat → Nat) (a : Nat) {i k : Nat} (h : i ≤ k) :
    after size a i ≤ after size a k := by
  induction h with
  | refl => exact le_refl _
  | step _ ih =>
    rw [after_succ]
    omega

/-- A loop over the records up to `limit`: it goes on while at least `least` bytes and
one byte are left, and until it has seen `most` records. `item` checks the record at an
address, knowing its index and how many bytes are left, and answers its size. -/
structure Walk where
  limit : Nat
  least : Nat
  most : Option Nat
  item : Nat → Nat → Nat → Reader Nat

/-- The loop, from address `a` with `count` records seen. It ends within the fuel when
that is at least the number of bytes left and no record is empty. -/
def Walk.run (W : Walk) : Nat → Nat → Nat → Reader (Nat × Nat)
  | 0, a, count => pure (a, count)
  | fuel + 1, a, count =>
    if a < W.limit ∧ W.least ≤ W.limit - a then do
      let size ← W.item count a (W.limit - a)
      if W.most = some (count + 1) then pure (a + size, count + 1)
      else W.run fuel (a + size) (count + 1)
    else pure (a, count)

/-- **What a walk has seen.** The records lie one behind the other from where it
started, and each passed its check. -/
theorem Walk.yields_run {W : Walk} {size : Nat → Nat}
    (hsize : ∀ i a rest n, Yields (W.item i a rest) m n → n = size a)
    {fuel a count a' count' : Nat} (h : Yields (W.run fuel a count) m (a', count')) :
    ∃ k, count' = count + k ∧ a' = after size a k ∧
      ∀ i < k, Yields (W.item (count + i) (after size a i) (W.limit - after size a i)) m
        (size (after size a i)) := by
  induction fuel generalizing a count with
  | zero =>
    obtain ⟨rfl, rfl⟩ := Prod.mk.inj (yields_pure.mp h)
    exact ⟨0, rfl, rfl, fun i hi => absurd hi (Nat.not_lt_zero i)⟩
  | succ fuel ih =>
    rcases yields_ite.mp h with ⟨-, h⟩ | ⟨-, h⟩
    · obtain ⟨n, hitem, hrest⟩ := yields_bind.mp h
      obtain rfl := hsize _ _ _ _ hitem
      rcases yields_ite.mp hrest with ⟨-, hrest⟩ | ⟨-, hrest⟩
      · obtain ⟨rfl, rfl⟩ := Prod.mk.inj (yields_pure.mp hrest)
        refine ⟨1, rfl, rfl, fun i hi => ?_⟩
        obtain rfl : i = 0 := by omega
        exact hitem
      · obtain ⟨k, hcount, ha', hitems⟩ := ih hrest
        refine ⟨k + 1, by omega, ha', fun i hi => ?_⟩
        cases i with
        | zero => exact hitem
        | succ i =>
          have hi' := hitems i (by omega)
          rw [Nat.add_right_comm] at hi'
          exact hi'
    · obtain ⟨rfl, rfl⟩ := Prod.mk.inj (yields_pure.mp h)
      exact ⟨0, rfl, rfl, fun i hi => absurd hi (Nat.not_lt_zero i)⟩

/-- A walk reads no further than the checks of records before its limit. -/
theorem Walk.within_run {W : Walk}
    (h : ∀ i a, a < W.limit → Within (W.item i a (W.limit - a)) m B) (fuel a count : Nat) :
    Within (W.run fuel a count) m B := by
  induction fuel generalizing a count with
  | zero => exact within_pure
  | succ fuel ih =>
    refine within_ite (fun hc => within_bind (h _ _ hc.1) fun n _ => ?_) fun _ => within_pure
    exact within_ite (fun _ => within_pure) fun _ => ih _ _

end Reader

end Spire.Lib
