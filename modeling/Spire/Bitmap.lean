import Mathlib.Data.BitVec
import Spire.Def

/-!
# Server bitmaps

`UTIL_Bitmap_*` of `utility.c`: sets of servers as 32-bit words. A server's bit is
its identifier modulo 32, as in the source, so the word is exact for deployments
of up to 31 servers and an approximation beyond.
-/

namespace Spire

/-- A set of servers. -/
abbrev Bitmap := BitVec 32

namespace Bitmap

/-- `UTIL_Bitmap_Is_Set`. -/
def isSet (bm : Bitmap) (i : Nat) : Bool := bm.getLsbD (i % 32)

/-- `UTIL_Bitmap_Set`. -/
def set (bm : Bitmap) (i : Nat) : Bitmap := bm ||| (1#32 <<< (i % 32))

/-- `UTIL_Bitmap_Is_Superset`: nothing of `old` is in the difference. -/
def isSuperset (old new : Bitmap) : Bool := old &&& (old ^^^ new) == 0#32

/-- `UTIL_Bitmap_Num_Bits_Set`. -/
def numBitsSet (c : Config) (bm : Bitmap) : Nat := Lib.tally c.numServers bm.isSet

/-- The servers a bitmap names. -/
def named (c : Config) (bm : Bitmap) : Finset Nat := Lib.accepted c.numServers bm.isSet

theorem named_subset (c : Config) (bm : Bitmap) : bm.named c ⊆ c.servers :=
  Lib.accepted_subset _ _

theorem card_named (c : Config) (bm : Bitmap) : (bm.named c).card = bm.numBitsSet c :=
  Lib.card_accepted _ _

theorem isSet_set {bm : Bitmap} {i j : Nat} :
    (bm.set i).isSet j = (bm.isSet j || decide (j % 32 = i % 32)) := by
  have hi : i % 32 < 32 := Nat.mod_lt _ (by decide)
  have hj : j % 32 < 32 := Nat.mod_lt _ (by decide)
  unfold set isSet
  rw [BitVec.getLsbD_or, BitVec.getLsbD_shiftLeft]
  by_cases h : j % 32 = i % 32
  · simp [h, hi]
  · by_cases hlt : j % 32 < i % 32
    · simp [h, hlt]
    · have hne : j % 32 - i % 32 ≠ 0 := by omega
      simp [h, hlt, hj, BitVec.getLsbD_one, hne]

theorem isSet_set_self (bm : Bitmap) (i : Nat) : (bm.set i).isSet i = true := by
  rw [isSet_set, decide_eq_true rfl, Bool.or_true]

theorem isSet_set_of_isSet {bm : Bitmap} {i j : Nat} (h : bm.isSet j = true) : (bm.set i).isSet j = true := by
  rw [isSet_set, h, Bool.true_or]

/-- What a superset test says about single servers. -/
theorem isSet_of_isSuperset {old new : Bitmap} (h : isSuperset old new = true) {i : Nat}
    (hi : old.isSet i = true) : new.isSet i = true := by
  have hzero : old &&& (old ^^^ new) = 0#32 := eq_of_beq h
  have hbit := congrArg (fun w : BitVec 32 => w.getLsbD (i % 32)) hzero
  unfold isSet at *
  simp only [BitVec.getLsbD_and, BitVec.getLsbD_xor, BitVec.getLsbD_zero, hi] at hbit
  simpa using hbit

end Bitmap

end Spire
