import Mathlib.Data.List.Pairwise
import Spire.Lib.Runs

/-!
# Keeping the latest record of a log

A log is a list of records in which each is older than all behind it. A machine has a
register for such records, which come to it in any order, some of them not at all and some
more than once. `Keeps` is what a step owes the register: it moves up or stays, and it is at
or above every record the step brought. Then after every run with the last record this is
what the register has (`Keeps.run_eq_last`), so that two such runs agree.
-/

namespace Spire.Lib

variable {σ α κ : Type*} {older : κ → κ → Prop} {log : List κ} {m x : κ}

/-- Nothing of the log is above its last record. -/
theorem eq_last (hasymm : ∀ a b, older a b → ¬ older b a) (hlog : log.Pairwise older) (hlast : log.getLast? = some m)
    (hx : x ∈ log) (hmx : x = m ∨ older m x) : x = m := by
  obtain ⟨front, rfl⟩ := List.getLast?_eq_some_iff.mp hlast
  rcases hmx with heq | hmx
  · exact heq
  · rcases List.mem_append.mp hx with hx | hx
    · have hxm := (List.pairwise_append.mp hlog).2.2 x hx m (List.mem_singleton_self m)
      exact absurd hmx (hasymm x m hxm)
    · exact List.mem_singleton.mp hx

/-- Two records of a log are the same, or one is older. -/
theorem older_or (hlog : log.Pairwise older) {a b : κ} (ha : a ∈ log) (hb : b ∈ log) : a = b ∨ older a b ∨ older b a := by
  exact List.Pairwise.forall_of_forall_of_flip (R := fun a b => a = b ∨ older a b ∨ older b a) (fun _ _ => .inl rfl)
    (hlog.imp fun h => .inr (.inl h)) (hlog.imp fun h => .inr (.inr h)) ha hb

variable {f : σ → α → σ} {reg : σ → κ} {I : σ → Prop} {E : α → Prop} {brings : α → κ → Prop}

/-- What the steps of a machine owe a register. `I` is what they keep, and `E` what they are about. -/
structure Keeps (f : σ → α → σ) (reg : σ → κ) (older : κ → κ → Prop) (I : σ → Prop) (E : α → Prop) (brings : α → κ → Prop) : Prop where
  inv : ∀ s x, I s → E x → I (f s x)
  rises : ∀ s x, I s → E x → reg (f s x) = reg s ∨ older (reg s) (reg (f s x))
  takes : ∀ s x m, I s → E x → brings x m → reg (f s x) = m ∨ older m (reg (f s x))

namespace Keeps

variable {s : σ} {xs : List α}

theorem run_inv (h : Keeps f reg older I E brings) (hs : I s) (hxs : ∀ x ∈ xs, E x) : I (xs.foldl f s) :=
  foldl_inv_of (fun s x hx hs => h.inv s x hs hx) hxs hs

/-- The register stays at or above what a step brought. -/
theorem run_takes (h : Keeps f reg older I E brings) (htrans : ∀ a b c, older a b → older b c → older a c) (hs : I s)
    (hxs : ∀ x ∈ xs, E x) {x : α} (hx : x ∈ xs) (hm : brings x m) :
    reg (xs.foldl f s) = m ∨ older m (reg (xs.foldl f s)) := by
  refine foldl_leaves (A := E) (B := fun x s => ∀ m, brings x m → reg s = m ∨ older m (reg s)) ?_ ?_
    (fun s x hx hs => h.inv s x hs hx) hxs hs x hx m hm
  · exact fun s x hx hs m hm => h.takes s x m hs hx hm
  · intro s x y hy hs hbefore m hm
    rcases h.rises s y hs hy with heq | hup
    · rw [heq]
      exact hbefore m hm
    · rcases hbefore m hm with rfl | hold
      · exact .inr hup
      · exact .inr (htrans _ _ _ hold hup)

/-- **The latest.** A run that brought the last record of a log ends with it, if the register is in the log. -/
theorem run_eq_last (h : Keeps f reg older I E brings) (htrans : ∀ a b c, older a b → older b c → older a c)
    (hasymm : ∀ a b, older a b → ¬ older b a) (hlog : log.Pairwise older) (hlast : log.getLast? = some m) (hs : I s)
    (hxs : ∀ x ∈ xs, E x) (hm : ∃ x ∈ xs, brings x m) (hreg : reg (xs.foldl f s) ∈ log) : reg (xs.foldl f s) = m := by
  obtain ⟨x, hx, hm⟩ := hm
  exact eq_last hasymm hlog hlast hreg (h.run_takes htrans hs hxs hx hm)

end Keeps

end Spire.Lib
