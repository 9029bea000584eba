import Spire.Lib.Quorum

/-!
# Deployment parameters

`def.h`, `utility.c`: the fault thresholds a deployment is compiled with, the
number of servers they give, and who leads a view. Server identifiers are
`1 .. NUM_SERVERS`, as in the source.

`Deployment` adds the servers an adversary controls. That there are at most `F`
of them is a field, so the results below carry no assumption about it.
-/

namespace Spire

/-- `NUM_F` and `NUM_K`: tolerated intrusions, and servers that may be down or
recovering at the same time. -/
structure Config where
  F : Nat
  K : Nat
deriving DecidableEq, Repr

namespace Config

variable (c : Config)

/-- `NUM_SERVERS`. -/
def numServers : Nat := 3 * c.F + 2 * c.K + 1

/-- `2f + k + 1`, the size of every commit-style quorum in the source. -/
def quorum : Nat := 2 * c.F + c.K + 1

/-- The server identifiers in use. -/
def servers : Finset Nat := Finset.Icc 1 c.numServers

/-- `UTIL_Leader_Of_View`. -/
def leaderOfView (view : Nat) : Nat :=
  if view % c.numServers = 0 then c.numServers else view % c.numServers

theorem numServers_pos : 0 < c.numServers := by
  unfold numServers
  omega

theorem quorum_le_numServers : c.quorum ≤ c.numServers := by
  unfold quorum numServers
  omega

theorem card_servers : c.servers.card = c.numServers := by
  simp only [servers, Nat.card_Icc]
  omega

theorem leaderOfView_mem (view : Nat) : c.leaderOfView view ∈ c.servers := by
  have hpos := c.numServers_pos
  have hlt := Nat.mod_lt view hpos
  unfold leaderOfView servers
  split
  · exact Finset.mem_Icc.mpr ⟨hpos, le_refl _⟩
  · exact Finset.mem_Icc.mpr ⟨by omega, by omega⟩

end Config

/-- A configuration and the servers the adversary controls. -/
structure Deployment extends Config where
  byz : Finset Nat
  byz_card : byz.card ≤ F

namespace Deployment

variable (d : Deployment)

/-- A server follows the code when it exists and is not controlled. -/
def correct (i : Nat) : Bool := decide (i ∈ d.servers ∧ i ∉ d.byz)

theorem correct_iff {i : Nat} : d.correct i = true ↔ i ∈ d.servers ∧ i ∉ d.byz := by
  simp only [correct, decide_eq_true_eq]

/-- The servers as a committee whose quorums are the source's `2f + k + 1`. -/
def committee : Lib.Committee Nat where
  members := d.servers
  faulty := d.byz
  quorum := d.quorum
  overlap := by
    have hb := d.byz_card
    rw [Config.card_servers]
    unfold Config.numServers Config.quorum
    omega

end Deployment

/-! ## Small deployments -/

/-- Three servers, one of which may be down. -/
def threeServers : Deployment := { F := 0, K := 1, byz := ∅, byz_card := le_refl 0 }

/-- Four servers, the last of which is controlled. -/
def fourServers : Deployment := { F := 1, K := 0, byz := {4}, byz_card := le_refl 1 }

end Spire
