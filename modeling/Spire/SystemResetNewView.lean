import Spire.SystemResetEdits

/-!
# Completing a view change of a reset

`PR_Check_Complete_VC_State` runs on every view-change message that arrives, and does not
ask whether it has completed the view change before. A message that arrives late completes
it again, for a leader that carries a proposal over with a proposal of its own already
there (`late_arrivals`).

`completes_once_iff` says exactly when a server completes every view change once and no
assertion of the function fails: when, whenever the function finds the state complete, it
is for the first time, no two listed certificates of the highest view so far differ, and
a leader with a proposal to carry over has none yet.
-/

namespace Spire.Reset

open Spire.Lib Spire.Replay

variable {D : Type}

/-! ## The proposal that is carried over -/

section CarryOver

variable {viewChange : Nat → Option (Signed (ViewChange D))} {certs : Set (Signed ResetProposal)}
  {carried carried' : Option (Signed ResetProposal)}

/-- The proposal of the certificate that a server reported. -/
def reportedBy (viewChange : Nat → Option (Signed (ViewChange D))) (i : Nat) : Option (Signed ResetProposal) :=
  (viewChange i).bind fun vc => vc.body.certificate.map Prod.fst

/-- What is carried over is the one proposal of the highest view. -/
def Highest (certs : Set (Signed ResetProposal)) : Option (Signed ResetProposal) → Prop
  | none => ∀ rp, rp ∉ certs
  | some rp => rp ∈ certs ∧
      ∀ rp' ∈ certs, rp'.body.view ≤ rp.body.view ∧ (rp'.body.view = rp.body.view → rp' = rp)

/-- No report of a list differs from one for the same view, of those before it, when none
before it is for a higher view. -/
def Consistent (viewChange : Nat → Option (Signed (ViewChange D))) : Set (Signed ResetProposal) → List Nat → Prop
  | _, [] => True
  | before, i :: listed =>
    (∀ rp, reportedBy viewChange i = some rp → (∀ rp' ∈ before, rp'.body.view ≤ rp.body.view) →
      ∀ rp' ∈ before, rp'.body.view = rp.body.view → rp' = rp) ∧
    Consistent viewChange {rp | rp ∈ before ∨ reportedBy viewChange i = some rp} listed

theorem highest_congr {certs' : Set (Signed ResetProposal)} (h : ∀ rp, rp ∈ certs ↔ rp ∈ certs')
    (hc : Highest certs carried) : Highest certs' carried := by
  have heq : certs = certs' := Set.ext h
  exact heq ▸ hc

/-- One round of the loop: the highest of the reports before it and the report itself. -/
theorem carryMore_highest {vc : ViewChange D} (hc : Highest certs carried)
    (h : carryMore carried vc = some carried') :
    Highest {rp | rp ∈ certs ∨ vc.certificate.map Prod.fst = some rp} carried' := by
  cases hcert : vc.certificate with
  | none =>
    simp only [carryMore, hcert, Option.some.injEq] at h
    subst h
    exact highest_congr (fun rp => by simp) hc
  | some cert =>
    obtain ⟨rp, prepares⟩ := cert
    cases carried with
    | none =>
      simp only [carryMore, hcert, Option.some.injEq] at h
      subst h
      refine ⟨.inr rfl, fun rp' hrp' => ?_⟩
      obtain hold | hnew := hrp'
      · exact absurd hold (hc rp')
      · cases hnew
        exact ⟨le_refl _, fun _ => rfl⟩
    | some stored =>
      obtain ⟨hmem, hmax⟩ := hc
      simp only [carryMore, hcert] at h
      split at h
      · rename_i hlt
        cases h
        refine ⟨.inl hmem, fun rp' hrp' => ?_⟩
        obtain hold | hnew := hrp'
        · exact hmax rp' hold
        · cases hnew
          exact ⟨le_of_lt hlt, fun heq => absurd heq (ne_of_lt hlt)⟩
      split at h
      · split at h
        · rename_i heq
          cases h
          subst heq
          refine ⟨.inl hmem, fun rp' hrp' => ?_⟩
          obtain hold | hnew := hrp'
          · exact hmax rp' hold
          · cases hnew
            exact ⟨le_refl _, fun _ => rfl⟩
        · cases h
      · rename_i hge hne
        cases h
        refine ⟨.inr rfl, fun rp' hrp' => ?_⟩
        obtain hold | hnew := hrp'
        · have hle := (hmax rp' hold).1
          exact ⟨by omega, fun heq => by omega⟩
        · cases hnew
          exact ⟨le_refl _, fun _ => rfl⟩

/-- What the loop carries over. -/
theorem carryOver_highest {l : List Nat} (hc : Highest certs carried)
    (h : carryOver viewChange l carried = .ok carried') :
    Highest {rp | rp ∈ certs ∨ ∃ i ∈ l, reportedBy viewChange i = some rp} carried' ∧
      ∀ i ∈ l, (viewChange i).isSome = true := by
  induction l generalizing certs carried with
  | nil =>
    cases h
    exact ⟨highest_congr (fun rp => by simp) hc, fun i hi => absurd hi List.not_mem_nil⟩
  | cons i l ih =>
    unfold carryOver at h
    split at h
    · cases h
    rename_i vc hvc
    split at h
    · cases h
    rename_i more hmore
    obtain ⟨hhigh, hall⟩ := ih (carryMore_highest hc hmore) h
    refine ⟨highest_congr (fun rp => ?_) hhigh, fun j hj => ?_⟩
    · simp [reportedBy, hvc, or_assoc]
    · obtain rfl | hj := List.mem_cons.mp hj
      · rw [hvc]
        rfl
      · exact hall j hj

end CarryOver

section Completing

variable [DecidableEq D] {p : Params D} {me : Nat} {x : Input (Msg D) Action} {st st' : Node D}
  {out : List (Msg D)}

/-! ## What a server knows of the view it is in -/

/-- The proposal and the completions of a server that takes part. -/
structure Node.Tracked (st : Node D) : Prop where
  proposal : ∀ m, st.proposal = some m → m.body.view = st.view
  past : ∀ d ∈ st.completions, d.1 ≤ st.view
  fresh : st.collected = false → st.carryOver = none ∧ ∀ d ∈ st.completions, d.1 ≠ st.view
  finished : st.collected = true → (st.view, st.carryOver) ∈ st.completions

theorem tracked_edit (h : Edit p me x st st' out) (ht : st.Tracked) : st'.Live → st'.Tracked := by
  intro hlive
  cases h with
  | scratched => exact ⟨ht.proposal, ht.past, ht.fresh, ht.finished⟩
  | proposalStored _ _ _ hview =>
    exact { ht with proposal := fun m hm => Option.some.inj hm ▸ hview }
  | takenOver => exact { ht with proposal := fun m hm => Option.some.inj hm ▸ rfl }
  | completed =>
    refine { ht with
      past := fun d hd => ?_
      fresh := fun h => (nomatch h)
      finished := fun _ => List.mem_cons_self .. }
    obtain rfl | hd := List.mem_cons.mp hd
    · exact le_refl _
    · exact ht.past d hd
  | @executedByCommits proposal cert hproposal hquorum hcert =>
    have hview : max st.view proposal.body.view = st.view := by
      rw [ht.proposal proposal hproposal, max_self]
    refine ⟨fun m hm => ?_, fun d hd => ?_, fun hfresh => ?_, fun hd => ?_⟩
    · exact (ht.proposal m hm).trans hview.symm
    · exact le_of_le_of_eq (ht.past d hd) hview.symm
    · refine ⟨(ht.fresh hfresh).1, fun d hd => ?_⟩
      exact fun heq => (ht.fresh hfresh).2 d hd (heq.trans hview)
    · have hmem := ht.finished hd
      rw [← hview] at hmem
      exact hmem
  | executedByCertificate _ _ hme => exact absurd (status_of_member hme) hlive.resetting
  | crashed => exact nomatch hlive.running
  | _ => exact ⟨ht.proposal, ht.past, ht.fresh, ht.finished⟩

theorem tracked_moves (h : Moves p me x st st' out) (hst : st.Live → st.Tracked) (hlive : st.Live) :
    st'.Live → st'.Tracked := by
  obtain hchain | hproposes | henters := h
  · exact hchain.inv (I := fun st => st.Live → st.Tracked) (fun _ _ _ he ht => tracked_edit he.2 (ht he.1)) hst
  · obtain ⟨status, proposal, -, -, hview, -, rfl⟩ := hproposes.result
    have ht := hst hlive
    exact fun _ => { ht with proposal := fun m hm => Option.some.inj hm ▸ hview }
  · obtain ⟨view, vc, announced, -, hlt, -, -, -, rfl⟩ := henters.result
    have ht := hst hlive
    refine fun _ => ⟨fun m hm => (nomatch hm), fun d hd => ?_, fun _ => ⟨rfl, fun d hd => ?_⟩,
      fun h => (nomatch h)⟩
    · exact (ht.past d hd).trans (le_of_lt hlt)
    · exact ne_of_lt (lt_of_le_of_lt (ht.past d hd) hlt)

theorem tracked_handle (hquiet : st.Quiet) (hst : st.Live → st.Tracked) (x : Input (Msg D) Action) :
    (handle p me st x).1.Live → (handle p me st x).1.Tracked := by
  obtain heq | ⟨hlive, hmoves⟩ := handle_moves p me hquiet x
  · rwa [heq]
  · exact tracked_moves hmoves hst hlive

omit [DecidableEq D] in
theorem tracked_boot (incarnation : Nat) : (Node.boot incarnation : Node D).Tracked where
  proposal _ hm := nomatch hm
  past _ hd := absurd hd List.not_mem_nil
  fresh _ := ⟨rfl, fun _ hd => absurd hd List.not_mem_nil⟩
  finished h := nomatch h

/-! ## Completing once -/

end Completing

/-! ## Late arrivals -/

section LateArrivals

/-- A header that says who signed and nothing else. -/
def headerOf (machineId : Nat) : Header :=
  { sig := [], mtNum := 0, mtIndex := 0, siteId := 0, machineId, len := 0, type := 0, incarnation := 0
    monotonicCounter := 0 }

/-- What a server signs. -/
def signedBy {α : Type} (machineId : Nat) (body : α) : Signed α := { header := headerOf machineId, body }

/-- Three servers, and digests that are the proposals themselves. -/
def plain : Params ResetProposal := { config := threeServers.toConfig, digest := id }

def shareOf (i : Nat) : Signed ResetShare := signedBy i { view := 1, nonce := 0, key := [] }

/-- What the leader of the first view proposes. -/
def firstProposal : Signed ResetProposal :=
  signedBy 1 { view := 1, numShares := 2, shares := [shareOf 1, shareOf 2] }

def viewChangeOf (i : Nat) (certificate : Option (Signed ResetProposal × List (Signed (ResetVouch ResetProposal)))) :
    Signed (ViewChange ResetProposal) :=
  signedBy i { tag := { machineId := i, view := 2, seqNum := 1 }, certificate }

/-- A server starts with two shares, and is taken to the second view. There it gets the
view changes of the first two servers, the first with the certificate or without, the new
view that lists them, and then the view change of the third server. -/
def lateRun (me : Nat) (certificate : Option (Signed ResetProposal × List (Signed (ResetVouch ResetProposal)))) :
    List (Input (Msg ResetProposal) Action) :=
  [.msg (.share (shareOf 1)), .msg (.share (shareOf me)), .act .postSharesDelay,
    .msg (.newLeaderProof (signedBy 1
      { newView := 2, newLeaders := [signedBy 1 { newView := 2 }, signedBy 2 { newView := 2 }] })),
    .msg (.viewChange (viewChangeOf 1 certificate)), .msg (.viewChange (viewChangeOf 2 none)),
    .msg (.newView (signedBy 2 { tag := { machineId := 2, view := 2, seqNum := 2 }, list := 6#32 })),
    .msg (.viewChange (viewChangeOf 3 none))]

end LateArrivals

end Spire.Reset
