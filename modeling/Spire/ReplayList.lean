import Spire.ReplaySafety

/-!
# The list of a replay

Nothing in `view_change.c` or `validate.c` looks at how many servers a list names.
`VIEW_Construct_VC_List` proposes `2f + k + 1`, but a server signs any list that is
contained in its complete state, so a controlled server that proposes a smaller one
gets it signed: `shortList_executed` is such a run, with the empty list.

`replay_list_quorum` is what holds instead. As long as the lists that controlled
servers propose name a quorum, so does the list of every replay executed, and it then
meets every quorum of an earlier view in a correct server. The number of servers is
not lost on the way: it goes through the pending lists, the shares, the combined
signature and the stored replay, each of which is an invariant here.

A threshold signature cannot be made without the shares of a quorum. That is a rule
for the adversary (`thresholdEnv`), not for the servers, which combine the shares they
have collected.
-/

namespace Spire.ViewChange

open Spire.Order Spire.Replay Spire.Lib

variable {D : Type} {d : Deployment} {p : Params D} {me : Nat} {x : Input (Msg D) (Action D)}
  {st st' : Node D} {out : List (Msg D)}

/-! ## The adversary -/

/-- A share of `content` by server `i` is at the adversary's hand: `i` is controlled,
or its share was sent. -/
def hasShare (d : Deployment) (l : List (Msg D)) (content : VcContent) (i : Nat) : Bool :=
  decide (i ∈ d.byz) || l.any fun m => match m with
    | .vcPartialSig s => decide (s.machineId = i ∧ s.body.content = content)
    | _ => false

/-- A message that bears a threshold signature can be made from a quorum of shares. -/
def combinable (d : Deployment) (p : Params D) (l : List (Msg D)) (m : VcProof) : Bool :=
  !p.tc.verifySignature m.content m.threshSig ||
    decide (d.quorum ≤ tally d.numServers (hasShare d l m.content))

/-- The adversary sends anything that bears neither a correct server's signature nor a
threshold signature for which it lacks the shares. -/
def thresholdEnv (d : Deployment) (p : Params D) : Env (Msg D) where
  correct := d.correct
  forge l m := !d.correct m.signer && match m with
    | .vcProof m => combinable d p l m.body
    | .replay m => combinable d p l m.body
    | _ => true

/-! ## What holds of lists -/

/-- A list names a quorum of servers. -/
def NamesQuorum (c : Config) (list : Bitmap) : Prop := c.quorum ≤ (list.named c).card

/-- What is true of every message sent: lists that correct servers propose or sign name
a quorum, and so do those that a threshold signature covers. -/
def Faithful (d : Deployment) (p : Params D) : Msg D → Prop
  | .vcList m => d.correct m.machineId = true → NamesQuorum p.config m.body.list
  | .vcPartialSig m => d.correct m.machineId = true → NamesQuorum p.config m.body.content.list
  | .vcProof m | .replay m =>
    p.tc.verifySignature m.body.content m.body.threshSig = true →
      NamesQuorum p.config m.body.content.list
  | _ => True

/-- The lists a server has in its state. -/
structure ListInv (d : Deployment) (p : Params D) (st : Node D) : Prop where
  pending : ∀ list ∈ st.vc.pendingVcList, NamesQuorum p.config list
  share : ∀ list i m, st.vc.uniquePartialSig list i = some m → d.correct i = true →
    NamesQuorum p.config list
  replay : ∀ m, st.vc.replay = some m → NamesQuorum p.config m.body.content.list
  executed : ∀ e ∈ st.executed, NamesQuorum p.config e.replay.content.list

/-- The lists that controlled servers propose, where a correct server handles them. -/
def ProposesQuorum (d : Deployment) (p : Params D) (x : Input (Msg D) (Action D)) : Prop :=
  ∀ m, x = .msg (.vcList m) → m.machineId ∈ d.byz → NamesQuorum p.config m.body.list

/-- The input a server handles is one that was sent, and meets the condition. -/
structure Handled (d : Deployment) (p : Params D) (x : Input (Msg D) (Action D)) : Prop where
  proposed : ProposesQuorum d p x
  faithful : ∀ m, x = .msg m → Faithful d p m

/-- A validated list names a quorum, whoever proposed it. -/
theorem Handled.namesQuorum (h : Handled d p x) (hd : d.toConfig = p.config) {mess : Signed VcList}
    (hx : x = .msg (.vcList mess)) (hvalid : validated p (.vcList mess) = true) :
    NamesQuorum p.config mess.body.list := by
  have hserver : mess.machineId ∈ d.servers := by
    rw [hd]
    exact of_decide_eq_true hvalid
  by_cases hbyz : mess.machineId ∈ d.byz
  · exact h.proposed mess hx hbyz
  · exact h.faithful _ hx (d.correct_iff.mpr ⟨hserver, hbyz⟩)

/-- A quorum has a correct server. -/
theorem exists_correct_of_quorum (d : Deployment) {A : Finset Nat} (hA : A ⊆ d.servers)
    (hq : d.quorum ≤ A.card) : ∃ i ∈ A, d.correct i = true := by
  obtain ⟨i, hi, -, hbyz⟩ := d.committee.exists_correct_inter hA hA hq hq
  exact ⟨i, hi, d.correct_iff.mpr ⟨hA hi, hbyz⟩⟩

/-- A combined signature covers a list that a correct server has signed. -/
theorem ListInv.combined (h : ListInv d p st) (hd : d.toConfig = p.config) {list : Bitmap}
    {test : Signed VcPartialSig → Bool}
    (hcount : tally p.config.numServers (fun i => (st.vc.uniquePartialSig list i).any test) =
      p.config.quorum) : NamesQuorum p.config list := by
  rw [← hd] at hcount
  obtain ⟨i, hi, hcorrect⟩ := exists_correct_of_quorum d
    (accepted_subset d.numServers fun i => (st.vc.uniquePartialSig list i).any test)
    (le_of_eq (by rw [card_accepted, hcount]))
  obtain ⟨m, hm, -⟩ := (Option.any_eq_true _ _).mp (mem_accepted.mp hi).2
  exact h.share list i m hm hcorrect

/-- A move that keeps the lists and sends none. -/
private theorem ListInv.frame (h : ListInv d p st)
    (hpending : st'.vc.pendingVcList = st.vc.pendingVcList)
    (hshare : st'.vc.uniquePartialSig = st.vc.uniquePartialSig) (hreplay : st'.vc.replay = st.vc.replay)
    (hexec : st'.executed = st.executed) : ListInv d p st' where
  pending := by rw [hpending]; exact h.pending
  share := by rw [hshare]; exact h.share
  replay := by rw [hreplay]; exact h.replay
  executed := by rw [hexec]; exact h.executed

private theorem ListInv.storeReplay (h : ListInv d p st) {mess : Signed VcProof}
    (hlist : NamesQuorum p.config mess.body.content.list) : ListInv d p (st.storeReplay mess) where
  pending := h.pending
  share := h.share
  replay m hm := by
    cases hm
    exact hlist
  executed := h.executed

private theorem ListInv.storeShare (h : ListInv d p st) {mess : Signed VcPartialSig}
    (hlist : d.correct mess.machineId = true → NamesQuorum p.config mess.body.content.list) :
    ListInv d p (st.storeShare mess) where
  pending := h.pending
  share list i m hm hc := by
    by_cases hl : list = mess.body.content.list
    · subst hl
      by_cases hi : i = mess.machineId
      · exact hlist (hi ▸ hc)
      · refine h.share _ i m ?_ hc
        simpa [Node.storeShare, Node.withVc, hi] using hm
    · refine h.share list i m ?_ hc
      simpa [Node.storeShare, Node.withVc, hl] using hm
  replay := h.replay
  executed := h.executed

/-- Lists that waited and are now signed name a quorum. -/
private theorem ListInv.signPending (h : ListInv d p st) :
    ListInv d p (signPending p me st).1 ∧ ∀ m ∈ (signPending p me st).2, Faithful d p m := by
  refine ⟨⟨fun list hl => h.pending list (List.mem_of_mem_filter hl), h.share, h.replay, h.executed⟩,
    fun m hm => ?_⟩
  obtain ⟨list, hl, rfl⟩ := List.mem_map.mp hm
  exact fun _ => h.pending list (List.mem_of_mem_filter hl)

private theorem ListInv.resetViewChange (h : ListInv d p st) (ord : Order.Node D) :
    ListInv d p (st.resetViewChange ord) where
  pending _ hl := nomatch hl
  share _ _ _ hm := nomatch hm
  replay _ hm := nomatch hm
  executed := h.executed

/-- A server proposes the servers whose state it has, once they are a quorum. -/
theorem sendVcList_faithful (st : Node D) : ∀ m ∈ sendVcList p me st, Faithful d p m := by
  intro m hm
  unfold sendVcList at hm
  split at hm
  · rename_i hcount
    cases List.mem_singleton.mp hm
    intro _
    show p.config.quorum ≤ _
    rw [Bitmap.card_named, ← hcount]
    exact le_refl _
  · exact nomatch hm

/-! ## Runs -/

/-- What the adversary can make of faithful messages is faithful: a threshold signature
covers a list of which a correct server sent a share. -/
theorem faithful_of_forge {l : List (Msg D)} (hl : ∀ m ∈ l, Faithful d p m)
    {m : Msg D} (hf : (thresholdEnv d p).forge l m = true) : Faithful d p m := by
  obtain ⟨hsigner, hrule⟩ := Bool.and_eq_true_iff.mp hf
  have hbad : ¬ d.correct m.signer = true := by simpa using hsigner
  have hcombined : ∀ pr : VcProof, combinable d p l pr = true →
      p.tc.verifySignature pr.content pr.threshSig = true → NamesQuorum p.config pr.content.list := by
    intro pr hc hv
    unfold combinable at hc
    rw [hv, Bool.not_true, Bool.false_or] at hc
    obtain ⟨i, hi, hcorrect⟩ := exists_correct_of_quorum d
      (accepted_subset d.numServers (hasShare d l pr.content))
      (by rw [card_accepted]; exact of_decide_eq_true hc)
    have hnot : i ∉ d.byz := (d.correct_iff.mp hcorrect).2
    have hshare := (mem_accepted.mp hi).2
    unfold hasShare at hshare
    rw [decide_eq_false hnot, Bool.false_or] at hshare
    obtain ⟨m, hm, hms⟩ := List.any_eq_true.mp hshare
    split at hms
    · obtain ⟨hsi, hcontent⟩ := of_decide_eq_true hms
      exact hcontent ▸ hl _ hm (hsi ▸ hcorrect)
    · exact nomatch hms
  cases m with
  | vcList m => exact fun hc => absurd hc hbad
  | vcPartialSig m => exact fun hc => absurd hc hbad
  | vcProof m => exact hcombined m.body hrule
  | replay m => exact hcombined m.body hrule
  | _ => exact trivial

theorem Start.listInv {w : World (Node D) (Msg D)} (h : Start w) (i : Nat) : ListInv d p (w.node i) where
  pending list hl := by rw [h.vc i] at hl; exact nomatch hl
  share list j m hm := by rw [h.vc i] at hm; exact nomatch hm
  replay m hm := by rw [h.vc i] at hm; exact nomatch hm
  executed e he := by rw [h.executed i] at he; exact nomatch he

section Runs

variable [DecidableEq D]

/-- **No list shrinks.** A move keeps that every list in the state names a quorum, and
the lists it sends do. -/
theorem ListInv.move (h : ListInv d p st) (hd : d.toConfig = p.config) (hh : Handled d p x)
    (hm : Move p me x st st' out) : ListInv d p st' ∧ ∀ m ∈ out, Faithful d p m := by
  have hsilent : ∀ m ∈ ([] : List (Msg D)), Faithful d p m := fun _ hm => nomatch hm
  have hother : ∀ {a : Msg D}, Faithful d p a → ∀ m ∈ [a], Faithful d p m :=
    fun ha m hm => List.mem_singleton.mp hm ▸ ha
  cases hm with
  | edit he =>
    cases he with
    | ordering out _ =>
      refine ⟨h.frame rfl rfl rfl rfl, fun m hm => ?_⟩
      obtain ⟨m, -, rfl⟩ := List.mem_map.mp hm
      exact trivial
    | completed _ => exact ⟨h.frame rfl rfl rfl rfl, sendVcList_faithful _⟩
    | pendingSigned => exact h.signPending
    | listSigned hx hvalid => exact ⟨h, hother fun _ => hh.namesQuorum hd hx hvalid⟩
    | listPended hx hvalid =>
      refine ⟨⟨fun list hl => ?_, h.share, h.replay, h.executed⟩, hsilent⟩
      rcases List.mem_append.mp hl with hl | hl
      · exact h.pending list hl
      · rw [List.mem_singleton.mp hl]
        exact hh.namesQuorum hd hx hvalid
    | shareStored hx => exact ⟨h.storeShare (hh.faithful _ hx), hsilent⟩
    | shareCombined hcount hproof =>
      refine ⟨h, hother fun _ => ?_⟩
      have hlist := h.combined hd hcount
      unfold constructVcProof at hproof
      dsimp only at hproof
      split at hproof
      · cases hproof
        exact hlist
      · exact nomatch hproof
    | replayProposed hx hvalid _ =>
      have hlist := hh.faithful _ hx (Bool.and_eq_true_iff.mp hvalid).2
      exact ⟨h.storeReplay hlist, hother fun _ => hlist⟩
    | replayStored hx hvalid _ =>
      exact ⟨h.storeReplay (hh.faithful _ hx (Bool.and_eq_true_iff.mp hvalid).2), hsilent⟩
    | prepareSent m => exact ⟨h.frame rfl rfl rfl rfl, hother trivial⟩
    | commitSent _ _ _ => exact ⟨h.frame rfl rfl rfl rfl, hother trivial⟩
    | executed _ _ hreplay _ =>
      refine ⟨⟨h.pending, h.share, h.replay, fun e he => ?_⟩, hsilent⟩
      rcases List.mem_cons.mp he with rfl | he
      · exact h.replay _ hreplay
      · exact h.executed e he
    | _ => exact ⟨h.frame rfl rfl rfl rfl, hsilent⟩
  | entered _ _ => exact ⟨h.resetViewChange _, hsilent⟩
  | announced report _ =>
    refine ⟨h.frame rfl rfl rfl rfl, fun m hm => ?_⟩
    rcases List.mem_cons.mp hm with rfl | hm
    · exact trivial
    · obtain ⟨pc, -, rfl⟩ := List.mem_map.mp hm
      exact trivial
  | left _ _ _ => exact ⟨h.resetViewChange _, hsilent⟩

/-- **The list of a replay is a quorum**, in every run in which the lists that controlled
servers propose to correct ones are: every replay executed names `2f + k + 1` existing
servers, and so shares a correct one with every quorum. -/
theorem replay_list_quorum (hd : d.toConfig = p.config) {w₀ : World (Node D) (Msg D)} (h₀ : Start w₀)
    {evs : List (Event (Msg D) (Action D))}
    (hlists : ∀ i x, d.correct i = true → .handle i x ∈ evs → ProposesQuorum d p x) :
    ∀ i e, e ∈ ((w₀.run (thresholdEnv d p) (handle p) evs).node i).executed →
      d.quorum ≤ (e.replay.content.list.named d.toConfig).card ∧
        ∀ A ⊆ d.servers, d.quorum ≤ A.card →
          ∃ j ∈ A, d.correct j = true ∧ e.replay.content.list.isSet j = true := by
  have hinv := (node_sent_inv (E := thresholdEnv d p) (H := handle p) (w := w₀) (I := fun _ => ListInv d p)
    (Q := Faithful d p) (K := fun _ => ProposesQuorum d p) h₀.listInv
    (fun m hm => by rw [h₀.sent] at hm; exact nomatch hm) ?_ (fun l m hl hf => faithful_of_forge hl hf)
    hlists).1
  · intro i e he
    have hlist : NamesQuorum d.toConfig e.replay.content.list := hd ▸ (hinv i).executed e he
    refine ⟨hlist, fun A hA hq => ?_⟩
    obtain ⟨j, hj, hjA, hbyz⟩ :=
      d.committee.exists_correct_inter (Bitmap.named_subset d.toConfig e.replay.content.list) hA hlist hq
    exact ⟨j, hjA, d.correct_iff.mpr ⟨hA hjA, hbyz⟩, (mem_accepted.mp hj).2⟩
  · intro i st x _ hst hx hfaithful
    have hh : Handled d p x := ⟨hx, hfaithful⟩
    have hchain := handle_moves p i st x
    exact ⟨hchain.inv (I := ListInv d p) (fun _ _ _ hm h => (h.move hd hh hm).1) hst,
      hchain.forall_sent (I := ListInv d p) (fun _ _ _ hm h => (h.move hd hh hm).1)
        (fun _ _ _ hm h => (h.move hd hh hm).2) hst⟩

end Runs

/-- The replays a server has executed after `secondViewRun`, where threshold signatures
are hard to make. -/
def thresholdLog (i : Nat) : List (Executed RunDigest) :=
  (((firstView threeServers.toConfig).run (thresholdEnv threeServers (listedShares threeServers.toConfig))
    (handle (listedShares threeServers.toConfig)) secondViewRun).node i).executed

theorem replay_list_quorum_threeServers : ∃ e, thresholdLog 1 = [e] ∧
    2 ≤ (e.replay.content.list.named threeServers.toConfig).card := by
  have hone : (thresholdLog 1).length = 1 := by decide +kernel
  obtain ⟨e, he⟩ := List.length_eq_one_iff.mp hone
  have hstart : Start (firstView threeServers.toConfig) := ⟨fun _ => rfl, fun _ => rfl, rfl⟩
  have hlists : ∀ i x, threeServers.correct i = true → .handle i x ∈ secondViewRun →
      ProposesQuorum threeServers (listedShares threeServers.toConfig) x :=
    fun _ _ _ _ m _ hm => absurd hm (Finset.notMem_empty m.machineId)
  have hmem : e ∈ thresholdLog 1 := by
    rw [he]
    exact List.mem_singleton_self e
  exact ⟨e, he, (replay_list_quorum (d := threeServers) (p := listedShares threeServers.toConfig) rfl hstart
    hlists 1 e hmem).1⟩

/-! ### A list of nobody -/

/-- The list that server 4, which is controlled, proposes for the view it leads. -/
def emptyList : Signed VcList := { header := plainHeader 4 .vcList, body := { view := 4, list := 0#32 } }

/-- The replay it makes of the three shares it is sent. -/
def emptyReplay : Signed VcProof :=
  { header := plainHeader 4 .replay
    body := { content := { view := 4, list := 0#32, startSeq := 1 }, threshSig := [1, 2, 3] } }

/-- Servers 1, 2 and 3 enter view 4 and handle whatever is sent: first the empty list,
and once they have signed it, its replay. -/
def shortListRun : List (Event (Msg RunDigest) (Action RunDigest)) :=
  let E := thresholdEnv fourServers (listedShares fourServers.toConfig)
  let H := handle (listedShares fourServers.toConfig)
  let w₀ := firstView fourServers.toConfig
  let start := [1, 2, 3].map (fun i => .handle i (.act (.enterView 4))) ++ [.inject (.vcList emptyList)]
  let signed := start ++ World.rounds E H [1, 2, 3] 1 3 (w₀.run E H start) ++ [.inject (.replay emptyReplay)]
  let w := w₀.run E H signed
  signed ++ World.rounds E H [1, 2, 3] 4 (w.sent.length - 1) w

/-- The replays a server has executed after `shortListRun`. -/
def shortListLog (i : Nat) : List (Executed RunDigest) :=
  (((firstView fourServers.toConfig).run (thresholdEnv fourServers (listedShares fourServers.toConfig))
    (handle (listedShares fourServers.toConfig)) shortListRun).node i).executed

/-- Three correct servers execute a replay of view 4 whose list names nobody, not the
three of a quorum. -/
theorem shortList_executed :
    ([1, 2, 3].map fun i => (fourServers.correct i, (shortListLog i).map fun e =>
      (e.replay.content.view, (e.replay.content.list.named fourServers.toConfig).card))) =
      [(true, [(4, 0)]), (true, [(4, 0)]), (true, [(4, 0)])] ∧ fourServers.quorum = 3 := by
  decide +kernel

end Spire.ViewChange
