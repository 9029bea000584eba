import Spire.Lib.Chain
import Spire.ViewChange

/-!
# The edits of a view change

Every handler of `Spire.ViewChange` is a sequence of small edits. `Edit` lists
those a server makes within one view, each with the messages it sends and the
guards, of those its handler has tested, that results rely on; `Move` adds the two ways of getting to
another view. `handle_moves` takes the handlers apart. What the results about view
changes need of a step of a server they prove of one move.
-/

namespace Spire.ViewChange

open Spire.Order Spire.Replay Spire.Lib

variable {D : Type} [DecidableEq D]

/-! ## Edits and moves -/

/-- The edits a server makes while it handles `x`, in one view. -/
inductive Edit (p : Params D) (me : Nat) (x : Input (Msg D) (Action D)) :
    Node D → Node D → List (Msg D) → Prop
  | ordering {st : Node D} {ord : Order.Node D} (out : List (Order.Msg D))
      (h : SameMode st.ord ord) : Edit p me x st (st.withOrd ord) (out.map .order)
  | requests {st : Node D} (ready : Nat → Bool) : Edit p me x st { st with ready } []
  | reportStored {st : Node D} {mess : Signed Report} (hx : x = .msg (.report mess))
      (hvalid : validated p (.report mess) = true)
      (hview : mess.body.tag.view = st.view) (hnew : st.vc.report mess.body.tag.machineId = none) :
      Edit p me x st (st.storeReport mess) []
  | pcSetStored {st : Node D} {mess : Signed (PcSet D)} (hx : x = .msg (.pcSet mess))
      (hview : mess.body.tag.view = st.view)
      (hnew : ∀ pc ∈ st.vc.pcSet mess.body.tag.machineId, pc.body.tag.seqNum ≠ mess.body.tag.seqNum) :
      Edit p me x st (st.storePcSet mess) []
  | completed {st : Node D} {serv : Nat} (h : stateComplete st serv = true) :
      Edit p me x st (st.setComplete serv) (sendVcList p me (st.setComplete serv))
  | pendingSigned {st : Node D} : Edit p me x st (signPending p me st).1 (signPending p me st).2
  | listNoted {st : Node D} (list : Bitmap) : Edit p me x st (st.noteList list) []
  | listSigned {st : Node D} {mess : Signed VcList} (hx : x = .msg (.vcList mess))
      (hvalid : validated p (.vcList mess) = true) :
      Edit p me x st st [.vcPartialSig (constructVcPartialSig p me st mess.body.list)]
  | listPended {st : Node D} {mess : Signed VcList} (hx : x = .msg (.vcList mess))
      (hvalid : validated p (.vcList mess) = true) :
      Edit p me x st (st.pendList mess.body.list) []
  | shareStored {st : Node D} {mess : Signed VcPartialSig} (hx : x = .msg (.vcPartialSig mess)) :
      Edit p me x st (st.storeShare mess) []
  | shareCombined {st : Node D} {list : Bitmap} {startSeq : Nat} {proof : Signed VcProof}
      (hcount : tally p.config.numServers (fun i => (st.vc.uniquePartialSig list i).any fun m =>
        decide (m.body.content.startSeq = startSeq)) = p.config.quorum)
      (hproof : constructVcProof p me st list startSeq (st.vc.uniquePartialSig list) = some proof) :
      Edit p me x st st [.vcProof proof]
  | replayProposed {st : Node D} {mess : Signed VcProof} (hx : x = .msg (.vcProof mess))
      (hvalid : validated p (.vcProof mess) = true) (hview : mess.body.content.view = st.view) :
      Edit p me x st (st.storeReplay (constructReplay me st mess.body))
        [.replay (constructReplay me st mess.body)]
  | replayStored {st : Node D} {mess : Signed VcProof} (hx : x = .msg (.replay mess))
      (hvalid : validated p (.replay mess) = true) (hview : mess.body.content.view = st.view) :
      Edit p me x st (st.storeReplay mess) []
  | prepareStored {st : Node D} (mess : Signed (ReplayVouch D)) : Edit p me x st (st.storeReplayPrepare mess) []
  | prepareSent {st : Node D} (m : Signed (ReplayVouch D)) :
      Edit p me x st st.markSentReplayPrepare [.replayPrepare m]
  | commitStored {st : Node D} {mess : Signed (ReplayVouch D)} (hx : x = .msg (.replayCommit mess))
      (hview : mess.body.view = st.view) : Edit p me x st (st.storeReplayCommit mess) []
  | commitSent {st : Node D} {replay : Signed VcProof} (hdone : st.done = false)
      (hsent : st.vc.sentReplayCommit = false) (hreplay : st.vc.replay = some replay) :
      Edit p me x st st.markSentReplayCommit [.replayCommit (constructReplayCommit p me st replay.body)]
  | executed {st : Node D} {replay : Signed VcProof} (hdone : st.done = false)
      (hnew : st.vc.executedReplay = false) (hreplay : st.vc.replay = some replay)
      (hquorum : p.config.quorum ≤
        tally p.config.numServers (vouching p st.vc.replayCommit replay.body)) :
      Edit p me x st (st.markReplayExecuted replay.body) []
  | finished {st : Node D} : Edit p me x st st.finish []

/-- What a server does while it handles `x`: it edits its state, enters a view, or
leaves a view change through catchup. -/
inductive Move (p : Params D) (me : Nat) (x : Input (Msg D) (Action D)) :
    Node D → Node D → List (Msg D) → Prop
  | edit {st st' : Node D} {out : List (Msg D)} (h : Edit p me x st st' out) : Move p me x st st' out
  | entered {st : Node D} {ord : Order.Node D} {view : Nat} (hx : x = .act (.enterView view))
      (hview : st.view < ord.view) : Move p me x st (st.resetViewChange ord) []
  | announced {st : Node D} {rbSeq numSeq : Nat} {pcs : List (Signed (PcSet D))}
      (report : Signed Report) {view : Nat} (hx : x = .act (.enterView view)) :
      Move p me x st { st with rbSeq, vc := { st.vc with numSeq } } (.report report :: pcs.map .pcSet)
  | left {st : Node D} {ord ord' : Order.Node D} {leave : Bool} (hx : x = .act (.catchup ord' leave))
      (hview : st.view ≤ ord.view) (hdone : ord.viewChangeDone = true) :
      Move p me x st (st.resetViewChange ord) []

variable {p : Params D} {me : Nat} {x : Input (Msg D) (Action D)} {st st' : Node D} {out : List (Msg D)}

/-- An edit stays in the view. -/
theorem Edit.view_eq (h : Edit p me x st st' out) : st'.view = st.view := by
  cases h with
  | ordering out h => exact h.view
  | _ => rfl

/-- A view change that is over stays so. -/
theorem Edit.done_mono (h : Edit p me x st st' out) (hd : st.done = true) : st'.done = true := by
  cases h with
  | ordering out h => exact h.viewChangeDone.trans hd
  | finished => rfl
  | _ => exact hd

theorem Edit.executedReplay_mono (h : Edit p me x st st' out) (he : st.vc.executedReplay = true) :
    st'.vc.executedReplay = true := by
  cases h with
  | executed => rfl
  | _ => exact he

/-! ## The handlers, edit by edit -/

section Handlers

/-- A part that changes nothing and sends nothing. -/
private theorem none_chain (st : Node D) : Chain (Edit p me x) st st [] := .nil st

private theorem halt_edit (st : Node D) : Chain (Edit p me x) st st.halt [] :=
  .single (Edit.ordering [] ⟨rfl, rfl⟩)

omit [DecidableEq D] in
theorem andThen_chain {E : Node D → Node D → List (Msg D) → Prop} {r : Node D × List (Msg D)}
    {f : Node D → Node D × List (Msg D)} (h : Chain E st r.1 r.2) (hf : Chain E r.1 (f r.1).1 (f r.1).2) :
    Chain E st (Node.andThen r f).1 (Node.andThen r f).2 :=
  h.trans hf

omit [DecidableEq D] in
/-- A loop of parts, each a chain of edits from a state that meets `I`. -/
theorem forEach_chain {α : Type} {E : Node D → Node D → List (Msg D) → Prop} {I : Node D → Prop}
    {f : Node D → α → Node D × List (Msg D)}
    (hf : ∀ st a, I st → I (f st a).1 ∧ Chain E st (f st a).1 (f st a).2) (as : List α) (hst : I st) :
    I (Node.forEach f as st).1 ∧ Chain E st (Node.forEach f as st).1 (Node.forEach f as st).2 :=
  Chain.foldl hf as (r := (st, [])) (.nil st) hst

theorem trySendReplayPrepare_chain (st : Node D) :
    Chain (Edit p me x) st (trySendReplayPrepare p me st).1 (trySendReplayPrepare p me st).2 := by
  unfold trySendReplayPrepare
  split
  · exact none_chain st
  split
  · exact none_chain st
  split
  · exact .single (.prepareSent _)
  · exact none_chain st

omit [DecidableEq D] in
theorem trySendReplayPrepare_flags (p : Params D) (me : Nat) (st : Node D) :
    (trySendReplayPrepare p me st).1.ord = st.ord ∧
      (trySendReplayPrepare p me st).1.vc.executedReplay = st.vc.executedReplay := by
  unfold trySendReplayPrepare
  split
  · exact ⟨rfl, rfl⟩
  split
  · exact ⟨rfl, rfl⟩
  split <;> exact ⟨rfl, rfl⟩

theorem trySendReplayCommit_chain (hdone : st.done = false) :
    Chain (Edit p me x) st (trySendReplayCommit p me st).1 (trySendReplayCommit p me st).2 := by
  unfold trySendReplayCommit
  split
  · exact none_chain st
  rename_i hsent
  split
  · exact none_chain st
  rename_i replay hreplay
  split
  · exact none_chain st
  split
  · exact .single (.commitSent hdone (Bool.eq_false_iff.mpr hsent) hreplay)
  · exact none_chain st

theorem trySendReplayCommit_flags (p : Params D) (me : Nat) (st : Node D) :
    (trySendReplayCommit p me st).1.ord = st.ord ∧
      (trySendReplayCommit p me st).1.vc.executedReplay = st.vc.executedReplay := by
  unfold trySendReplayCommit
  split
  · exact ⟨rfl, rfl⟩
  split
  · exact ⟨rfl, rfl⟩
  split
  · exact ⟨rfl, rfl⟩
  split <;> exact ⟨rfl, rfl⟩

theorem noteCompleteState_chain (st : Node D) (serv : Nat) :
    Chain (Edit p me x) st (noteCompleteState p me st serv).1 (noteCompleteState p me st serv).2 := by
  unfold noteCompleteState
  split
  · exact none_chain st
  split
  · exact none_chain st
  rename_i hcomplete
  have hset : Chain (Edit p me x) st (st.setComplete serv) (sendVcList p me (st.setComplete serv)) :=
    .single (.completed (Bool.not_eq_false _ |>.mp hcomplete))
  exact andThen_chain (andThen_chain hset (.single .pendingSigned)) (trySendReplayPrepare_chain _)

omit [DecidableEq D] in
theorem noteCompleteState_flags (p : Params D) (me : Nat) (st : Node D) (serv : Nat) :
    (noteCompleteState p me st serv).1.ord = st.ord ∧
      (noteCompleteState p me st serv).1.vc.executedReplay = st.vc.executedReplay := by
  unfold noteCompleteState
  split
  · exact ⟨rfl, rfl⟩
  split
  · exact ⟨rfl, rfl⟩
  · exact trySendReplayPrepare_flags p me _

/-- Executing an ordinal, when looking for complete states is a chain of edits. -/
theorem executeOrdinal_chain (st : Node D) {I : Node D → Prop} {check : Node D → Nat → Node D × List (Msg D)}
    (hcheck : ∀ (st : Node D) (servs : List Nat), st.done = false → I st →
      I (Node.forEach check servs st).1 ∧
        Chain (Edit p me x) st (Node.forEach check servs st).1 (Node.forEach check servs st).2)
    (hord : ∀ st ord, SameMode st.ord ord → I st → I (st.withOrd ord)) (hst : I st) :
    I (executeOrdinal p me check st).1 ∧
      Chain (Edit p me x) st (executeOrdinal p me check st).1 (executeOrdinal p me check st).2 := by
  have hmode := executeSlot_mode st.ord
  have hexec : Chain (Edit p me x) st (st.withOrd (executeSlot st.ord).1) [] := .single (.ordering [] hmode)
  have hI := hord st _ hmode hst
  unfold executeOrdinal
  dsimp only
  split
  · exact ⟨hI, hexec⟩
  have hafter : ∀ st : Node D, I st →
      I (st.withOrd (afterExecution p.config p.proposalDigest me st.ord).1) ∧
      Chain (Edit p me x) st (st.withOrd (afterExecution p.config p.proposalDigest me st.ord).1)
        ((afterExecution p.config p.proposalDigest me st.ord).2.map .order) := fun st hst =>
    ⟨hord st _ (afterExecution_mode ..) hst, .single (.ordering _ (afterExecution_mode ..))⟩
  split
  · obtain ⟨hI', hc⟩ := hafter _ hI
    exact ⟨hI', andThen_chain hexec hc⟩
  · rename_i hopen
    obtain ⟨hI', hloop⟩ := hcheck _ (List.range' 1 p.config.numServers) (Bool.eq_false_iff.mpr hopen) hI
    obtain ⟨hI'', hc⟩ := hafter _ hI'
    exact ⟨hI'', hexec.trans (andThen_chain hloop hc)⟩

theorem installSlot_chain (st : Node D) (slot : OrdSlot D) (hst : st.vc.executedReplay = true) :
    (installSlot p me st slot).1.vc.executedReplay = true ∧
      Chain (Edit p me x) st (installSlot p me st slot).1 (installSlot p me st slot).2 := by
  have hput : Chain (Edit p me x) st (st.withOrd (st.ord.putOrdSlot slot.seqNum slot)) [] :=
    .single (.ordering [] ⟨rfl, rfl⟩)
  unfold installSlot
  dsimp only
  split
  · exact ⟨hst, none_chain st⟩
  split
  · exact ⟨hst, halt_edit st⟩
  split
  · obtain ⟨hI, hc⟩ := executeOrdinal_chain (st.withOrd (st.ord.putOrdSlot slot.seqNum slot))
      (p := p) (x := x) (I := fun st => st.vc.executedReplay = true)
      (fun _ servs _ h => forEach_chain (I := fun st => st.vc.executedReplay = true)
        (fun st serv h => ⟨(noteCompleteState_flags p me st serv).2.trans h, noteCompleteState_chain st serv⟩) servs h)
      (fun _ _ _ h => h) hst
    exact ⟨hI, hput.trans hc⟩
  · exact ⟨hst, hput⟩

theorem installSlots_chain (p : Params D) (me : Nat) (x : Input (Msg D) (Action D)) (st : Node D) (slots : List (OrdSlot D)) (hst : st.vc.executedReplay = true) :
    (Node.forEach (installSlot p me) slots st).1.vc.executedReplay = true ∧
      Chain (Edit p me x) st (Node.forEach (installSlot p me) slots st).1
        (Node.forEach (installSlot p me) slots st).2 :=
  forEach_chain installSlot_chain slots hst

theorem executeReplay_chain (p : Params D) (me : Nat) (x : Input (Msg D) (Action D)) (st : Node D)
    (hst : st.vc.executedReplay = true) (replay : VcContent) :
    (executeReplay p me st replay).1.vc.executedReplay = true ∧
      Chain (Edit p me x) st (executeReplay p me st replay).1 (executeReplay p me st replay).2 := by
  unfold executeReplay
  split
  · exact ⟨hst, halt_edit st⟩
  rename_i prev _
  dsimp only
  have hclean : Chain (Edit p me x) st
      (st.withOrd { cleanHistory st.ord replay.startSeq with ppAru := st.ord.aru }) [] :=
    .single (.ordering [] ⟨rfl, rfl⟩)
  obtain ⟨hI, hloop⟩ := installSlots_chain p me x
    (st.withOrd { cleanHistory st.ord replay.startSeq with ppAru := st.ord.aru })
    (replaySlots p.config replay.list (fun i => (st.vc.pcSet i).map (·.body)) st.ord.aru replay.startSeq prev)
    hst
  have hadjust : ∀ st : Node D, Edit p me x st (st.withOrd (adjustPpAru (adjustHighPrepared st.ord))) [] :=
    fun _ => .ordering [] ⟨rfl, rfl⟩
  have hall := (hclean.trans hloop).snoc (hadjust _)
  split
  · exact ⟨hI, hall⟩
  · exact ⟨hI, hall.snoc (Edit.ordering [] ⟨rfl, rfl⟩)⟩

/-- The replay is over once the view change is. -/
def Node.Settled (st : Node D) : Prop := st.done = true → st.vc.executedReplay = true

theorem tryExecuteReplay_chain (p : Params D) (me : Nat) (x : Input (Msg D) (Action D)) (hst : st.Settled) :
    (tryExecuteReplay p me st).1.Settled ∧
      Chain (Edit p me x) st (tryExecuteReplay p me st).1 (tryExecuteReplay p me st).2 := by
  unfold tryExecuteReplay
  split
  · exact ⟨hst, none_chain st⟩
  rename_i hnew
  split
  · exact ⟨hst, none_chain st⟩
  rename_i replay hreplay
  split
  · exact ⟨hst, none_chain st⟩
  split
  · exact ⟨hst, none_chain st⟩
  split
  · exact ⟨hst, none_chain st⟩
  rename_i hquorum
  have hdone : st.done = false := Bool.eq_false_iff.mpr fun hd => hnew (hst hd)
  have hmark : Chain (Edit p me x) st (st.markReplayExecuted replay.body) [] :=
    .single (.executed hdone (Bool.eq_false_iff.mpr hnew) hreplay (not_lt.mp hquorum))
  obtain ⟨hI, hc⟩ := executeReplay_chain p me x (st.markReplayExecuted replay.body) rfl replay.body.content
  exact ⟨fun _ => hI, (hmark.trans hc).snoc .finished⟩

theorem checkCompleteState_chain (st : Node D) (serv : Nat) (hst : st.Settled) :
    (checkCompleteState p me st serv).1.Settled ∧
      Chain (Edit p me x) st (checkCompleteState p me st serv).1 (checkCompleteState p me st serv).2 := by
  unfold checkCompleteState
  split
  · exact ⟨hst, none_chain st⟩
  split
  · exact ⟨hst, none_chain st⟩
  obtain ⟨hord, hexec⟩ := noteCompleteState_flags p me st serv
  have hsettled : (noteCompleteState p me st serv).1.Settled := by
    intro hd
    rw [Node.done, hord] at hd
    rw [hexec]
    exact hst hd
  obtain ⟨hI, hc⟩ := tryExecuteReplay_chain p me x hsettled
  exact ⟨hI, andThen_chain (noteCompleteState_chain st serv) hc⟩

omit [DecidableEq D] in
private theorem settled_of_open (h : st.done = false) : st.Settled := fun hd => nomatch h.symm.trans hd

theorem processReport_chain (st : Node D) {mess : Signed Report} (hx : x = .msg (.report mess))
    (hvalid : validated p (.report mess) = true) :
    Chain (Edit p me x) st (processReport p me st mess).1 (processReport p me st mess).2 := by
  unfold processReport
  split
  · exact none_chain st
  rename_i hview
  split
  · exact none_chain st
  rename_i hdone
  split
  · exact none_chain st
  split
  · exact halt_edit st
  rename_i hnew
  have hstore : Chain (Edit p me x) st (st.storeReport mess) [] :=
    .single (.reportStored hx hvalid (not_not.mp hview) (Option.not_isSome_iff_eq_none.mp hnew))
  exact hstore.trans (checkCompleteState_chain (st.storeReport mess) _
    (settled_of_open (Bool.eq_false_iff.mpr hdone))).2

theorem processPcSet_chain (st : Node D) {mess : Signed (PcSet D)} (hx : x = .msg (.pcSet mess)) :
    Chain (Edit p me x) st (processPcSet p me st mess).1 (processPcSet p me st mess).2 := by
  unfold processPcSet
  split
  · exact none_chain st
  rename_i hview
  split
  · exact none_chain st
  rename_i hdone
  split
  · exact none_chain st
  split
  · exact halt_edit st
  rename_i hnew
  have hfresh : ∀ pc ∈ st.vc.pcSet mess.body.tag.machineId, pc.body.tag.seqNum ≠ mess.body.tag.seqNum := by
    simpa using hnew
  have hstore : Chain (Edit p me x) st (st.storePcSet mess) [] :=
    .single (.pcSetStored hx (not_not.mp hview) hfresh)
  exact hstore.trans (checkCompleteState_chain (st.storePcSet mess) _
    (settled_of_open (Bool.eq_false_iff.mpr hdone))).2

theorem processVcList_chain (st : Node D) {mess : Signed VcList} (hx : x = .msg (.vcList mess))
    (hvalid : validated p (.vcList mess) = true) :
    Chain (Edit p me x) st (processVcList p me st mess).1 (processVcList p me st mess).2 := by
  have hnote : Chain (Edit p me x) st (st.noteList mess.body.list) [] := .single (.listNoted _)
  unfold processVcList
  dsimp only
  split
  · exact none_chain st
  split
  · exact none_chain st
  split
  · exact none_chain st
  split
  · exact hnote.trans (.single (.listSigned hx hvalid))
  · exact hnote.snoc (.listPended hx hvalid)

theorem processVcPartialSig_chain (st : Node D) {mess : Signed VcPartialSig}
    (hx : x = .msg (.vcPartialSig mess)) :
    Chain (Edit p me x) st (processVcPartialSig p me st mess).1 (processVcPartialSig p me st mess).2 := by
  have hstore : Chain (Edit p me x) st (st.storeShare mess) [] := .single (.shareStored hx)
  unfold processVcPartialSig
  dsimp only
  split
  · exact none_chain st
  split
  · exact none_chain st
  split
  · exact none_chain st
  split
  · exact hstore
  rename_i hcount
  split
  · exact hstore
  · rename_i proof hproof
    exact hstore.trans (.single (.shareCombined (not_not.mp hcount) hproof))

theorem processVcProof_chain (st : Node D) {mess : Signed VcProof} (hx : x = .msg (.vcProof mess))
    (hvalid : validated p (.vcProof mess) = true) :
    Chain (Edit p me x) st (processVcProof p me st mess).1 (processVcProof p me st mess).2 := by
  unfold processVcProof
  split
  · exact none_chain st
  split
  · exact none_chain st
  rename_i hview
  split
  · exact none_chain st
  split
  · exact none_chain st
  · exact .single (.replayProposed hx hvalid (not_not.mp hview))

theorem processReplay_chain (st : Node D) {mess : Signed VcProof} (hx : x = .msg (.replay mess))
    (hvalid : validated p (.replay mess) = true) :
    Chain (Edit p me x) st (processReplay p me st mess).1 (processReplay p me st mess).2 := by
  unfold processReplay
  split
  · exact none_chain st
  split
  · exact none_chain st
  rename_i hview
  split
  · exact none_chain st
  rename_i hdone
  split
  · exact none_chain st
  have hstore : Chain (Edit p me x) st (st.storeReplay mess) [] :=
    .single (.replayStored hx hvalid (not_not.mp hview))
  have hopen : (st.storeReplay mess).done = false := Bool.eq_false_iff.mpr hdone
  -- the first two parts send, and leave the view change open for the third
  have hprep := (trySendReplayPrepare_flags p me (st.storeReplay mess)).1
  have hopen' : (trySendReplayPrepare p me (st.storeReplay mess)).1.done = false := by
    rw [Node.done, hprep]
    exact hopen
  have hcom := (trySendReplayCommit_flags p me (trySendReplayPrepare p me (st.storeReplay mess)).1).1
  have hopen'' : (trySendReplayCommit p me (trySendReplayPrepare p me (st.storeReplay mess)).1).1.done = false := by
    rw [Node.done, hcom]
    exact hopen'
  exact hstore.trans (andThen_chain
    (andThen_chain (trySendReplayPrepare_chain _) (trySendReplayCommit_chain hopen'))
    (tryExecuteReplay_chain p me x (settled_of_open hopen'')).2)

theorem processReplayPrepare_chain (st : Node D) (mess : Signed (ReplayVouch D)) :
    Chain (Edit p me x) st (processReplayPrepare p me st mess).1 (processReplayPrepare p me st mess).2 := by
  have hstore : Chain (Edit p me x) st (st.storeReplayPrepare mess) [] := .single (.prepareStored mess)
  unfold processReplayPrepare
  dsimp only
  split
  · exact none_chain st
  split
  · exact none_chain st
  split
  · exact none_chain st
  split
  · exact hstore
  · rename_i hdone
    exact hstore.trans (trySendReplayCommit_chain (Bool.eq_false_iff.mpr hdone))

theorem processReplayCommit_chain (st : Node D) {mess : Signed (ReplayVouch D)}
    (hx : x = .msg (.replayCommit mess)) :
    Chain (Edit p me x) st (processReplayCommit p me st mess).1 (processReplayCommit p me st mess).2 := by
  unfold processReplayCommit
  dsimp only
  split
  · exact none_chain st
  rename_i hview
  split
  · exact none_chain st
  have hstore : Chain (Edit p me x) st (st.storeReplayCommit mess) [] :=
    .single (.commitStored hx (not_not.mp hview))
  split
  · exact hstore
  · rename_i hdone
    exact hstore.trans (tryExecuteReplay_chain p me x (settled_of_open (Bool.eq_false_iff.mpr hdone))).2

theorem process_chain (st : Node D) {m : Msg D} (hx : x = .msg m) (hvalid : validated p m = true) :
    Chain (Edit p me x) st (process p me st m).1 (process p me st m).2 := by
  cases m with
  | order m => exact .single (.ordering _ (handle_mode ..))
  | report m => exact processReport_chain st hx hvalid
  | pcSet m => exact processPcSet_chain st hx
  | vcList m => exact processVcList_chain st hx hvalid
  | vcPartialSig m => exact processVcPartialSig_chain st hx
  | vcProof m => exact processVcProof_chain st hx hvalid
  | replay m => exact processReplay_chain st hx hvalid
  | replayPrepare m => exact processReplayPrepare_chain st m
  | replayCommit m => exact processReplayCommit_chain st hx

theorem executeCommit_chain (st : Node D) :
    Chain (Edit p me x) st (executeOrdinal p me (checkCompleteState p me) st).1
      (executeOrdinal p me (checkCompleteState p me) st).2 :=
  (executeOrdinal_chain st (I := fun _ => True)
    (fun _ servs hdone _ => ⟨trivial,
      (forEach_chain (I := Node.Settled) checkCompleteState_chain servs (settled_of_open hdone)).2⟩)
    (fun _ _ _ _ => trivial) trivial).2

/-- An edit is a move; so is a chain of them. -/
theorem moves_of_edits (h : Chain (Edit p me x) st st' out) : Chain (Move p me x) st st' out :=
  h.mono fun _ _ _ => .edit

theorem startViewChange_moves {view : Nat} (hx : x = .act (.enterView view)) (hview : st.view < view) :
    Chain (Move p me x) st (startViewChange p me (st.withOrd { st.ord with view })).1
      (startViewChange p me (st.withOrd { st.ord with view })).2 := by
  have henter : Chain (Move p me x) st (st.resetViewChange { st.ord with view, viewChangeDone := false }) [] :=
    .single (.entered hx hview)
  unfold startViewChange
  dsimp only
  split
  · exact henter.trans (.single (.announced _ hx))
  · exact henter.snoc (.edit (.ordering [] ⟨rfl, rfl⟩))

theorem catchup_moves {ord : Order.Node D} {leave : Bool} (hx : x = .act (.catchup ord leave)) :
    Chain (Move p me x) st (catchup p me st ord leave).1 (catchup p me st ord leave).2 := by
  unfold catchup
  split
  · exact .nil st
  rename_i hback
  split
  · exact .single (.left hx (not_lt.mp hback) rfl)
  rename_i hstay
  have hsame : ord.view = st.view := by omega
  have hord : Chain (Edit p me x) st (st.withOrd { ord with viewChangeDone := st.done }) [] :=
    .single (.ordering [] ⟨hsame, rfl⟩)
  dsimp only
  split
  · exact moves_of_edits hord
  · rename_i hdone
    exact moves_of_edits (hord.trans (forEach_chain (I := Node.Settled) checkCompleteState_chain _
      (settled_of_open (Bool.eq_false_iff.mpr hdone))).2)

theorem perform_moves (st : Node D) {a : Action D} (hx : x = .act a) :
    Chain (Move p me x) st (perform p me st a).1 (perform p me st a).2 := by
  cases a with
  | order a =>
    cases a with
    | execute => exact moves_of_edits (executeCommit_chain st)
    | propose m => exact moves_of_edits (.single (.ordering _ (handle_mode ..)))
    | whiteLines f r => exact moves_of_edits (.single (.ordering _ (handle_mode ..)))
  | requests ready => exact moves_of_edits (.single (.requests ready))
  | enterView view =>
    unfold perform
    dsimp only
    split
    · rename_i hview
      exact startViewChange_moves hx hview
    · exact .nil st
  | catchup ord leave => exact catchup_moves hx
  | leaveViewChange => exact moves_of_edits (.single .finished)

/-- **What a server does.** One call of the handler is a sequence of moves. -/
theorem handle_moves (p : Params D) (me : Nat) (st : Node D) (x : Input (Msg D) (Action D)) :
    Chain (Move p me x) st (handle p me st x).1 (handle p me st x).2 := by
  unfold handle
  split
  · exact .nil st
  cases x with
  | msg m =>
    dsimp only
    split
    · rename_i hvalid
      exact moves_of_edits (process_chain st rfl hvalid)
    · exact .nil st
  | act a => exact perform_moves st rfl

end Handlers

end Spire.ViewChange
