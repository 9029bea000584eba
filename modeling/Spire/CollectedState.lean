import Spire.ReplaySafety

/-!
# Agreement on collected state

Reports and certificate sets travel by reliable broadcast: what correct servers are
handed of a server, in one view, is part of one broadcast (`Broadcast`), in any order
and interleaved with anything else.

`VIEW_Check_Complete_State` calls the state of a server complete when there are as many
certificate sets as its Report announces. Nothing keeps a controlled server from
broadcasting more: whichever arrive first complete its state, and later ones still
change it (`surplusRun_disagrees`). Where no server broadcasts more than it announces,
complete states are the same everywhere and do not change, and so are the `startSeq`
and the certificates computed from them (`collected_agree`).
-/

namespace Spire.ViewChange

open Spire.Order Spire.Replay Spire.Lib

variable {D : Type}

/-! ## What is broadcast -/

/-- What each server broadcasts in one view: a Report, and certificate sets by their
broadcast numbers. -/
structure Broadcast (D : Type) where
  report : Nat → Option (Signed Report)
  pcSets : Nat → List (Signed (PcSet D))
  ordered : ∀ i, (pcSets i).Pairwise fun a b => a.body.tag.seqNum < b.body.tag.seqNum

/-- What a server is handed of view `v` was broadcast. -/
structure Delivers (B : Broadcast D) (v : Nat) (x : Input (Msg D) (Action D)) : Prop where
  report : ∀ m, x = .msg (.report m) → m.body.tag.view = v → B.report m.body.tag.machineId = some m
  pcSet : ∀ m, x = .msg (.pcSet m) → m.body.tag.view = v → m ∈ B.pcSets m.body.tag.machineId

/-- No server broadcasts more certificate sets than its Report announces. -/
def Broadcast.Announced (B : Broadcast D) : Prop :=
  ∀ i r, B.report i = some r → (B.pcSets i).length ≤ r.body.pcSetSize

/-! ## What a server collects -/

/-- The highest ordinal of a server, as its Report and certificate sets give it. -/
def highest (report : Option (Signed Report)) (pcs : List (Signed (PcSet D))) : Nat :=
  max (report.elim 0 fun r => r.body.execAru) ((pcs.map fun m => m.body.seqNum).foldr max 0)

theorem highest_insertPcSet (report : Option (Signed Report)) (mess : Signed (PcSet D))
    (pcs : List (Signed (PcSet D))) :
    highest report (insertPcSet mess pcs) = max (highest report pcs) mess.body.seqNum := by
  have hfold : ((insertPcSet mess pcs).map fun m => m.body.seqNum).foldr max 0 =
      max ((pcs.map fun m => m.body.seqNum).foldr max 0) mess.body.seqNum := by
    induction pcs with
    | nil => simp [insertPcSet]
    | cons pc pcs ih =>
      unfold insertPcSet
      split
      · simp only [List.map_cons, List.foldr_cons]
        omega
      · simp only [List.map_cons, List.foldr_cons, ih]
        omega
  unfold highest
  rw [hfold]
  omega

theorem mem_insertPcSet {mess m : Signed (PcSet D)} {pcs : List (Signed (PcSet D))} :
    m ∈ insertPcSet mess pcs ↔ m = mess ∨ m ∈ pcs := by
  induction pcs with
  | nil => simp [insertPcSet]
  | cons pc pcs ih =>
    unfold insertPcSet
    split
    · simp
    · simp only [List.mem_cons, ih]
      tauto

theorem length_insertPcSet (mess : Signed (PcSet D)) (pcs : List (Signed (PcSet D))) :
    (insertPcSet mess pcs).length = pcs.length + 1 := by
  induction pcs with
  | nil => rfl
  | cons pc pcs ih =>
    unfold insertPcSet
    split
    · rfl
    · rw [List.length_cons, ih, List.length_cons]

/-- Insertion keeps the order of the skip list. -/
theorem ordered_insertPcSet {mess : Signed (PcSet D)} {pcs : List (Signed (PcSet D))}
    (h : pcs.Pairwise fun a b => a.body.tag.seqNum < b.body.tag.seqNum)
    (hnew : ∀ pc ∈ pcs, pc.body.tag.seqNum ≠ mess.body.tag.seqNum) :
    (insertPcSet mess pcs).Pairwise fun a b => a.body.tag.seqNum < b.body.tag.seqNum := by
  induction h with
  | nil => exact List.pairwise_singleton _ _
  | cons hlt hrest ih =>
    rename_i pc pcs
    unfold insertPcSet
    split
    · rename_i hfirst
      refine List.pairwise_cons.mpr ⟨fun b hb => ?_, List.pairwise_cons.mpr ⟨hlt, hrest⟩⟩
      rcases List.mem_cons.mp hb with rfl | hb
      · exact hfirst
      · exact hfirst.trans (hlt b hb)
    · rename_i hfirst
      have hne := hnew pc (List.mem_cons_self ..)
      refine List.pairwise_cons.mpr ⟨fun b hb => ?_, ih fun b hb => hnew b (List.mem_cons_of_mem _ hb)⟩
      rcases mem_insertPcSet.mp hb with rfl | hb
      · omega
      · exact hlt b hb

/-- What server `st` holds of view `v`, while it is in it. -/
structure Collected (p : Params D) (B : Broadcast D) (st : Node D) : Prop where
  report : ∀ i r, st.vc.report i = some r → B.report i = some r ∧ i ∈ p.config.servers
  pcSet : ∀ i, st.vc.pcSet i ⊆ B.pcSets i
  ordered : ∀ i, (st.vc.pcSet i).Pairwise fun a b => a.body.tag.seqNum < b.body.tag.seqNum
  maxPcSeq : ∀ i, st.vc.maxPcSeq i = highest (st.vc.report i) (st.vc.pcSet i)
  complete : ∀ i ∈ p.config.servers, st.vc.completeState.isSet i = true →
    ∃ r, st.vc.report i = some r ∧ r.body.pcSetSize ≤ (st.vc.pcSet i).length

variable {p : Params D} {B : Broadcast D} {v me : Nat} {x : Input (Msg D) (Action D)} {st st' : Node D}
  {out : List (Msg D)}

/-- A complete state is all that was broadcast, where no more was than announced. -/
theorem Collected.eq_broadcast (h : Collected p B st) (hB : B.Announced) {i : Nat}
    (hi : i ∈ p.config.servers) (hset : st.vc.completeState.isSet i = true) :
    st.vc.report i = B.report i ∧ st.vc.pcSet i = B.pcSets i ∧
      st.vc.maxPcSeq i = highest (B.report i) (B.pcSets i) := by
  obtain ⟨r, hr, hlen⟩ := h.complete i hi hset
  have hreport := (h.report i r hr).1
  have hnodup : (st.vc.pcSet i).Nodup := (h.ordered i).imp fun hlt heq => by
    rw [heq] at hlt
    exact absurd hlt (lt_irrefl _)
  have hperm : (st.vc.pcSet i).Perm (B.pcSets i) :=
    (List.subperm_of_subset hnodup (h.pcSet i)).perm_of_length_le ((hB i r hreport).trans hlen)
  have hsets : st.vc.pcSet i = B.pcSets i :=
    hperm.eq_of_pairwise (fun a b _ _ hab hba => absurd (hab.trans hba) (lt_irrefl _)) (h.ordered i) (B.ordered i)
  exact ⟨hr.trans hreport.symm, hsets, by rw [h.maxPcSeq i, hr, hreport, hsets]⟩

theorem collected_init (h : st.vc = VcState.init) : Collected p B st where
  report i r hr := by rw [h] at hr; exact nomatch hr
  pcSet i m hm := by rw [h] at hm; exact nomatch hm
  ordered i := by rw [h]; exact .nil
  maxPcSeq i := by rw [h]; rfl
  complete i _ hi := by
    rw [h] at hi
    simp [VcState.init, Bitmap.isSet] at hi

/-- A move that keeps what is collected. -/
private theorem Collected.frame (h : Collected p B st) (hreport : st'.vc.report = st.vc.report)
    (hpcSet : st'.vc.pcSet = st.vc.pcSet) (hmax : st'.vc.maxPcSeq = st.vc.maxPcSeq)
    (hcomplete : st'.vc.completeState = st.vc.completeState) : Collected p B st' where
  report := by rw [hreport]; exact h.report
  pcSet := by rw [hpcSet]; exact h.pcSet
  ordered := by rw [hpcSet]; exact h.ordered
  maxPcSeq := by rw [hmax, hreport, hpcSet]; exact h.maxPcSeq
  complete := by rw [hcomplete, hreport, hpcSet]; exact h.complete

theorem Collected.storeReport (h : Collected p B st) {mess : Signed Report}
    (hserv : mess.body.tag.machineId ∈ p.config.servers)
    (hbroadcast : B.report mess.body.tag.machineId = some mess)
    (hnew : st.vc.report mess.body.tag.machineId = none) : Collected p B (st.storeReport mess) where
  report i r hr := by
    by_cases hi : i = mess.body.tag.machineId
    · subst hi
      have hr : mess = r := by simpa [Node.storeReport, Node.withVc] using hr
      exact hr ▸ ⟨hbroadcast, hserv⟩
    · refine h.report i r ?_
      simpa [Node.storeReport, Node.withVc, hi] using hr
  pcSet := h.pcSet
  ordered := h.ordered
  maxPcSeq i := by
    by_cases hi : i = mess.body.tag.machineId
    · subst hi
      have hold := h.maxPcSeq mess.body.tag.machineId
      simp only [Node.storeReport, Node.withVc, Function.update_self]
      rw [hold, hnew]
      simp [highest, max_comm]
    · have hold := h.maxPcSeq i
      simpa [Node.storeReport, Node.withVc, hi] using hold
  complete i hi hset := by
    obtain ⟨r, hr, hlen⟩ := h.complete i hi hset
    refine ⟨r, ?_, hlen⟩
    have hne : i ≠ mess.body.tag.machineId := by
      rintro rfl
      rw [hnew] at hr
      cases hr
    simpa [Node.storeReport, Node.withVc, hne] using hr

theorem Collected.storePcSet (h : Collected p B st) {mess : Signed (PcSet D)}
    (hbroadcast : mess ∈ B.pcSets mess.body.tag.machineId)
    (hnew : ∀ pc ∈ st.vc.pcSet mess.body.tag.machineId, pc.body.tag.seqNum ≠ mess.body.tag.seqNum) :
    Collected p B (st.storePcSet mess) := by
  have hself : (st.storePcSet mess).vc.pcSet mess.body.tag.machineId =
      insertPcSet mess (st.vc.pcSet mess.body.tag.machineId) := by
    simp [Node.storePcSet, Node.withVc]
  have hother : ∀ i, i ≠ mess.body.tag.machineId → (st.storePcSet mess).vc.pcSet i = st.vc.pcSet i := by
    intro i hi
    simp [Node.storePcSet, Node.withVc, hi]
  refine ⟨h.report, fun i => ?_, fun i => ?_, fun i => ?_, fun i hi hset => ?_⟩
  · by_cases hi : i = mess.body.tag.machineId
    · subst hi
      rw [hself]
      intro m hm
      rcases mem_insertPcSet.mp hm with rfl | hm
      · exact hbroadcast
      · exact h.pcSet _ hm
    · rw [hother i hi]
      exact h.pcSet i
  · by_cases hi : i = mess.body.tag.machineId
    · subst hi
      rw [hself]
      exact ordered_insertPcSet (h.ordered _) hnew
    · rw [hother i hi]
      exact h.ordered i
  · by_cases hi : i = mess.body.tag.machineId
    · subst hi
      rw [hself, highest_insertPcSet]
      show _ = max (highest (st.vc.report mess.body.tag.machineId) _) _
      rw [← h.maxPcSeq]
      simp [Node.storePcSet, Node.withVc]
    · rw [hother i hi]
      have hold := h.maxPcSeq i
      simpa [Node.storePcSet, Node.withVc, hi] using hold
  · obtain ⟨r, hr, hlen⟩ := h.complete i hi hset
    refine ⟨r, hr, hlen.trans ?_⟩
    by_cases hi : i = mess.body.tag.machineId
    · subst hi
      rw [hself, length_insertPcSet]
      omega
    · rw [hother i hi]

/-- A server's state is called complete. Up to 32 servers have a bit of their own. -/
theorem Collected.setComplete (h : Collected p B st) (hN : p.config.numServers ≤ 32) {serv : Nat}
    (hcomplete : stateComplete st serv = true) : Collected p B (st.setComplete serv) := by
  refine ⟨h.report, h.pcSet, h.ordered, h.maxPcSeq, fun i hi hset => ?_⟩
  rcases Bool.or_eq_true_iff.mp (Bitmap.isSet_set.symm.trans hset) with hold | hbit
  · exact h.complete i hi hold
  unfold stateComplete at hcomplete
  split at hcomplete
  · exact nomatch hcomplete
  rename_i r hr
  obtain ⟨hsize, -⟩ := Bool.and_eq_true_iff.mp hcomplete
  obtain ⟨hlow, hhigh⟩ := Finset.mem_Icc.mp (h.report serv r hr).2
  obtain ⟨hilow, hihigh⟩ := Finset.mem_Icc.mp hi
  have hmod : i % 32 = serv % 32 := of_decide_eq_true hbit
  have heq : i = serv := by omega
  subst heq
  exact ⟨r, hr, le_of_eq (of_decide_eq_true hsize)⟩

/-- **What is collected was broadcast.** A move keeps it, in the view. -/
theorem Collected.move [DecidableEq D] (hN : p.config.numServers ≤ 32) (hx : Delivers B v x)
    (h : st.view = v → Collected p B st) (hm : Move p me x st st' out) (hview : st'.view = v) :
    Collected p B st' := by
  cases hm with
  | edit he =>
    have hst := h (he.view_eq.symm.trans hview)
    have hsame := he.view_eq.symm.trans hview
    cases he with
    | reportStored hmess hvalid hv hnew =>
      have hserv := of_decide_eq_true (Bool.and_eq_true_iff.mp hvalid).2
      exact hst.storeReport hserv (hx.report _ hmess (hv.trans hsame)) hnew
    | pcSetStored hmess hv hnew => exact hst.storePcSet (hx.pcSet _ hmess (hv.trans hsame)) hnew
    | completed hcomplete => exact hst.setComplete hN hcomplete
    | _ => exact hst.frame rfl rfl rfl rfl
  | announced report _ => exact (h hview).frame rfl rfl rfl rfl
  | entered _ _ => exact collected_init rfl
  | left _ _ _ => exact collected_init rfl

/-! ## What is computed from it -/

/-- The highest ordinal of a list depends on its servers only. -/
theorem maxSeq_congr {vc vc' : VcState D} {list : Bitmap}
    (h : ∀ i ∈ p.config.servers, list.isSet i = true → vc.maxPcSeq i = vc'.maxPcSeq i) :
    maxSeq p vc list = maxSeq p vc' list := by
  unfold maxSeq
  refine List.foldl_ext _ _ _ fun m i hi => ?_
  obtain ⟨hlow, hhigh⟩ := List.mem_range'_1.mp hi
  by_cases hset : list.isSet i = true
  · rw [h i (Finset.mem_Icc.mpr ⟨hlow, by omega⟩) hset]
  · simp [hset]

/-- So do the certificates a replay merges. -/
theorem listed_congr {c : Config} {list : Bitmap} {pcSet pcSet' : Nat → List (PcSet D)}
    (h : ∀ i ∈ c.servers, list.isSet i = true → pcSet i = pcSet' i) :
    listed c list pcSet = listed c list pcSet' := by
  unfold listed
  refine List.flatMap_congr fun i hi => ?_
  obtain ⟨hrange, hset⟩ := List.mem_filter.mp hi
  obtain ⟨hlow, hhigh⟩ := List.mem_range'_1.mp hrange
  exact h i (Finset.mem_Icc.mpr ⟨hlow, by omega⟩) hset

/-! ## Runs -/

section Runs

variable [DecidableEq D] {w₀ : World (Node D) (Msg D)}

/-- What a server in view `v` holds was broadcast in it. -/
theorem collected_run (d : Deployment) (hN : p.config.numServers ≤ 32) (h₀ : Start w₀)
    {evs : List (Event (Msg D) (Action D))}
    (hdelivers : ∀ i x, d.correct i = true → .handle i x ∈ evs → Delivers B v x) (i : Nat)
    (hview : ((w₀.run (env d) (handle p) evs).node i).view = v) :
    Collected p B ((w₀.run (env d) (handle p) evs).node i) := by
  refine (node_sent_inv (E := env d) (H := handle p) (w := w₀)
    (I := fun _ st => st.view = v → Collected p B st) (Q := fun _ => True) (K := fun _ => Delivers B v)
    (fun i _ => collected_init (h₀.vc i)) (fun _ _ => trivial) ?_ (fun _ _ _ _ => trivial) hdelivers).1 i hview
  intro i st x _ hst hx _
  exact ⟨(handle_moves p i st x).inv (I := fun st => st.view = v → Collected p B st)
    (fun _ _ _ hm h => Collected.move hN hx h hm) hst, fun _ _ => trivial⟩

/-- A complete state stays so, as long as the server is in the view and catchup does not
end the view change. -/
theorem complete_kept (d : Deployment) {w : World (Node D) (Msg D)} {i s : Nat}
    (hview : (w.node i).view = v) (hset : (w.node i).vc.completeState.isSet s = true)
    {evs : List (Event (Msg D) (Action D))}
    (hstay : ∀ ord leave, .handle i (.act (.catchup ord leave)) ∉ evs)
    (hview' : ((w.run (env d) (handle p) evs).node i).view = v) :
    ((w.run (env d) (handle p) evs).node i).vc.completeState.isSet s = true := by
  have hmove : ∀ {x} {st st' : Node D} {out}, (∀ ord leave, x ≠ .act (.catchup ord leave)) →
      Move p i x st st' out → (st.view = v ∧ st.vc.completeState.isSet s = true ∨ v < st.view) →
      (st'.view = v ∧ st'.vc.completeState.isSet s = true ∨ v < st'.view) := by
    intro x st st' out hx hm hst
    cases hm with
    | edit he =>
      rw [he.view_eq]
      refine hst.imp_left fun ⟨hv, hbit⟩ => ⟨hv, ?_⟩
      cases he with
      | completed _ => exact Bitmap.isSet_set_of_isSet hbit
      | _ => exact hbit
    | announced report _ => exact hst
    | entered _ hlt =>
      refine .inr (lt_of_le_of_lt ?_ hlt)
      rcases hst with ⟨hv, -⟩ | hv
      · exact le_of_eq hv.symm
      · exact le_of_lt hv
    | left hcatch _ _ => exact absurd hcatch (hx _ _)
  have hok : ∀ j x, (env (D := D) d).correct j = true → .handle j x ∈ evs → j = i →
      ∀ ord leave, x ≠ .act (.catchup ord leave) := by
    rintro j x - hmem rfl ord leave rfl
    exact hstay ord leave hmem
  have hrun := run_inv_of (E := env d) (H := handle p) (w := w)
    (P := fun w => (w.node i).view = v ∧ (w.node i).vc.completeState.isSet s = true ∨ v < (w.node i).view)
    (K := fun j x => j = i → ∀ ord leave, x ≠ .act (.catchup ord leave)) (.inl ⟨hview, hset⟩) ?_
    (fun _ _ h _ => h) hok
  · rcases hrun with ⟨-, hbit⟩ | hlt
    · exact hbit
    · exact absurd hview' (Nat.ne_of_gt hlt)
  · intro w j x hw hx _ _
    by_cases hj : i = j
    · subst hj
      rw [World.move_node_self]
      exact (handle_moves p i (w.node i) x).inv (I := fun st =>
        st.view = v ∧ st.vc.completeState.isSet s = true ∨ v < st.view)
        (fun _ _ _ hm h => hmove (hx rfl) hm h) hw
    · rw [World.move_node_of_ne w _ hj]
      exact hw

/-- **Agreement on collected state.** Where no server broadcasts more certificate sets
than its Report announces: at whatever times of a run two servers are in view `v`,
for every server whose state both call complete they hold the same Report, the same
certificate sets and the same highest ordinal, and for every list they both have the
state of, they compute the same `startSeq` and merge the same certificates. A complete
state stays complete for the rest of the view, unless catchup ends the view change;
by the first part it does not change. -/
theorem collected_agree (d : Deployment) (hd : d.toConfig = p.config) (hN : d.numServers ≤ 32)
    (hB : B.Announced) (h₀ : Start w₀) {evs evs₁ evs₂ : List (Event (Msg D) (Action D))}
    (hdelivers : ∀ i x, d.correct i = true → .handle i x ∈ evs → Delivers B v x)
    (h₁ : evs₁ <+: evs) (h₂ : evs₂ <+: evs) {a b : Nat} {stA stB : Node D}
    (hA : stA = (w₀.run (env d) (handle p) evs₁).node a) (hB' : stB = (w₀.run (env d) (handle p) evs₂).node b)
    (hviewA : stA.view = v) (hviewB : stB.view = v) :
    (∀ i ∈ d.servers, stA.vc.completeState.isSet i = true → stB.vc.completeState.isSet i = true →
      stA.vc.report i = stB.vc.report i ∧ stA.vc.pcSet i = stB.vc.pcSet i ∧
        stA.vc.maxPcSeq i = stB.vc.maxPcSeq i) ∧
    (∀ list : Bitmap, list.isSuperset stA.vc.completeState = true →
      list.isSuperset stB.vc.completeState = true →
      maxSeq p stA.vc list + 1 = maxSeq p stB.vc list + 1 ∧
        listed p.config list (fun i => (stA.vc.pcSet i).map (·.body)) =
          listed p.config list fun i => (stB.vc.pcSet i).map (·.body)) ∧
    (a = b → ∀ rest, evs₂ = evs₁ ++ rest →
      (∀ ord leave, .handle a (.act (.catchup ord leave)) ∉ rest) →
      ∀ i, stA.vc.completeState.isSet i = true → stB.vc.completeState.isSet i = true) := by
  have hcollected : ∀ {evs'}, evs' <+: evs → ∀ i, ((w₀.run (env d) (handle p) evs').node i).view = v →
      Collected p B ((w₀.run (env d) (handle p) evs').node i) := by
    intro evs' hpre i
    exact collected_run d (hd ▸ hN) h₀ (fun i x hc hx => hdelivers i x hc (hpre.subset hx)) i
  have hcA : Collected p B stA := hA ▸ hcollected h₁ a (hA ▸ hviewA)
  have hcB : Collected p B stB := hB' ▸ hcollected h₂ b (hB' ▸ hviewB)
  have hsame : ∀ i ∈ p.config.servers, stA.vc.completeState.isSet i = true →
      stB.vc.completeState.isSet i = true → stA.vc.report i = stB.vc.report i ∧
        stA.vc.pcSet i = stB.vc.pcSet i ∧ stA.vc.maxPcSeq i = stB.vc.maxPcSeq i := by
    intro i hi hsetA hsetB
    obtain ⟨hrA, hpA, hmA⟩ := hcA.eq_broadcast hB hi hsetA
    obtain ⟨hrB, hpB, hmB⟩ := hcB.eq_broadcast hB hi hsetB
    exact ⟨hrA.trans hrB.symm, hpA.trans hpB.symm, hmA.trans hmB.symm⟩
  refine ⟨hd ▸ hsame, fun list hlA hlB => ⟨?_, ?_⟩, ?_⟩
  · rw [maxSeq_congr fun i hi hset => (hsame i hi (Bitmap.isSet_of_isSuperset hlA hset)
      (Bitmap.isSet_of_isSuperset hlB hset)).2.2]
  · refine listed_congr fun i hi hset => ?_
    rw [(hsame i hi (Bitmap.isSet_of_isSuperset hlA hset) (Bitmap.isSet_of_isSuperset hlB hset)).2.1]
  · rintro rfl rest rfl hstay i hset
    subst hA hB'
    rw [run_append] at hviewB ⊢
    exact complete_kept d hviewA hset hstay hviewB

end Runs

/-! ### What was announced -/

/-- The Reports of `secondViewRun`. -/
def secondViewBroadcast : Broadcast RunDigest where
  report i :=
    let st := (firstView threeServers.toConfig).node i
    if i = 1 ∨ i = 2 then some (constructReport i (st.withOrd { st.ord with view := 2 })) else none
  pcSets _ := []
  ordered _ := .nil

/-- A message of `secondViewRun` is one of its Reports, or no part of a broadcast. -/
def fromSecondView : Event (Msg RunDigest) (Action RunDigest) → Bool
  | .handle _ (.msg (.report m)) => decide (secondViewBroadcast.report m.body.tag.machineId = some m)
  | .handle _ (.msg (.pcSet _)) => false
  | _ => true

/-- What server `i` holds after `secondViewRun`. -/
def secondViewNode (i : Nat) : Node RunDigest :=
  ((firstView threeServers.toConfig).run (env threeServers) (handle (listedShares threeServers.toConfig))
    secondViewRun).node i

theorem collected_agree_threeServers :
    (secondViewNode 1).vc.completeState.isSet 2 = true ∧ (secondViewNode 2).vc.completeState.isSet 2 = true ∧
      (secondViewNode 1).vc.report 2 = (secondViewNode 2).vc.report 2 := by
  have hset : ∀ i ∈ [1, 2], (secondViewNode i).vc.completeState.isSet 2 = true ∧
      (secondViewNode i).view = 2 := by decide +kernel
  have hfrom : ∀ e ∈ secondViewRun, fromSecondView e = true := by decide +kernel
  have hdelivers : ∀ i x, threeServers.correct i = true → .handle i x ∈ secondViewRun →
      Delivers secondViewBroadcast 2 x := by
    intro i x _ hx
    have hx := hfrom _ hx
    constructor
    · rintro m rfl -
      exact of_decide_eq_true hx
    · rintro m rfl -
      exact nomatch hx
  obtain ⟨hA, hviewA⟩ := hset 1 (by simp)
  obtain ⟨hB, hviewB⟩ := hset 2 (by simp)
  have hstart : Start (firstView threeServers.toConfig) := ⟨fun _ => rfl, fun _ => rfl, rfl⟩
  have hagree := (collected_agree (p := listedShares threeServers.toConfig) (B := secondViewBroadcast) (v := 2)
    threeServers rfl (by decide) (fun _ _ _ => Nat.zero_le _) hstart hdelivers (List.prefix_refl secondViewRun)
    (List.prefix_refl secondViewRun) (a := 1) (b := 2) (show secondViewNode 1 = _ from rfl)
    (show secondViewNode 2 = _ from rfl) hviewA hviewB).1
  have hserver : 2 ∈ threeServers.servers := by decide
  exact ⟨hA, hB, (hagree 2 hserver hA hB).1⟩

/-! ### One certificate set more -/

/-- Server 4 announces one certificate set. -/
def surplusReport : Signed Report :=
  { header := plainHeader 4 .report
    body := { tag := { machineId := 4, view := 2, seqNum := 0 }, execAru := 0, pcSetSize := 1 } }

/-- It broadcasts two: for the first two ordinals, prepared in view 1. -/
def surplusPcSet (seq : Nat) : Signed (PcSet RunDigest) :=
  let pp : PrePrepare :=
    { seqNum := seq, view := 1, proposalDigest := [], lastExecuted := List.replicate 4 PoSeqPair.zero,
      partNum := 1, totalParts := 1, rows := [] }
  let complete : CompletePrePrepare :=
    { CompletePrePrepare.null fourServers.toConfig with seqNum := seq, view := 1, proposalDigest := [] }
  { header := plainHeader 4 .pcSet
    body :=
      { tag := { machineId := 4, view := 2, seqNum := seq }
        prePrepare := { header := plainHeader 1 .prePrepare, body := pp }
        prepares := [2, 3].map fun i =>
          { header := plainHeader i .prepare
            body := { seqNum := seq, view := 1, digest := .inr complete, preinstalledIncarnations := [1, 1, 1, 1] } } } }

/-- What server 4 broadcasts. -/
def surplusBroadcast : Broadcast RunDigest where
  report i := if i = 4 then some surplusReport else none
  pcSets i := if i = 4 then [surplusPcSet 1, surplusPcSet 2] else []
  ordered i := by
    by_cases h : i = 4
    · simp only [h, if_true]
      exact List.pairwise_cons.mpr ⟨by decide, List.pairwise_singleton _ _⟩
    · simp only [h, if_false]
      exact .nil

/-- Servers 1 and 2 enter view 2. Both are handed the Report, and one certificate set
each. -/
def surplusRun : List (Event (Msg RunDigest) (Action RunDigest)) :=
  [.handle 1 (.act (.enterView 2)), .handle 2 (.act (.enterView 2)), .inject (.report surplusReport),
   .inject (.pcSet (surplusPcSet 1)), .inject (.pcSet (surplusPcSet 2)),
   .handle 1 (.msg (.report surplusReport)), .handle 2 (.msg (.report surplusReport)),
   .handle 1 (.msg (.pcSet (surplusPcSet 1))), .handle 2 (.msg (.pcSet (surplusPcSet 2)))]

/-- What server `i` calls complete, holds and computes of server 4 after some events. -/
def surplusState (evs : List (Event (Msg RunDigest) (Action RunDigest))) (i : Nat) : Bool × List Nat × Nat :=
  let st := ((firstView fourServers.toConfig).run (env fourServers) (handle (listedShares fourServers.toConfig))
    evs).node i
  (st.vc.completeState.isSet 4, (st.vc.pcSet 4).map fun m => m.body.seqNum, st.vc.maxPcSeq 4)

/-- Servers 1 and 2 call the state of server 4 complete and hold different certificate
sets of it, with different highest ordinals; and what server 1 holds still changes. -/
theorem surplusRun_disagrees :
    (∀ i x, fourServers.correct i = true → .handle i x ∈ surplusRun → Delivers surplusBroadcast 2 x) ∧
      surplusState surplusRun 1 = (true, [1], 1) ∧ surplusState surplusRun 2 = (true, [2], 2) ∧
      surplusState (surplusRun ++ [.handle 1 (.msg (.pcSet (surplusPcSet 2)))]) 1 = (true, [1, 2], 2) := by
  refine ⟨fun i x _ hx => ?_, by decide +kernel, by decide +kernel, by decide +kernel⟩
  constructor
  · rintro m rfl -
    have hm : i = 1 ∧ m = surplusReport ∨ i = 2 ∧ m = surplusReport := by simpa [surplusRun] using hx
    rcases hm with ⟨-, rfl⟩ | ⟨-, rfl⟩ <;> rfl
  · rintro m rfl -
    have hm : i = 1 ∧ m = surplusPcSet 1 ∨ i = 2 ∧ m = surplusPcSet 2 := by simpa [surplusRun] using hx
    rcases hm with ⟨-, rfl⟩ | ⟨-, rfl⟩ <;> simp [surplusBroadcast, surplusPcSet]

end Spire.ViewChange
