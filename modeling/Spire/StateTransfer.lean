import Mathlib.Algebra.Order.BigOperators.Group.List
import Mathlib.Algebra.Order.Ring.Nat
import Spire.ScadaMaster

/-!
# State transfer of the SCADA master

What `package_and_send_state` writes, `apply_state` reads back: transformers, switches and
the PNNL data. It leaves out the generators, of which nothing is ever read that the same
message did not set, and `stat`, which `apply_state` computes.

`Like` relates two masters that no message tells apart. It is kept by every message, so that
a transfer is complete when it establishes the relation. It does so unless the sender still
has the `stat` of a fresh start, which is all ones whatever the lines of the grid are.
-/

namespace Spire.Scada

variable {t : Topology}

/-! ## What `process` reads -/

/-- The places of `stat` that `process` writes. -/
def statIds (t : Topology) : List Nat :=
  (List.range t.numSw).map t.swId ++ (List.range t.numLinks).map (fun i => (t.link i).id) ++
    (List.range t.numSubs).map (fun i => (t.sub i).id) ++ (List.range t.numSubs).map fun i => (t.sub i).txId

theorem statWrites_ids (g : Grid) (sub link : Nat → UInt8) :
    (statWrites t g sub link).map Prod.fst = statIds t := by
  simp [statWrites, statIds, Function.comp_def]

theorem foldl_update_of_not_mem {ws : List (Nat × UInt8)} {f : Nat → UInt8} {n : Nat}
    (h : n ∉ ws.map Prod.fst) :
    ws.foldl (fun f w => Function.update f w.1 w.2) f n = f n := by
  induction ws generalizing f with
  | nil => rfl
  | cons w ws ih =>
    simp only [List.map_cons, List.mem_cons, not_or] at h
    rw [List.foldl_cons, ih h.2, Function.update_of_ne h.1]

/-- What is overwritten does not matter. -/
theorem foldl_update_congr {ws : List (Nat × UInt8)} {f f' : Nat → UInt8}
    (h : ∀ n, n ∉ ws.map Prod.fst → f n = f' n) :
    ws.foldl (fun f w => Function.update f w.1 w.2) f = ws.foldl (fun f w => Function.update f w.1 w.2) f' := by
  induction ws generalizing f f' with
  | nil =>
    ext n
    rw [List.foldl_nil, List.foldl_nil, h n (by simp)]
  | cons w ws ih =>
    rw [List.foldl_cons, List.foldl_cons]
    apply ih
    intro n hn
    by_cases hw : n = w.1
    · simp [hw]
    · rw [Function.update_of_ne hw, Function.update_of_ne hw]
      exact h n (by simp [hw, hn])

@[simp] theorem process_tx (g : Grid) : (process t g).tx = g.tx := rfl

@[simp] theorem process_sw (g : Grid) : (process t g).sw = g.sw := rfl

theorem process_stat_of_not_mem {g : Grid} {n : Nat} (h : n ∉ statIds t) : (process t g).stat n = g.stat n := by
  apply foldl_update_of_not_mem
  rw [statWrites_ids]
  exact h

theorem search_congr {g g' : Grid} (htx : g.tx = g'.tx) (hsw : g.sw = g'.sw) : search t g = search t g' := by
  have hvisit : Search.visit t g = Search.visit t g' := by
    funext b l far
    simp only [Search.visit, hsw]
  have hround : Search.round t g = Search.round t g' := by
    funext b
    simp only [Search.round, hvisit, htx]
  rw [search, search, hround]

/-- Transformers and switches determine `stat` where `process` writes it. -/
theorem process_congr {g g' : Grid} (htx : g.tx = g'.tx) (hsw : g.sw = g'.sw)
    (hstat : ∀ n, n ∉ statIds t → g.stat n = g'.stat n) :
    (process t g).stat = (process t g').stat := by
  have hwrites : ∀ sub link, statWrites t g sub link = statWrites t g' sub link := by
    intro sub link
    simp only [statWrites, htx, hsw]
  have hlinks : ∀ link, brokenLinks t g link = brokenLinks t g' link := by
    intro link
    funext l
    simp only [brokenLinks, hsw]
  simp only [process, search_congr htx hsw, hwrites, hlinks]
  apply foldl_update_congr
  rw [statWrites_ids]
  exact hstat

theorem process_process (g : Grid) : (process t (process t g)).stat = (process t g).stat :=
  process_congr rfl rfl fun _ h => process_stat_of_not_mem h

/-! ## Reachable states -/

/-- Whether the grid has been computed since the last start or reset. -/
def Msg.computes (t : Topology) : Msg → Bool → Bool
  | .rtuData payload, b =>
    match payload.data with
    | .jhu _ _ => b || decide (payload.rtuId < t.numSubs)
    | _ => b
  | .systemReset, _ => false
  | _, b => b

/-- The messages that carry no state. -/
def Msg.isUpdate : Msg → Bool
  | .stateXfer _ => false
  | _ => true

/-- The states of a master, and whether their grid has been computed since the last start or
reset. The state in a transfer is that of another master. -/
inductive Reachable (t : Topology) : Bool → State → Prop
  | init : Reachable t false State.init
  | message {b : Bool} {s s' : State} {me : Nat} {z : Msg} {r : Option Reply} :
    Reachable t b s → z.Admitted → z.isUpdate = true → handle t me s z = .ok (s', r) →
      Reachable t (z.computes t b) s'
  | transfer {b b' : Bool} {s r r' : State} {me : Nat} {sr : StateRequest} {st : StateXfer} :
    Reachable t b s → Reachable t b' r → packageState t s sr = .ok st → applyState t me r st = .ok r' →
      Reachable t (if st.target = me then true else b') r'

/-- What never changes, and what the grid is worth. -/
structure Settled (t : Topology) (b : Bool) (g : Grid) : Prop where
  tx : ∀ i, t.numSubs ≤ i → g.tx i = 1
  sw : ∀ j, (∀ i < t.numSubs, j ∉ (t.sub i).swList) → g.sw j = 1
  stat : ∀ n, n ∉ statIds t → g.stat n = 1
  computed : b = true → (process t g).stat = g.stat
  fresh : b = false → g = Grid.fresh

theorem Settled.start : Settled t false Grid.fresh :=
  { tx := fun _ _ => rfl
    sw := fun _ _ => rfl
    stat := fun _ _ => rfl
    computed := fun h => by cases h
    fresh := fun _ => rfl }

/-- A grid that is computed after an assignment to transformers and switches of the
substations. -/
theorem Settled.process {b : Bool} {g g' : Grid} (h : Settled t b g) (hstat : g'.stat = g.stat)
    (htx : ∀ i, t.numSubs ≤ i → g'.tx i = g.tx i)
    (hsw : ∀ j, (∀ i < t.numSubs, j ∉ (t.sub i).swList) → g'.sw j = g.sw j) :
    Settled t true (process t g') :=
  { tx := fun i hi => by rw [process_tx, htx i hi, h.tx i hi]
    sw := fun j hj => by rw [process_sw, hsw j hj, h.sw j hj]
    stat := fun n hn => by rw [process_stat_of_not_mem hn, hstat, h.stat n hn]
    computed := fun _ => process_process g'
    fresh := fun hb => by cases hb }

/-! ## The bytes of a state -/

theorem readInt32_int32Bytes {n : Nat} (h : n < 2 ^ 32) (l : List UInt8) :
    readInt32 (int32Bytes n ++ l) = n := by
  simp only [readInt32, int32Bytes, List.cons_append, List.nil_append, List.getD_cons_zero, List.getD_cons_succ,
    UInt8.toNat_ofNat']
  omega

theorem length_subSlot (g : Grid) (i : Nat) : (subSlot t g i).length = 9 + (t.sub i).swList.length := by
  simp only [subSlot, int32Bytes, List.length_append, List.length_cons, List.length_nil, List.length_map]
  omega

theorem length_pnnlSlot (p : Pnnl) : (pnnlSlot p).length = 8 + pnnlLen := by
  simp only [pnnlSlot, int32Bytes, List.length_append, List.length_cons, List.length_nil, List.length_map,
    List.length_range]

/-- The effect of the slot of a substation. -/
def restoreSub (t : Topology) (s g : Grid) (i : Nat) : Grid :=
  { g with
    tx := Function.update g.tx i (s.tx i)
    sw := (t.sub i).swList.foldl (fun sw j => Function.update sw j (s.sw j)) g.sw }

theorem applyFields_subSlot (s g : Grid) (i : Nat) (rest : List UInt8) :
    applyFields t g i (1 + (t.sub i).swList.length) ((s.tx i :: (t.sub i).swList.map s.sw) ++ rest) =
      restoreSub t s g i := by
  have hsw : ∀ (l : List Nat) (sw : Nat → UInt8),
      (List.range (1 + l.length - 1)).foldl (fun sw j => Function.update sw (l.getD j 0)
        (((s.tx i :: l.map s.sw) ++ rest).getD (j + 1) 0)) sw =
      l.foldl (fun sw j => Function.update sw j (s.sw j)) sw := by
    intro l sw
    have hl : (List.range l.length).map (fun j => l.getD j 0) = l := by
      apply List.ext_getElem
      · simp
      · intro j _ hj'
        have hj : j < l.length := hj'
        simp [List.getD_eq_getElem?_getD, hj]
    conv_rhs => rw [← hl, List.foldl_map]
    rw [Nat.add_sub_cancel_left]
    apply List.foldl_ext
    intro sw j hj
    have hj : j < l.length := List.mem_range.mp hj
    simp [List.getD_eq_getElem?_getD, List.getElem?_append_left, hj]
  simp only [applyFields, restoreSub, hsw]
  rfl

theorem applySlots_slots {s : Grid} {l : List Nat} (rest : List UInt8) (g : Grid)
    (h : ∀ i ∈ l, i < 2 ^ 32 ∧ 1 + (t.sub i).swList.length < 2 ^ 32) :
    applySlots t l.length (l.flatMap (subSlot t s) ++ rest) g = (l.foldl (restoreSub t s) g, rest) := by
  induction l generalizing g with
  | nil => rfl
  | cons i l ih =>
    obtain ⟨hi, hlen⟩ := h i List.mem_cons_self
    set more := l.flatMap (subSlot t s) ++ rest with hmore
    have hbytes : (i :: l).flatMap (subSlot t s) ++ rest =
        int32Bytes i ++ (int32Bytes (1 + (t.sub i).swList.length) ++
          ((s.tx i :: (t.sub i).swList.map s.sw) ++ more)) := by
      simp [subSlot, hmore]
    have hdrop : ∀ (n : Nat) (b : List UInt8), (int32Bytes n ++ b).drop 4 = b := fun _ _ => rfl
    have hdrop8 : ∀ (n m : Nat) (b : List UInt8), (int32Bytes n ++ (int32Bytes m ++ b)).drop 8 = b := fun _ _ _ => rfl
    have hfields : ((s.tx i :: (t.sub i).swList.map s.sw) ++ more).drop (1 + (t.sub i).swList.length) = more := by
      have hlength : (s.tx i :: (t.sub i).swList.map s.sw).length = 1 + (t.sub i).swList.length := by
        rw [List.length_cons, List.length_map, Nat.add_comm]
      rw [← hlength, List.drop_left]
    rw [hbytes, List.length_cons, applySlots]
    simp only [readInt32_int32Bytes hi, hdrop, readInt32_int32Bytes hlen, hdrop8, hfields, applyFields_subSlot]
    rw [hmore, ih _ fun j hj => h j (List.mem_cons_of_mem i hj), List.foldl_cons]

/-! ## What a transfer does -/

theorem foldl_update_self {l : List Nat} {f sw : Nat → UInt8} (j : Nat) :
    l.foldl (fun sw j => Function.update sw j (f j)) sw j = if j ∈ l then f j else sw j := by
  induction l generalizing sw with
  | nil => simp
  | cons k l ih =>
    rw [List.foldl_cons, ih]
    by_cases hl : j ∈ l
    · simp [hl]
    · by_cases hk : j = k
      · simp [hk]
      · simp [hl, hk]

theorem restore_tx (s g : Grid) (l : List Nat) (i : Nat) :
    (l.foldl (restoreSub t s) g).tx i = if i ∈ l then s.tx i else g.tx i := by
  have htx : ∀ g : Grid, (l.foldl (restoreSub t s) g).tx =
      l.foldl (fun tx i => Function.update tx i (s.tx i)) g.tx := by
    induction l with
    | nil => intro g; rfl
    | cons k l ih => intro g; rw [List.foldl_cons, ih]; rfl
  rw [htx, foldl_update_self]

theorem restore_sw (s g : Grid) (l : List Nat) (j : Nat) :
    (l.foldl (restoreSub t s) g).sw j = if ∃ i ∈ l, j ∈ (t.sub i).swList then s.sw j else g.sw j := by
  induction l generalizing g with
  | nil => simp
  | cons k l ih =>
    rw [List.foldl_cons, ih]
    have hk : (restoreSub t s g k).sw j = if j ∈ (t.sub k).swList then s.sw j else g.sw j := foldl_update_self j
    rw [hk]
    by_cases hl : ∃ i ∈ l, j ∈ (t.sub i).swList
    · rw [if_pos hl, if_pos]
      obtain ⟨i, hi, hj⟩ := hl
      exact ⟨i, List.mem_cons_of_mem k hi, hj⟩
    · rw [if_neg hl]
      refine if_congr ?_ rfl rfl
      simp only [List.mem_cons, exists_eq_or_imp]
      exact ⟨fun h => .inl h, fun h => h.resolve_right hl⟩

theorem restore_stat (s g : Grid) (l : List Nat) : (l.foldl (restoreSub t s) g).stat = g.stat := by
  induction l generalizing g with
  | nil => rfl
  | cons k l ih => rw [List.foldl_cons, ih]; rfl

/-- What `apply_state` makes of a master's own message. -/
theorem applyState_packageState {S R : State} {sr : StateRequest} {st : StateXfer}
    (h : packageState t S sr = .ok st) :
    applyState t st.target R st = .ok { R with
      grid := process t ((List.range t.numSubs).foldl (restoreSub t S.grid) R.grid)
      pnnl := { R.pnnl with body := fun i => if i < pnnlLen then S.pnnl.body i else R.pnnl.body i } } := by
  simp only [packageState] at h
  split_ifs at h with htarget hsize
  simp only [Except.ok.injEq] at h
  subst h
  -- The sizes of the slots are bounded by that of the message.
  have hlen : ((List.range t.numSubs).flatMap (subSlot t S.grid)).length ≤ maxLen := by
    simp only [List.length_append] at hsize
    omega
  rw [List.length_flatMap] at hlen
  have hcount : t.numSubs ≤ maxLen := by
    have hone : ∀ n ∈ (List.range t.numSubs).map fun i => (subSlot t S.grid i).length, 1 ≤ n := by
      intro n hn
      obtain ⟨i, -, rfl⟩ := List.mem_map.mp hn
      rw [length_subSlot]
      omega
    have := List.length_le_sum_of_one_le _ hone
    rw [List.length_map, List.length_range] at this
    exact this.trans hlen
  have hbounds : ∀ i ∈ List.range t.numSubs, i < 2 ^ 32 ∧ 1 + (t.sub i).swList.length < 2 ^ 32 := by
    intro i hi
    have hle := List.single_le_sum (l := (List.range t.numSubs).map fun i => (subSlot t S.grid i).length)
      (fun _ _ => Nat.zero_le _) _ (List.mem_map_of_mem hi)
    rw [length_subSlot] at hle
    have := List.mem_range.mp hi
    simp only [maxLen] at hcount hlen
    omega
  have hslots := applySlots_slots (t := t) (s := S.grid) (pnnlSlot S.pnnl) R.grid hbounds
  rw [List.length_range] at hslots
  have hbody : ∀ i, i < pnnlLen → ((pnnlSlot S.pnnl).drop 8).getD i 0 = S.pnnl.body i := by
    intro i hi
    have hdrop : (pnnlSlot S.pnnl).drop 8 = (List.range pnnlLen).map S.pnnl.body := rfl
    simp [hdrop, List.getD_eq_getElem?_getD, hi]
  simp only [applyState, Nat.add_sub_cancel, hslots, length_pnnlSlot, ne_eq, not_true_eq_false, if_false, if_neg hsize]
  congr 4
  funext i
  by_cases hi : i < pnnlLen
  · rw [if_pos hi, if_pos hi, hbody i hi]
  · rw [if_neg hi, if_neg hi]

/-- Both sides agree on what is not transferred, so all of the grid is restored. -/
theorem restore_settled {b b' : Bool} {g g' : Grid} (h : Settled t b g) (h' : Settled t b' g') :
    ((List.range t.numSubs).foldl (restoreSub t g) g').tx = g.tx ∧
      ((List.range t.numSubs).foldl (restoreSub t g) g').sw = g.sw := by
  constructor
  · funext i
    rw [restore_tx]
    split_ifs with hi
    · rfl
    · have hout : t.numSubs ≤ i := by simpa using hi
      rw [h.tx i hout, h'.tx i hout]
  · funext j
    rw [restore_sw]
    split_ifs with hj
    · rfl
    · have hout : ∀ i < t.numSubs, j ∉ (t.sub i).swList := by
        intro i hi hmem
        exact hj ⟨i, List.mem_range.mpr hi, hmem⟩
      rw [h.sw j hout, h'.sw j hout]

/-! ## Every reachable grid is settled -/

theorem setStatus_of_ne {valid : List Int} {a : Nat → UInt8} {i j : Nat} {v : Int} (h : j ≠ i) :
    setStatus valid a i v j = a j := by
  unfold setStatus
  split_ifs
  · exact Function.update_of_ne h _ _
  · rfl

theorem foldl_setStatus_of_not_mem {valid : List Int} {l : List Nat} {k : Nat} {v : Nat → Int}
    {a : Nat → UInt8} {j : Nat} (h : j ∉ l) :
    (l.zipIdx k).foldl (fun a p => setStatus valid a p.1 (v p.2)) a j = a j := by
  induction l generalizing k a with
  | nil => rfl
  | cons i l ih =>
    simp only [List.mem_cons, not_or] at h
    rw [List.zipIdx_cons, List.foldl_cons, ih h.2]
    exact setStatus_of_ne h.1

theorem Settled.readJhu {b : Bool} {g : Grid} (h : Settled t b g) {rtuId : Nat} (hid : rtuId < t.numSubs)
    (txStatus : Int) (swStatus : Nat → Int) : Settled t true (readJhu t g rtuId txStatus swStatus) := by
  refine h.process rfl ?_ ?_
  · intro i hi
    have hne : i ≠ rtuId := by omega
    exact setStatus_of_ne hne
  · intro j hj
    exact foldl_setStatus_of_not_mem (hj rtuId hid)

/-- The messages that carry no state keep the grid settled. -/
theorem Settled.handle {b : Bool} {s s' : State} {me : Nat} {z : Msg} {r : Option Reply}
    (h : Settled t b s.grid) (hz : z.Admitted) (hup : z.isUpdate = true) (hs : handle t me s z = .ok (s', r)) :
    Settled t (z.computes t b) s'.grid := by
  cases z with
  | rtuData payload =>
    obtain ⟨hid, hseq, -⟩ := hz
    have hguard : ¬(numRtu ≤ payload.rtuId ∨ payload.seq.seqNum = 0) := by
      rintro (hle | hzero)
      · omega
      · exact hseq hzero
    cases hd : payload.data with
    | jhu txStatus swStatus =>
      simp only [Scada.handle, onRtuData, readFromRtu, if_neg hguard, hd] at hs
      simp only [Msg.computes, hd]
      by_cases hsub : t.numSubs ≤ payload.rtuId
      · rw [if_pos hsub] at hs
        obtain ⟨rfl, -⟩ := Prod.mk.inj (Except.ok.inj hs)
        have hno : decide (payload.rtuId < t.numSubs) = false := by simp [hsub]
        rw [hno, Bool.or_false]
        exact h
      · rw [if_neg hsub] at hs
        obtain ⟨rfl, -⟩ := Prod.mk.inj (Except.ok.inj hs)
        have hyes : decide (payload.rtuId < t.numSubs) = true := by simpa using hsub
        rw [hyes, Bool.or_true]
        exact h.readJhu (by omega) txStatus swStatus
    | pnnl pf =>
      simp only [Scada.handle, onRtuData, readFromRtu, if_neg hguard, hd] at hs
      obtain ⟨rfl, -⟩ := Prod.mk.inj (Except.ok.inj hs)
      simpa only [Msg.computes, hd] using h
    | ems f =>
      simp only [Scada.handle, onRtuData, readFromRtu, if_neg hguard, hd] at hs
      split_ifs at hs
      obtain ⟨rfl, -⟩ := Prod.mk.inj (Except.ok.inj hs)
      simpa only [Msg.computes, hd] using h
  | hmiCommand payload =>
    have hgrid : s'.grid = s.grid := by
      simp only [Scada.handle, readFromHmi] at hs
      split at hs
      all_goals try split_ifs at hs
      all_goals
        obtain ⟨rfl, -⟩ := Prod.mk.inj (Except.ok.inj hs)
        rfl
    rw [hgrid]
    exact h
  | benchmark ben =>
    obtain ⟨rfl, -⟩ := Prod.mk.inj (Except.ok.inj hs)
    exact h
  | stateRequest sr =>
    cases hp : packageState t s sr with
    | error e => simp [Scada.handle, hp, Except.map] at hs
    | ok st =>
      simp only [Scada.handle, hp, Except.map] at hs
      obtain ⟨rfl, -⟩ := Prod.mk.inj (Except.ok.inj hs)
      exact h
  | stateXfer st => cases hup
  | systemReset =>
    obtain ⟨rfl, -⟩ := Prod.mk.inj (Except.ok.inj hs)
    exact Settled.start

theorem target_packageState {s : State} {sr : StateRequest} {st : StateXfer} (h : packageState t s sr = .ok st) :
    st.target = sr.target := by
  simp only [packageState] at h
  split_ifs at h
  rw [← Except.ok.inj h]

/-- The grid after a transfer. -/
theorem Settled.transfer {b : Bool} {g g' : Grid} (h : Settled t b g') :
    Settled t true (Scada.process t ((List.range t.numSubs).foldl (restoreSub t g) g')) := by
  refine h.process (restore_stat g g' _) ?_ ?_
  · intro i hi
    rw [restore_tx, if_neg (by simpa using hi)]
  · intro j hj
    rw [restore_sw, if_neg]
    rintro ⟨i, hi, hmem⟩
    exact hj i (List.mem_range.mp hi) hmem

theorem Reachable.settled {b : Bool} {s : State} (h : Reachable t b s) : Settled t b s.grid := by
  induction h with
  | init => exact Settled.start
  | message _ hz hup hs ih => exact ih.handle hz hup hs
  | @transfer b b' s r r' me sr st _ _ hp ha ihs ihr =>
    by_cases hme : st.target = me
    · rw [if_pos hme]
      subst hme
      rw [applyState_packageState hp] at ha
      rw [← Except.ok.inj ha]
      exact ihr.transfer
    · rw [if_neg hme]
      simp only [applyState, ne_eq, hme, not_false_eq_true, if_true] at ha
      rw [← Except.ok.inj ha]
      exact ihr

/-! ## Masters that answer alike -/

/-- What a master answers to messages, up to a fault. -/
def answers (t : Topology) (me : Nat) : State → List Msg → List (Except Fault (Option Reply))
  | _, [] => []
  | s, z :: zs =>
    match handle t me s z with
    | .error e => [.error e]
    | .ok (s', r) => .ok r :: answers t me s' zs

/-- Two masters that no message tells apart: the generators, the padding and the time are
free, and `stat` too where every master computes it before it is shown. -/
structure Like (t : Topology) (s s' : State) : Prop where
  tx : s.grid.tx = s'.grid.tx
  sw : s.grid.sw = s'.grid.sw
  body : ∀ i < pnnlLen, s.pnnl.body i = s'.pnnl.body i
  unwritten : ∀ n, n ∉ statIds t → s.grid.stat n = s'.grid.stat n
  shown : t.numSubs < numRtu → ∀ n < t.statLen, s.grid.stat n = s'.grid.stat n

/-- The same answer, and states that are alike. -/
def SameAnswer (t : Topology) : Except Fault (State × Option Reply) → Except Fault (State × Option Reply) → Prop
  | .ok (s, r), .ok (s', r') => r = r' ∧ Like t s s'
  | .error e, .error e' => e = e'
  | _, _ => False

theorem Like.process {s s' : State} (h : Like t s s') {g g' : Grid} (htx : g.tx = g'.tx) (hsw : g.sw = g'.sw)
    (hg : g.stat = s.grid.stat) (hg' : g'.stat = s'.grid.stat) (time : Nat × Nat) :
    (process t g).stat = (process t g').stat ∧
      Like t { s with grid := process t g, time := time } { s' with grid := process t g', time := time } := by
  have hstat : (Scada.process t g).stat = (Scada.process t g').stat := by
    apply process_congr htx hsw
    intro n hn
    rw [hg, hg']
    exact h.unwritten n hn
  exact ⟨hstat,
    { tx := htx
      sw := hsw
      body := h.body
      unwritten := fun n _ => congrFun hstat n
      shown := fun _ n _ => congrFun hstat n }⟩

theorem Like.onRtuData {s s' : State} (h : Like t s s') {payload : RtuData} (hz : (Msg.rtuData payload).Admitted) :
    SameAnswer t (onRtuData t s payload) (onRtuData t s' payload) := by
  obtain ⟨hid, hseq, hems⟩ := hz
  have hguard : ¬(numRtu ≤ payload.rtuId ∨ payload.seq.seqNum = 0) := by
    rintro (hle | hzero)
    · omega
    · exact hseq hzero
  cases hd : payload.data with
  | jhu txStatus swStatus =>
    simp only [Scada.onRtuData, readFromRtu, if_neg hguard, hd]
    by_cases hsub : t.numSubs ≤ payload.rtuId
    · rw [if_pos hsub, if_pos hsub]
      have hshown := h.shown (by omega)
      refine ⟨?_, { h with }⟩
      have hbytes : (List.range t.statLen).map s.grid.stat = (List.range t.statLen).map s'.grid.stat :=
        List.map_congr_left fun n hn => hshown n (List.mem_range.mp hn)
      simp only [hbytes]
    · rw [if_neg hsub, if_neg hsub]
      obtain ⟨hstat, hlike⟩ := @Like.process t _ _ h
        { s.grid with
          sw := (t.sub payload.rtuId).swList.zipIdx.foldl
            (fun sw p => setStatus [1, 0, 2] sw p.1 (swStatus p.2)) s.grid.sw
          tx := setStatus [1, 0] s.grid.tx payload.rtuId txStatus }
        { s'.grid with
          sw := (t.sub payload.rtuId).swList.zipIdx.foldl
            (fun sw p => setStatus [1, 0, 2] sw p.1 (swStatus p.2)) s'.grid.sw
          tx := setStatus [1, 0] s'.grid.tx payload.rtuId txStatus }
        (by rw [h.tx]) (by rw [h.sw]) rfl rfl (payload.sec, payload.usec)
      refine ⟨?_, hlike⟩
      simp only [readJhu, hstat]
  | pnnl pf =>
    simp only [Scada.onRtuData, readFromRtu, if_neg hguard, hd]
    exact ⟨rfl, { h with body := fun _ _ => rfl }⟩
  | ems f =>
    simp only [Scada.onRtuData, readFromRtu, if_neg hguard, hd, if_pos (hems f hd), Function.update_self]
    exact ⟨rfl, { h with }⟩

theorem Like.readFromHmi {s s' : State} (h : Like t s s') (payload : HmiCommand) :
    SameAnswer t (readFromHmi t s payload) (readFromHmi t s' payload) := by
  cases hscen : payload.scenType with
  | jhu =>
    simp only [Scada.readFromHmi, hscen, hmiTransformer, hmiSwitch, h.tx, h.sw]
    split_ifs
    all_goals exact ⟨rfl, h⟩
  | pnnl =>
    simp only [Scada.readFromHmi, hscen]
    split_ifs with hpos
    · have hwrite : s.pnnl.breakerWrite payload.ttipPos.toNat = s'.pnnl.breakerWrite payload.ttipPos.toNat := by
        apply h.body
        simp only [numBreaker, pnnlLen] at hpos ⊢
        omega
      refine ⟨?_, h⟩
      simp only [breakerVal, hwrite]
    · rfl
  | ems =>
    simp only [Scada.readFromHmi, hscen]
    split_ifs
    · exact ⟨rfl, { h with }⟩
    · rfl
  | unknown code =>
    simp only [Scada.readFromHmi, hscen]
    exact ⟨rfl, h⟩

/-- What is packaged is a function of what alike masters share. -/
theorem Like.packageState {s s' : State} (h : Like t s s') (sr : StateRequest) :
    packageState t s sr = packageState t s' sr := by
  have hslot : pnnlSlot s.pnnl = pnnlSlot s'.pnnl := by
    simp only [pnnlSlot]
    congr 1
    exact List.map_congr_left fun i hi => h.body i (List.mem_range.mp hi)
  have hsub : subSlot t s.grid = subSlot t s'.grid := by
    funext i
    simp only [subSlot, h.tx, h.sw]
  simp only [Scada.packageState, hslot, hsub]

/-- One message: alike masters give the same answer and stay alike. -/
theorem Like.handle {s s' : State} (h : Like t s s') (me me' : Nat) {z : Msg} (hz : z.Admitted)
    (hup : z.isUpdate = true) : SameAnswer t (handle t me s z) (handle t me' s' z) := by
  cases z with
  | rtuData payload => exact h.onRtuData hz
  | hmiCommand payload => exact h.readFromHmi payload
  | benchmark ben => exact ⟨rfl, h⟩
  | stateRequest sr =>
    simp only [Scada.handle, h.packageState]
    cases Scada.packageState t s' sr with
    | error e => rfl
    | ok st => exact ⟨rfl, h⟩
  | stateXfer st => cases hup
  | systemReset =>
    exact ⟨rfl,
      { tx := rfl
        sw := rfl
        body := fun _ _ => rfl
        unwritten := fun _ _ => rfl
        shown := fun _ _ _ => rfl }⟩

/-- And so for all messages that follow. -/
theorem Like.answers {s s' : State} (h : Like t s s') (me me' : Nat) {zs : List Msg}
    (hzs : ∀ z ∈ zs, z.Admitted ∧ z.isUpdate = true) : answers t me s zs = answers t me' s' zs := by
  induction zs generalizing s s' with
  | nil => rfl
  | cons z zs ih =>
    obtain ⟨hz, hup⟩ := hzs z List.mem_cons_self
    have hsame := h.handle me me' hz hup
    have hrest : ∀ z ∈ zs, z.Admitted ∧ z.isUpdate = true := fun z hz => hzs z (List.mem_cons_of_mem _ hz)
    simp only [Scada.answers]
    revert hsame
    cases Scada.handle t me s z with
    | error e =>
      cases Scada.handle t me' s' z with
      | error e' => intro hsame; rw [show e = e' from hsame]
      | ok p => intro hsame; exact hsame.elim
    | ok p =>
      cases Scada.handle t me' s' z with
      | error e' => intro hsame; exact hsame.elim
      | ok p' =>
        rintro ⟨hr, hlike⟩
        simp only [hr, ih hlike hrest]

/-! ## When a transfer is complete -/

/-- With every device on, there is power everywhere. -/
def Powered (t : Topology) : Prop := ∀ n < t.statLen, (process t Grid.fresh).stat n = 1

/-- A message of the JHU scenario for an RTU that is not a substation: it is answered with
`stat` as it is. -/
def probe (t : Topology) : Msg :=
  .rtuData { seq := ⟨1, 1⟩, rtuId := t.numSubs, sec := 0, usec := 0, data := .jhu 1 fun _ => 1 }

theorem probe_admitted (h : t.numSubs < numRtu) : (probe t).Admitted :=
  ⟨h, Nat.one_ne_zero, fun f hf => by cases hf⟩

theorem answers_probe (me : Nat) (s : State) (h : t.numSubs < numRtu) :
    answers t me s [probe t] =
      [.ok (some (.hmiUpdate ⟨1, 1⟩ .jhu 0 0 (.bytes ((List.range t.statLen).map s.grid.stat))))] := by
  have hguard : ¬(numRtu ≤ t.numSubs ∨ 1 = 0) := by omega
  simp only [answers, handle, probe, onRtuData, readFromRtu, if_neg hguard, le_refl, if_true]

/-- The probe shows whether the grid of a fresh start is that of the lines. -/
theorem answers_probe_ne {s s' : State} (me me' : Nat) (hsub : t.numSubs < numRtu) (hs : s.grid = Grid.fresh)
    (hs' : s'.grid.stat = (process t Grid.fresh).stat) (hoff : ¬Powered t) :
    answers t me s' [probe t] ≠ answers t me' s [probe t] := by
  intro heq
  rw [answers_probe me s' hsub, answers_probe me' s hsub] at heq
  simp only [List.cons.injEq, Except.ok.injEq, Option.some.injEq, Reply.hmiUpdate.injEq, Update.bytes.injEq,
    true_and, and_true] at heq
  apply hoff
  intro n hn
  have hbyte := (List.map_inj_left.mp heq) n (List.mem_range.mpr hn)
  rw [hs', hs] at hbyte
  exact hbyte

/-- The receiver of a transfer answers every later message as the sender does exactly where the
sender has computed its grid, or computing it changes nothing that is shown, or every RTU of
the JHU scenario is a substation. -/
theorem transfer_complete_iff {b b' : Bool} {S R : State} (sr : StateRequest) {st : StateXfer}
    (hS : Reachable t b S) (hR : Reachable t b' R) (h : packageState t S sr = .ok st) :
    ∃ S', applyState t st.target R st = .ok S' ∧
      ((∀ (me me' : Nat) (zs : List Msg), (∀ z ∈ zs, z.Admitted ∧ z.isUpdate = true) →
          answers t me S' zs = answers t me' S zs) ↔
        b = true ∨ Powered t ∨ numRtu ≤ t.numSubs) := by
  have hgS := hS.settled
  have hgR := hR.settled
  obtain ⟨htx, hsw⟩ := restore_settled hgS hgR
  set g := (List.range t.numSubs).foldl (restoreSub t S.grid) R.grid with hg
  have hunwritten : ∀ n, n ∉ statIds t → g.stat n = S.grid.stat n := by
    intro n hn
    rw [hg, restore_stat, hgR.stat n hn, hgS.stat n hn]
  have hstat : (process t g).stat = (process t S.grid).stat := process_congr htx hsw hunwritten
  refine ⟨_, applyState_packageState h, ?_⟩
  rw [← hg]
  constructor
  · intro hsame
    by_contra hnot
    simp only [not_or, Bool.not_eq_true, not_le] at hnot
    obtain ⟨hb, hoff, hsub⟩ := hnot
    have hfresh := hgS.fresh hb
    refine answers_probe_ne 0 0 hsub hfresh ?_ hoff (hsame 0 0 [probe t] ?_)
    · show (process t g).stat = _
      rw [hstat, hfresh]
    · intro z hz
      rw [List.mem_singleton.mp hz]
      exact ⟨probe_admitted hsub, rfl⟩
  · intro hwhen me me' zs hzs
    refine Like.answers (t := t) ?_ me me' hzs
    refine { tx := htx, sw := hsw, body := ?_, unwritten := ?_, shown := ?_ }
    · intro i hi
      exact if_pos hi
    · intro n hn
      rw [process_stat_of_not_mem hn]
      exact hunwritten n hn
    · intro hsub n hn
      show (process t g).stat n = S.grid.stat n
      rw [hstat]
      cases hb : b with
      | true => rw [hgS.computed hb]
      | false =>
        have hpow : Powered t := by
          rcases hwhen with hb' | hpow | hle
          · rw [hb] at hb'
            cases hb'
          · exact hpow
          · omega
        rw [hgS.fresh hb]
        exact hpow n hn

/-- Two substations, each with a transformer and a switch, and a line between the switches or
none. -/
def feeder (lines : List Nat) : Topology :=
  { statLen := 7
    numSubs := 2
    sub := fun i =>
      { id := i, txId := 2 + i, swList := [i]
        outLines := if i = 0 then lines else []
        inLines := if i = 0 then [] else lines }
    numSw := 2
    swId := fun j => 4 + j
    numLinks := lines.length
    link := fun _ => { id := 6, srcSw := 0, destSw := 1, srcSub := 0, destSub := 1 } }

theorem transfer_complete_feeder :
    ∃ S', applyState (feeder [0]) 2 State.init
        { target := 2, latestUpdate := [], numClients := 3
          state := (List.range 2).flatMap (subSlot (feeder [0]) Grid.fresh) ++ pnnlSlot State.init.pnnl } = .ok S' ∧
      ((∀ (me me' : Nat) (zs : List Msg), (∀ z ∈ zs, z.Admitted ∧ z.isUpdate = true) →
          answers (feeder [0]) me S' zs = answers (feeder [0]) me' State.init zs) ↔
        false = true ∨ Powered (feeder [0]) ∨ numRtu ≤ 2) :=
  transfer_complete_iff (t := feeder [0]) { target := 2, latestUpdate := [] } Reachable.init Reachable.init rfl

/-- Where there is no line, the second substation has no power once the receiver has computed
it, and has power at the sender. -/
theorem transfer_incomplete :
    ∃ S R st S', Reachable (feeder []) false S ∧ Reachable (feeder []) false R ∧
      packageState (feeder []) S { target := 2, latestUpdate := [] } = .ok st ∧
      applyState (feeder []) 2 R st = .ok S' ∧
      ∃ zs, (∀ z ∈ zs, z.Admitted ∧ z.isUpdate = true) ∧
        answers (feeder []) 2 S' zs ≠ answers (feeder []) 1 S zs := by
  have hsub : (feeder []).numSubs < numRtu := by decide
  have hoff : ¬Powered (feeder []) := by
    intro h
    have hone := h 1 (by decide)
    revert hone
    decide
  have hpack : ∃ st, packageState (feeder []) State.init { target := 2, latestUpdate := [] } = .ok st := ⟨_, rfl⟩
  obtain ⟨st, hpack⟩ := hpack
  have htarget : st.target = 2 := target_packageState hpack
  have happly := applyState_packageState (R := State.init) hpack
  rw [htarget] at happly
  refine ⟨State.init, State.init, st, _, Reachable.init, Reachable.init, hpack, happly, [probe (feeder [])], ?_, ?_⟩
  · intro z hz
    rw [List.mem_singleton.mp hz]
    exact ⟨probe_admitted hsub, rfl⟩
  · refine answers_probe_ne 2 1 hsub rfl ?_ hoff
    obtain ⟨htx, hsw⟩ := restore_settled (t := feeder []) Settled.start Settled.start
    refine process_congr htx hsw ?_
    intro n _
    rw [restore_stat]
    rfl

end Spire.Scada
