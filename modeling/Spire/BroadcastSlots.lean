import Spire.ReliableBroadcast

/-!
# Slots of a reliable broadcast

What one call of the handler does to the slot its message is for, and from it two
invariants of a server: its slots hold the first payload processed of their tag and
count the Readys for it (`Node.Heard`), and what it handed on has the Readys of a quorum
and was handed on once (`Node.Handed`).
-/

namespace Spire.Broadcast

open Spire.Lib Spire.Replay

variable {C D : Type}

/-! ## What a call can do -/

section Calls

variable [DecidableEq D] {c : Config} {p : Params C D} {me : Nat} {st : Node C} {mess msg : Msg C}
  {rbMsg : Payload C} {slot slot' : Slot C}

/-- What the slot a message is for makes of it. -/
def outcome (c : Config) (me : Nat) (mess : Msg C) (rbMsg : Payload C) (slot : Slot C) : Outcome C :=
  match mess.kind with
  | .init => initSlot me rbMsg slot
  | .echo => echoSlot c me mess.machineId rbMsg slot
  | .ready => readySlot c me mess.machineId rbMsg slot

theorem process_eq : process c p me st mess = onSlot p st mess (outcome c me mess) := by
  obtain ⟨kind, sender, payload⟩ := mess
  cases kind <;> rfl

/-- A call that handles a message drops it, turns its payload away, or changes the slot
the message is for. -/
theorem handle_msg_cases (c : Config) (p : Params C D) (me : Nat) (st : Node C) (mess : Msg C) :
    handle c p me st (.msg mess) = (st, []) ∨
    (validated c p mess = true ∧ mess.payload.tag.view = st.view ∧
      (∃ rbMsg, (st.slot mess.payload.tag).rbMsg = some rbMsg ∧ p.digest mess.payload ≠ p.digest rbMsg) ∧
      handle c p me st (.msg mess) = (st.record mess, [])) ∨
    (∃ rbMsg slot, validated c p mess = true ∧ mess.payload.tag.view = st.view ∧
      (st.slot mess.payload.tag).hear p mess.payload = some (rbMsg, slot) ∧
      handle c p me st (.msg mess) =
        ((st.record mess).apply mess.payload.tag rbMsg (outcome c me mess rbMsg slot),
          (outcome c me mess rbMsg slot).sends)) := by
  by_cases hv : validated c p mess = true
  · by_cases hview : mess.payload.tag.view = st.view
    · right
      cases hh : (st.slot mess.payload.tag).hear p mess.payload with
      | none =>
        left
        refine ⟨hv, hview, ?_, ?_⟩
        · unfold Slot.hear at hh
          cases hm : (st.slot mess.payload.tag).rbMsg with
          | none => simp [hm] at hh
          | some rbMsg =>
            refine ⟨rbMsg, rfl, fun heq => ?_⟩
            simp [hm, heq] at hh
        · simp [handle, hv, process_eq, onSlot, hview, hh]
      | some r =>
        right
        exact ⟨r.1, r.2, hv, hview, rfl, by simp [handle, hv, process_eq, onSlot, hview, hh]⟩
    · left
      simp [handle, hv, process_eq, onSlot, hview]
  · left
    simp [handle, hv]

theorem hear_spec (h : slot.hear p mess.payload = some (rbMsg, slot')) :
    slot'.rbMsg = some rbMsg ∧ p.digest mess.payload = p.digest rbMsg ∧
      (slot.rbMsg = none ∧ rbMsg = mess.payload ∧ slot' = { slot with rbMsg := some rbMsg } ∨
        slot.rbMsg = some rbMsg ∧ slot' = slot) := by
  unfold Slot.hear at h
  cases hm : slot.rbMsg with
  | none =>
    simp only [hm, Option.some.injEq, Prod.mk.injEq] at h
    obtain ⟨rfl, rfl⟩ := h
    exact ⟨rfl, rfl, .inl ⟨rfl, rfl, rfl⟩⟩
  | some m =>
    simp only [hm] at h
    split at h
    · rename_i heq
      simp only [Option.some.injEq, Prod.mk.injEq] at h
      obtain ⟨rfl, rfl⟩ := h
      exact ⟨hm, heq, .inr ⟨rfl, rfl⟩⟩
    · cases h

end Calls

/-! ## One slot -/

section Slots

variable {c : Config} {me sender : Nat} {mess msg : Msg C} {rbMsg : Payload C} {slot : Slot C}

/-- A slot counts the servers it has a Ready of, has joined in when there are `f + 1`,
and has done nothing while it is empty. -/
structure Slot.Counted (c : Config) (slot : Slot C) : Prop where
  count : slot.readyCount = tally c.numServers slot.readyReceived
  joined : c.F + 1 ≤ slot.readyCount → slot.state = .sentReady
  held : slot.rbMsg = none → slot.state = .init

/-- Whether a Ready is the first of its sender. -/
def fresh (mess : Msg C) (slot : Slot C) : Prop :=
  mess.kind = .ready ∧ slot.readyReceived mess.machineId = false

theorem becomeReady_slot (me : Nat) (rbMsg : Payload C) (slot : Slot C) :
    (becomeReady me rbMsg slot).slot = { slot with state := .sentReady } := by
  unfold becomeReady
  cases hs : slot.state <;> simp [Outcome.quiet, ← hs]

theorem mem_becomeReady (h : msg ∈ (becomeReady me rbMsg slot).sends) :
    msg = constructMessage me .echo rbMsg ∨
      msg = constructMessage me .ready rbMsg ∧ slot.state ≠ .sentReady := by
  unfold becomeReady at h
  cases hs : slot.state <;> simp [hs, Outcome.quiet] at h ⊢
  · exact h
  · exact .inr h

theorem becomeReady_sends (me : Nat) (rbMsg : Payload C) (h : slot.state ≠ .sentReady) :
    constructMessage me .ready rbMsg ∈ (becomeReady me rbMsg slot).sends := by
  unfold becomeReady
  cases hs : slot.state <;> simp [hs] at h ⊢

theorem becomeReady_delivers : (becomeReady me rbMsg slot).delivers = false := by
  unfold becomeReady
  cases slot.state <;> rfl

/-- The payload of a slot stays. -/
theorem outcome_rbMsg (c : Config) (me : Nat) (mess : Msg C) (rbMsg : Payload C) (slot : Slot C) :
    (outcome c me mess rbMsg slot).slot.rbMsg = slot.rbMsg := by
  unfold outcome
  cases mess.kind with
  | init => simp only [initSlot]; cases slot.state <;> rfl
  | echo => simp only [echoSlot]; split_ifs <;> simp [Outcome.quiet, becomeReady_slot, Slot.countEcho]
  | ready => simp only [readySlot]; split_ifs <;> simp [Outcome.quiet, becomeReady_slot, Slot.countReady]

/-- Only the first Ready of a sender counts. -/
theorem outcome_ready (c : Config) (me : Nat) (mess : Msg C) (rbMsg : Payload C) (slot : Slot C) :
    (fresh mess slot →
      (outcome c me mess rbMsg slot).slot.readyReceived = Function.update slot.readyReceived mess.machineId true ∧
      (outcome c me mess rbMsg slot).slot.readyCount = slot.readyCount + 1) ∧
    (¬ fresh mess slot →
      (outcome c me mess rbMsg slot).slot.readyReceived = slot.readyReceived ∧
      (outcome c me mess rbMsg slot).slot.readyCount = slot.readyCount) := by
  unfold outcome fresh
  cases mess.kind with
  | init => simp only [initSlot]; cases slot.state <;> simp [Outcome.quiet]
  | echo => simp only [echoSlot]; split_ifs <;> simp [Outcome.quiet, becomeReady_slot, Slot.countEcho]
  | ready =>
    simp only [readySlot]
    split_ifs with hr <;> simp [Outcome.quiet, becomeReady_slot, Slot.countReady, hr]

/-- A server that is ready stays so, and one that becomes ready says so. -/
theorem outcome_state (c : Config) (me : Nat) (mess : Msg C) (rbMsg : Payload C) (slot : Slot C) :
    (slot.state = .sentReady → (outcome c me mess rbMsg slot).slot.state = .sentReady) ∧
    ((outcome c me mess rbMsg slot).slot.state = .sentReady → slot.state ≠ .sentReady →
      constructMessage me .ready rbMsg ∈ (outcome c me mess rbMsg slot).sends) := by
  unfold outcome
  cases mess.kind with
  | init =>
    simp only [initSlot]
    cases hs : slot.state <;> simp [Outcome.quiet, hs]
  | echo =>
    simp only [echoSlot]
    split_ifs
    · simp [Outcome.quiet]
    · simp [Outcome.quiet, Slot.countEcho]
    · exact ⟨fun _ => by rw [becomeReady_slot], fun _ h => becomeReady_sends me rbMsg h⟩
  | ready =>
    simp only [readySlot]
    split_ifs
    · simp [Outcome.quiet]
    · simp [Outcome.quiet, Slot.countReady]
    · exact ⟨fun _ => by rw [becomeReady_slot], fun _ h => becomeReady_sends me rbMsg h⟩
    · simp [Slot.countReady]

/-- What is sent echoes the payload of the slot, or says that the server is ready for it,
which it was not before. -/
theorem mem_outcome (h : msg ∈ (outcome c me mess rbMsg slot).sends) :
    msg = constructMessage me .echo rbMsg ∨
      msg = constructMessage me .ready rbMsg ∧ slot.state ≠ .sentReady ∧
        (outcome c me mess rbMsg slot).slot.state = .sentReady := by
  unfold outcome at h ⊢
  cases hk : mess.kind with
  | init =>
    simp only [hk, initSlot] at h
    cases hs : slot.state <;> simp [hs, Outcome.quiet] at h
    exact .inl h
  | echo =>
    simp only [hk, echoSlot] at h ⊢
    split_ifs at h ⊢ with h1 h2
    · simp [Outcome.quiet] at h
    · simp [Outcome.quiet] at h
    · obtain rfl | ⟨rfl, hs⟩ := mem_becomeReady h
      · exact .inl rfl
      · exact .inr ⟨rfl, hs, by rw [becomeReady_slot]⟩
  | ready =>
    simp only [hk, readySlot] at h ⊢
    split_ifs at h ⊢ with h1 h2 h3
    · simp [Outcome.quiet] at h
    · simp [Outcome.quiet] at h
    · obtain rfl | ⟨rfl, hs⟩ := mem_becomeReady h
      · exact .inl rfl
      · exact .inr ⟨rfl, hs, by rw [becomeReady_slot]⟩
    · simp at h

/-- A payload is handed on with the last Ready of a quorum, unless `f + 1` is one. -/
theorem outcome_delivers (c : Config) (me : Nat) (mess : Msg C) (rbMsg : Payload C) (slot : Slot C) :
    (outcome c me mess rbMsg slot).delivers = true ↔
      fresh mess slot ∧ slot.readyCount + 1 = c.quorum ∧ c.F + 1 < c.quorum := by
  unfold outcome fresh
  cases mess.kind with
  | init => simp only [initSlot]; cases slot.state <;> simp [Outcome.quiet]
  | echo => simp only [echoSlot]; split_ifs <;> simp [Outcome.quiet, becomeReady_delivers]
  | ready =>
    simp only [readySlot]
    split_ifs with h1 h2 h3
    · simp [Outcome.quiet, h1]
    · simp only [Slot.countReady] at h2
      simp only [Outcome.quiet, Bool.false_eq_true, true_and, false_iff]
      omega
    · simp only [Slot.countReady] at h3
      simp only [becomeReady_delivers, Bool.false_eq_true, true_and, false_iff]
      omega
    · simp only [Slot.countReady] at h2 h3
      simp only [Slot.countReady, true_and]
      constructor
      · intro hq
        have heq := of_decide_eq_true hq
        exact ⟨by simpa using h1, heq, by omega⟩
      · rintro ⟨-, hq, -⟩
        exact decide_eq_true hq

/-- With `f + 1` Readys a server joins in. -/
theorem outcome_joined (hf : fresh mess slot) (hc : slot.readyCount + 1 = c.F + 1) :
    (outcome c me mess rbMsg slot).slot.state = .sentReady := by
  obtain ⟨hk, hr⟩ := hf
  simp only [outcome, hk, readySlot, hr]
  simp [Slot.countReady, hc, becomeReady_slot]

theorem Slot.Counted.outcome (h : slot.Counted c) (hslot : slot.rbMsg = some rbMsg)
    (hsender : mess.machineId ∈ c.servers) : (outcome c me mess rbMsg slot).slot.Counted c := by
  have hheld : (Broadcast.outcome c me mess rbMsg slot).slot.rbMsg = none →
      (Broadcast.outcome c me mess rbMsg slot).slot.state = .init := by
    rw [outcome_rbMsg, hslot]
    intro hnone
    cases hnone
  have hready := outcome_ready c me mess rbMsg slot
  have hstate := (outcome_state c me mess rbMsg slot).1
  by_cases hf : fresh mess slot
  · obtain ⟨hrec, hcount⟩ := hready.1 hf
    refine ⟨?_, fun hjoin => ?_, hheld⟩
    · rw [hrec, hcount, h.count, tally_update (Finset.mem_Icc.mp hsender) hf.2]
    · by_cases hlt : c.F + 1 ≤ slot.readyCount
      · exact hstate (h.joined hlt)
      · exact outcome_joined hf (by omega)
  · obtain ⟨hrec, hcount⟩ := hready.2 hf
    refine ⟨by rw [hrec, hcount, h.count], fun hjoin => hstate (h.joined ?_), hheld⟩
    rwa [hcount] at hjoin

end Slots

/-! ## One server -/

namespace Node

variable (st : Node C)

/-- The first payload of a tag that a server processed. -/
def firstHeard (tag : RbTag) : Option (Payload C) :=
  ((st.processed.filter fun mess => decide (mess.payload.tag = tag)).getLast?).map (·.payload)

/-- A server processed a Ready of server `k` for payload `m`. -/
def HasReady (p : Params C D) (m : Payload C) (k : Nat) : Prop :=
  ∃ mess ∈ st.processed, mess.kind = .ready ∧ mess.machineId = k ∧ mess.payload.tag = m.tag ∧
    p.digest mess.payload = p.digest m

theorem firstHeard_record (mess : Msg C) (t : RbTag) :
    (st.record mess).firstHeard t =
      if mess.payload.tag = t then some ((st.firstHeard t).getD mess.payload) else st.firstHeard t := by
  unfold firstHeard record
  by_cases h : mess.payload.tag = t
  · simp only [List.filter_cons, h, decide_true, if_true, List.getLast?_cons, Option.map_some]
    cases (st.processed.filter fun mess => decide (mess.payload.tag = t)).getLast? <;> rfl
  · simp [h]

theorem mem_of_firstHeard {st : Node C} {t : RbTag} {m : Payload C} (h : st.firstHeard t = some m) :
    m.tag = t ∧ ∃ mess ∈ st.processed, mess.payload = m := by
  obtain ⟨mess, hmess, rfl⟩ := Option.map_eq_some_iff.mp h
  obtain ⟨hmem, htag⟩ := List.mem_filter.mp (List.mem_of_getLast? hmess)
  exact ⟨of_decide_eq_true htag, mess, hmem, rfl⟩

theorem hasReady_record {p : Params C D} (mess : Msg C) (m : Payload C) (k : Nat) :
    (st.record mess).HasReady p m k ↔
      (mess.kind = .ready ∧ mess.machineId = k ∧ mess.payload.tag = m.tag ∧
        p.digest mess.payload = p.digest m) ∨ st.HasReady p m k := by
  simp [HasReady, record]

@[simp] theorem apply_view (t : RbTag) (m : Payload C) (o : Outcome C) :
    (st.apply t m o).view = st.view := rfl

@[simp] theorem apply_processed (t : RbTag) (m : Payload C) (o : Outcome C) :
    (st.apply t m o).processed = st.processed := rfl

@[simp] theorem apply_broadcasts (t : RbTag) (m : Payload C) (o : Outcome C) :
    (st.apply t m o).broadcasts = st.broadcasts := rfl

@[simp] theorem slot_apply_self (t : RbTag) (m : Payload C) (o : Outcome C) :
    (st.apply t m o).slot t = o.slot := st.slot_setSlot_self t o.slot

theorem slot_apply_of_ne {t t' : RbTag} (hview : t'.view = t.view) (hne : t' ≠ t) (m : Payload C) (o : Outcome C) :
    (st.apply t m o).slot t' = st.slot t' := st.slot_setSlot_of_ne hview hne o.slot

theorem firstHeard_apply (t t' : RbTag) (m : Payload C) (o : Outcome C) :
    (st.apply t m o).firstHeard t' = st.firstHeard t' := rfl

/-- What the slots of a server hold, in terms of what it processed. -/
structure Heard (c : Config) (p : Params C D) : Prop where
  processed : ∀ mess ∈ st.processed, mess.payload.tag.view ≤ st.view ∧ mess.machineId ∈ c.servers
  stored : ∀ t, t.view = st.view → (st.slot t).rbMsg = st.firstHeard t
  counted : ∀ t, t.view = st.view → (st.slot t).Counted c
  received : ∀ t k, t.view = st.view →
    ((st.slot t).readyReceived k = true ↔ ∃ m, (st.slot t).rbMsg = some m ∧ st.HasReady p m k)

end Node

section Servers

variable {c : Config} {p : Params C D} {me : Nat} {st : Node C} {mess msg : Msg C}
  {rbMsg : Payload C} {slot slot' : Slot C}

theorem validated_sender (h : validated c p mess = true) : mess.machineId ∈ c.servers := by
  simp only [validated, Bool.and_eq_true, decide_eq_true_eq] at h
  exact h.1.1.1.1

theorem Slot.counted_new (c : Config) : (Slot.new : Slot C).Counted c := by
  refine ⟨?_, fun h => absurd h (by simp [Slot.new]), fun _ => rfl⟩
  rw [← card_accepted]
  symm
  simp [Slot.new, accepted]

/-- A payload that is not the slot's changes nothing of what the slots hold. -/
theorem Node.Heard.reject (h : st.Heard c p) (hsender : mess.machineId ∈ c.servers)
    (hview : mess.payload.tag.view = st.view)
    (hother : ∃ m, (st.slot mess.payload.tag).rbMsg = some m ∧ p.digest mess.payload ≠ p.digest m) :
    (st.record mess).Heard c p where
  processed m hm := by
    rcases List.mem_cons.mp hm with rfl | hm
    · exact ⟨le_of_eq hview, hsender⟩
    · exact h.processed m hm
  stored t ht := by
    rw [Node.record_slot, h.stored t ht, Node.firstHeard_record]
    split
    · rename_i heq
      obtain ⟨m, hm, -⟩ := hother
      rw [heq, h.stored t ht] at hm
      rw [hm]
      rfl
    · rfl
  counted t ht := h.counted t ht
  received t k ht := by
    rw [Node.record_slot, h.received t k ht]
    refine exists_congr fun m => and_congr_right fun hm => ?_
    rw [Node.hasReady_record]
    refine (or_iff_right ?_).symm
    rintro ⟨-, -, htag, hdig⟩
    obtain ⟨m', hm', hne⟩ := hother
    have hmt : m.tag = t := (Node.mem_of_firstHeard ((h.stored t ht).symm.trans hm)).1
    rw [htag, hmt, hm, Option.some.injEq] at hm'
    exact hne (hm' ▸ hdig)

theorem Node.Heard.enterView (h : st.Heard c p) {view : Nat} (hlt : st.view < view) :
    (st.enterView view).Heard c p := by
  have hnew : ∀ t, t.view = view → (st.enterView view).firstHeard t = none := by
    intro t ht
    refine Option.map_eq_none_iff.mpr (List.getLast?_eq_none_iff.mpr (List.filter_eq_nil_iff.mpr ?_))
    intro mess hm heq
    have hle := (h.processed mess hm).1
    rw [of_decide_eq_true heq] at hle
    omega
  refine ⟨fun mess hm => ?_, fun t ht => ?_, fun t ht => ?_, fun t k ht => ?_⟩
  · obtain ⟨hle, hs⟩ := h.processed mess hm
    exact ⟨hle.trans hlt.le, hs⟩
  · rw [hnew t ht]
    rfl
  · exact Slot.counted_new c
  · simp [Slot.new]

variable [DecidableEq D]

variable (me) in
/-- A message that the slot takes: the slot holds its payload, and counts it when it is
the first Ready of its sender. -/
theorem Node.Heard.apply (h : st.Heard c p) (hsender : mess.machineId ∈ c.servers)
    (hview : mess.payload.tag.view = st.view)
    (hh : (st.slot mess.payload.tag).hear p mess.payload = some (rbMsg, slot)) :
    ((st.record mess).apply mess.payload.tag rbMsg (outcome c me mess rbMsg slot)).Heard c p := by
  obtain ⟨hslot, hdig, hcase⟩ := hear_spec hh
  have hsame : slot.readyReceived = (st.slot mess.payload.tag).readyReceived ∧
      slot.Counted c := by
    have hcounted := h.counted _ hview
    obtain ⟨-, -, rfl⟩ | ⟨-, rfl⟩ := hcase
    · exact ⟨rfl, hcounted.count, hcounted.joined, fun hnone => nomatch hnone⟩
    · exact ⟨rfl, hcounted⟩
  have hfirst : (st.record mess).firstHeard mess.payload.tag = some rbMsg := by
    rw [Node.firstHeard_record, if_pos rfl, ← h.stored _ hview]
    obtain ⟨hnone, hm, -⟩ | ⟨hsome, -⟩ := hcase
    · rw [hnone, hm]
      rfl
    · rw [hsome]
      rfl
  have htag : rbMsg.tag = mess.payload.tag := (Node.mem_of_firstHeard hfirst).1
  refine ⟨fun m hm => ?_, fun t ht => ?_, fun t ht => ?_, fun t k ht => ?_⟩
  · rcases List.mem_cons.mp hm with rfl | hm
    · exact ⟨le_of_eq hview, hsender⟩
    · exact h.processed m hm
  · rw [Node.firstHeard_apply]
    by_cases heq : t = mess.payload.tag
    · subst heq
      rw [Node.slot_apply_self, outcome_rbMsg, hslot, hfirst]
    · rw [Node.slot_apply_of_ne _ (ht.trans hview.symm) heq, Node.record_slot, h.stored t ht,
        Node.firstHeard_record, if_neg (Ne.symm heq)]
  · by_cases heq : t = mess.payload.tag
    · subst heq
      rw [Node.slot_apply_self]
      exact hsame.2.outcome hslot hsender
    · rw [Node.slot_apply_of_ne _ (ht.trans hview.symm) heq]
      exact h.counted t ht
  · by_cases heq : t = mess.payload.tag
    · subst heq
      rw [Node.slot_apply_self, outcome_rbMsg, hslot]
      simp only [Option.some.injEq, exists_eq_left']
      change _ ↔ (st.record mess).HasReady p rbMsg k
      rw [Node.hasReady_record]
      have hold : slot.readyReceived k = true ↔ st.HasReady p rbMsg k := by
        rw [hsame.1, h.received _ k hview]
        obtain ⟨hnone, rfl, -⟩ | ⟨hsome, -⟩ := hcase
        · -- nothing was processed of a tag whose slot is empty
          rw [hnone]
          simp only [reduceCtorEq, false_and, exists_false, false_iff]
          rintro ⟨m, hm, -, -, ht', -⟩
          have hfm := h.stored _ hview
          rw [hnone] at hfm
          have hnil := Option.map_eq_none_iff.mp hfm.symm
          rw [List.getLast?_eq_none_iff, List.filter_eq_nil_iff] at hnil
          exact hnil m hm (decide_eq_true ht')
        · rw [hsome]
          simp
      by_cases hf : fresh mess slot
      · rw [((outcome_ready c me mess rbMsg slot).1 hf).1, ← hold]
        by_cases hk : k = mess.machineId
        · subst hk
          simp [hf.1, htag, hdig]
        · simp [hk, Ne.symm hk]
      · rw [((outcome_ready c me mess rbMsg slot).2 hf).1, ← hold]
        refine (or_iff_right_of_imp ?_).symm
        rintro ⟨hkind, rfl, -, -⟩
        by_contra hr
        exact hf ⟨hkind, by simpa using hr⟩
    · rw [Node.slot_apply_of_ne _ (ht.trans hview.symm) heq, Node.record_slot, h.received t k ht]
      refine exists_congr fun m => and_congr_right fun hm => ?_
      change _ ↔ (st.record mess).HasReady p m k
      rw [Node.hasReady_record]
      refine (or_iff_right ?_).symm
      rintro ⟨-, -, htag', -⟩
      have hmt : m.tag = t := (Node.mem_of_firstHeard ((h.stored t ht).symm.trans hm)).1
      exact heq (hmt.symm.trans htag'.symm)

theorem heard_handle (c : Config) (p : Params C D) (me : Nat) (st : Node C) (x : Input (Msg C) (Action C))
    (h : st.Heard c p) : (handle c p me st x).1.Heard c p := by
  cases x with
  | msg mess =>
    obtain heq | ⟨hv, hview, hother, heq⟩ | ⟨rbMsg, slot, hv, hview, hh, heq⟩ :=
      handle_msg_cases c p me st mess
    · rwa [heq]
    · rw [heq]
      exact h.reject (validated_sender hv) hview hother
    · rw [heq]
      exact h.apply me (validated_sender hv) hview hh
  | act a =>
    cases a with
    | enterView view =>
      simp only [handle, perform]
      split
      · rename_i hlt
        exact h.enterView hlt
      · exact h
    | broadcast type content => exact ⟨h.processed, h.stored, h.counted, h.received⟩

end Servers

/-! ## What is handed on -/

/-- What a server handed on: one payload of a tag, that of its slot, with the Readys of a
quorum. -/
structure Node.Handed (c : Config) (p : Params C D) (st : Node C) : Prop where
  once : ∀ t, st.delivered.countP (fun m => decide (m.tag = t)) ≤ 1
  view : ∀ m ∈ st.delivered, m.tag.view ≤ st.view
  heard : ∀ m ∈ st.delivered, ∃ mess ∈ st.processed, mess.payload = m
  backed : ∀ m ∈ st.delivered, AtLeast c.quorum fun k => k ∈ c.servers ∧ st.HasReady p m k
  current : ∀ t, t.view = st.view →
    ((∃ m ∈ st.delivered, m.tag = t) ↔ c.quorum ≤ (st.slot t).readyCount ∧ c.F + 1 < c.quorum)
  stored : ∀ m ∈ st.delivered, m.tag.view = st.view → (st.slot m.tag).rbMsg = some m

section Servers

variable {c : Config} {p : Params C D} {me : Nat} {st : Node C} {mess msg : Msg C}
  {rbMsg : Payload C} {slot slot' : Slot C}

/-- The Readys a slot counts are for its payload. -/
theorem Node.Heard.backed (h : st.Heard c p) {t : RbTag} {m : Payload C} (ht : t.view = st.view)
    (hm : (st.slot t).rbMsg = some m) :
    AtLeast (st.slot t).readyCount fun k => k ∈ c.servers ∧ st.HasReady p m k := by
  refine ⟨accepted c.numServers (st.slot t).readyReceived, ?_, fun k hk => ?_⟩
  · rw [card_accepted, (h.counted t ht).count]
  · obtain ⟨hmem, hr⟩ := mem_accepted.mp hk
    obtain ⟨m', hm', hready⟩ := (h.received t k ht).mp hr
    rw [hm, Option.some.injEq] at hm'
    exact ⟨Finset.mem_Icc.mpr hmem, hm' ▸ hready⟩

theorem Node.HasReady.record {m : Payload C} {k : Nat} (h : st.HasReady p m k) (mess : Msg C) :
    (st.record mess).HasReady p m k :=
  (st.hasReady_record mess m k).mpr (.inr h)

theorem Node.Handed.record (h : st.Handed c p) (mess : Msg C) : (st.record mess).Handed c p where
  once := h.once
  view := h.view
  heard m hm := by
    obtain ⟨mess', hmem, rfl⟩ := h.heard m hm
    exact ⟨mess', List.mem_cons_of_mem _ hmem, rfl⟩
  backed m hm := (h.backed m hm).mono fun _ hk => ⟨hk.1, hk.2.record mess⟩
  current := h.current
  stored := h.stored

theorem Node.Handed.enterView (h : st.Handed c p) {view : Nat} (hlt : st.view < view) (hq : 0 < c.quorum) :
    (st.enterView view).Handed c p where
  once := h.once
  view m hm := (h.view m hm).trans hlt.le
  heard := h.heard
  backed := h.backed
  current t ht := by
    change t.view = view at ht
    constructor
    · rintro ⟨m, hm, rfl⟩
      have hle := h.view m hm
      omega
    · rintro ⟨hle, -⟩
      change c.quorum ≤ 0 at hle
      omega
  stored m hm hview := by
    have hle := h.view m hm
    change m.tag.view = view at hview
    omega

theorem heard_start {views incarnations : Nat → Nat} {i : Nat} :
    ((start views incarnations : World (Node C) (Msg C)).node i).Heard c p where
  processed _ hm := (List.not_mem_nil hm).elim
  stored _ _ := rfl
  counted _ _ := Slot.counted_new c
  received t k _ := by simp [start, Node.slot, Slot.new]

theorem handed_start {views incarnations : Nat → Nat} {i : Nat} :
    ((start views incarnations : World (Node C) (Msg C)).node i).Handed c p where
  once _ := Nat.zero_le _
  view _ hm := (List.not_mem_nil hm).elim
  heard _ hm := (List.not_mem_nil hm).elim
  backed _ hm := (List.not_mem_nil hm).elim
  current t _ := by
    simp only [start, List.not_mem_nil, false_and, exists_false, Node.slot, Slot.new, false_iff]
    unfold Config.quorum
    omega
  stored _ hm := (List.not_mem_nil hm).elim

variable [DecidableEq D]

theorem Node.Handed.apply (h : st.Handed c p) (hst : st.Heard c p) (hsender : mess.machineId ∈ c.servers)
    (hview : mess.payload.tag.view = st.view)
    (hh : (st.slot mess.payload.tag).hear p mess.payload = some (rbMsg, slot)) :
    ((st.record mess).apply mess.payload.tag rbMsg (outcome c me mess rbMsg slot)).Handed c p := by
  have hafter := hst.apply me hsender hview hh
  obtain ⟨hslot, hdig, hcase⟩ := hear_spec hh
  have hcount : slot.readyCount = (st.slot mess.payload.tag).readyCount := by
    obtain ⟨-, -, rfl⟩ | ⟨-, rfl⟩ := hcase <;> rfl
  have hrb : ((((st.record mess).apply mess.payload.tag rbMsg (outcome c me mess rbMsg slot))).slot
      mess.payload.tag).rbMsg = some rbMsg := by
    rw [Node.slot_apply_self, outcome_rbMsg, hslot]
  have hheard := Node.mem_of_firstHeard ((hafter.stored _ hview).symm.trans hrb)
  have hdel := outcome_delivers c me mess rbMsg slot
  have hready := outcome_ready c me mess rbMsg slot
  have hrec := h.record mess
  -- the stored payload of the tag is the only one delivered
  have hold : ∀ m ∈ st.delivered, m.tag = mess.payload.tag → m = rbMsg := by
    intro m hm ht
    have hs := h.stored m hm (ht ▸ hview)
    rw [ht] at hs
    obtain ⟨hnone, -⟩ | ⟨hsome, -⟩ := hcase
    · rw [hnone] at hs
      cases hs
    · rw [hsome, Option.some.injEq] at hs
      exact hs.symm
  by_cases hd : (outcome c me mess rbMsg slot).delivers = true
  · obtain ⟨hf, hq, hlt⟩ := hdel.mp hd
    have hnew : (outcome c me mess rbMsg slot).slot.readyCount = c.quorum := by
      rw [(hready.1 hf).2, hq]
    have hnone : ¬ ∃ m ∈ st.delivered, m.tag = mess.payload.tag := by
      rw [h.current _ hview]
      omega
    have hlist : ((st.record mess).apply mess.payload.tag rbMsg (outcome c me mess rbMsg slot)).delivered =
        rbMsg :: st.delivered := by
      simp [Node.apply, hd, Node.record]
    refine ⟨fun t => ?_, fun m hm => ?_, fun m hm => ?_, fun m hm => ?_, fun t ht => ?_, fun m hm hv => ?_⟩
    · rw [hlist, List.countP_cons]
      by_cases ht : rbMsg.tag = t
      · have hzero : st.delivered.countP (fun m => decide (m.tag = t)) = 0 := by
          refine List.countP_eq_zero.mpr fun m hm hmt => hnone ⟨m, hm, ?_⟩
          rw [of_decide_eq_true hmt, ← ht, hheard.1]
        simp [hzero, ht]
      · simpa [ht] using h.once t
    · rw [hlist] at hm
      rcases List.mem_cons.mp hm with rfl | hm
      · exact le_of_eq (by rw [hheard.1]; exact hview)
      · exact h.view m hm
    · rw [hlist] at hm
      rcases List.mem_cons.mp hm with rfl | hm
      · exact hheard.2
      · exact hrec.heard m hm
    · rw [hlist] at hm
      rcases List.mem_cons.mp hm with rfl | hm
      · have hb := hafter.backed hview hrb
        rwa [Node.slot_apply_self, hnew] at hb
      · exact hrec.backed m hm
    · rw [hlist]
      by_cases heq : t = mess.payload.tag
      · subst heq
        rw [Node.slot_apply_self, hnew]
        exact iff_of_true ⟨rbMsg, List.mem_cons_self .., hheard.1⟩ ⟨le_refl _, hlt⟩
      · rw [Node.slot_apply_of_ne _ (ht.trans hview.symm) heq, Node.record_slot, ← h.current t ht]
        constructor
        · rintro ⟨m, hm, rfl⟩
          rcases List.mem_cons.mp hm with rfl | hm
          · exact absurd hheard.1 heq
          · exact ⟨m, hm, rfl⟩
        · rintro ⟨m, hm, rfl⟩
          exact ⟨m, List.mem_cons_of_mem _ hm, rfl⟩
    · rw [hlist] at hm
      by_cases heq : m.tag = mess.payload.tag
      · rw [heq, hrb]
        rcases List.mem_cons.mp hm with rfl | hm
        · rfl
        · rw [hold m hm heq]
      · rcases List.mem_cons.mp hm with rfl | hm
        · exact absurd hheard.1 heq
        · rw [Node.slot_apply_of_ne _ (hv.trans hview.symm) heq]
          exact h.stored m hm hv
  · have hlist : ((st.record mess).apply mess.payload.tag rbMsg (outcome c me mess rbMsg slot)).delivered =
        st.delivered := by
      simp [Node.apply, hd, Node.record]
    refine ⟨fun t => ?_, fun m hm => ?_, fun m hm => ?_, fun m hm => ?_, fun t ht => ?_, fun m hm hv => ?_⟩
    · rw [hlist]
      exact h.once t
    · exact h.view m (hlist ▸ hm)
    · exact hrec.heard m (hlist ▸ hm)
    · exact hrec.backed m (hlist ▸ hm)
    · rw [hlist]
      by_cases heq : t = mess.payload.tag
      · subst heq
        rw [Node.slot_apply_self, h.current _ hview, ← hcount]
        by_cases hf : fresh mess slot
        · rw [(hready.1 hf).2]
          have hnot : ¬ (slot.readyCount + 1 = c.quorum ∧ c.F + 1 < c.quorum) :=
            fun hq => hd (hdel.mpr ⟨hf, hq⟩)
          omega
        · rw [(hready.2 hf).2]
      · rw [Node.slot_apply_of_ne _ (ht.trans hview.symm) heq]
        exact h.current t ht
    · rw [hlist] at hm
      by_cases heq : m.tag = mess.payload.tag
      · rw [heq, hrb, hold m hm heq]
      · rw [Node.slot_apply_of_ne _ (hv.trans hview.symm) heq]
        exact h.stored m hm hv

theorem handed_handle (c : Config) (p : Params C D) (me : Nat) (st : Node C) (x : Input (Msg C) (Action C))
    (hst : st.Heard c p) (h : st.Handed c p) : (handle c p me st x).1.Handed c p := by
  cases x with
  | msg mess =>
    obtain heq | ⟨-, -, -, heq⟩ | ⟨rbMsg, slot, hv, hview, hh, heq⟩ := handle_msg_cases c p me st mess
    · rwa [heq]
    · rw [heq]
      exact h.record mess
    · rw [heq]
      exact h.apply hst (validated_sender hv) hview hh
  | act a =>
    cases a with
    | enterView view =>
      simp only [handle, perform]
      split
      · rename_i hlt
        exact h.enterView hlt (by unfold Config.quorum; omega)
      · exact h
    | broadcast type content => exact ⟨h.once, h.view, h.heard, h.backed, h.current, h.stored⟩

end Servers

end Spire.Broadcast
