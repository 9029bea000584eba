import Mathlib
import Spire.Fragmentation
import Spire.ReassemblySafety

/-!
# Messages arrive as they were forwarded

Packing keeps what was placed and what is still to be packed together (`packLoop_packing`), so
that the log of a sender is always the beginning of the packing of its messages. A receiver that
gets the packets of a message one after the other appends each to its working message
(`receive_packets`). At an incarnation change the packets are the segments of `Lib.Segments`:
what is left begins with a whole message, as the window is longer than the packets of any.
-/

namespace Spire.ItLink

open Lib (Segment Steps)

/-! ## Packing -/

section Packing

variable {c : Conf} {msg : Message} {total idx len n m : Nat} {rest bodies : List (List UInt8)}

/-- A packet gets the fragments from `idx` on, up to the number that is returned. -/
theorem packFragments_spec (c : Conf) (total : Nat) (rest : List (List UInt8)) (idx len : Nat) :
    idx ≤ (Outbound.packFragments c total rest idx len).2 ∧
      (Outbound.packFragments c total rest idx len).2 ≤ idx + rest.length ∧
      (Outbound.packFragments c total rest idx len).1 =
        fragments total idx (rest.take ((Outbound.packFragments c total rest idx len).2 - idx)) := by
  induction rest generalizing idx len with
  | nil => exact ⟨le_refl _, le_refl _, by simp [Outbound.packFragments, fragments]⟩
  | cons body rest ih =>
    unfold Outbound.packFragments
    split
    · obtain ⟨hlo, hhi, hfrags⟩ := ih (idx + 1) (len + body.length + fragmentHeaderSize)
      refine ⟨by dsimp only; omega, by rw [List.length_cons]; dsimp only; omega, ?_⟩
      dsimp only
      obtain ⟨k, hk⟩ := Nat.exists_eq_add_of_le hlo
      rw [hfrags, hk, show idx + 1 + k - (idx + 1) = k by omega, show idx + 1 + k - idx = k + 1 by omega]
      simp [fragments]
    · exact ⟨le_refl _, Nat.le_add_right _ _, by simp [fragments]⟩

/-- A packet gets a fragment at least. -/
theorem lt_packFragments (hfit : Fits c msg) (hpos : 1 ≤ idx) (hle : idx ≤ msg.elements.length) (total : Nat) :
    idx < (Outbound.packFragments c total (msg.elements.drop (idx - 1)) idx 0).2 := by
  have hlt : idx - 1 < msg.elements.length := by omega
  have hbody := hfit _ (List.getElem_mem hlt)
  rw [List.drop_eq_getElem_cons hlt]
  unfold Outbound.packFragments
  rw [if_pos (by omega)]
  exact (packFragments_spec c total _ (idx + 1) _).1

/-- Enough rounds are enough. -/
theorem packetsFrom_fuel (hfit : Fits c msg) (hpos : 1 ≤ idx) (hn : msg.elements.length < n + idx) (hm : msg.elements.length < m + idx)
    (hn0 : 0 < n) (hm0 : 0 < m) : packetsFrom c msg n idx = packetsFrom c msg m idx := by
  induction n generalizing m idx with
  | zero => exact absurd hn0 (lt_irrefl 0)
  | succ n ih =>
    obtain ⟨m, rfl⟩ := Nat.exists_eq_succ_of_ne_zero hm0.ne'
    unfold packetsFrom
    dsimp only
    split
    · rfl
    · rename_i hmore
      have hlt : idx < (Outbound.packFragments c msg.elements.length (msg.elements.drop (idx - 1)) idx 0).2 := by
        rcases Nat.lt_or_ge msg.elements.length idx with hgt | hle
        · have hlo := (packFragments_spec c msg.elements.length (msg.elements.drop (idx - 1)) idx 0).1
          omega
        · exact lt_packFragments hfit hpos hle _
      rw [ih (m := m) (by omega) (by omega) (by omega) (by omega) (by omega)]

/-- A round of the outer loop packs the first of the packets that are still to be made. -/
theorem packetsFrom_round (hfit : Fits c msg) (hpos : 1 ≤ idx) :
    packetsFrom c msg maxScatterElements idx =
      (Outbound.packFragments c msg.elements.length (msg.elements.drop (idx - 1)) idx 0).1 ::
        if msg.elements.length < (Outbound.packFragments c msg.elements.length (msg.elements.drop (idx - 1)) idx 0).2 then []
        else packetsFrom c msg maxScatterElements
          (Outbound.packFragments c msg.elements.length (msg.elements.drop (idx - 1)) idx 0).2 := by
  have hlt := msg.elements_lt
  have hmax : maxScatterElements = 100 := rfl
  have hlo := (packFragments_spec c msg.elements.length (msg.elements.drop (idx - 1)) idx 0).1
  have hrounds := packetsFrom_fuel (n := maxScatterElements) (m := 1 + maxScatterElements) hfit hpos (by omega) (by omega)
    (by omega) (by omega)
  rw [hrounds, Nat.add_comm]
  rfl

theorem length_packetsFrom_le (c : Conf) (msg : Message) (n idx : Nat) : (packetsFrom c msg n idx).length ≤ n := by
  induction n generalizing idx with
  | zero => exact le_refl _
  | succ n ih =>
    unfold packetsFrom
    dsimp only
    split
    · simp
    · simpa using ih _

theorem begins_fragments (total idx : Nat) (bodies : List (List UInt8)) :
    begins (fragments total idx bodies) = decide (bodies ≠ [] ∧ idx = 1) := by
  cases bodies with
  | nil => simp [begins, fragments]
  | cons body bodies => simp [begins, fragments]

/-- Only its first packet begins a message. -/
theorem not_begins_of_mem (hidx : 1 < idx) {pkt : Payload} (h : pkt ∈ packetsFrom c msg n idx) : begins pkt = false := by
  induction n generalizing idx with
  | zero => cases h
  | succ n ih =>
    obtain ⟨hlo, -, hfrags⟩ := packFragments_spec c msg.elements.length (msg.elements.drop (idx - 1)) idx 0
    unfold packetsFrom at h
    dsimp only at h
    rcases List.mem_cons.mp h with rfl | h
    · rw [hfrags, begins_fragments, decide_eq_false]
      omega
    · split at h
      · cases h
      · exact ih (hidx.trans_le hlo) h

theorem segment_packets (hfit : Fits c msg) (hne : msg.elements ≠ []) : Segment begins (packets c msg) := by
  have hlen : 1 ≤ msg.elements.length := List.length_pos_iff.mpr hne
  have hlt := lt_packFragments hfit (le_refl 1) hlen msg.elements.length
  obtain ⟨-, -, hfrags⟩ := packFragments_spec c msg.elements.length (msg.elements.drop (1 - 1)) 1 0
  unfold packets
  rw [packetsFrom_round hfit (le_refl 1)]
  refine ⟨?_, fun pkt hpkt => ?_⟩
  · rw [hfrags, begins_fragments, decide_eq_true_eq]
    refine ⟨fun hnil => ?_, rfl⟩
    rw [List.take_eq_nil_iff] at hnil
    rcases hnil with hzero | hnil
    · omega
    · exact hne hnil
  · split at hpkt
    · cases hpkt
    · exact not_begins_of_mem hlt hpkt

end Packing

/-! ## Receiving the packets of a message -/

section Receiving

variable {c : Conf} {msg : Message} {total idx k n : Nat} {bodies : List (List UInt8)}

theorem fragments_cons (total idx : Nat) (body : List UInt8) (bodies : List (List UInt8)) :
    fragments total idx (body :: bodies) = ⟨body, idx, total⟩ :: fragments total (idx + 1) bodies := by
  simp [fragments]

theorem fragments_append (total idx : Nat) (xs ys : List (List UInt8)) :
    fragments total idx (xs ++ ys) = fragments total idx xs ++ fragments total (idx + xs.length) ys := by
  simp [fragments, List.zipIdx_append]

@[simp] theorem length_fragments (total idx : Nat) (bodies : List (List UInt8)) :
    (fragments total idx bodies).length = bodies.length := by
  simp [fragments]

@[simp] theorem map_fragIdx_fragments (total idx : Nat) (bodies : List (List UInt8)) :
    (fragments total idx bodies).map Fragment.fragIdx = List.range' idx bodies.length := by
  induction bodies generalizing idx with
  | nil => rfl
  | cons body bodies ih => rw [fragments_cons, List.map_cons, ih, List.length_cons, List.range'_succ]

@[simp] theorem map_body_fragments (total idx : Nat) (bodies : List (List UInt8)) :
    (fragments total idx bodies).map Fragment.body = bodies := by
  induction bodies generalizing idx with
  | nil => rfl
  | cons body bodies ih => rw [fragments_cons, List.map_cons, ih]

theorem wellformed_fragments (hpos : 1 ≤ idx) (hne : bodies ≠ []) (hend : idx + bodies.length ≤ total + 1)
    (hlt : total ≤ maxScatterElements - 1) (hlen : ∀ body ∈ bodies, body.length < 2 ^ 16) :
    Wellformed total (fragments total idx bodies) := by
  induction bodies generalizing idx with
  | nil => exact absurd rfl hne
  | cons body bodies ih =>
    rw [List.length_cons] at hend
    have hnil : Wellformed total [] := .nil (by omega) hlt
    have hrest : Wellformed total (fragments total (idx + 1) bodies) := by
      cases bodies with
      | nil => exact hnil
      | cons body' bodies =>
        exact ih (by omega) (List.cons_ne_nil _ _) (by omega) fun b hb => hlen b (List.mem_cons_of_mem _ hb)
    rw [fragments_cons]
    exact
      { pos := hrest.pos
        lt := hlt
        totals := List.forall_mem_cons.mpr ⟨rfl, hrest.totals⟩
        numbered := List.forall_mem_cons.mpr ⟨⟨hpos, by dsimp only; omega⟩, hrest.numbered⟩
        lengths := List.forall_mem_cons.mpr ⟨hlen body List.mem_cons_self, hrest.lengths⟩
        consecutive := by
          refine List.isChain_cons.mpr ⟨fun f hf => .inl ?_, hrest.consecutive⟩
          cases bodies with
          | nil => cases hf
          | cons body' bodies =>
            rw [fragments_cons] at hf
            cases hf
            rfl }

/-- Fragments with consecutive numbers that go on with the working message are all appended. -/
theorem build_fragments (front : List UInt8) {st : Reassembly} (hwell : Wellformed total (fragments total idx bodies))
    (hne : bodies ≠ []) (hpos : 1 ≤ idx) (ht : st.total = total ∨ st.total = 0) (hidx : st.idx = idx) :
    buildMessage front st (bytesOf (fragments total idx bodies)) =
      ⟨if idx + bodies.length = total + 1 then 1 else 0, st.append total (fragments total idx bodies), true⟩ := by
  have hfrags : fragments total idx bodies ≠ [] := by
    intro hnil
    have hlen := length_fragments total idx bodies
    rw [hnil] at hlen
    exact hne (List.length_eq_zero_iff.mp hlen.symm)
  obtain ⟨first, run, hfirst, hrun, hprefix, -, hagain, hbuild⟩ := build_wellformed front hwell hfrags ht
  have hfirstIdx : first.fragIdx = idx := by
    obtain ⟨body, bodies, rfl⟩ := List.exists_cons_of_ne_nil hne
    rw [fragments_cons] at hfirst
    cases hfirst
    rfl
  -- behind the run the numbers would begin again
  have hall : run = fragments total idx bodies := by
    obtain ⟨tail, htail⟩ := hprefix
    cases tail with
    | nil => rwa [List.append_nil] at htail
    | cons f tail =>
      have hone : f.fragIdx = 1 := hagain f (by rw [← htail, List.drop_left]; rfl)
      have hnums := map_fragIdx_fragments total idx bodies
      rw [← htail, List.map_append, List.map_cons] at hnums
      have hget := congrArg (·[run.length]?) hnums
      have hlen := congrArg List.length hnums
      simp only [List.length_append, List.length_map, List.length_cons, List.length_range'] at hlen
      simp only [List.getElem?_append_right, List.length_map, le_refl, Nat.sub_self, List.getElem?_cons_zero] at hget
      rw [List.getElem?_range' (by omega), Option.some.injEq] at hget
      have hpos' := List.length_pos_iff.mpr hrun
      omega
  rw [hbuild, if_pos (hfirstIdx.trans hidx.symm), hall, length_fragments, hidx]

/-- The working message with the first `k` elements of a message. -/
def Reassembly.holding (msg : Message) (k : Nat) : Reassembly :=
  if k = 0 then .empty else ⟨some (fragments msg.elements.length 1 (msg.elements.take k)), false, k + 1, msg.elements.length⟩

theorem holding_idx (msg : Message) (k : Nat) : (Reassembly.holding msg k).idx = k + 1 := by
  unfold Reassembly.holding
  split
  · rename_i hzero
    rw [hzero]
    rfl
  · rfl

theorem holding_total (msg : Message) (k : Nat) :
    (Reassembly.holding msg k).total = msg.elements.length ∨ (Reassembly.holding msg k).total = 0 := by
  unfold Reassembly.holding
  split
  · exact .inr rfl
  · exact .inl rfl

/-- The next elements are appended. -/
theorem holding_append (msg : Message) {k m : Nat} (hle : k + m ≤ msg.elements.length) (hm : 0 < m) :
    (Reassembly.holding msg k).append msg.elements.length
        (fragments msg.elements.length (k + 1) ((msg.elements.drop k).take m)) = Reassembly.holding msg (k + m) := by
  have hscat : (Reassembly.holding msg k).scat.getD [] = fragments msg.elements.length 1 (msg.elements.take k) := by
    unfold Reassembly.holding
    split
    · rename_i hzero
      rw [hzero]
      rfl
    · rfl
  have hreleased : (Reassembly.holding msg k).released = false := by
    unfold Reassembly.holding
    split <;> rfl
  have hlen : (msg.elements.take k).length = k := List.length_take_of_le (by omega)
  have hnext : ((msg.elements.drop k).take m).length = m := List.length_take_of_le (by rw [List.length_drop]; omega)
  rw [Reassembly.append, hscat, holding_idx, hreleased, length_fragments, Reassembly.holding, if_neg (by omega),
    List.take_add, fragments_append, hlen, hnext, Nat.add_comm 1 k, Nat.add_right_comm]

/-- A receiver between two packets: its working message, and what it delivered. -/
structure At (r : Receiver) (st : Reassembly) (delivered : List (List Fragment)) : Prop where
  st : r.st = st
  delivered : r.delivered = delivered

theorem at_start : At .start .empty [] := ⟨rfl, rfl⟩

/-- A packet with the next elements of a message is taken, and completes the message if they are the last. -/
theorem step_fragments (front : List UInt8) {r : Receiver} {m : Nat} {done : List (List Fragment)} (hfit : Fits c msg)
    (hr : At r (.holding msg k) done) (hle : k + m ≤ msg.elements.length) (hm : 0 < m) :
    let a := Arrival.packet front (bytesOf (fragments msg.elements.length (k + 1) ((msg.elements.drop k).take m)))
    Takes r a ∧ At (r.step a) (if k + m = msg.elements.length then .empty else .holding msg (k + m))
      (if k + m = msg.elements.length then done ++ [fragments msg.elements.length 1 msg.elements] else done) := by
  have hnext : ((msg.elements.drop k).take m).length = m := List.length_take_of_le (by rw [List.length_drop]; omega)
  have hne : (msg.elements.drop k).take m ≠ [] := List.ne_nil_of_length_pos (hnext.symm ▸ hm)
  have hshort : ∀ body ∈ (msg.elements.drop k).take m, body.length < 2 ^ 16 := by
    intro body hbody
    have hbody := hfit body (List.mem_of_mem_drop (List.mem_of_mem_take hbody))
    have hsize : maxPacketSize < 2 ^ 16 := by decide
    omega
  have hwell : Wellformed msg.elements.length (fragments msg.elements.length (k + 1) ((msg.elements.drop k).take m)) :=
    wellformed_fragments (Nat.le_add_left 1 k) hne (by omega) (Nat.le_sub_one_of_lt msg.elements_lt) hshort
  have hbuild := build_fragments front hwell hne (Nat.le_add_left 1 k) (holding_total msg k) (holding_idx msg k)
  rw [holding_append msg hle hm, hnext, ← hr.st] at hbuild
  have hlast : k + 1 + m = msg.elements.length + 1 ↔ k + m = msg.elements.length := by omega
  dsimp only
  simp only [Takes, Receiver.step, hbuild, hlast]
  by_cases hend : k + m = msg.elements.length
  · have hwhole : (Reassembly.holding msg msg.elements.length).scat.getD [] =
        fragments msg.elements.length 1 msg.elements := by
      unfold Reassembly.holding
      rw [if_neg (by omega), List.take_length]
      rfl
    simp only [if_pos hend]
    refine ⟨by decide, rfl, ?_⟩
    simp only [if_true]
    rw [hr.delivered, hend, hwhole]
  · simp only [if_neg hend]
    exact ⟨le_refl _, rfl, hr.delivered⟩

/-- The same for a packet as it is packed. A message without elements has one packet, without data. -/
theorem step_packet (front : List UInt8) {r : Receiver} {done : List (List Fragment)} (hfit : Fits c msg)
    (hr : At r (.holding msg k) done) (hk : k < msg.elements.length ∨ k = 0) :
    let p := Outbound.packFragments c msg.elements.length (msg.elements.drop k) (k + 1) 0
    Takes r (.packet front (bytesOf p.1)) ∧
      At (r.step (.packet front (bytesOf p.1))) (if msg.elements.length < p.2 then .empty else .holding msg (p.2 - 1))
        (if msg.elements.length < p.2 then done ++ [fragments msg.elements.length 1 msg.elements] else done) := by
  obtain ⟨hlo, hhi, hfrags⟩ := packFragments_spec c msg.elements.length (msg.elements.drop k) (k + 1) 0
  rcases Nat.lt_or_ge k msg.elements.length with hlt | hge
  · have hpacked := lt_packFragments hfit (Nat.le_add_left 1 k) hlt msg.elements.length
    rw [Nat.add_sub_cancel] at hpacked
    rw [List.length_drop] at hhi
    obtain ⟨m, hm⟩ := Nat.exists_eq_add_of_le hlo
    have hstep := step_fragments front (m := m) hfit hr (by omega) (by omega)
    have hlast : msg.elements.length < k + 1 + m ↔ k + m = msg.elements.length := by omega
    dsimp only at hstep ⊢
    simp only [hfrags, hm, Nat.add_sub_cancel_left, hlast]
    rwa [show k + 1 + m - 1 = k + m by omega]
  · have hzero : k = 0 := hk.resolve_left (not_lt.mpr hge)
    subst hzero
    have hnil : msg.elements = [] := List.length_eq_zero_iff.mp (Nat.le_zero.mp hge)
    have hst : r.st = .empty := hr.st
    simp only [hnil, List.drop_nil, Outbound.packFragments, List.length_nil]
    rw [if_pos (by decide), if_pos (by decide)]
    simp only [Takes, Receiver.step, bytesOf, List.flatMap_nil, build_empty, hst]
    refine ⟨by decide, rfl, ?_⟩
    rw [← hr.delivered]
    rfl

/-- **The packets of a message**, from some fragment on, are taken and complete it, and none but the last of them does. -/
theorem receive_packetsFrom (front : Entry → List UInt8) (hfit : Fits c msg) (n : Nat) {r : Receiver} {done : List (List Fragment)}
    {xs : List Entry} (hr : At r (.holding msg k) done) (hk : k < msg.elements.length ∨ k = 0)
    (hn : msg.elements.length ≤ n + k) (hn0 : 0 < n) (hxs : xs.map Entry.pkt = packetsFrom c msg n (k + 1)) :
    Steps Receiver.step Takes r (arrivals front xs) ∧
      At ((arrivals front xs).foldl Receiver.step r) .empty (done ++ [fragments msg.elements.length 1 msg.elements]) ∧
      ∀ i < xs.length, ((arrivals front (xs.take i)).foldl Receiver.step r).delivered = done := by
  induction n generalizing k r xs with
  | zero => exact absurd hn0 (lt_irrefl 0)
  | succ n ih =>
    unfold packetsFrom at hxs
    rw [Nat.add_sub_cancel] at hxs
    obtain ⟨x, xs, rfl, hx, hrest⟩ := List.map_eq_cons_iff.mp hxs
    have hstep := step_packet (front x) hfit hr hk
    have hlo := (packFragments_spec c msg.elements.length (msg.elements.drop k) (k + 1) 0).1
    dsimp only at hstep hrest
    rw [← hx] at hstep
    obtain ⟨htakes, hat⟩ := hstep
    by_cases hend : msg.elements.length < (Outbound.packFragments c msg.elements.length (msg.elements.drop k) (k + 1) 0).2
    · rw [if_pos hend] at hrest
      obtain rfl := List.map_eq_nil_iff.mp hrest
      rw [if_pos hend, if_pos hend] at hat
      refine ⟨⟨htakes, trivial⟩, hat, fun i hi => ?_⟩
      obtain rfl : i = 0 := Nat.lt_one_iff.mp hi
      exact hr.delivered
    · rw [if_neg hend] at hrest
      rw [if_neg hend, if_neg hend] at hat
      have hpos : 0 < (Outbound.packFragments c msg.elements.length (msg.elements.drop k) (k + 1) 0).2 := by omega
      rw [← Nat.sub_add_cancel hpos] at hrest
      have hgrows : k < (Outbound.packFragments c msg.elements.length (msg.elements.drop k) (k + 1) 0).2 - 1 := by
        have hlt := lt_packFragments hfit (Nat.le_add_left 1 k) (by omega) msg.elements.length
        rw [Nat.add_sub_cancel] at hlt
        omega
      obtain ⟨hsteps, hwhole, hpart⟩ := ih hat (.inl (by omega)) (by omega) (by omega) hrest
      refine ⟨⟨htakes, hsteps⟩, hwhole, fun i hi => ?_⟩
      cases i with
      | zero => exact hr.delivered
      | succ i => exact hpart i (Nat.lt_of_succ_lt_succ hi)

theorem arrivals_append (front : Entry → List UInt8) (xs ys : List Entry) :
    arrivals front (xs ++ ys) = arrivals front xs ++ arrivals front ys := List.map_append

/-- The packets of some messages are taken and complete them one after the other. -/
theorem receive_packets (front : Entry → List UInt8) {msgs : List Message} (hfit : ∀ msg ∈ msgs, Fits c msg) {r : Receiver}
    {done : List (List Fragment)} {xs : List Entry} (hr : At r .empty done) (hxs : xs.map Entry.pkt = msgs.flatMap (packets c)) :
    Steps Receiver.step Takes r (arrivals front xs) ∧
      At ((arrivals front xs).foldl Receiver.step r) .empty
        (done ++ msgs.map fun msg => fragments msg.elements.length 1 msg.elements) := by
  induction msgs generalizing r done xs with
  | nil =>
    obtain rfl := List.map_eq_nil_iff.mp hxs
    exact ⟨trivial, by simpa [arrivals] using hr⟩
  | cons msg msgs ih =>
    rw [List.flatMap_cons] at hxs
    obtain ⟨ys, zs, rfl, hys, hzs⟩ := List.map_eq_append_iff.mp hxs
    have hlt := msg.elements_lt
    obtain ⟨hfirst, hwhole, -⟩ := receive_packetsFrom front (hfit msg List.mem_cons_self) maxScatterElements (k := 0) hr
      (.inr rfl) (by omega) (by decide) hys
    obtain ⟨hrest, hall⟩ := ih (fun m hm => hfit m (List.mem_cons_of_mem _ hm)) hwhole hzs
    rw [arrivals_append, Lib.steps_append, List.foldl_append]
    refine ⟨⟨hfirst, hrest⟩, ?_⟩
    rw [List.map_cons, List.append_cons]
    exact hall

/-- With some packets of one more message, but not all, they are taken and complete no more. -/
theorem receive_part (front : Entry → List UInt8) {msgs : List Message} (hfit : ∀ m ∈ msgs, Fits c m) (hmsg : Fits c msg)
    {xs : List Entry} {pre post : List Payload} (hxs : xs.map Entry.pkt = msgs.flatMap (packets c) ++ pre)
    (hpackets : packets c msg = pre ++ post) (hpost : post ≠ []) :
    Steps Receiver.step Takes .start (arrivals front xs) ∧ (receive front xs).messages = msgs.map Message.elements := by
  obtain ⟨ys, zs, rfl, hys, hzs⟩ := List.map_eq_append_iff.mp hxs
  obtain ⟨hbefore, hat⟩ := receive_packets front hfit at_start hys
  have hlt := msg.elements_lt
  have hall : (zs ++ post.map fun pkt => (⟨0, pkt, 0⟩ : Entry)).map Entry.pkt = packetsFrom c msg maxScatterElements (0 + 1) := by
    rw [List.map_append, hzs, List.map_map]
    exact (congrArg (pre ++ ·) (List.map_id post)).trans hpackets.symm
  obtain ⟨hsteps, -, hpart⟩ := receive_packetsFrom front hmsg maxScatterElements (k := 0) hat (.inr rfl) (by omega) (by decide) hall
  have hpos := List.length_pos_iff.mpr hpost
  have hzero := hpart zs.length (by rw [List.length_append, List.length_map]; omega)
  rw [List.take_left] at hzero
  rw [arrivals_append, Lib.steps_append] at hsteps
  rw [receive, arrivals_append, Lib.steps_append, List.foldl_append]
  refine ⟨⟨hbefore, hsteps.1⟩, ?_⟩
  rw [Receiver.messages, hzero, List.nil_append, List.map_map]
  exact List.map_congr_left fun m _ => map_body_fragments _ _ _

theorem receive_whole (front : Entry → List UInt8) {msgs : List Message} (hfit : ∀ m ∈ msgs, Fits c m) {xs : List Entry}
    (hxs : xs.map Entry.pkt = msgs.flatMap (packets c)) :
    Steps Receiver.step Takes .start (arrivals front xs) ∧ (receive front xs).messages = msgs.map Message.elements := by
  obtain ⟨hsteps, hat⟩ := receive_packets front hfit at_start hxs
  refine ⟨hsteps, ?_⟩
  rw [receive, Receiver.messages, hat.delivered, List.nil_append, List.map_map]
  exact List.map_congr_left fun m _ => map_body_fragments _ _ _

end Receiving

/-! ## The sender -/

namespace Outbound

variable {c : Conf} {io : Io} {o o' : Outbound} {msg : Message} {n : Nat}

/-- Where a message stands that is not packed to its end. -/
structure Unpacks (c : Conf) (o : Outbound) (msg : Message) : Prop where
  fits : Fits c msg
  idx : 1 ≤ o.outFragIdx
  total : o.outFragTotal = msg.elements.length
  rest : packetsFrom c msg maxScatterElements o.outFragIdx <:+ packets c msg

theorem unpacked_of_some (hmsg : o.outMessage = some msg) : o.unpacked c = packetsFrom c msg maxScatterElements o.outFragIdx := by
  rw [unpacked, hmsg]

theorem unpacked_of_none (hmsg : o.outMessage = none) : o.unpacked c = [] := by
  rw [unpacked, hmsg]

theorem unpacked_ne_nil (hmsg : o.outMessage = some msg) : o.unpacked c ≠ [] := by
  rw [unpacked_of_some hmsg]
  exact List.cons_ne_nil _ _

/-- A round takes the first packet of those that are still to be made. -/
theorem packRound_packing (io : Io) (hmsg : o.outMessage = some msg) (h : Unpacks c o msg) :
    (o.packRound c io msg).placed.map Entry.pkt ++ (o.packRound c io msg).unpacked c = o.placed.map Entry.pkt ++ o.unpacked c ∧
      ∀ m ∈ (o.packRound c io msg).outMessage, m = msg ∧ Unpacks c (o.packRound c io msg) msg := by
  have hround := packetsFrom_round h.fits h.idx
  have hlo := (packFragments_spec c msg.elements.length (msg.elements.drop (o.outFragIdx - 1)) o.outFragIdx 0).1
  have hidx := h.idx
  rw [unpacked_of_some hmsg, hround]
  by_cases hend : msg.elements.length <
      (packFragments c msg.elements.length (msg.elements.drop (o.outFragIdx - 1)) o.outFragIdx 0).2
  · have hnone : (o.packRound c io msg).outMessage = none := by
      simp only [packRound, h.total, if_pos hend]
    rw [if_pos hend, unpacked_of_none hnone, hnone]
    refine ⟨?_, fun m hm => by cases hm⟩
    simp only [packRound, place, h.total, List.map_append, List.map_cons, List.map_nil, List.append_nil]
  · have hsome : (o.packRound c io msg).outMessage = some msg := by
      simp only [packRound, h.total, if_neg hend]
    rw [if_neg hend] at hround ⊢
    rw [unpacked_of_some hsome]
    have hnext : (o.packRound c io msg).outFragIdx =
        (packFragments c msg.elements.length (msg.elements.drop (o.outFragIdx - 1)) o.outFragIdx 0).2 := by
      simp only [packRound, h.total]
    refine ⟨?_, fun m hm => ⟨Option.some.inj (hm.symm.trans hsome), h.fits, hnext ▸ hidx.trans hlo, h.total, ?_⟩⟩
    · rw [hnext]
      simp only [packRound, place, h.total, List.map_append, List.map_cons, List.map_nil, List.append_assoc,
        List.singleton_append]
    · rw [hnext]
      exact (List.suffix_cons _ _).trans (hround ▸ h.rest)

/-- **Packing** keeps what was placed and what is still to be packed together. -/
theorem packLoop_packing (io : Io) (n : Nat) (h : ∀ msg ∈ o.outMessage, Unpacks c o msg) :
    (o.packLoop c io n).placed.map Entry.pkt ++ (o.packLoop c io n).unpacked c = o.placed.map Entry.pkt ++ o.unpacked c ∧
      ∀ msg ∈ (o.packLoop c io n).outMessage, msg ∈ o.outMessage ∧ Unpacks c (o.packLoop c io n) msg := by
  induction n generalizing o with
  | zero => exact ⟨rfl, fun msg hmsg => ⟨hmsg, h msg hmsg⟩⟩
  | succ n ih =>
    unfold packLoop
    split
    · exact ⟨rfl, fun msg hmsg => ⟨hmsg, h msg hmsg⟩⟩
    · rename_i msg hmsg
      split
      · obtain ⟨hround, hnext⟩ := packRound_packing io hmsg (h msg hmsg)
        obtain ⟨hloop, hrest⟩ := ih fun m hm => by
          obtain ⟨rfl, hu⟩ := hnext m hm
          exact hu
        refine ⟨hloop.trans hround, fun m hm => ?_⟩
        obtain ⟨hin, hu⟩ := hrest m hm
        rw [(hnext m hin).1] at hu ⊢
        exact ⟨hmsg, hu⟩
      · exact ⟨rfl, fun m hm => ⟨hm, h m hm⟩⟩

/-- A release concerns the cells and the tail. -/
theorem release_eq (n : Nat) (o : Outbound) : ∃ f, o.release n = { o with outgoing := f, outTailSeq := o.outTailSeq + n } := by
  induction n generalizing o with
  | zero => exact ⟨o.outgoing, rfl⟩
  | succ n ih =>
    obtain ⟨f, hf⟩ := ih o.releaseTail
    refine ⟨f, hf.trans ?_⟩
    simp only [releaseTail, Nat.add_assoc, Nat.add_comm 1]

theorem Window.raiseBy (h : o.Window) (hle : o.tcpHeadSeq + n ≤ o.outHeadSeq) : (o.raiseBy n).Window :=
  { h with
    tail_le := h.tail_le.trans (Nat.le_add_right _ _)
    tcp_le := hle }

/-- What is in the window. -/
theorem filterMap_window (h : o.Window) :
    ((List.range' o.outTailSeq (o.outHeadSeq - o.outTailSeq)).filterMap fun seq => (o.outgoing (slot seq)).pkt) =
      (o.placed.drop (o.outTailSeq - 1)).map Entry.pkt := by
  have hhead := h.head
  have hpos := h.pos
  have hcells : (List.range' o.outTailSeq (o.outHeadSeq - o.outTailSeq)).map (fun seq => (o.outgoing (slot seq)).pkt) =
      (o.placed.drop (o.outTailSeq - 1)).map (some ∘ Entry.pkt) := by
    refine List.ext_getElem (by simp; omega) fun i hi _ => ?_
    rw [List.length_map, List.length_range'] at hi
    rw [List.getElem_map, List.getElem_map, List.getElem_range', List.getElem_drop, Nat.one_mul]
    obtain ⟨x, hx, hpkt⟩ := h.cells (o.outTailSeq + i) (by omega) (by omega)
    rw [entry, show o.outTailSeq + i - 1 = o.outTailSeq - 1 + i by omega, List.getElem?_eq_getElem (by omega)] at hx
    exact hpkt.trans (congrArg (some ∘ Entry.pkt) (Option.some.inj hx).symm)
  have hfilter := congrArg (List.filterMap id) hcells
  rw [List.filterMap_map, List.filterMap_map] at hfilter
  exact hfilter.trans (congrFun (List.filterMap_eq_map (f := Entry.pkt)) _)

theorem kept_eq (h : o.Window) :
    o.kept = ((o.placed.drop (o.outTailSeq - 1)).map Entry.pkt).dropWhile fun pkt => !begins pkt := by
  rw [kept, filterMap_window h]
  congr 1
  funext pkt
  simp only [begins, ne_eq, decide_not]

/-- Packets that are placed again leave the message as it is. -/
theorem foldl_place (io : Io) (pkts : List Payload) (o : Outbound) :
    let o' := pkts.foldl (fun o pkt => o.place pkt (nonce io o.outHeadSeq)) o
    o'.placed.map Entry.pkt = o.placed.map Entry.pkt ++ pkts ∧ o'.outMessage = o.outMessage ∧
      o'.outFragIdx = o.outFragIdx ∧ o'.outFragTotal = o.outFragTotal := by
  induction pkts generalizing o with
  | nil => exact ⟨(List.append_nil _).symm, rfl, rfl, rfl⟩
  | cons pkt pkts ih =>
    obtain ⟨hplaced, hmsg, hidx, htotal⟩ := ih (o.place pkt (nonce io o.outHeadSeq))
    refine ⟨hplaced.trans ?_, hmsg, hidx, htotal⟩
    simp [place]

end Outbound

/-- The log and the message that is not packed to its end go together with the messages of the sender. -/
structure Packing (c : Conf) (o : Outbound) (msgs : List Message) : Prop where
  window : o.Window
  unpacks : ∀ msg ∈ o.outMessage, o.Unpacks c msg ∧ ∃ before, msgs = before ++ [msg]
  packing : o.placed.map Entry.pkt ++ o.unpacked c = msgs.flatMap (packets c)
  fits : ∀ msg ∈ msgs, Fits c msg

/-- And only a full window interrupts. -/
structure Packed (c : Conf) (o : Outbound) (msgs : List Message) : Prop extends Packing c o msgs where
  full : o.outMessage = none ∨ maxSendOnLink ≤ o.outHeadSeq - o.outTailSeq

section Steps

variable {c : Conf} {io : Io} {o o' : Outbound} {msgs : List Message} {msg : Message} {s : Sender} {n k : Nat}

theorem Packing.same (h : Packing c o msgs) (hwin : o'.Window) (hplaced : o'.placed = o.placed) (hmsg : o'.outMessage = o.outMessage)
    (hidx : o'.outFragIdx = o.outFragIdx) (htotal : o'.outFragTotal = o.outFragTotal) : Packing c o' msgs where
  window := hwin
  unpacks m hm := by
    obtain ⟨hu, hlast⟩ := h.unpacks m (hmsg ▸ hm)
    exact ⟨⟨hu.fits, hidx ▸ hu.idx, htotal.trans hu.total, hidx ▸ hu.rest⟩, hlast⟩
  packing := by
    rw [← h.packing, hplaced, Outbound.unpacked, Outbound.unpacked, hmsg, hidx]
  fits := h.fits

/-- Packing goes on until the window is full. -/
theorem Packing.pack (h : Packing c o msgs) (io : Io) : Packed c (o.packLoop c io maxSendOnLink) msgs where
  window := (Outbound.advances_loop h.window _).window
  unpacks m hm := by
    obtain ⟨hin, hu⟩ := (Outbound.packLoop_packing io maxSendOnLink fun m hm => (h.unpacks m hm).1).2 m hm
    exact ⟨hu, (h.unpacks m hin).2⟩
  packing := (Outbound.packLoop_packing io maxSendOnLink fun m hm => (h.unpacks m hm).1).1.trans h.packing
  fits := h.fits
  full := Outbound.packLoop_done h.window (Nat.le_add_right _ _)

theorem packed_start (c : Conf) : Packed c .created [] where
  window := (Outbound.window_restart (o := .created) rfl).same rfl rfl rfl rfl rfl rfl fun _ => rfl
  unpacks m hm := by cases hm
  packing := rfl
  fits m hm := by cases hm
  full := .inl rfl

/-- A message is taken when the one before it is packed to its end. -/
theorem Packed.forward (h : Packed c o msgs) (hmsg : o.outMessage = none) (hfit : Fits c msg) (io : Io) :
    Packed c ((LinkEnd.accept o msg).packLoop c io maxSendOnLink) (msgs ++ [msg]) := by
  have haccept : Packing c (LinkEnd.accept o msg) (msgs ++ [msg]) :=
    { window := (Outbound.advances_message h.window (some msg) 1 msg.elements.length).window
      unpacks := fun m hm => by
        cases hm
        exact ⟨⟨hfit, le_refl 1, rfl, List.suffix_refl _⟩, msgs, rfl⟩
      packing := by
        have hplaced := h.packing
        rw [Outbound.unpacked_of_none hmsg, List.append_nil] at hplaced
        rw [List.flatMap_append, ← hplaced, List.flatMap_singleton]
        rfl
      fits := fun m hm => by
        rcases List.mem_append.mp hm with hm | hm
        · exact h.fits m hm
        · rwa [List.mem_singleton.mp hm] }
  exact haccept.pack io

theorem Packed.acknowledge (h : Packed c o msgs) (hn : o.outTailSeq + n ≤ o.tcpHeadSeq) (hk : k ≤ o.outHeadSeq - o.tcpHeadSeq)
    (io : Io) : Packed c (((o.release n).raiseBy k).packLoop c io maxSendOnLink) msgs := by
  have hwin := h.window.release hn
  have htcp := h.window.tcp_le
  obtain ⟨f, hf⟩ := Outbound.release_eq n o
  rw [hf] at hwin ⊢
  exact (h.toPacking.same (hwin.raiseBy (by dsimp only; omega)) rfl rfl rfl rfl).pack io

theorem Packed.send (h : Packed c o msgs) (hlt : o.tcpHeadSeq < o.outHeadSeq) : Packed c o.raise msgs where
  toPacking := h.toPacking.same (h.window.raise hlt) rfl rfl rfl rfl
  full := h.full

theorem Packed.setCell (h : Packed c o msgs) {seq : Nat} {cell : BufferCell} (hcell : cell.pkt = (o.outgoing (slot seq)).pkt) :
    Packed c (o.setCell seq cell) msgs where
  toPacking := h.toPacking.same (h.window.setCell hcell) rfl rfl rfl rfl
  full := h.full

/-! ### An incarnation change -/

/-- The messages that an incarnation change leaves. -/
def left (o : Outbound) (msgs : List Message) : List Message := msgs.drop ((o.acked.map Entry.pkt).countP begins)

theorem Packed.acked_eq (h : Packed c o msgs) :
    o.acked.map Entry.pkt = ((msgs.map (packets c)).flatten.take (o.outTailSeq - 1)) := by
  have hhead := h.window.head
  have htail := h.window.tail_le.trans h.window.tcp_le
  rw [← List.flatMap_def, ← h.packing, List.take_append_of_le_length (by rw [List.length_map]; omega), ← List.map_take]
  rfl

theorem Packed.segments (h : Packed c o msgs) (hdata : ∀ msg ∈ msgs, msg.elements ≠ []) :
    ∀ g ∈ msgs.map (packets c), Segment begins g := by
  intro g hg
  obtain ⟨m, hm, rfl⟩ := List.mem_map.mp hg
  exact segment_packets (h.fits m hm) (hdata m hm)

/-- **The window is long enough.** What is kept of it and what is still to be packed are the packets of the messages that are
left. -/
theorem Packed.kept (h : Packed c o msgs) (hdata : ∀ msg ∈ msgs, msg.elements ≠ []) :
    o.kept ++ o.unpacked c = (left o msgs).flatMap (packets c) := by
  have hsegs := h.segments hdata
  have hpos := h.window.pos
  have hhead := h.window.head
  have htail := h.window.tail_le.trans h.window.tcp_le
  have hdrop := Lib.dropWhile_drop_flatten hsegs (o.outTailSeq - 1)
  have hall : (msgs.map (packets c)).flatten = o.placed.map Entry.pkt ++ o.unpacked c := by
    rw [← List.flatMap_def, h.packing]
  have hleft : (left o msgs).flatMap (packets c) =
      ((msgs.map (packets c)).drop ((o.acked.map Entry.pkt).countP begins)).flatten := by
    rw [← List.map_drop, ← List.flatMap_def, left]
  rw [← h.acked_eq] at hdrop
  rw [hleft, ← hdrop, hall, List.drop_append_of_le_length (by rw [List.length_map]; omega), ← List.map_drop,
    Outbound.kept_eq h.window]
  cases hmsg : o.outMessage with
  | none => rw [Outbound.unpacked_of_none hmsg, List.append_nil, List.append_nil]
  | some msg =>
    have hfull : maxSendOnLink ≤ o.outHeadSeq - o.outTailSeq := h.full.resolve_left (by rw [hmsg]; exact Option.some_ne_none msg)
    have hlen : ∀ g ∈ msgs.map (packets c), g.length ≤ maxSendOnLink := by
      intro g hg
      obtain ⟨m, -, rfl⟩ := List.mem_map.mp hg
      exact (length_packetsFrom_le c m maxScatterElements 1).trans (by decide)
    have hsplit : (msgs.map (packets c)).flatten = (o.placed.take (o.outTailSeq - 1)).map Entry.pkt ++
        ((o.placed.drop (o.outTailSeq - 1)).map Entry.pkt ++ o.unpacked c) := by
      rw [hall, ← List.append_assoc, ← List.map_append, List.take_append_drop]
    obtain ⟨pkt, hpkt, hbegins⟩ := Lib.exists_marked hsegs hlen hsplit
      (by rw [List.length_map, List.length_drop]; omega) (by decide)
    rw [List.dropWhile_append, if_neg]
    rw [List.isEmpty_iff, List.dropWhile_eq_nil_iff]
    intro hnone
    have hnot := hnone pkt hpkt
    rw [hbegins] at hnot
    cases hnot

theorem Packed.reintroduce (h : Packed c o msgs) (hdata : ∀ msg ∈ msgs, msg.elements ≠ []) (i : Inbound) (io : Io) :
    Packed c (((o.resetDigests i).reintroduce io).packLoop c io maxSendOnLink) (left o msgs) := by
  have hkept := h.kept hdata
  have hzero : (o.resetDigests i).outNonceDigest 0 = 0 := by
    simp only [Outbound.resetDigests, Function.update_self]
  obtain ⟨hwin, -⟩ := Outbound.window_reintroduce io hzero h.window.head_le
  obtain ⟨hplaced, hmsg, hidx, htotal⟩ := Outbound.foldl_place io o.kept (o.resetDigests i).restart
  have hunpacked : ((o.resetDigests i).reintroduce io).unpacked c = o.unpacked c := by
    have hmessage : ((o.resetDigests i).reintroduce io).outMessage = o.outMessage := hmsg
    have hfrag : ((o.resetDigests i).reintroduce io).outFragIdx = o.outFragIdx := hidx
    rw [Outbound.unpacked, Outbound.unpacked, hmessage, hfrag]
  have hchange : Packing c ((o.resetDigests i).reintroduce io) (left o msgs) :=
    { window := hwin
      unpacks := fun m hm => by
        have hm' : o.outMessage = some m := hmsg.symm.trans hm
        obtain ⟨hu, before, hbefore⟩ := h.unpacks m hm'
        refine ⟨⟨hu.fits, hidx ▸ hu.idx, htotal.trans hu.total, hidx ▸ hu.rest⟩, ?_⟩
        -- the message is not packed to its end, so it is left
        have hne : left o msgs ≠ [] := by
          intro hnil
          rw [hnil] at hkept
          exact Outbound.unpacked_ne_nil hm' (List.append_eq_nil_iff.mp hkept).2
        rw [left, hbefore] at hne ⊢
        rw [ne_eq, List.drop_eq_nil_iff, List.length_append, List.length_singleton] at hne
        exact ⟨_, List.drop_append_of_le_length (by omega)⟩
      packing := by
        rw [hunpacked, ← hkept]
        exact congrArg (· ++ _) hplaced
      fits := fun m hm => h.fits m (List.mem_of_mem_drop hm) }
  exact hchange.pack io

/-! ## Runs -/

/-- A step keeps log and messages together, where the message fits and an incarnation change finds fragments in all packets. -/
theorem Packed.step (h : Packed c s.out s.messages) (a : Action) (hfit : ∀ m ∈ a.messages, Fits c m)
    (hdata : a.isChange = true → ∀ m ∈ s.messages, m.elements ≠ []) : Packed c (s.step c a).out (s.step c a).messages := by
  cases a with
  | forward msg io =>
    simp only [Sender.step, Outbound.act]
    cases hmsg : s.out.outMessage with
    | none => exact h.forward hmsg (hfit msg List.mem_cons_self) io
    | some m => exact h
  | acknowledge n k io =>
    simp only [Sender.step, Outbound.act]
    split
    · rename_i hle
      exact h.acknowledge hle.1 hle.2 io
    · exact h
  | send =>
    simp only [Sender.step, Outbound.act]
    split
    · rename_i hlt
      exact h.send hlt
    · exact h
  | note seq resent nacked => exact h.setCell rfl
  | incarnationChange i io => exact h.reintroduce (hdata rfl) i io

theorem Sender.messages_step_subset (c : Conf) (s : Sender) (a : Action) :
    ∀ m ∈ (s.step c a).messages, m ∈ s.messages ∨ m ∈ a.messages := by
  intro m hm
  cases a with
  | forward msg io =>
    simp only [Sender.step] at hm
    split at hm
    · exact .inl hm
    · exact List.mem_append.mp hm
  | acknowledge n k io => exact .inl hm
  | send => exact .inl hm
  | note seq resent nacked => exact .inl hm
  | incarnationChange i io => exact .inl (List.mem_of_mem_drop hm)

theorem packed_foldl (acts : List Action) (h : Packed c s.out s.messages) (hfit : ∀ m ∈ forwarded acts, Fits c m)
    (hdata : (∀ a ∈ acts, a.isChange = false) ∨ (∀ m ∈ forwarded acts, m.elements ≠ []) ∧ ∀ m ∈ s.messages, m.elements ≠ []) :
    Packed c (acts.foldl (Sender.step c) s).out (acts.foldl (Sender.step c) s).messages := by
  induction acts generalizing s with
  | nil => exact h
  | cons a acts ih =>
    simp only [forwarded, List.flatMap_cons, List.forall_mem_append] at hfit hdata
    have hstep : a.isChange = true → ∀ m ∈ s.messages, m.elements ≠ [] := by
      intro hchange
      rcases hdata with hnone | hdata
      · rw [hnone a List.mem_cons_self] at hchange
        cases hchange
      · exact hdata.2
    refine ih (h.step a hfit.1 hstep) hfit.2 ?_
    refine hdata.imp (fun hnone b hb => hnone b (List.mem_cons_of_mem a hb)) fun hdata => ⟨hdata.1.2, fun m hm => ?_⟩
    exact (s.messages_step_subset c a m hm).elim (hdata.2 m) (hdata.1.1 m)

theorem messages_foldl_subset (c : Conf) (acts : List Action) (s : Sender) :
    ∀ m ∈ (acts.foldl (Sender.step c) s).messages, m ∈ s.messages ∨ m ∈ forwarded acts := by
  induction acts generalizing s with
  | nil => exact fun m hm => .inl hm
  | cons a acts ih =>
    intro m hm
    rcases ih (s.step c a) m hm with hm | hm
    · exact (s.messages_step_subset c a m hm).imp_right fun hm => List.mem_flatMap.mpr ⟨a, List.mem_cons_self, hm⟩
    · obtain ⟨b, hb, hm⟩ := List.mem_flatMap.mp hm
      exact .inr (List.mem_flatMap.mpr ⟨b, List.mem_cons_of_mem a hb, hm⟩)

/-- The receiver gets the messages. -/
theorem Packed.roundTrip (h : Packed c s.out s.messages) (front : Entry → List UInt8) : RoundTrip c front s := by
  have hle := h.window.head_le
  cases hmsg : s.out.outMessage with
  | none =>
    have hplaced := h.packing
    rw [Outbound.unpacked_of_none hmsg, List.append_nil] at hplaced
    obtain ⟨htaken, hmessages⟩ := receive_whole front h.fits hplaced
    refine ⟨h.packing, htaken, ?_, fun hsome => ?_⟩
    · rw [hmessages, hmsg]
      exact List.append_nil _
    · rw [hmsg] at hsome
      cases hsome
  | some msg =>
    obtain ⟨hu, before, hbefore⟩ := h.unpacks msg hmsg
    obtain ⟨pre, hpre⟩ := hu.rest
    have hplaced := h.packing
    rw [hbefore, List.flatMap_append, List.flatMap_singleton, Outbound.unpacked_of_some hmsg, ← hpre, ← List.append_assoc] at hplaced
    have hfits := h.fits
    rw [hbefore, List.forall_mem_append] at hfits
    have hne := Outbound.unpacked_ne_nil (c := c) hmsg
    rw [Outbound.unpacked_of_some hmsg] at hne
    obtain ⟨htaken, hmessages⟩ := receive_part front hfits.1 hu.fits (List.append_cancel_right hplaced) hpre.symm hne
    refine ⟨h.packing, htaken, ?_, fun _ => ?_⟩
    · rw [hmessages, hmsg, hbefore, List.map_append]
      rfl
    · have hfull := h.full.resolve_left (by rw [hmsg]; exact Option.some_ne_none msg)
      omega

/-- The receiver got the messages that an incarnation change does not leave, but for the one that the acknowledgements
go through. -/
theorem Packed.reintroduces (h : Packed c s.out s.messages) (hdata : ∀ m ∈ s.messages, m.elements ≠ []) (i : Inbound) (io : Io)
    (front : Entry → List UInt8) : Reintroduces c front s (s.step c (.incarnationChange i io)) := by
  have hleft : (s.step c (.incarnationChange i io)).messages = left s.out s.messages := rfl
  have hacked := h.acked_eq
  have hcut := Lib.cut_flatten (h.segments hdata) (s.out.outTailSeq - 1)
  rw [← hacked] at hcut
  rcases hcut with ⟨htake, -⟩ | ⟨j, pre, post, hk, hget, hpre, hpost, -, htake, -⟩
  · rw [← hacked, ← List.map_take, ← List.flatMap_def] at htake
    have hfits : ∀ m ∈ s.messages.take ((s.out.acked.map Entry.pkt).countP begins), Fits c m :=
      fun m hm => h.fits m (List.mem_of_mem_take hm)
    refine ⟨_, [], ?_, (receive_whole front hfits htake).2, Nat.zero_le 1, fun m hm => by cases hm⟩
    rw [List.append_nil, hleft, left, List.take_append_drop]
  · rw [← hacked, ← List.map_take, ← List.flatMap_def] at htake
    rw [List.getElem?_map, Option.map_eq_some_iff] at hget
    obtain ⟨msg, hmsg, hpackets⟩ := hget
    have hfits : ∀ m ∈ s.messages.take j, Fits c m := fun m hm => h.fits m (List.mem_of_mem_take hm)
    have hin := List.mem_of_getElem? hmsg
    refine ⟨s.messages.take j, [msg], ?_, (receive_part front hfits (h.fits msg hin) htake hpackets hpost).2, le_refl 1,
      fun m hm => ?_⟩
    · rw [hleft, left, hk, List.append_assoc, List.singleton_append]
      obtain ⟨hlt, hget⟩ := List.getElem?_eq_some_iff.mp hmsg
      rw [← hget, List.getElem_cons_drop, List.take_append_drop]
    · rw [List.mem_singleton.mp hm]
      have hprelen := List.length_pos_iff.mpr hpre
      have hpostlen := List.length_pos_iff.mpr hpost
      refine ⟨pre.length, hprelen, ?_, ?_⟩
      · rw [hpackets, List.length_append]
        omega
      · rw [htake, hpackets, List.take_left]

end Steps

/-- Messages whose elements fit arrive as they were forwarded, however full windows interrupt their packing. Where each of them
has an element, that is so over incarnation changes too: these leave the packing of whole messages, and of the others only
one of which some packets were acknowledged is lost. -/
theorem fragmentation_round_trip (c : Conf) (front : Entry → List UInt8) (acts : List Action)
    (hfit : ∀ msg ∈ forwarded acts, Fits c msg)
    (hdata : (∀ a ∈ acts, a.isChange = false) ∨ ∀ msg ∈ forwarded acts, msg.elements ≠ []) :
    RoundTrip c front (Sender.run c acts) ∧
      ((∀ msg ∈ forwarded acts, msg.elements ≠ []) → ∀ i io,
        RoundTrip c front ((Sender.run c acts).step c (.incarnationChange i io)) ∧
        Reintroduces c front (Sender.run c acts) ((Sender.run c acts).step c (.incarnationChange i io))) := by
  have hpacked := packed_foldl (s := .start) acts (packed_start c) hfit
    (hdata.imp_right fun hdata => ⟨hdata, fun m hm => by cases hm⟩)
  refine ⟨hpacked.roundTrip front, fun hall i io => ?_⟩
  have helements : ∀ m ∈ (Sender.run c acts).messages, m.elements ≠ [] := fun m hm =>
    hall m ((messages_foldl_subset c acts .start m hm).resolve_left (by rintro ⟨⟩))
  have hchange := hpacked.step (.incarnationChange i io) (fun m hm => by cases hm) fun _ => helements
  exact ⟨hchange.roundTrip front, hpacked.reintroduces helements i io front⟩

/-- A message of two packets, of which the first is acknowledged, and a message of one. -/
def twoForwarded : List Action :=
  [.forward ⟨packetHeaderSize, [List.replicate 1000 1, List.replicate 1000 2], by decide⟩ .plain, .send, .acknowledge 1 0 .plain,
    .forward ⟨packetHeaderSize, [[3], []], by decide⟩ .plain]

theorem fragmentation_round_trip_two :
    RoundTrip ⟨false⟩ (fun _ => []) (Sender.run ⟨false⟩ twoForwarded) ∧
      ((∀ msg ∈ forwarded twoForwarded, msg.elements ≠ []) → ∀ i io,
        RoundTrip ⟨false⟩ (fun _ => []) ((Sender.run ⟨false⟩ twoForwarded).step ⟨false⟩ (.incarnationChange i io)) ∧
        Reintroduces ⟨false⟩ (fun _ => []) (Sender.run ⟨false⟩ twoForwarded)
          ((Sender.run ⟨false⟩ twoForwarded).step ⟨false⟩ (.incarnationChange i io))) :=
  fragmentation_round_trip ⟨false⟩ (fun _ => []) twoForwarded (by decide +kernel) (.inr (by decide +kernel))

end Spire.ItLink
