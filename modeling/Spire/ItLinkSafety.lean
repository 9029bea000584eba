import Spire.Lib.Window
import Spire.ItLink

/-!
# The link is a FIFO

`Window` is what the sender keeps of its window: the slots of the packets that are not acknowledged
have them and their nonces, and the slots of the last numbers have the digests. `Dir` relates that to
the window of the receiver: what this has passed on is the beginning of what was placed, its tail
stands between the tail and the head of what was sent, and what came early is what was placed under
its number. What an end has sent says the truth about both (`SentOk`).
-/

namespace Spire.ItLink

open Function (update update_self update_of_ne)
open Lib (Stored Always mod_ne_of_lt)

/-! ## Digests -/

/-- The nonces of a log together. -/
def digest (log : List Entry) : Nonce := log.foldl (fun d x => d ^^^ x.nonce) 0

theorem digest_append (log : List Entry) (x : Entry) : digest (log ++ [x]) = digest log ^^^ x.nonce := by
  simp only [digest, List.foldl_append, List.foldl_cons, List.foldl_nil]

section Prefix

variable {α : Type} {xs ys : List α} {n : Nat} {x : α}

theorem getElem?_of_isPrefix (h : xs <+: ys) (hx : xs[n]? = some x) : ys[n]? = some x := by
  obtain ⟨zs, rfl⟩ := h
  have hlt := (List.getElem?_eq_some_iff.mp hx).1
  rw [List.getElem?_append_left hlt, hx]

theorem take_of_isPrefix (h : xs <+: ys) (hn : n ≤ xs.length) : ys.take n = xs.take n := by
  obtain ⟨zs, rfl⟩ := h
  exact List.take_append_of_le_length hn

/-- A prefix goes on with the next element. -/
theorem prefix_append_next (h : xs <+: ys) (hx : ys[xs.length]? = some x) : xs ++ [x] <+: ys := by
  obtain ⟨zs, rfl⟩ := h
  cases zs with
  | nil =>
    rw [List.append_nil, List.getElem?_eq_none (le_refl _)] at hx
    cases hx
  | cons z zs =>
    rw [List.getElem?_append_right (le_refl _), Nat.sub_self] at hx
    cases hx
    exact ⟨zs, List.append_assoc _ _ _⟩

end Prefix

/-! ## The window of the sender -/

namespace Outbound

variable {c : Conf} {io : Io} {o o' : Outbound} {seq : Nat}

/-- What was placed under a number. -/
def entry (o : Outbound) (seq : Nat) : Option Entry := o.placed[seq - 1]?

structure Window (o : Outbound) : Prop where
  head : o.outHeadSeq = o.placed.length + 1
  pos : 1 ≤ o.outTailSeq
  tail_le : o.outTailSeq ≤ o.tcpHeadSeq
  tcp_le : o.tcpHeadSeq ≤ o.outHeadSeq
  head_le : o.outHeadSeq ≤ o.outTailSeq + maxSendOnLink
  numbered : ∀ k x, o.placed[k]? = some x → x.seq = k + 1
  cells : Stored maxSendOnLink (fun seq cell => ∃ x, o.entry seq = some x ∧ cell.pkt = some x.pkt) o.outgoing
    o.outTailSeq o.outHeadSeq
  nonces : Stored maxSendOnLink (fun seq n => ∃ x, o.entry seq = some x ∧ n = x.nonce) o.outNonce
    o.outTailSeq o.outHeadSeq
  digests : Stored maxSendOnLink (fun seq d => d = digest (o.placed.take seq)) o.outNonceDigest
    (o.outHeadSeq - maxSendOnLink) o.outHeadSeq

theorem Window.map_seq (h : o.Window) : o.placed.map Entry.seq = List.range' linkStartSeq o.placed.length := by
  refine List.ext_getElem (by rw [List.length_map, List.length_range']) fun k hk _ => ?_
  rw [List.length_map] at hk
  rw [List.getElem_map, h.numbered k _ (List.getElem?_eq_getElem hk), List.getElem_range', linkStartSeq]
  omega

/-- More was placed and more may be sent. -/
structure Grows (o o' : Outbound) : Prop where
  placed : o.placed <+: o'.placed
  tcp_le : o.tcpHeadSeq ≤ o'.tcpHeadSeq

theorem Grows.refl (o : Outbound) : Grows o o := ⟨List.prefix_refl _, le_refl _⟩

/-- What the window is about is the same. -/
theorem Window.same (h : o.Window) (hhead : o'.outHeadSeq = o.outHeadSeq) (htail : o'.outTailSeq = o.outTailSeq)
    (htcp : o'.tcpHeadSeq = o.tcpHeadSeq) (hplaced : o'.placed = o.placed) (hnonce : o'.outNonce = o.outNonce)
    (hdigest : o'.outNonceDigest = o.outNonceDigest)
    (hcells : ∀ s, (o'.outgoing s).pkt = (o.outgoing s).pkt) : o'.Window := by
  have hentry : o'.entry = o.entry := by
    funext seq
    rw [entry, entry, hplaced]
  constructor
  case head => rw [hhead, hplaced, h.head]
  case pos => exact htail ▸ h.pos
  case tail_le => exact htail ▸ htcp ▸ h.tail_le
  case tcp_le => exact hhead ▸ htcp ▸ h.tcp_le
  case head_le => exact hhead ▸ htail ▸ h.head_le
  case numbered => exact hplaced ▸ h.numbered
  case cells =>
    rw [hhead, htail, hentry]
    intro seq hlo hhi
    rw [hcells]
    exact h.cells seq hlo hhi
  case nonces =>
    rw [hhead, htail, hentry, hnonce]
    exact h.nonces
  case digests =>
    rw [hhead, hplaced, hdigest]
    exact h.digests

/-! ### Placing -/

theorem entry_place (o : Outbound) (pkt : Payload) (n : Nonce) (hlt : seq - 1 < o.placed.length) :
    (o.place pkt n).entry seq = o.entry seq := List.getElem?_append_left hlt

theorem entry_place_self (h : o.Window) (pkt : Payload) (n : Nonce) :
    (o.place pkt n).entry o.outHeadSeq = some ⟨o.outHeadSeq, pkt, n⟩ := by
  have hidx : o.outHeadSeq - 1 = o.placed.length := by
    rw [h.head]
    rfl
  rw [entry, hidx]
  exact List.getElem?_concat_length

theorem Window.place (h : o.Window) (hroom : o.outHeadSeq - o.outTailSeq < maxSendOnLink) (pkt : Payload) (n : Nonce) :
    (o.place pkt n).Window := by
  have hhead := h.head
  have hpos := h.pos
  have htail := h.tail_le.trans h.tcp_le
  have hentry : ∀ seq, o.outTailSeq ≤ seq → seq < o.outHeadSeq → (o.place pkt n).entry seq = o.entry seq :=
    fun seq hlo hhi => entry_place o pkt n (by omega)
  have hself := entry_place_self h pkt n
  constructor
  case head =>
    change o.outHeadSeq + 1 = (o.placed ++ [_]).length + 1
    rw [List.length_append, hhead]
    rfl
  case pos => exact hpos
  case tail_le => exact h.tail_le
  case tcp_le => exact h.tcp_le.trans (Nat.le_succ _)
  case head_le =>
    change o.outHeadSeq + 1 ≤ o.outTailSeq + maxSendOnLink
    omega
  case numbered =>
    intro k x hx
    change (o.placed ++ [_])[k]? = some x at hx
    rcases Nat.lt_trichotomy k o.placed.length with hlt | rfl | hgt
    · rw [List.getElem?_append_left hlt] at hx
      exact h.numbered k x hx
    · rw [List.getElem?_concat_length] at hx
      cases hx
      exact hhead
    · rw [List.getElem?_eq_none (by rw [List.length_append]; exact hgt)] at hx
      cases hx
  case cells =>
    refine (h.cells.imp fun seq hlo hhi cell hcell => ?_).push htail (by omega) ⟨_, hself, rfl⟩
    rwa [hentry seq hlo hhi]
  case nonces =>
    refine (h.nonces.imp fun seq hlo hhi m hm => ?_).push htail (by omega) ⟨_, hself, rfl⟩
    rwa [hentry seq hlo hhi]
  case digests =>
    have hprev : o.outNonceDigest (slot (o.outHeadSeq - 1)) = digest o.placed := by
      have hlast := h.digests (o.outHeadSeq - 1) (by unfold maxSendOnLink; omega) (by omega)
      have hlen : o.outHeadSeq - 1 = o.placed.length := by omega
      rw [slot, hlast, hlen, List.take_length]
    have hold := h.digests.sub (show _ ≤ o.outHeadSeq + 1 - maxSendOnLink by omega) (le_refl _)
    refine (hold.imp fun seq _ hhi d hd => ?_).push (by unfold maxSendOnLink; omega) (by unfold maxSendOnLink; omega) ?_
    · rw [hd]
      exact congrArg digest (take_of_isPrefix (List.prefix_append _ _) (by omega)).symm
    · change n ^^^ _ = digest ((o.placed ++ [_]).take _)
      have hall : (o.placed ++ [(⟨o.outHeadSeq, pkt, n⟩ : Entry)]).length ≤ o.outHeadSeq := by
        rw [List.length_append, hhead]
        exact le_refl _
      rw [List.take_of_length_le hall, digest_append, hprev, BitVec.xor_comm]

theorem Grows.trans {o'' : Outbound} (h : Grows o o') (h' : Grows o' o'') : Grows o o'' :=
  ⟨h.placed.trans h'.placed, h.tcp_le.trans h'.tcp_le⟩

/-- The window is kept with its tail, and its heads go up. -/
structure Advances (o o' : Outbound) : Prop extends Grows o o' where
  window : o'.Window
  tail_eq : o'.outTailSeq = o.outTailSeq

theorem advances_round (c : Conf) (io : Io) (h : o.Window) (hroom : o.outHeadSeq - o.outTailSeq < maxSendOnLink) (msg : Message) :
    Advances o (o.packRound c io msg) where
  toGrows := ⟨List.prefix_append _ _, le_refl _⟩
  window := (h.place hroom _ _).same rfl rfl rfl rfl rfl rfl fun _ => rfl
  tail_eq := rfl

theorem advances_loop (h : o.Window) (n : Nat) : Advances o (o.packLoop c io n) := by
  induction n generalizing o with
  | zero => exact ⟨Grows.refl o, h, rfl⟩
  | succ n ih =>
    unfold packLoop
    split
    · exact ⟨Grows.refl o, h, rfl⟩
    · split
      next hroom =>
        have hround := advances_round c io h hroom ‹Message›
        have hrest := ih hround.window
        exact ⟨hround.toGrows.trans hrest.toGrows, hrest.window, hrest.tail_eq.trans hround.tail_eq⟩
      next => exact ⟨Grows.refl o, h, rfl⟩

theorem advances_of_eq_some (h : o.Window) (heq : o.packFragmentsIntoPackets c io = some o') : Advances o o' := by
  unfold packFragmentsIntoPackets at heq
  split at heq
  · cases heq
    exact advances_loop h _
  · cases heq

/-- The rounds suffice: the loop ends with a full window or without a message. -/
theorem packLoop_done (h : o.Window) {n : Nat} (hn : maxSendOnLink ≤ n + (o.outHeadSeq - o.outTailSeq)) :
    (o.packLoop c io n).outMessage = none ∨
      maxSendOnLink ≤ (o.packLoop c io n).outHeadSeq - (o.packLoop c io n).outTailSeq := by
  induction n generalizing o with
  | zero =>
    rw [Nat.zero_add] at hn
    exact Or.inr hn
  | succ n ih =>
    unfold packLoop
    split
    next hnone => exact Or.inl hnone
    next msg _ =>
      split
      next hroom =>
        have hround := advances_round c io h hroom msg
        have hle := h.tail_le.trans h.tcp_le
        refine ih hround.window ?_
        change maxSendOnLink ≤ n + (o.outHeadSeq + 1 - o.outTailSeq)
        omega
      next hfull => exact Or.inr (not_lt.mp hfull)

/-- Every packet that is packed leaves room for its tail and a NACK. -/
theorem dataLen_packFragments (total : Nat) (rest : List (List UInt8)) (idx len : Nat)
    (hlen : len + c.linkHeaderSize ≤ maxPacketSize) :
    len + dataLen (packFragments c total rest idx len).1 + c.linkHeaderSize ≤ maxPacketSize := by
  induction rest generalizing idx len with
  | nil => exact hlen
  | cons body rest ih =>
    unfold packFragments
    split
    next hfits =>
      have hrest := ih (idx + 1) (len + body.length + fragmentHeaderSize) (by omega)
      simp only [dataLen, List.map_cons, List.sum_cons] at hrest ⊢
      omega
    next => exact hlen

/-! ### Releasing and sending -/

theorem Advances.refl (h : o.Window) : Advances o o := ⟨Grows.refl o, h, rfl⟩

theorem Advances.trans {o'' : Outbound} (h : Advances o o') (h' : Advances o' o'') : Advances o o'' :=
  ⟨h.toGrows.trans h'.toGrows, h'.window, h'.tail_eq.trans h.tail_eq⟩

theorem Window.releaseTail (h : o.Window) (hlt : o.outTailSeq < o.tcpHeadSeq) : o.releaseTail.Window where
  head := h.head
  pos := h.pos.trans (Nat.le_succ _)
  tail_le := hlt
  tcp_le := h.tcp_le
  head_le := h.head_le.trans (Nat.add_le_add_right (Nat.le_succ _) _)
  numbered := h.numbered
  cells := (h.cells.sub (Nat.le_succ _) (le_refl _)).write_below (Nat.lt_succ_self _) h.head_le
  nonces := h.nonces.sub (Nat.le_succ _) (le_refl _)
  digests := h.digests

theorem Window.release (h : o.Window) {n : Nat} (hn : o.outTailSeq + n ≤ o.tcpHeadSeq) : (o.release n).Window := by
  induction n generalizing o with
  | zero => exact h
  | succ n ih =>
    have hnext : o.releaseTail.outTailSeq + n ≤ o.releaseTail.tcpHeadSeq := by
      change o.outTailSeq + 1 + n ≤ o.tcpHeadSeq
      omega
    exact ih (h.releaseTail (by omega)) hnext

theorem release_outTailSeq (n : Nat) (o : Outbound) : (o.release n).outTailSeq = o.outTailSeq + n := by
  induction n generalizing o with
  | zero => rfl
  | succ n ih => exact (ih o.releaseTail).trans (Nat.add_right_comm _ _ _)

theorem release_grows (n : Nat) (o : Outbound) : Grows o (o.release n) := by
  induction n generalizing o with
  | zero => exact Grows.refl o
  | succ n ih => exact (⟨List.prefix_refl _, le_refl _⟩ : Grows o o.releaseTail).trans (ih o.releaseTail)

theorem Window.raise (h : o.Window) (hlt : o.tcpHeadSeq < o.outHeadSeq) : o.raise.Window :=
  { h with
    tail_le := h.tail_le.trans (Nat.le_succ _)
    tcp_le := hlt }

theorem Window.setCell (h : o.Window) {cell : BufferCell} (hcell : cell.pkt = (o.outgoing (slot seq)).pkt) :
    (o.setCell seq cell).Window := by
  refine h.same rfl rfl rfl rfl rfl rfl fun s => ?_
  change (update o.outgoing (slot seq) cell s).pkt = _
  by_cases heq : s = slot seq
  · rw [heq, update_self, hcell]
  · rw [update_of_ne heq]

theorem advances_raise (h : o.Window) (hlt : o.tcpHeadSeq < o.outHeadSeq) : Advances o o.raise :=
  ⟨⟨List.prefix_refl _, Nat.le_succ _⟩, h.raise hlt, rfl⟩

/-- The marks of a cell do not matter. -/
theorem advances_setCell (seq : Nat) (cell : BufferCell) (h : o.Window) (hcell : cell.pkt = (o.outgoing (slot seq)).pkt) :
    Advances o (o.setCell seq cell) :=
  ⟨⟨List.prefix_refl _, le_refl _⟩, h.setCell hcell, rfl⟩

theorem advances_mark (h : o.Window) (seqs : List Nat) : Advances o (seqs.foldl mark o) := by
  refine Lib.foldl_inv (I := Advances o) (fun o' seq ha => ha.trans ?_) (Advances.refl h)
  unfold mark
  split
  · exact advances_setCell _ _ ha.window rfl
  · exact Advances.refl ha.window

/-- Nor does the message that is waiting. -/
theorem advances_message (h : o.Window) (msg : Option Message) (idx total : Nat) :
    Advances o { o with outMessage := msg, outFragIdx := idx, outFragTotal := total } :=
  ⟨⟨List.prefix_refl _, le_refl _⟩, h.same rfl rfl rfl rfl rfl rfl fun _ => rfl, rfl⟩

/-- Packing, or giving the message up. -/
theorem advances_pack (c : Conf) (io : Io) (h : o.Window) : Advances o ((o.packFragmentsIntoPackets c io).getD o.dropMessage) := by
  cases heq : o.packFragmentsIntoPackets c io with
  | none => exact advances_message h none 0 0
  | some o' => exact advances_of_eq_some h heq

end Outbound

/-! ## The window of the receiver -/

namespace Inbound

variable {w seq : Nat} {i : Inbound} {pkt : Payload} {n : Nonce}

/-- The number at the tail and the sum of the nonces are those of the log. -/
structure Log (i : Inbound) : Prop where
  tail : i.inTailSeq = i.passed.length + 1
  aru : i.aruNonceDigest = digest i.passed

def Missing (cell : RecvCell) : Prop := ∀ pkt, cell ≠ .recvd pkt

/-- There are no packets from the head on, in the slots of the next `w` numbers. -/
structure Window (w : Nat) (i : Inbound) : Prop extends Log i where
  tail_le : i.inTailSeq ≤ i.inHeadSeq
  head_le : i.inHeadSeq ≤ i.inTailSeq + w
  ahead : Stored maxSendOnLink (fun _ => Missing) i.incoming i.inHeadSeq (i.inTailSeq + w)

/-- Marking a gap adds no packet, and changes nothing but the cells and the head. -/
theorem fillGap_incoming {s : Nat} (h : (i.fillGap seq).incoming s = .recvd pkt) : i.incoming s = .recvd pkt := by
  unfold fillGap at h
  split at h
  · change List.foldl (fun f k => update f (slot k) .nack) i.incoming _ s = .recvd pkt at h
    rw [Lib.foldl_update_apply] at h
    split at h
    · cases h
    · exact h
  · exact h

theorem fillGap_inNonce (i : Inbound) (seq : Nat) : (i.fillGap seq).inNonce = i.inNonce := by
  unfold fillGap
  split <;> rfl

theorem fillGap_passed (i : Inbound) (seq : Nat) : (i.fillGap seq).passed = i.passed := by
  unfold fillGap
  split <;> rfl

theorem fillGap_inTailSeq (i : Inbound) (seq : Nat) : (i.fillGap seq).inTailSeq = i.inTailSeq := by
  unfold fillGap
  split <;> rfl

theorem fillGap_aruNonceDigest (i : Inbound) (seq : Nat) : (i.fillGap seq).aruNonceDigest = i.aruNonceDigest := by
  unfold fillGap
  split <;> rfl

theorem fillGap_inHeadSeq (i : Inbound) (seq : Nat) : (i.fillGap seq).inHeadSeq = max i.inHeadSeq (seq + 1) := by
  unfold fillGap
  split
  next hle => exact (max_eq_right (hle.trans (Nat.le_succ _))).symm
  next hgt => exact (max_eq_left (by omega)).symm

theorem Window.put (h : i.Window maxSendOnLink) (hlo : i.inTailSeq ≤ seq) (hhi : seq < i.inTailSeq + maxSendOnLink) :
    ((i.put seq n pkt).fillGap seq).Window maxSendOnLink := by
  have htail := h.tail_le
  have hhead := h.head_le
  have hold : Stored maxSendOnLink (fun _ => Missing) (i.put seq n pkt).incoming (max i.inHeadSeq (seq + 1))
      (i.inTailSeq + maxSendOnLink) :=
    (h.ahead.sub (le_max_left _ _) (le_refl _)).write_below (by omega) (by omega)
  constructor
  case toLog => exact ⟨by rw [fillGap_inTailSeq, fillGap_passed]; exact h.tail,
    by rw [fillGap_aruNonceDigest, fillGap_passed]; exact h.aru⟩
  case tail_le =>
    rw [fillGap_inTailSeq, fillGap_inHeadSeq]
    exact htail.trans (le_max_left _ _)
  case head_le =>
    rw [fillGap_inTailSeq, fillGap_inHeadSeq]
    exact max_le hhead hhi
  case ahead =>
    rw [fillGap_inTailSeq, fillGap_inHeadSeq]
    exact fun k hk₁ hk₂ pkt' hpkt => hold k hk₁ hk₂ pkt' (fillGap_incoming hpkt)

/-- The packet at the tail is before the head. -/
theorem Window.lt_head (h : i.Window (w + 1)) (hcell : i.incoming (slot i.inTailSeq) = .recvd pkt) :
    i.inTailSeq < i.inHeadSeq := by
  by_contra hge
  exact h.ahead i.inTailSeq (not_lt.mp hge) (by omega) pkt hcell

theorem Window.pass (h : i.Window (w + 1)) (hcell : i.incoming (slot i.inTailSeq) = .recvd pkt) :
    (i.pass pkt).Window w := by
  have hlt := h.lt_head hcell
  have hhead := h.head_le
  constructor
  case toLog =>
    constructor
    · change i.inTailSeq + 1 = (i.passed ++ [_]).length + 1
      rw [List.length_append, h.tail]
      rfl
    · change i.aruNonceDigest ^^^ _ = digest (i.passed ++ [_])
      rw [digest_append, h.aru]
  case tail_le => exact hlt
  case head_le =>
    change i.inHeadSeq ≤ i.inTailSeq + 1 + w
    omega
  case ahead => exact h.ahead.sub (le_refl _) (by change i.inTailSeq + 1 + w ≤ i.inTailSeq + (w + 1); omega)

/-- The slot that is free again is that of the last number of the window. -/
theorem stored_clear {P : Nat → RecvCell → Prop} {lo : Nat} (hw : w + 1 = maxSendOnLink)
    (htail : i.inTailSeq = seq + 1) (h : Stored maxSendOnLink P i.incoming lo (i.inTailSeq + w))
    (hempty : ∀ k, P k .empty) : Stored maxSendOnLink P (i.clear (slot seq)).incoming lo (i.inTailSeq + (w + 1)) := by
  intro k hlo hhi
  change P k (update i.incoming (slot seq) .empty (k % maxSendOnLink))
  by_cases heq : k % maxSendOnLink = slot seq
  · rw [heq, update_self]
    exact hempty k
  · rw [update_of_ne heq]
    have hlt : k < i.inTailSeq + w := by
      refine lt_of_le_of_ne (by omega) ?_
      rintro rfl
      have hround : i.inTailSeq + w = seq + maxSendOnLink := by omega
      exact heq (hround ▸ Nat.add_mod_right _ _)
    exact h k hlo hlt

theorem Window.clear (h : i.Window w) (hw : w + 1 = maxSendOnLink) (htail : i.inTailSeq = seq + 1) :
    (i.clear (slot seq)).Window (w + 1) where
  tail := h.tail
  aru := h.aru
  tail_le := h.tail_le
  head_le := h.head_le.trans (Nat.le_succ _)
  ahead := stored_clear hw htail h.ahead fun _ _ hpkt => by cases hpkt

end Inbound

/-! ## Both windows -/

/-- What is in a slot before its turn was placed under its number, and sent. -/
def Early (o : Outbound) (nonces : Nat → Nonce) (seq : Nat) (cell : RecvCell) : Prop :=
  ∀ pkt, cell = .recvd pkt → seq < o.tcpHeadSeq ∧ o.entry seq = some ⟨seq, pkt, nonces (slot seq)⟩

/-- From a sender to a receiver, with the slots of the next `w` packets in order. -/
structure Dir (w : Nat) (o : Outbound) (i : Inbound) : Prop where
  outbound : o.Window
  inbound : i.Window w
  passed : i.passed <+: o.placed
  le_in : o.outTailSeq ≤ i.inTailSeq
  in_le : i.inTailSeq ≤ o.tcpHeadSeq
  early : Stored maxSendOnLink (Early o i.inNonce) i.incoming i.inTailSeq (i.inTailSeq + w)

/-- A packet that was sent has what was placed under its number, and the digest of its `aru`. -/
structure SentOk (o : Outbound) (i : Inbound) (p : Packet) : Prop where
  data : p.tail.linkSeq ≠ 0 →
    p.tail.linkSeq < o.tcpHeadSeq ∧ o.entry p.tail.linkSeq = some ⟨p.tail.linkSeq, p.payload, p.tail.seqNonce⟩
  aru_le : p.tail.aru ≤ i.passed.length
  aruNonce : p.tail.aruNonce = digest (i.passed.take p.tail.aru)

section Directions

variable {w seq : Nat} {o o' : Outbound} {i i' : Inbound} {p : Packet} {x : Entry} {pkt : Payload} {n : Nonce}

theorem Outbound.Grows.entry (h : o.Grows o') (hx : o.entry seq = some x) : o'.entry seq = some x :=
  getElem?_of_isPrefix h.placed hx

theorem SentOk.grow (h : SentOk o i p) (ho : o.Grows o') (hi : i.passed <+: i'.passed) : SentOk o' i' p where
  data hne := ⟨(h.data hne).1.trans_le ho.tcp_le, ho.entry (h.data hne).2⟩
  aru_le := h.aru_le.trans hi.length_le
  aruNonce := by
    rw [h.aruNonce, take_of_isPrefix hi h.aru_le]

theorem Dir.grow (h : Dir w o i) (hw : o'.Window) (ho : o.Grows o') (htail : o'.outTailSeq ≤ i.inTailSeq) :
    Dir w o' i where
  outbound := hw
  inbound := h.inbound
  passed := h.passed.trans ho.placed
  le_in := htail
  in_le := h.in_le.trans ho.tcp_le
  early := h.early.imp fun _ _ _ _ hcell pkt hpkt =>
    ⟨(hcell pkt hpkt).1.trans_le ho.tcp_le, ho.entry (hcell pkt hpkt).2⟩

theorem Dir.advance (h : Dir w o i) (ha : o.Advances o') : Dir w o' i :=
  h.grow ha.window ha.toGrows (ha.tail_eq ▸ h.le_in)

/-! ### Receiving -/

/-- A packet of the sender is put under its number. -/
theorem Dir.put (h : Dir maxSendOnLink o i) (hseq : seq < o.tcpHeadSeq) (hentry : o.entry seq = some ⟨seq, pkt, n⟩)
    (hlo : i.inTailSeq ≤ seq) (hhi : seq < i.inTailSeq + maxSendOnLink) :
    Dir maxSendOnLink o ((i.put seq n pkt).fillGap seq) where
  outbound := h.outbound
  inbound := h.inbound.put hlo hhi
  passed := by
    rw [Inbound.fillGap_passed]
    exact h.passed
  le_in := by
    rw [Inbound.fillGap_inTailSeq]
    exact h.le_in
  in_le := by
    rw [Inbound.fillGap_inTailSeq]
    exact h.in_le
  early := by
    rw [Inbound.fillGap_inTailSeq, Inbound.fillGap_inNonce]
    intro k hk₁ hk₂ pkt' hpkt
    have hput := Inbound.fillGap_incoming hpkt
    change update i.incoming (slot seq) (.recvd pkt) (slot k) = .recvd pkt' at hput
    change k < o.tcpHeadSeq ∧ o.entry k = some ⟨k, pkt', update i.inNonce (slot seq) n (slot k)⟩
    by_cases heq : k = seq
    · subst heq
      rw [update_self] at hput ⊢
      cases hput
      exact ⟨hseq, hentry⟩
    · have hne : slot k ≠ slot seq := fun hslot => heq (Lib.eq_of_mod_eq (le_refl _) hk₁ hk₂ hlo hhi hslot)
      rw [update_of_ne hne] at hput ⊢
      exact h.early k hk₁ hk₂ pkt' hput

theorem Dir.store (h : Dir maxSendOnLink o i) (hseq : seq < o.tcpHeadSeq) (hentry : o.entry seq = some ⟨seq, pkt, n⟩)
    (hstore : i.store seq n pkt = some i') : Dir maxSendOnLink o i' ∧ i'.passed = i.passed := by
  unfold Inbound.store at hstore
  split at hstore
  · cases hstore
  · split at hstore
    · cases hstore
    · split at hstore
      · cases hstore
      · rename_i hlo hhi _ _
        cases hstore
        exact ⟨h.put hseq hentry (not_lt.mp hlo) (not_le.mp hhi), Inbound.fillGap_passed _ seq⟩

/-- The packet at the tail is the next that was placed. -/
theorem Dir.pass (h : Dir (w + 1) o i) (hw : w < maxSendOnLink) (hcell : i.incoming (slot i.inTailSeq) = .recvd pkt) :
    Dir w o (i.pass pkt) := by
  obtain ⟨hlt, hentry⟩ := h.early i.inTailSeq (le_refl _) (by omega) pkt hcell
  have hnext : o.placed[i.passed.length]? = some ⟨i.inTailSeq, pkt, i.inNonce (slot i.inTailSeq)⟩ := by
    have hidx : i.inTailSeq - 1 = i.passed.length := by
      rw [h.inbound.tail]
      rfl
    rw [← hidx]
    exact hentry
  constructor
  case outbound => exact h.outbound
  case inbound => exact h.inbound.pass hcell
  case passed => exact prefix_append_next h.passed hnext
  case le_in => exact h.le_in.trans (Nat.le_succ _)
  case in_le => exact hlt
  case early =>
    intro k hlo hhi pkt' hpkt
    change i.inTailSeq + 1 ≤ k at hlo
    change k < i.inTailSeq + 1 + w at hhi
    have hne : slot k ≠ slot i.inTailSeq := mod_ne_of_lt (by omega) (by omega)
    obtain ⟨hk, hkentry⟩ := h.early k (by omega) (by omega) pkt' hpkt
    refine ⟨hk, ?_⟩
    change o.entry k = some ⟨k, pkt', update i.inNonce (slot i.inTailSeq) 0 (slot k)⟩
    rw [update_of_ne hne]
    exact hkentry

theorem Dir.clear (h : Dir w o i) (hw : w + 1 = maxSendOnLink) (htail : i.inTailSeq = seq + 1) :
    Dir (w + 1) o (i.clear (slot seq)) where
  outbound := h.outbound
  inbound := h.inbound.clear hw htail
  passed := h.passed
  le_in := h.le_in
  in_le := h.in_le
  early := Inbound.stored_clear hw htail h.early fun _ _ hpkt => by cases hpkt

end Directions

/-! ## An end at work -/

/-- What holds of an end whose neighbour has received as much as `peer` says. -/
structure Good (peer : Inbound) (e : LinkEnd) : Prop where
  dir : Dir maxSendOnLink e.out peer
  log : e.inb.Log
  sent : ∀ p ∈ e.sent, SentOk e.out e.inb p

/-- What the outbound side of an end does: it is still right, and the inbound side is as it was. -/
structure Works (peer : Inbound) (e e' : LinkEnd) : Prop where
  good : Good peer e'
  inb : e'.inb = e.inb

theorem Works.refl {peer : Inbound} {e : LinkEnd} (h : Good peer e) : Works peer e e := ⟨h, rfl⟩

theorem Works.trans {peer : Inbound} {e e' e'' : LinkEnd} (h : Works peer e e') (h' : Works peer e' e'') :
    Works peer e e'' :=
  ⟨h'.good, h'.inb.trans h.inb⟩

namespace LinkEnd

variable {c : Conf} {io : Io} {peer : Inbound} {e e' : LinkEnd} {seq n : Nat} {o : Outbound} {t : Turn} {p : Packet}

theorem works_out (h : Good peer e) (hd : Dir maxSendOnLink o peer) (hg : e.out.Grows o) :
    Works peer e { e with out := o } :=
  ⟨⟨hd, h.log, fun p hp => (h.sent p hp).grow hg (List.prefix_refl _)⟩, rfl⟩

theorem works_advance (h : Good peer e) (ha : e.out.Advances o) : Works peer e { e with out := o } :=
  works_out h (h.dir.advance ha) ha.toGrows

/-- The `aru` and the digest of a tail are those of the log. -/
theorem sentOk_tail (h : Good peer e) (pkt : Payload) (nonce : Nonce) (len : Nat)
    (hdata : seq ≠ 0 → seq < e.out.tcpHeadSeq ∧ e.out.entry seq = some ⟨seq, pkt, nonce⟩) :
    SentOk e.out e.inb ⟨pkt, e.tail c io seq nonce len⟩ := by
  have haru : e.inb.inTailSeq - 1 = e.inb.passed.length := by
    rw [h.log.tail]
    rfl
  constructor
  case data => exact hdata
  case aru_le => exact haru.le
  case aruNonce =>
    change e.inb.aruNonceDigest = digest (e.inb.passed.take (e.inb.inTailSeq - 1))
    rw [haru, List.take_length, h.log.aru]

theorem works_send (h : Good peer e) (hp : SentOk e.out e.inb p) : Works peer e { e with sent := p :: e.sent } :=
  ⟨⟨h.dir, h.log, List.forall_mem_cons.mpr ⟨hp, h.sent⟩⟩, rfl⟩

/-! ### Sending -/

theorem sendItDataMsg_out (c : Conf) (io : Io) (e : LinkEnd) (seq : Nat) : (e.sendItDataMsg c io seq).1.out = e.out := by
  unfold sendItDataMsg
  split
  · rfl
  · split <;> rfl

/-- A packet of the window goes out as it was placed. -/
theorem works_sendItDataMsg (c : Conf) (io : Io) (h : Good peer e) (hlo : e.out.outTailSeq ≤ seq) (hhi : seq < e.out.tcpHeadSeq) :
    Works peer e (e.sendItDataMsg c io seq).1 := by
  have hwin := h.dir.outbound
  unfold sendItDataMsg
  split
  · exact Works.refl h
  · rename_i pkt hpkt
    split
    · obtain ⟨x, hx, hcell⟩ := hwin.cells seq hlo (hhi.trans_le hwin.tcp_le)
      obtain ⟨y, hy, hnonce⟩ := hwin.nonces seq hlo (hhi.trans_le hwin.tcp_le)
      have hpos := hwin.pos
      have hseq : x.seq = seq := (hwin.numbered _ x hx).trans (by omega)
      have hxy : y = x := Option.some.inj (hy.symm.trans hx)
      have hpay : x.pkt = pkt := Option.some.inj (hcell.symm.trans hpkt)
      subst hxy hpay
      refine works_send h (sentOk_tail h _ _ _ fun _ => ⟨hhi, ?_⟩)
      change e.out.entry seq = some ⟨seq, y.pkt, e.out.outNonce (seq % maxSendOnLink)⟩
      rw [hx, hnonce, ← hseq]
    · exact Works.refl h

theorem works_sendItAck (h : Good peer e) : Works peer e (e.sendItAck c io) := by
  unfold sendItAck
  split
  · exact works_send h (sentOk_tail h _ _ _ fun hne => absurd rfl hne)
  · exact Works.refl h

theorem works_sendNew (c : Conf) (io : Io) (h : Good peer e) (stops : Bool) (hn : n ≤ e.out.outHeadSeq - e.out.tcpHeadSeq) :
    Works peer e (sendNew c io stops n e) := by
  induction n generalizing e with
  | zero => exact Works.refl h
  | succ n ih =>
    have hwin := h.dir.outbound
    have hraise := works_advance h (Outbound.advances_raise hwin (by omega))
    have hsend : Works peer _ (sendItDataMsg c io { e with out := e.out.raise } e.out.tcpHeadSeq).1 :=
      works_sendItDataMsg c io hraise.good hwin.tail_le (Nat.lt_succ_self _)
    have hone := hraise.trans hsend
    unfold sendNew
    dsimp only
    split
    · exact hone
    · refine hone.trans (ih hone.good ?_)
      rw [sendItDataMsg_out]
      change n ≤ e.out.outHeadSeq - (e.out.tcpHeadSeq + 1)
      omega

theorem allowed_le (o : Outbound) (cwnd : Nat) : allowed o cwnd ≤ o.outHeadSeq - o.tcpHeadSeq :=
  Nat.sub_le_sub_right (min_le_left _ _) _

/-! ### Forwarding -/

theorem works_forward (h : Good peer e) (r : Request) : Works peer e (e.forwardIntruTolData c r) := by
  have haccept : e.out.Advances (accept e.out r.msg) := Outbound.advances_message h.dir.outbound _ _ _
  unfold forwardIntruTolData
  split
  · exact Works.refl h
  · split
    · exact works_advance h (Outbound.advances_message h.dir.outbound _ _ _)
    · rename_i o ho
      have hpack := works_advance h (haccept.trans (Outbound.advances_of_eq_some haccept.window ho))
      exact hpack.trans (works_sendNew c r.io hpack.good true (allowed_le o r.cwnd))

theorem works_forwardAll (h : Good peer e) (rs : List Request) : Works peer e (e.forwardAll c rs) :=
  Lib.foldl_inv (I := Works peer e) (fun _ r hw => hw.trans (works_forward hw.good r)) (Works.refl h)

/-! ### Acknowledgements -/

/-- The digest of an acknowledgement is the one that is kept for it. -/
theorem aruNonce_eq {o' : Outbound} (h : Good peer e) (hp : SentOk o' peer p)
    (hlo : e.out.outTailSeq ≤ p.tail.aru) (hhi : p.tail.aru < e.out.tcpHeadSeq) :
    p.tail.aruNonce = e.out.outNonceDigest (slot p.tail.aru) := by
  have hwin := h.dir.outbound
  have hhead := hwin.head_le
  have hkept := hwin.digests p.tail.aru (by omega) (hhi.trans_le hwin.tcp_le)
  rw [slot, hkept, hp.aruNonce, take_of_isPrefix h.dir.passed hp.aru_le]

/-- What is acknowledged was passed on. -/
theorem works_release {o' : Outbound} (h : Good peer e) (hp : SentOk o' peer p)
    (hlo : e.out.outTailSeq ≤ p.tail.aru) (hhi : p.tail.aru < e.out.tcpHeadSeq) :
    Works peer e { e with out := e.out.release (p.tail.aru + 1 - e.out.outTailSeq) } := by
  have hwin := h.dir.outbound.release (n := p.tail.aru + 1 - e.out.outTailSeq) (by omega)
  have hgrows := Outbound.release_grows (p.tail.aru + 1 - e.out.outTailSeq) e.out
  refine works_out h (h.dir.grow hwin hgrows ?_) hgrows
  have htail := h.dir.inbound.tail
  have hle := hp.aru_le
  rw [Outbound.release_outTailSeq]
  omega

theorem works_checkAru {o' : Outbound} (h : Good peer e) (hp : SentOk o' peer p)
    (heq : e.checkAru c t p.tail = some e') : Works peer e e' := by
  unfold checkAru at heq
  split at heq
  next haru =>
    split at heq
    · cases heq
    · have hrelease := works_release h hp haru.1 haru.2
      have hsend := hrelease.trans (works_sendNew c t.io hrelease.good false (allowed_le _ t.cwnd))
      have hpack := hsend.trans (works_advance hsend.good (Outbound.advances_pack c t.io hsend.good.dir.outbound))
      cases heq
      exact hpack.trans (works_forwardAll hpack.good t.assigned)
  next =>
    cases heq
    exact Works.refl h

/-! ### Retransmissions -/

theorem works_resend (h : Good peer e) {due : Nat → Bool} {batch : Nat} (hlo : e.out.outTailSeq ≤ seq)
    (hhi : seq + n ≤ e.out.tcpHeadSeq) : Works peer e (resend c io due n seq batch e) := by
  induction n generalizing e seq batch with
  | zero => exact Works.refl h
  | succ n ih =>
    unfold resend
    dsimp only
    split
    · exact Works.refl h
    · split
      · have hmark := works_advance h (Outbound.advances_setCell seq
          { e.out.outgoing (slot seq) with resent := true, nacked := false } h.dir.outbound rfl)
        have hone := hmark.trans (works_sendItDataMsg c io hmark.good hlo (by
          change seq < e.out.tcpHeadSeq
          omega))
        refine hone.trans (ih hone.good ?_ ?_)
        · rw [sendItDataMsg_out]
          exact hlo.trans (Nat.le_succ _)
        · rw [sendItDataMsg_out]
          change seq + 1 + n ≤ e.out.tcpHeadSeq
          omega
      · exact ih h (hlo.trans (Nat.le_succ _)) (by omega)

theorem works_handleItRetransm (h : Good peer e) (due : Nat → Bool) (batch : Nat) :
    Works peer e (e.handleItRetransm c io due batch) := by
  have hle := h.dir.outbound.tail_le
  exact works_resend h (le_refl _) (by omega)

theorem works_checkNacks (h : Good peer e) {k : PktTail} (heq : e.checkNacks c t k = some e') : Works peer e e' := by
  unfold checkNacks at heq
  split at heq
  · cases heq
    exact Works.refl h
  · split at heq
    · cases heq
    · have hmark := works_advance h (Outbound.advances_mark h.dir.outbound k.nacks)
      cases heq
      split
      · exact hmark
      · exact hmark.trans (works_handleItRetransm hmark.good _ _)

theorem works_reliableItTimeout (h : Good peer e) : Works peer e (e.reliableItTimeout c io) := by
  unfold reliableItTimeout
  split
  next hlt =>
    have hmark := works_advance h (Outbound.advances_setCell (e.out.tcpHeadSeq - 1)
      { e.out.outgoing (slot (e.out.tcpHeadSeq - 1)) with resent := true } h.dir.outbound rfl)
    refine hmark.trans (works_sendItDataMsg c io hmark.good ?_ ?_)
    · change e.out.outTailSeq ≤ e.out.tcpHeadSeq - 1
      omega
    · change e.out.tcpHeadSeq - 1 < e.out.tcpHeadSeq
      omega
  next => exact Works.refl h

/-! ### Passing on -/

variable {q : Outbound} {pkt : Payload}

/-- The inbound side goes on. -/
theorem good_inb {i : Inbound} (h : Good peer e) (hi : i.Log) (hpassed : e.inb.passed <+: i.passed) :
    Good peer { e with inb := i } :=
  ⟨h.dir, hi, fun p hp => (h.sent p hp).grow (Outbound.Grows.refl _) hpassed⟩

theorem passOn_works (h : Good peer e) {w : Nat} (hwin : e.inb.Window (w + 1))
    (hcell : e.inb.incoming (slot e.inb.inTailSeq) = .recvd pkt) :
    Good peer (e.passOn c t pkt) ∧ (e.passOn c t pkt).inb = (e.inb.pass pkt).clear (slot e.inb.inTailSeq) := by
  have hpass := good_inb h (hwin.pass hcell).toLog (List.prefix_append _ _)
  have hforward := works_forwardAll (c := c) hpass (t.delivered e.inb.inTailSeq)
  have hlog : (Inbound.clear _ (slot e.inb.inTailSeq)).Log := ⟨hforward.good.log.tail, hforward.good.log.aru⟩
  exact ⟨good_inb hforward.good hlog (List.prefix_refl _),
    congrArg (fun i => Inbound.clear i (slot e.inb.inTailSeq)) hforward.inb⟩

theorem moveAru_good (n : Nat) (h : Good peer e) (hdir : Dir maxSendOnLink q e.inb) :
    Good peer (moveAru c t n e) ∧ Dir maxSendOnLink q (moveAru c t n e).inb := by
  induction n generalizing e with
  | zero => exact ⟨h, hdir⟩
  | succ n ih =>
    unfold moveAru
    split
    next pkt hcell =>
      obtain ⟨hgood, hinb⟩ := passOn_works (c := c) (t := t) h (w := 499) hdir.inbound hcell
      have hpass : Dir 499 q (e.inb.pass pkt) := hdir.pass (by decide) hcell
      exact ih hgood (hinb ▸ hpass.clear rfl rfl)
    next => exact ⟨h, hdir⟩

/-- The rounds suffice: the loop ends at a cell without a packet. -/
theorem moveAru_done (n : Nat) (h : Good peer e) (hwin : e.inb.Window maxSendOnLink)
    (hn : e.inb.inHeadSeq - e.inb.inTailSeq ≤ n) :
    Inbound.Missing ((moveAru c t n e).inb.incoming (slot (moveAru c t n e).inb.inTailSeq)) := by
  induction n generalizing e with
  | zero => exact hwin.ahead _ (Nat.sub_eq_zero_iff_le.mp (Nat.le_zero.mp hn)) (Nat.lt_add_of_pos_right (by decide))
  | succ n ih =>
    unfold moveAru
    split
    next pkt hcell =>
      obtain ⟨hgood, hinb⟩ := passOn_works (c := c) (t := t) h (w := 499) hwin hcell
      have hpass : (e.inb.pass pkt).Window 499 := hwin.pass hcell
      refine ih hgood (hinb ▸ hpass.clear rfl rfl) ?_
      rw [hinb]
      change e.inb.inHeadSeq - (e.inb.inTailSeq + 1) ≤ n
      omega
    next hcell => exact hcell

theorem checkLinkSeq_good {i : Inbound} (h : Good peer e) (hdir : Dir maxSendOnLink q e.inb) (hp : SentOk q i p) :
    Good peer (e.checkLinkSeq c t p) ∧ Dir maxSendOnLink q (e.checkLinkSeq c t p).inb := by
  unfold checkLinkSeq
  split
  · exact ⟨h, hdir⟩
  · rename_i hne
    obtain ⟨hlt, hentry⟩ := hp.data hne
    split
    · exact ⟨h, hdir⟩
    · rename_i i' hstore
      obtain ⟨hdir', hpassed⟩ := hdir.store hlt hentry hstore
      exact moveAru_good _ (good_inb h hdir'.inbound.toLog (hpassed ▸ List.prefix_refl _)) hdir'

theorem processIntruTolPacket_good (h : Good peer e) (hdir : Dir maxSendOnLink q e.inb) (hp : SentOk q peer p) :
    Good peer (e.processIntruTolPacket c t p) ∧ Dir maxSendOnLink q (e.processIntruTolPacket c t p).inb := by
  unfold processIntruTolPacket
  split
  · exact ⟨h, hdir⟩
  · unfold processItAck
    split
    · exact ⟨h, hdir⟩
    · rename_i e₁ haru
      have h₁ := works_checkAru h hp haru
      split
      · exact ⟨h₁.good, h₁.inb ▸ hdir⟩
      · rename_i e₂ hnacks
        have h₂ := h₁.trans (works_checkNacks h₁.good hnacks)
        exact checkLinkSeq_good h₂.good (h₂.inb ▸ hdir) hp

end LinkEnd

/-! ## The start -/

namespace Outbound

variable {c : Conf} {io : Io} {o : Outbound}

theorem window_restart (h : o.outNonceDigest 0 = 0) : o.restart.Window where
  head := rfl
  pos := le_refl _
  tail_le := le_refl _
  tcp_le := le_refl _
  head_le := Nat.le_add_right _ _
  numbered k x hx := by cases hx
  cells := Stored.of_empty (le_refl _)
  nonces := Stored.of_empty (le_refl _)
  digests seq _ hlt := by
    have hzero : seq = 0 := Nat.lt_one_iff.mp hlt
    rw [hzero]
    exact h

theorem release_outNonceDigest (n : Nat) (o : Outbound) : (o.release n).outNonceDigest = o.outNonceDigest := by
  induction n generalizing o with
  | zero => rfl
  | succ n ih => exact ih o.releaseTail

/-- A list of packets that fits in is placed. -/
theorem window_foldl_place (io : Io) (pkts : List Payload) (h : o.Window)
    (hroom : o.outHeadSeq + pkts.length ≤ o.outTailSeq + maxSendOnLink) :
    (pkts.foldl (fun o pkt => o.place pkt (nonce io o.outHeadSeq)) o).Window ∧
      (pkts.foldl (fun o pkt => o.place pkt (nonce io o.outHeadSeq)) o).outTailSeq = o.outTailSeq := by
  induction pkts generalizing o with
  | nil => exact ⟨h, rfl⟩
  | cons pkt pkts ih =>
    have hle := h.tail_le.trans h.tcp_le
    rw [List.length_cons] at hroom
    refine ih (h.place (by omega) pkt _) ?_
    change o.outHeadSeq + 1 + pkts.length ≤ o.outTailSeq + maxSendOnLink
    omega

theorem length_kept_le (o : Outbound) : o.kept.length ≤ o.outHeadSeq - o.outTailSeq := by
  have hdrop := (List.dropWhile_suffix (l := (List.range' o.outTailSeq (o.outHeadSeq - o.outTailSeq)).filterMap
    fun seq => (o.outgoing (slot seq)).pkt) fun pkt => decide ((pkt.head?.map Fragment.fragIdx) ≠ some 1)).length_le
  have hfilter := List.length_filterMap_le (fun seq => (o.outgoing (slot seq)).pkt)
    (List.range' o.outTailSeq (o.outHeadSeq - o.outTailSeq))
  rw [List.length_range'] at hfilter
  exact hdrop.trans hfilter

theorem window_reintroduce (io : Io) (h : o.outNonceDigest 0 = 0) (hsize : o.outHeadSeq ≤ o.outTailSeq + maxSendOnLink) :
    (o.reintroduce io).Window ∧ (o.reintroduce io).outTailSeq = linkStartSeq := by
  have hlen := o.length_kept_le
  obtain ⟨hwin, htail⟩ := window_foldl_place io o.kept (window_restart h) (by
    change linkStartSeq + o.kept.length ≤ linkStartSeq + maxSendOnLink
    omega)
  have hle := hwin.tail_le.trans hwin.tcp_le
  have htcp : linkStartSeq ≤ min (linkStartSeq + 1) _ := le_min (Nat.le_succ _) (htail ▸ hle)
  exact ⟨{ hwin with tail_le := htail ▸ htcp, tcp_le := min_le_right _ _ }, htail⟩

end Outbound

/-- An end as it begins an incarnation: nothing was acknowledged, received or sent. -/
structure LinkEnd.Fresh (e : LinkEnd) : Prop where
  outbound : e.out.Window
  outTail : e.out.outTailSeq = linkStartSeq
  inTail : e.inb.inTailSeq = linkStartSeq
  inHead : e.inb.inHeadSeq = linkStartSeq
  aru : e.inb.aruNonceDigest = 0
  missing : ∀ seq, Inbound.Missing (e.inb.incoming (slot seq))
  passed : e.inb.passed = []
  sent : e.sent = []

theorem fresh_createLink (now : Nat) : (createLink now).Fresh where
  outbound := Outbound.window_restart (o := .created) rfl
  outTail := rfl
  inTail := rfl
  inHead := rfl
  aru := rfl
  missing _ _ hpkt := by cases hpkt
  passed := rfl
  sent := rfl

/-- The cells that may have a packet are emptied. -/
theorem missing_reset {i : Inbound} (h : i.Window maxSendOnLink) (seq : Nat) :
    Inbound.Missing (i.reset.incoming (slot seq)) := by
  -- The slot is that of a number of the window.
  obtain ⟨k, hlo, hhi, hslot⟩ : ∃ k, i.inTailSeq ≤ k ∧ k < i.inTailSeq + maxSendOnLink ∧ slot k = slot seq := by
    refine ⟨i.inTailSeq + (seq + (maxSendOnLink - i.inTailSeq % maxSendOnLink)) % maxSendOnLink,
      Nat.le_add_right _ _, Nat.add_lt_add_left (Nat.mod_lt _ (by decide)) _, ?_⟩
    unfold slot maxSendOnLink
    omega
  change Inbound.Missing (List.foldl (fun f k => update f (slot k) .empty) i.incoming i.seqs (slot seq))
  rw [Lib.foldl_update_apply, ← hslot]
  split
  next => exact fun pkt hpkt => by cases hpkt
  next hnot =>
    refine h.ahead k ?_ hhi
    by_contra hlt
    refine hnot (List.mem_map_of_mem ?_)
    rw [Inbound.seqs, List.mem_range'_1]
    omega

theorem fresh_incarnationChange {c : Conf} {io : Io} {e : LinkEnd} (ho : e.out.Window) (hi : e.inb.Window maxSendOnLink)
    (hup : io.up = true) (reintroduceMessages : Bool) (newNgbrInc : Nat) :
    (e.incarnationChange c reintroduceMessages io newNgbrInc).Fresh := by
  unfold LinkEnd.incarnationChange
  rw [if_pos hup]
  have hzero : (e.out.resetDigests e.inb).outNonceDigest 0 = 0 := by
    simp only [Outbound.resetDigests, update_self]
  have hout : ∀ o : Outbound, o.Window → o.outTailSeq = linkStartSeq →
      LinkEnd.Fresh { e with out := o, inb := e.inb.reset, ngbrIncarnation := newNgbrInc, sent := [] } :=
    fun o hw htail => ⟨hw, htail, rfl, rfl, rfl, missing_reset hi, rfl, rfl⟩
  dsimp only
  split
  · obtain ⟨hwin, htail⟩ := Outbound.window_reintroduce io hzero ho.head_le
    have hpack := Outbound.advances_pack c io hwin
    exact hout _ hpack.window (hpack.tail_eq.trans htail)
  · refine hout _ (Outbound.window_restart ?_) rfl
    change Outbound.outNonceDigest (Outbound.release _ _) 0 = 0
    rw [Outbound.release_outNonceDigest, hzero]

/-! ## Runs -/

/-- Each end is right for what the other has received. -/
def Inv (s : Ends) : Prop := ∀ x, Good (s !x).inb (s x)

section Runs

variable {c : Conf} {s : Ends} {e peer : LinkEnd}

theorem window_of_fresh (h : e.Fresh) : e.inb.Window maxSendOnLink where
  tail := by rw [h.inTail, h.passed]; rfl
  aru := by rw [h.aru, h.passed]; rfl
  tail_le := (h.inTail.trans h.inHead.symm).le
  head_le := by rw [h.inHead, h.inTail]; exact Nat.le_add_right _ _
  ahead k _ _ := h.missing k

theorem good_of_fresh (h : e.Fresh) (hpeer : peer.Fresh) : Good peer.inb e where
  dir :=
    { outbound := h.outbound
      inbound := window_of_fresh hpeer
      passed := hpeer.passed ▸ List.nil_prefix
      le_in := (h.outTail.trans hpeer.inTail.symm).le
      in_le := (hpeer.inTail.trans h.outTail.symm).le.trans h.outbound.tail_le
      early := fun k _ _ pkt hpkt => absurd hpkt (hpeer.missing k pkt) }
  log := (window_of_fresh h).toLog
  sent p hp := by
    rw [h.sent] at hp
    cases hp

theorem handle_good (h : Good peer.inb e) (hpeer : Good e.inb peer) (ev : Event) :
    Good peer.inb (handle c peer e ev) ∧ Good (handle c peer e ev).inb peer := by
  have hworks : ∀ e', Works peer.inb e e' → Good peer.inb e' ∧ Good e'.inb peer :=
    fun e' hw => ⟨hw.good, hw.inb ▸ hpeer⟩
  cases ev with
  | forward r => exact hworks _ (LinkEnd.works_forward h r)
  | receive p t =>
    by_cases hp : p ∈ peer.sent
    · have heq : handle c peer e (.receive p t) = e.processIntruTolPacket c t p := if_pos hp
      obtain ⟨hgood, hdir⟩ := LinkEnd.processIntruTolPacket_good (c := c) (t := t) h hpeer.dir (hpeer.sent p hp)
      rw [heq]
      exact ⟨hgood, { hpeer with dir := hdir }⟩
    · have heq : handle c peer e (.receive p t) = e := if_neg hp
      rw [heq]
      exact ⟨h, hpeer⟩
  | ackTimeout io => exact hworks _ (LinkEnd.works_sendItAck h)
  | reliableTimeout io => exact hworks _ (LinkEnd.works_reliableItTimeout h)
  | retransm io due batch => exact hworks _ (LinkEnd.works_handleItRetransm h due batch)

theorem inv_step (h : Inv s) (x : Bool × Event) : Inv (step c s x) := by
  obtain ⟨a, ev⟩ := x
  have hself := h !a
  rw [Bool.not_not] at hself
  obtain ⟨hgood, hpeer⟩ := handle_good (c := c) (h a) hself ev
  have hne : (!a) ≠ a := Bool.not_ne_self a
  intro y
  unfold step
  rcases Bool.eq_or_eq_not y a with rfl | rfl
  · rw [update_self, update_of_ne hne]
    exact hgood
  · rw [update_of_ne hne, Bool.not_not, update_self]
    exact hpeer

end Runs

/-- From a sender to a receiver, with what the receiver sent: what was passed on is the beginning of
what was placed, in the order of the numbers, the tails and heads stand in order and not further
apart than the window, what was not passed on yet is in its slot, and the digests of the
acknowledgements in the window are right. -/
structure Fifo (o : Outbound) (i : Inbound) (acks : List Packet) : Prop where
  passed : i.passed <+: o.placed
  numbered : o.placed.map Entry.seq = List.range' linkStartSeq o.placed.length
  tail_le : o.outTailSeq ≤ i.inTailSeq
  in_le : i.inTailSeq ≤ o.tcpHeadSeq
  tcp_le : o.tcpHeadSeq ≤ o.outHeadSeq
  head_le : o.outHeadSeq ≤ o.outTailSeq + maxSendOnLink
  kept : ∀ x ∈ o.placed, x ∉ i.passed → (o.outgoing (slot x.seq)).pkt = some x.pkt
  answers : ∀ p ∈ acks, o.outTailSeq ≤ p.tail.aru → p.tail.aru < o.tcpHeadSeq →
    p.tail.aruNonce = o.outNonceDigest (slot p.tail.aru)

theorem fifo_of_good {e peer : LinkEnd} (h : Good peer.inb e) (hpeer : Good e.inb peer) :
    Fifo e.out peer.inb peer.sent where
  passed := h.dir.passed
  numbered := h.dir.outbound.map_seq
  tail_le := h.dir.le_in
  in_le := h.dir.in_le
  tcp_le := h.dir.outbound.tcp_le
  head_le := h.dir.outbound.head_le
  kept x hx hnot := by
    have hwin := h.dir.outbound
    obtain ⟨k, hk, rfl⟩ := List.mem_iff_getElem.mp hx
    have hentry := List.getElem?_eq_getElem hk
    have hseq := hwin.numbered k _ hentry
    have hlate : peer.inb.passed.length ≤ k := by
      by_contra hlt
      have hsame := h.dir.passed.getElem (not_le.mp hlt)
      exact hnot (hsame ▸ List.getElem_mem (not_le.mp hlt))
    have htail := h.dir.inbound.tail
    have hle := h.dir.le_in
    have hhead := hwin.head
    obtain ⟨y, hy, hcell⟩ := hwin.cells (k + 1) (by omega) (by omega)
    have hxy : y = e.out.placed[k] := Option.some.inj (hy.symm.trans hentry)
    rw [hseq, slot, hcell, hxy]
  answers p hp := LinkEnd.aruNonce_eq h (hpeer.sent p hp)

/-- **The link is an exactly-once FIFO**, in both directions and in every state of every run from two
ends that begin an incarnation. -/
theorem link_fifo (c : Conf) {s : Ends} (h : ∀ x, (s x).Fresh) (run : List (Bool × Event)) :
    Always (step c) (fun s => ∀ x, Fifo (s x).out (s !x).inb (s !x).sent) s run := by
  have h0 : Inv s := fun x => good_of_fresh (h x) (h !x)
  have hrun : Always (step c) Inv s run := Lib.always_inv (fun _ x hs => inv_step hs x) h0
  refine hrun.imp fun s hs x => ?_
  have hback := hs !x
  rw [Bool.not_not] at hback
  exact fifo_of_good (hs x) hback

/-! ### An exchange -/

/-- The link can be used, and `rand` counts. -/
def Io.plain : Io := { up := true, sends := fun _ => true, expired := fun _ => true, rand := fun k => BitVec.ofNat 64 k }

/-- Two ends that have learnt each other's incarnation. -/
def meeting : Ends := fun x => (createLink x.toNat).incarnationChange ⟨true⟩ false .plain (!x).toNat

/-- A message of one fragment is forwarded, received twice, and acknowledged. -/
def exchange : List (Bool × Event) :=
  let t : LinkEnd.Turn := ⟨.plain, 10, [], fun _ => [], false, 0, fun _ => true⟩
  let n := Outbound.nonce .plain 1
  let data : Packet := ⟨[⟨[1, 2, 3], 1, 1⟩], ⟨1, n, 0, 0, 1, 0, []⟩⟩
  [(true, .forward ⟨⟨packetHeaderSize, [[1, 2, 3]], by decide⟩, 10, .plain⟩), (false, .receive data t),
    (false, .receive data t), (false, .ackTimeout .plain), (true, .receive ⟨[], ⟨0, 0, 1, n, 0, 1, []⟩⟩ t)]

theorem exchange_fifo : Always (step ⟨true⟩) (fun s => ∀ x, Fifo (s x).out (s !x).inb (s !x).sent) meeting exchange := by
  have hcreated := fun x : Bool => fresh_createLink x.toNat
  exact link_fifo ⟨true⟩
    (fun x => fresh_incarnationChange (hcreated x).outbound (window_of_fresh (hcreated x)) rfl false _) exchange

example :
    let s := exchange.foldl (step ⟨true⟩) meeting
    (s false).inb.passed.map Entry.seq = [1] ∧ (s true).out.outTailSeq = 2 := by decide

end Spire.ItLink
