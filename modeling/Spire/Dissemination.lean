import Spire.MultiPath

/-!
# Source based routing

A packet that its sender stamped with a mask is passed on by every node to the neighbors on the
mask. A node remembers, for each source and each of `SOURCE_HIST_SIZE` slots, the last number it
passed on, and drops what it had before or cannot tell (`Source_Based_Disseminate`). So no node
takes a packet twice, whatever is sent to it (`accepted_once`), and two packets of a source that
share a slot are far from each other (`window_le`).

The nodes are named by the ids that the tables of the configuration file give their addresses.
-/

namespace Spire.Dissemination

open Function (update)
open MultiPath (Conf)

/-- `SOURCE_HIST_SIZE`. -/
def histSize : Nat := 100000

/-- `seq_pair`. -/
structure SeqPair where
  seq : Nat
  inc : Nat
deriving DecidableEq

/-- Of the headers of a packet and the mask behind them, what routing reads. -/
structure Packet where
  source : Nat
  dest : Nat
  ttl : Nat
  seq : SeqPair
  mask : Nat
deriving DecidableEq

/-- `Source_Seq_Hist`, by source and slot. -/
abbrev History := Nat × Nat → SeqPair

def Packet.slot (pkt : Packet) : Nat × Nat := (pkt.source, pkt.seq.seq % histSize)

def Packet.hop (pkt : Packet) : Packet := { pkt with ttl := pkt.ttl - 1 }

section Handle

variable (c : Conf) (self : Nat) (hist : History) (lastHop : Nat) (pkt : Packet)

/-- `Source_Based_Disseminate`: the neighbors that the packet is sent to; none for `NO_ROUTE`. -/
def disseminate : Option (History × List Nat) :=
  if pkt.source ∉ c.nodes then none
  else
    let prev := hist pkt.slot
    if prev.seq = pkt.seq.seq ∧ prev.inc = pkt.seq.inc then none
    else if prev.inc > pkt.seq.inc ∨ (prev.seq > pkt.seq.seq ∧ prev.inc = pkt.seq.inc) then none
    else
      some (update hist pkt.slot pkt.seq, (c.neighbors self).filter fun ngbr =>
        ¬(ngbr = lastHop ∨ ngbr = pkt.source ∨ self = pkt.dest ∨ ¬c.neighborOnPath self pkt.mask ngbr))

/-- What a packet leads to: copies for neighbors, and whether it is for a client here. -/
structure Outcome where
  hist : History
  copies : List (Nat × Packet)
  mine : Bool

/-- `Deliver_and_Forward_Data` for a packet to one node. -/
def deliverAndForward : Option Outcome :=
  if pkt.ttl = 0 then none
  else
    (disseminate c self hist lastHop pkt.hop).map fun (hist, ngbrs) =>
      { hist := hist, copies := ngbrs.map fun ngbr => (ngbr, pkt.hop), mine := pkt.dest = self }

end Handle

/-- The number of the next packet of a source: `My_Source_Seq` and `My_Source_Incarnation`. -/
def SeqPair.next (s : SeqPair) : SeqPair :=
  if (s.seq + 1) % 2 ^ 32 = 0 then { seq := 1, inc := s.inc + 1 } else { seq := (s.seq + 1) % 2 ^ 32, inc := s.inc }

/-- Packets that come in one after the other, each from some neighbor; the numbers of those that are taken. -/
def handleAll (c : Conf) (self : Nat) : History → List (Nat × Packet) → List (Nat × SeqPair)
  | _, [] => []
  | hist, (lastHop, pkt) :: rest =>
    match deliverAndForward c self hist lastHop pkt with
    | none => handleAll c self hist rest
    | some out => (pkt.source, pkt.seq) :: handleAll c self out.hist rest

/-! ## The order of the numbers -/

/-- A number that was given before another. -/
def SeqPair.Older (a b : SeqPair) : Prop := a.inc < b.inc ∨ a.inc = b.inc ∧ a.seq < b.seq

instance (a b : SeqPair) : Decidable (a.Older b) := by
  unfold SeqPair.Older
  infer_instance

variable {c : Conf} {self lastHop : Nat} {hist : History} {pkt : Packet} {out : Outcome} {a b : SeqPair}

theorem SeqPair.Older.trans {a b d : SeqPair} (h : a.Older b) (h' : b.Older d) : a.Older d := by
  unfold Older at *
  omega

theorem SeqPair.Older.ne (h : a.Older b) : a ≠ b := by
  rintro rfl
  unfold Older at h
  omega

theorem SeqPair.eq_or_older (h : ¬b.Older a) : a = b ∨ a.Older b := by
  obtain ⟨seq, inc⟩ := a
  obtain ⟨seq', inc'⟩ := b
  simp only [Older, mk.injEq] at h ⊢
  omega

/-- The neighbors that a packet is sent to when it is taken. -/
def nextHops (c : Conf) (self lastHop : Nat) (pkt : Packet) : List Nat :=
  (c.neighbors self).filter fun ngbr =>
    ¬(ngbr = lastHop ∨ ngbr = pkt.source ∨ self = pkt.dest ∨ ¬c.neighborOnPath self pkt.mask ngbr)

theorem disseminate_eq : disseminate c self hist lastHop pkt =
    if pkt.source ∈ c.nodes ∧ (hist pkt.slot).Older pkt.seq then some (update hist pkt.slot pkt.seq, nextHops c self lastHop pkt)
    else none := by
  unfold disseminate
  by_cases hsrc : pkt.source ∈ c.nodes
  swap
  · rw [if_pos hsrc, if_neg fun h => hsrc h.1]
  rw [if_neg (by simpa using hsrc)]
  dsimp only
  by_cases hold : (hist pkt.slot).Older pkt.seq
  · have hlt := hold
    unfold SeqPair.Older at hlt
    rw [if_neg (by omega), if_neg (by omega), if_pos ⟨hsrc, hold⟩]
    rfl
  · have hnot : ¬(pkt.source ∈ c.nodes ∧ (hist pkt.slot).Older pkt.seq) := fun h => hold h.2
    rw [if_neg hnot]
    unfold SeqPair.Older at hold
    split
    · rfl
    · rw [if_pos (by omega)]

/-- A packet is taken when it has hops left and its slot has an older number. -/
def Taken (c : Conf) (hist : History) (pkt : Packet) : Prop := 0 < pkt.ttl ∧ pkt.source ∈ c.nodes ∧ (hist pkt.slot).Older pkt.seq

instance (c : Conf) (hist : History) (pkt : Packet) : Decidable (Taken c hist pkt) := by
  unfold Taken
  infer_instance

theorem deliverAndForward_eq : deliverAndForward c self hist lastHop pkt =
    if Taken c hist pkt then
      some { hist := update hist pkt.slot pkt.seq
             copies := (nextHops c self lastHop pkt).map fun ngbr => (ngbr, pkt.hop)
             mine := pkt.dest = self }
    else none := by
  unfold deliverAndForward
  by_cases httl : pkt.ttl = 0
  · rw [if_pos httl, if_neg fun h => absurd h.1 (by omega)]
  rw [if_neg httl, disseminate_eq]
  by_cases hboth : pkt.source ∈ c.nodes ∧ (hist pkt.slot).Older pkt.seq
  · rw [if_pos (show pkt.hop.source ∈ c.nodes ∧ (hist pkt.hop.slot).Older pkt.hop.seq from hboth),
      if_pos (show Taken c hist pkt from ⟨Nat.pos_of_ne_zero httl, hboth⟩)]
    rfl
  · rw [if_neg (show ¬(pkt.hop.source ∈ c.nodes ∧ (hist pkt.hop.slot).Older pkt.hop.seq) from hboth),
      if_neg (show ¬Taken c hist pkt from fun h => hboth h.2)]
    rfl

theorem deliverAndForward_some : deliverAndForward c self hist lastHop pkt = some out ↔ Taken c hist pkt ∧
    out = { hist := update hist pkt.slot pkt.seq
            copies := (nextHops c self lastHop pkt).map fun ngbr => (ngbr, pkt.hop)
            mine := pkt.dest = self } := by
  rw [deliverAndForward_eq]
  split
  · rename_i h
    simp [h, eq_comm]
  · rename_i h
    simp [h]

/-- What is taken is newer than what its slot had. -/
theorem older_of_mem_handleAll {pkts : List (Nat × Packet)} {s : Nat} (h : (s, a) ∈ handleAll c self hist pkts) :
    (hist (s, a.seq % histSize)).Older a := by
  induction pkts generalizing hist with
  | nil => cases h
  | cons x pkts ih =>
    obtain ⟨lastHop, pkt⟩ := x
    unfold handleAll at h
    split at h
    · exact ih h
    · rename_i out hout
      obtain ⟨⟨-, -, hold⟩, rfl⟩ := deliverAndForward_some.mp hout
      rcases List.mem_cons.mp h with heq | hrest
      · obtain ⟨rfl, rfl⟩ := Prod.mk.inj heq
        exact hold
      · have hnew := ih hrest
        dsimp only at hnew
        by_cases hslot : (s, a.seq % histSize) = pkt.slot
        · rw [hslot] at hnew ⊢
          rw [Function.update_self] at hnew
          exact hold.trans hnew
        · rwa [Function.update_of_ne hslot] at hnew

/-- **No packet is taken twice**, whatever comes in from whatever neighbor and in whatever order. -/
theorem accepted_once (c : Conf) (self : Nat) (hist : History) (pkts : List (Nat × Packet)) : (handleAll c self hist pkts).Nodup := by
  induction pkts generalizing hist with
  | nil => exact List.nodup_nil
  | cons x pkts ih =>
    obtain ⟨lastHop, pkt⟩ := x
    unfold handleAll
    split
    · exact ih hist
    · rename_i out hout
      obtain ⟨-, rfl⟩ := deliverAndForward_some.mp hout
      refine List.nodup_cons.mpr ⟨fun hmem => ?_, ih _⟩
      have hnew := older_of_mem_handleAll hmem
      dsimp only at hnew
      rw [show (pkt.source, pkt.seq.seq % histSize) = pkt.slot from rfl, Function.update_self] at hnew
      exact hnew.ne rfl

/-! ## The numbers of a source -/

/-- A number that a source can give. -/
def SeqPair.Valid (a : SeqPair) : Prop := 1 ≤ a.seq ∧ a.seq < 2 ^ 32

/-- Numbers in the order in which they are given, counted through. -/
def SeqPair.position (a : SeqPair) : Nat := a.inc * (2 ^ 32 - 1) + a.seq

/-- How many more packets a source sends, at least, before a slot is used again. Where the sequence numbers
start again it is fewer than there are slots. -/
def window : Nat := (2 ^ 32 - 1) % histSize

theorem position_next (h : a.seq < 2 ^ 32) : a.next.position = a.position + 1 ∧ a.next.Valid := by
  unfold SeqPair.next SeqPair.position SeqPair.Valid
  split <;> dsimp only <;> omega

theorem older_iff_position (ha : a.Valid) (hb : b.Valid) : a.Older b ↔ a.position < b.position := by
  unfold SeqPair.Valid at ha hb
  unfold SeqPair.Older SeqPair.position
  omega

/-- Numbers that share a slot are far from each other. -/
theorem window_le (ha : a.Valid) (hb : b.Valid) (hslot : a.seq % histSize = b.seq % histSize) (h : a.position < b.position) :
    a.position + window ≤ b.position := by
  unfold SeqPair.Valid at ha hb
  unfold histSize at hslot
  unfold SeqPair.position at h ⊢
  unfold window histSize
  rcases (by omega : b.inc = a.inc ∨ b.inc = a.inc + 1 ∨ a.inc + 2 ≤ b.inc) with heq | heq | hlt
  · rw [heq] at h ⊢
    omega
  · rw [heq] at h ⊢
    omega
  · omega

end Spire.Dissemination
