import Mathlib.Data.List.DropRight
import Spire.Lib.LinkedQueue
import Spire.TcDelivery

/-!
# The queue of threshold shares in memory

`tcq_pending` as `itrc.c` has it: nodes linked from a head that is part of the queue, with a
pointer to the last of them and a count. `ITRC_Insert_TC_ID` splices nodes in,
`ITRC_TC_Ready_Deliver` and `ITRC_Apply_State_Transfer` take nodes out and move
`applied_ord`, and `ITRC_Reset_Master_Data_Structures` empties the queue.

A step that would follow a bad pointer, fail the assertion or hand out the null pointer has no
result. Each operation does to the linked nodes what its counterpart on lists does, so that
every run has a result, and in it the queue is in order.
-/

namespace Spire.Itrc

open Lib

variable {P S G : Type}

/-- `tcq_pending` and `applied_ord`. Since the last reset, `trail` has every value of
`applied_ord` and `handed` every message that `ITRC_TC_Ready_Deliver` has returned. -/
structure TcMemory (P S : Type) where
  appliedOrd : Ordinal
  tcq : LinkedQueue (TcNode P S)
  trail : List Ordinal
  handed : List (TcFinal P S)

/-- What can happen to the queue of a control-center replica. A share with the replica's own
number is its own share. -/
inductive TcCall (P S : Type)
  | share (sender : Nat) (tcm : TcShare P S)
  | skip (o : Ordinal)
  | deliver
  | transfer (o : Ordinal)
  | reset

/-! ## The code -/

section Code

variable (k : Crypto P S G) (c : Site)

/-- `tcq->tail->ord`. The head is a node that has never been written to. -/
def tailOrd (q : LinkedQueue (TcNode P S)) : Option Ordinal :=
  match q.tail with
  | none => some zeroOrd
  | some a => (q.get a).map TcNode.ord

/-- The first part of `ITRC_Insert_TC_ID`: `ptr`, and whether there is to be a new entry
behind it. -/
def findPlace (q : LinkedQueue (TcNode P S)) (o : Ordinal) : Option (Option Nat × Bool) := do
  let last ← tailOrd q
  if q.first = none ∨ 0 < ordCompare o last then some (q.tail, true)
  else
    let ptr ← q.walk (fun n => 0 < ordCompare o n.ord) (q.size + 1) none
    match ← q.next ptr with
    | none => some (ptr, true)
    | some a =>
      let n ← q.get a
      if ordCompare o n.ord = 0 then some (some a, false) else some (ptr, true)

/-- `ITRC_Insert_TC_ID`, but for what it does to the node. -/
def TcMemory.insertTcId (s : TcMemory P S) (o : Ordinal) (f : TcNode P S → TcNode P S) : Option (TcMemory P S) :=
  if ordCompare o s.appliedOrd ≤ 0 then some s
  else do
    let (ptr, newEntry) ← findPlace s.tcq o
    if newEntry then
      let q ← s.tcq.insertAfter ptr (TcNode.new o)
      some { s with tcq := q.modify s.tcq.brk f }
    else
      let a ← ptr
      some { s with tcq := s.tcq.modify a f }

/-- `applied_ord` moves. -/
def TcMemory.moveUp (s : TcMemory P S) (o : Ordinal) : TcMemory P S :=
  { s with appliedOrd := o, trail := s.trail ++ [o] }

/-- `ITRC_TC_Ready_Deliver`. -/
def TcMemory.readyDeliver : Nat → TcMemory P S → Option (TcMemory P S)
  | 0, _ => none
  | fuel + 1, s =>
    match s.tcq.first with
    | none => some s
    | some a => do
      let n ← s.tcq.get a
      if Ready c s.appliedOrd n then
        let (q, _, _) ← s.tcq.removeFirst
        if q.size = 0 ∧ q.first ≠ none then none
        else
          let q := { q with tail := if q.tail = some a then none else q.tail }
          let s := { s.moveUp n.ord with tcq := q }
          if n.skip = false then
            let t ← n.tcf
            some { s with handed := s.handed ++ [t] }
          else TcMemory.readyDeliver fuel s
      else some s

/-- The loops that free the nodes from the head on. -/
def freeWhile (doomed : TcNode P S → Bool) : Nat → LinkedQueue (TcNode P S) → Option (LinkedQueue (TcNode P S))
  | 0, _ => none
  | fuel + 1, q =>
    match q.first with
    | none => some q
    | some a => do
      let n ← q.get a
      if doomed n then
        let (q, _, _) ← q.removeFirst
        freeWhile doomed fuel q
      else some q

/-- `ITRC_Apply_State_Transfer`, for an ordinal that `ITRC_Insert_ST_ID` does not take for an
old one. -/
def TcMemory.applyStateTransfer (s : TcMemory P S) (o : Ordinal) : Option (TcMemory P S) :=
  if ordCompare o s.appliedOrd ≤ 0 then some s
  else do
    let q ← freeWhile (fun n => ordCompare n.ord o ≤ 0) (s.tcq.size + 1) s.tcq
    some { s.moveUp o with tcq := { q with tail := if q.size = 0 then none else q.tail } }

/-- After `ITRC_Reset_Master_Data_Structures`. -/
def TcMemory.fresh (q : LinkedQueue (TcNode P S)) : TcMemory P S :=
  { appliedOrd := zeroOrd
    tcq := { q with first := none, tail := none, size := 0 }
    trail := [zeroOrd]
    handed := [] }

/-- `ITRC_Reset_Master_Data_Structures`. -/
def TcMemory.resetMasterDataStructures (s : TcMemory P S) : Option (TcMemory P S) := do
  let q ← freeWhile (fun _ => true) (s.tcq.size + 1) s.tcq
  some (TcMemory.fresh q)

/-- One step. -/
def TcMemory.step (s : TcMemory P S) : TcCall P S → Option (TcMemory P S)
  | .share sender tcm => s.insertTcId tcm.ord (TcNode.receive k c sender tcm)
  | .skip o => s.insertTcId o (TcNode.pass c)
  | .deliver => s.readyDeliver c (s.tcq.size + 1)
  | .transfer o => s.applyStateTransfer o
  | .reset => s.resetMasterDataStructures

/-- A run from the start of the program, with nothing allocated. -/
def TcMemory.run (xs : List (TcCall P S)) : Option (TcMemory P S) :=
  xs.foldlM (TcMemory.step k c) (TcMemory.fresh (LinkedQueue.empty 0))

def TcCall.isReset : TcCall P S → Bool
  | .reset => true
  | _ => false

/-- The calls since the last reset. -/
def sinceReset (xs : List (TcCall P S)) : List (TcCall P S) := xs.rtakeWhile fun x => !x.isReset

/-- The replica's own share for an ordinal is among some calls. -/
def OwnShare (xs : List (TcCall P S)) (key : Nat ×ₗ Nat) : Prop :=
  ∃ tcm : TcShare P S, .share c.myId tcm ∈ xs ∧ tcm.ord.key = key

end Code

/-! ## What every step keeps -/

section Invariant

variable {k : Crypto P S G} {c : Site} {n : TcNode P S} {sender : Nat} {tcm : TcShare P S} {o : Ordinal}
  {own own' : Nat ×ₗ Nat → Prop} {s : TcMemory P S} {ns : List (Nat × TcNode P S)}

/-- What holds of a node: it has its message once it is done, and the replica's own share was
inserted unless it passed over the ordinal. -/
structure TcNode.Kept (c : Site) (own : Nat ×ₗ Nat → Prop) (n : TcNode P S) : Prop where
  message : n.done = true → n.skip = false → ∃ t, n.tcf = some t ∧ t.ord.key = n.key
  own : n.recvd c.myId = true → n.skip = false → own n.key

/-- What holds of the queue. -/
structure TcMemory.Inv (c : Site) (own : Nat ×ₗ Nat → Prop) (s : TcMemory P S) (ns : List (Nat × TcNode P S)) :
    Prop where
  holds : s.tcq.Holds ns
  keyed : Keyed TcNode.key (ns.map Prod.snd)
  above : ∀ n ∈ ns.map Prod.snd, s.appliedOrd.key < n.key
  kept : ∀ n ∈ ns.map Prod.snd, n.Kept c own
  last : s.trail.getLast? = some s.appliedOrd
  ascending : Keyed Ordinal.key s.trail
  handed : (s.handed.map fun t => t.ord.key).Sublist (s.trail.map Ordinal.key)
  owned : ∀ t ∈ s.handed, own t.ord.key

theorem TcNode.kept_new (o : Ordinal) : (TcNode.new o : TcNode P S).Kept c own where
  message h := by cases h
  own h := by cases h

theorem TcNode.Kept.mono (h : n.Kept c own) (himp : ∀ key, own key → own' key) : n.Kept c own' where
  message := h.message
  own hrecvd hskip := himp _ (h.own hrecvd hskip)

theorem constructTcFinal_ord {t : TcFinal P S} (h : constructTcFinal k c o n = some t) : t.ord = o := by
  unfold constructTcFinal at h
  split_ifs at h
  dsimp only at h
  split at h
  · cases h
  · split_ifs at h
    cases h
    rfl

/-- The own share is inserted where the node of its ordinal takes it. -/
theorem TcNode.Kept.receive (h : n.Kept c own) (hkey : tcm.ord.key = n.key) (hown : sender = c.myId → own n.key) :
    (n.receive k c sender tcm).Kept c own := by
  unfold TcNode.receive
  split_ifs with hold
  · exact h
  obtain ⟨hdone, hrecvd⟩ := not_or.mp hold
  have hstored : (n.store sender tcm).recvd c.myId = true → n.skip = false → own n.key := by
    intro hmy hskip
    by_cases hs : sender = c.myId
    · exact hown hs
    · refine h.own ?_ hskip
      have hsame : (n.store sender tcm).recvd c.myId = n.recvd c.myId := Function.update_of_ne (Ne.symm hs) _ _
      exact hsame ▸ hmy
  unfold TcNode.combine
  split_ifs with hready
  · cases hfinal : constructTcFinal k c tcm.ord (n.store sender tcm) with
    | none => exact ⟨fun _ => nofun, fun _ => nofun⟩
    | some t =>
      have hord := congrArg Ordinal.key (constructTcFinal_ord hfinal)
      exact ⟨fun _ _ => ⟨t, rfl, hord.trans hkey⟩, hstored⟩
  · exact ⟨fun hd => absurd hd hdone, hstored⟩

theorem TcNode.Kept.pass (h : n.Kept c own) : (n.pass c).Kept c own := by
  unfold TcNode.pass
  split_ifs
  · exact h
  · exact ⟨fun _ => nofun, fun _ => nofun⟩

theorem TcMemory.Inv.mono (h : s.Inv c own ns) (himp : ∀ key, own key → own' key) : s.Inv c own' ns where
  holds := h.holds
  keyed := h.keyed
  above := h.above
  kept n hn := (h.kept n hn).mono himp
  last := h.last
  ascending := h.ascending
  handed := h.handed
  owned t ht := himp _ (h.owned t ht)

end Invariant

/-! ## Inserting -/

section Inserting

variable {k : Crypto P S G} {c : Site} {o : Ordinal} {own : Nat ×ₗ Nat → Prop} {s : TcMemory P S}
  {q : LinkedQueue (TcNode P S)} {ns pre post : List (Nat × TcNode P S)} {n : Nat × TcNode P S}
  {f : TcNode P S → TcNode P S}

/-- Before its place, `place` changes nothing. -/
theorem place_append (hpre : ∀ n ∈ pre, n.2.key < o.key) :
    place o f ((pre ++ post).map Prod.snd) = pre.map Prod.snd ++ place o f (post.map Prod.snd) := by
  induction pre with
  | nil => rfl
  | cons n pre ih =>
    have hn := hpre n List.mem_cons_self
    rw [List.cons_append, List.map_cons, place, if_pos (ordCompare_pos.mpr hn),
      ih fun m hm => hpre m (List.mem_cons_of_mem n hm)]
    rfl

theorem tailOrd_concat (h : q.Holds (pre ++ [n])) : tailOrd q = some n.2.ord := by
  rw [tailOrd, h.tail, LinkedQueue.stop_concat]
  dsimp only
  rw [h.toLinks.get]
  rfl

/-- The place of an ordinal between the nodes before it and those from there on. -/
def placeBetween (o : Ordinal) (pre : List (Nat × TcNode P S)) : List (Nat × TcNode P S) → Option Nat × Bool
  | [] => (LinkedQueue.stop pre, true)
  | n :: _ => if n.2.key = o.key then (some n.1, false) else (LinkedQueue.stop pre, true)

/-- The walk, and the short cut to the tail, lead to the place of the ordinal. -/
theorem findPlace_eq (h : q.Holds (pre ++ post)) (hpre : ∀ n ∈ pre, n.2.key < o.key)
    (hpost : ∀ n ∈ post, o.key ≤ n.2.key) :
    findPlace q o = some (placeBetween o pre post) := by
  have hstart : q.first = LinkedQueue.start (pre ++ post) := h.segment.start_eq
  cases post with
  | nil =>
    rw [List.append_nil] at h hstart
    rcases List.eq_nil_or_concat' pre with rfl | ⟨pre, m, rfl⟩
    · have hlast : tailOrd q = some zeroOrd := by
        rw [tailOrd, h.tail]
        rfl
      rw [findPlace, hlast, Option.bind_eq_bind, Option.bind_some, if_pos (.inl hstart), h.tail]
      rfl
    · have hm := hpre m (List.mem_append_right _ List.mem_cons_self)
      rw [findPlace, tailOrd_concat h, Option.bind_eq_bind, Option.bind_some, if_pos (.inr (ordCompare_pos.mpr hm)),
        h.tail]
      rfl
  | cons n post =>
    -- The tail is behind the place, so the walk starts at the head.
    obtain ⟨last, hlast, hle⟩ : ∃ last, tailOrd q = some last ∧ o.key ≤ last.key := by
      rcases List.eq_nil_or_concat' (n :: post) with hnil | ⟨rest, m, heq⟩
      · cases hnil
      · rw [heq, ← List.append_assoc] at h
        exact ⟨m.2.ord, tailOrd_concat h, hpost m (heq ▸ List.mem_append_right _ List.mem_cons_self)⟩
    have hfirst : q.first ≠ none := by
      rw [hstart]
      cases pre <;> exact Option.some_ne_none _
    have hn := hpost n List.mem_cons_self
    have hwalk : q.walk (fun n => decide (0 < ordCompare o n.ord)) (q.size + 1) none = some (LinkedQueue.stop pre) := by
      have hlinks : q.Links ([] ++ (pre ++ n :: post)) := h.toLinks
      refine hlinks.walk (fun m hm => ?_) (fun m hm => ?_) ?_
      · exact decide_eq_true (ordCompare_pos.mpr (hpre m hm))
      · cases hm
        exact decide_eq_false (mt ordCompare_pos.mp (not_lt.mpr hn))
      · rw [h.size, List.length_append]
        exact Nat.lt_succ_of_le (Nat.le_add_right _ _)
    have hold : ¬(q.first = none ∨ 0 < ordCompare o last) :=
      not_or.mpr ⟨hfirst, mt ordCompare_pos.mp (not_lt.mpr hle)⟩
    rw [findPlace, hlast, Option.bind_eq_bind, Option.bind_some, if_neg hold, hwalk, Option.bind_eq_bind,
      Option.bind_some, h.toLinks.next, placeBetween, apply_ite some]
    simp only [LinkedQueue.start_cons, h.toLinks.get, Option.bind_eq_bind, Option.bind_some, ordCompare_eq_zero]
    rfl

/-- `ITRC_Insert_TC_ID` does to the linked nodes what it does to a list. -/
theorem TcMemory.insertTcId_eq_place (h : s.tcq.Holds ns) (hkeyed : Keyed TcNode.key (ns.map Prod.snd))
    (hnew : s.appliedOrd.key < o.key) (f : TcNode P S → TcNode P S) :
    ∃ q ns', s.insertTcId o f = some { s with tcq := q } ∧ q.Holds ns' ∧
      ns'.map Prod.snd = place o f (ns.map Prod.snd) := by
  have hkeyed' : Keyed (fun n => n.2.key) ns := (List.pairwise_map (f := Prod.snd)).mp hkeyed
  obtain ⟨pre, post, rfl, hpre, hpost⟩ := hkeyed'.split (p := (· < o.key)) fun _ _ => lt_trans
  have hpost := fun n hn => not_lt.mp (hpost n hn)
  have hfind := findPlace_eq h hpre hpost
  have hgt : ¬ordCompare o s.appliedOrd ≤ 0 := not_le.mpr (ordCompare_pos.mpr hnew)
  rw [place_append hpre, TcMemory.insertTcId, if_neg hgt, hfind, Option.bind_eq_bind, Option.bind_some,
    placeBetween.eq_def]
  obtain ⟨q, hinsert, hq⟩ := h.insertAfter (TcNode.new o)
  cases post with
  | nil =>
    refine ⟨q.modify s.tcq.brk f, pre ++ [(s.tcq.brk, f (TcNode.new o))], ?_, hq.modify, ?_⟩
    · simp only [if_true, hinsert, Option.bind_eq_bind, Option.bind_some]
    · rw [List.map_append]
      rfl
  | cons n post =>
    have hle := hpost n List.mem_cons_self
    have hbefore : ¬0 < ordCompare o n.2.ord := mt ordCompare_pos.mp (not_lt.mpr hle)
    rw [List.map_cons, place, if_neg hbefore]
    by_cases heq : n.2.key = o.key
    · rw [if_pos (ordCompare_eq_zero.mpr heq)]
      refine ⟨s.tcq.modify n.1 f, pre ++ (n.1, f n.2) :: post, ?_, h.modify, ?_⟩
      · simp only [if_pos heq, Bool.false_eq_true, if_false, Option.bind_eq_bind, Option.bind_some]
      · rw [List.map_append]
        rfl
    · rw [if_neg (mt ordCompare_eq_zero.mp heq)]
      refine ⟨q.modify s.tcq.brk f, pre ++ (s.tcq.brk, f (TcNode.new o)) :: n :: post, ?_, hq.modify, ?_⟩
      · simp only [if_neg heq, if_true, hinsert, Option.bind_eq_bind, Option.bind_some]
      · rw [List.map_append]
        rfl

/-- A change of nodes that keeps their ordinals keeps the order. -/
theorem TcMemory.Inv.insert (h : s.Inv c own ns) (hf : ∀ n, (f n).ord = n.ord)
    (hkept : ∀ n : TcNode P S, n.key = o.key → n.Kept c own → (f n).Kept c own) :
    ∃ s' ns', s.insertTcId o f = some s' ∧ s'.Inv c own ns' := by
  by_cases hnew : s.appliedOrd.key < o.key
  · obtain ⟨q, ns', hinsert, hq, hplace⟩ := TcMemory.insertTcId_eq_place h.holds h.keyed hnew f
    rw [place_eq_upsert] at hplace
    have hkey : ∀ n : TcNode P S, (f n).key = n.key := fun n => congrArg Ordinal.key (hf n)
    have hentry : (entry TcNode.key o.key (TcNode.new o) (ns.map Prod.snd)).Kept c own := by
      rcases entry_mem_or TcNode.key o.key (TcNode.new o) (ns.map Prod.snd) with hmem | ⟨-, hfresh⟩
      · exact h.kept _ hmem
      · rw [hfresh]
        exact TcNode.kept_new o
    have hentryKey : (entry TcNode.key o.key (TcNode.new o) (ns.map Prod.snd)).key = o.key := key_entry rfl
    refine ⟨_, ns', hinsert, hq, ?_, fun n hn => ?_, fun n hn => ?_, h.last, h.ascending, h.handed, h.owned⟩
    · rw [hplace]
      exact h.keyed.upsert hkey rfl
    · rw [hplace, mem_upsert h.keyed] at hn
      rcases hn with rfl | ⟨hn, -⟩
      · rw [hkey, hentryKey]
        exact hnew
      · exact h.above n hn
    · rw [hplace, mem_upsert h.keyed] at hn
      rcases hn with rfl | ⟨hn, -⟩
      · exact hkept _ hentryKey hentry
      · exact h.kept n hn
  · have hle : ordCompare o s.appliedOrd ≤ 0 := not_lt.mp (mt ordCompare_pos.mp hnew)
    exact ⟨s, ns, if_pos hle, h⟩

end Inserting

/-! ## Taking nodes out -/

section TakingOut

variable {k : Crypto P S G} {c : Site} {o : Ordinal} {own : Nat ×ₗ Nat → Prop} {s : TcMemory P S}
  {q : LinkedQueue (TcNode P S)} {ns pre post : List (Nat × TcNode P S)} {n : Nat × TcNode P S}

theorem TcMemory.Inv.moveUp_trail (h : s.Inv c own ns) (ho : s.appliedOrd.key < o.key) :
    Keyed Ordinal.key (s.trail ++ [o]) := by
  refine List.pairwise_append.mpr ⟨h.ascending, List.pairwise_singleton _ _, ?_⟩
  rintro p hp o' ho'
  rw [List.mem_singleton.mp ho']
  refine lt_of_le_of_lt ?_ ho
  obtain ⟨init, hinit⟩ := List.getLast?_eq_some_iff.mp h.last
  rw [hinit] at hp
  rcases List.mem_append.mp hp with hp | hp
  · exact ((List.pairwise_append.mp (hinit ▸ h.ascending)).2.2 p hp _ List.mem_cons_self).le
  · rw [List.mem_singleton.mp hp]

/-- A node that is ready leaves the queue. -/
theorem TcMemory.Inv.pop (h : s.Inv c own (n :: ns)) {q' : LinkedQueue (TcNode P S)}
    (hq : q'.Links ns) (htail : q'.tail = s.tcq.tail) :
    ({ s.moveUp n.2.ord with tcq := { q' with tail := if q'.tail = some n.1 then none else q'.tail } } :
      TcMemory P S).Inv c own ns := by
  have hlt : s.appliedOrd.key < n.2.key := h.above n.2 List.mem_cons_self
  refine ⟨⟨⟨hq.segment, hq.nodup, hq.fresh, hq.size⟩, ?_⟩, h.keyed.tail, fun m hm => h.keyed.head_lt hm,
    fun m hm => h.kept m (List.mem_cons_of_mem _ hm), List.getLast?_concat, h.moveUp_trail hlt, ?_, h.owned⟩
  · -- The tail is at this node just where it is the only one.
    have hholds : s.tcq.Holds ([n] ++ ns) := h.holds
    have hlast : some n.1 = s.tcq.tail ↔ ns = [] := hholds.stop_eq_tail_iff
    dsimp only
    rw [htail]
    cases ns with
    | nil => rw [if_pos (hlast.mpr rfl).symm]; rfl
    | cons m ns =>
      rw [if_neg fun heq => List.cons_ne_nil m ns (hlast.mp heq.symm), h.holds.tail]
      exact LinkedQueue.stop_cons_cons
  · show (s.handed.map fun t => t.ord.key).Sublist ((s.trail ++ [n.2.ord]).map Ordinal.key)
    rw [List.map_append]
    exact h.handed.trans (List.sublist_append_left _ _)

/-- What `ITRC_TC_Ready_Deliver` leaves is what it leaves of a list. -/
theorem TcMemory.Inv.readyDeliver (h : s.Inv c own ns) {fuel : Nat} (hfuel : ns.length < fuel)
    (removed : List (TcNode P S)) :
    ∃ s' ns' removed', s.readyDeliver c fuel = some s' ∧ s'.Inv c own ns' ∧
      (Itrc.readyDeliver c s.appliedOrd removed (ns.map Prod.snd)).2 = ⟨s'.appliedOrd, ns'.map Prod.snd, removed'⟩ := by
  induction ns generalizing s fuel removed with
  | nil =>
    obtain ⟨fuel, rfl⟩ := Nat.exists_eq_succ_of_ne_zero (Nat.ne_of_gt hfuel)
    have hfirst : s.tcq.first = none := h.holds.segment
    refine ⟨s, [], removed, ?_, h, rfl⟩
    rw [TcMemory.readyDeliver, hfirst]
  | cons n ns ih =>
    obtain ⟨fuel, rfl⟩ := Nat.exists_eq_succ_of_ne_zero (Nat.ne_of_gt (Nat.lt_of_le_of_lt (Nat.zero_le _) hfuel))
    have hfirst : s.tcq.first = some n.1 := h.holds.segment.1
    have hget := h.holds.toLinks.get_head
    obtain ⟨q, hremove, hq, htail⟩ := h.holds.toLinks.removeFirst
    rw [List.map_cons, Itrc.readyDeliver]
    simp only [TcMemory.readyDeliver, hfirst, hget, Option.bind_eq_bind, Option.bind_some]
    by_cases hready : Ready c s.appliedOrd n.2
    · have hassert : ¬(q.size = 0 ∧ q.first ≠ none) := by
        rintro ⟨hsize, hne⟩
        have hnil : ns = [] := List.eq_nil_of_length_eq_zero (hq.size.symm.trans hsize)
        subst hnil
        exact hne hq.segment
      have hpop := h.pop hq htail
      rw [if_pos hready, if_pos hready, hremove, Option.bind_some, if_neg hassert]
      by_cases hskip : n.2.skip = false
      · have hkept := h.kept n.2 List.mem_cons_self
        obtain ⟨t, ht, hord⟩ := hkept.message hready.1 hskip
        rw [if_pos hskip, if_pos hskip, ht]
        refine ⟨_, ns, removed ++ [n.2], rfl, ?_, rfl⟩
        refine ⟨hpop.holds, hpop.keyed, hpop.above, hpop.kept, hpop.last, hpop.ascending, ?_, fun t' ht' => ?_⟩
        · show ((s.handed ++ [t]).map fun t => t.ord.key).Sublist ((s.trail ++ [n.2.ord]).map Ordinal.key)
          rw [List.map_append, List.map_append, List.map_singleton, List.map_singleton, hord]
          exact h.handed.append (List.Sublist.refl _)
        · rcases List.mem_append.mp ht' with ht' | ht'
          · exact h.owned t' ht'
          · rw [List.mem_singleton.mp ht', hord]
            exact hkept.own hready.2.1 hskip
      · rw [if_neg hskip, if_neg hskip]
        exact ih hpop (Nat.lt_of_succ_lt_succ hfuel) _
    · rw [if_neg hready, if_neg hready]
      exact ⟨s, n :: ns, removed, rfl, h, rfl⟩

/-- The loops free the nodes up to the first that stays. The tail is left as it was. -/
theorem freeWhile_eq (doomed : TcNode P S → Bool) (h : q.Links (pre ++ post)) (hpre : ∀ n ∈ pre, doomed n.2 = true)
    (hpost : ∀ n ∈ post.head?, doomed n.2 = false) {fuel : Nat} (hfuel : pre.length < fuel) :
    ∃ q', freeWhile doomed fuel q = some q' ∧ q'.Links post ∧ q'.tail = q.tail := by
  induction pre generalizing q fuel with
  | nil =>
    obtain ⟨fuel, rfl⟩ := Nat.exists_eq_succ_of_ne_zero (Nat.ne_of_gt hfuel)
    refine ⟨q, ?_, h, rfl⟩
    rw [freeWhile, h.segment.start_eq]
    cases post with
    | nil => rfl
    | cons n post =>
      have hget := LinkedQueue.Links.get_head h
      simp only [List.nil_append, LinkedQueue.start_cons, hget, Option.bind_eq_bind, Option.bind_some, hpost n rfl,
        Bool.false_eq_true, if_false]
  | cons n pre ih =>
    obtain ⟨fuel, rfl⟩ := Nat.exists_eq_succ_of_ne_zero (Nat.ne_of_gt (Nat.lt_of_le_of_lt (Nat.zero_le _) hfuel))
    have hget := LinkedQueue.Links.get_head h
    obtain ⟨q₁, hremove, hq₁, htail₁⟩ := h.removeFirst
    obtain ⟨q', hfree, hq', htail⟩ := ih hq₁ (fun m hm => hpre m (List.mem_cons_of_mem n hm))
      (Nat.lt_of_succ_lt_succ hfuel)
    refine ⟨q', ?_, hq', htail.trans htail₁⟩
    rw [freeWhile, h.segment.start_eq]
    simp only [List.cons_append, LinkedQueue.start_cons, hget, Option.bind_eq_bind, Option.bind_some,
      hpre n List.mem_cons_self, if_true, hremove]
    exact hfree

theorem TcMemory.Inv.transfer (h : s.Inv c own ns) (o : Ordinal) :
    ∃ s' ns', s.applyStateTransfer o = some s' ∧ s'.Inv c own ns' := by
  by_cases hnew : s.appliedOrd.key < o.key
  · have hgt : ¬ordCompare o s.appliedOrd ≤ 0 := not_le.mpr (ordCompare_pos.mpr hnew)
    have hkeyed : Keyed (fun n => n.2.key) ns := (List.pairwise_map (f := Prod.snd)).mp h.keyed
    obtain ⟨pre, post, rfl, hpre, hpost⟩ := hkeyed.split (p := (· ≤ o.key)) fun _ _ hlt => hlt.le.trans
    have hfuel : pre.length < s.tcq.size + 1 := by
      rw [h.holds.size, List.length_append]
      exact Nat.lt_succ_of_le (Nat.le_add_right _ _)
    obtain ⟨q, hfree, hq, htail⟩ := freeWhile_eq (fun n => ordCompare n.ord o ≤ 0) h.holds.toLinks (fun m hm => decide_eq_true (not_lt.mp (mt ordCompare_pos.mp (not_lt.mpr (hpre m hm)))))
      (fun m hm => decide_eq_false (not_le.mpr (ordCompare_pos.mpr (not_le.mp (hpost m (List.mem_of_mem_head? hm))))))
      hfuel
    have hright : (post.map Prod.snd).Sublist ((pre ++ post).map Prod.snd) := (List.sublist_append_right _ _).map _
    refine ⟨{ s.moveUp o with tcq := { q with tail := if q.size = 0 then none else q.tail } }, post, ?_,
      hq.holds_of_suffix (htail.trans h.holds.tail), h.keyed.sublist hright,
      fun m hm => ?_, fun m hm => h.kept m (hright.subset hm), List.getLast?_concat, h.moveUp_trail hnew, ?_, h.owned⟩
    · rw [TcMemory.applyStateTransfer, if_neg hgt, hfree]
      rfl
    · obtain ⟨m', hm', rfl⟩ := List.mem_map.mp hm
      exact not_le.mp (hpost m' hm')
    · show (s.handed.map fun t => t.ord.key).Sublist ((s.trail ++ [o]).map Ordinal.key)
      rw [List.map_append]
      exact h.handed.trans (List.sublist_append_left _ _)
  · have hle : ordCompare o s.appliedOrd ≤ 0 := not_lt.mp (mt ordCompare_pos.mp hnew)
    exact ⟨s, ns, if_pos hle, h⟩

theorem TcMemory.inv_fresh {q : LinkedQueue (TcNode P S)} : (TcMemory.fresh q).Inv c own [] where
  holds := ⟨⟨rfl, List.nodup_nil, List.forall_mem_nil _, rfl⟩, rfl⟩
  keyed := List.Pairwise.nil
  above n hn := by cases hn
  kept n hn := by cases hn
  last := rfl
  ascending := List.pairwise_singleton _ _
  handed := List.nil_sublist _
  owned t ht := by cases ht

theorem TcMemory.Inv.reset (h : s.Inv c own ns) (own' : Nat ×ₗ Nat → Prop) :
    ∃ s', s.resetMasterDataStructures = some s' ∧ s'.Inv c own' [] := by
  have hlinks : s.tcq.Links (ns ++ []) := (List.append_nil ns).symm ▸ h.holds.toLinks
  have hfuel : ns.length < s.tcq.size + 1 := Nat.lt_succ_of_le h.holds.size.ge
  obtain ⟨q, hfree, -, -⟩ := freeWhile_eq (fun _ => true) hlinks (fun _ _ => rfl) (fun _ hm => by cases hm) hfuel
  refine ⟨TcMemory.fresh q, ?_, TcMemory.inv_fresh⟩
  rw [TcMemory.resetMasterDataStructures, hfree]
  rfl

end TakingOut

/-! ## Runs -/

section Runs

variable {k : Crypto P S G} {c : Site} {s : TcMemory P S} {ns : List (Nat × TcNode P S)} {xs : List (TcCall P S)}

theorem sinceReset_concat (x : TcCall P S) :
    sinceReset (xs ++ [x]) = if x.isReset then [] else sinceReset xs ++ [x] := by
  unfold sinceReset
  cases hx : x.isReset with
  | true => rw [List.rtakeWhile_concat_neg _ _ _ (by simp [hx]), if_pos rfl]
  | false => rw [List.rtakeWhile_concat_pos _ _ _ (by simp [hx])]; rfl

theorem OwnShare.concat {key : Nat ×ₗ Nat} (h : OwnShare c xs key) (x : TcCall P S) : OwnShare c (xs ++ [x]) key := by
  obtain ⟨tcm, hmem, hkey⟩ := h
  exact ⟨tcm, List.mem_append_left _ hmem, hkey⟩

/-- One step keeps the queue in order. -/
theorem TcMemory.Inv.step (h : s.Inv c (OwnShare c (sinceReset xs)) ns) (x : TcCall P S) :
    ∃ s' ns', s.step k c x = some s' ∧ s'.Inv c (OwnShare c (sinceReset (xs ++ [x]))) ns' := by
  rw [sinceReset_concat]
  have hmono := h.mono fun _ hown => OwnShare.concat hown x
  cases x with
  | share sender tcm =>
    refine hmono.insert (fun _ => TcNode.receive_ord) fun n hn hkept => ?_
    refine hkept.receive hn.symm fun hs => ⟨tcm, ?_, hn.symm⟩
    exact List.mem_append_right _ (hs ▸ List.mem_cons_self)
  | skip o => exact hmono.insert (fun _ => TcNode.pass_ord) fun n hn hkept => hkept.pass
  | deliver =>
    obtain ⟨s', ns', -, hstep, hinv, -⟩ := hmono.readyDeliver (Nat.lt_succ_of_le h.holds.size.ge) []
    exact ⟨s', ns', hstep, hinv⟩
  | transfer o => exact hmono.transfer o
  | reset =>
    obtain ⟨s', hstep, hinv⟩ := h.reset (OwnShare c [])
    exact ⟨s', [], hstep, hinv⟩

theorem TcMemory.inv_run (k : Crypto P S G) (c : Site) (xs : List (TcCall P S)) :
    ∃ s ns, TcMemory.run k c xs = some s ∧ s.Inv c (OwnShare c (sinceReset xs)) ns := by
  induction xs using List.reverseRecOn with
  | nil => exact ⟨_, [], rfl, TcMemory.inv_fresh⟩
  | append_singleton xs x ih =>
    obtain ⟨s, ns, hrun, hinv⟩ := ih
    obtain ⟨s', ns', hstep, hinv'⟩ := hinv.step (k := k) x
    refine ⟨s', ns', ?_, hinv'⟩
    rw [TcMemory.run, List.foldlM_append, ← TcMemory.run, hrun, Option.bind_eq_bind, Option.bind_some,
      List.foldlM_cons, hstep]
    rfl

/-- **Delivery is in order and at most once**, for whatever is inserted, passed over and
transferred. Every run has a result. In it the nodes of the queue are linked in the order of
their ordinals, with the tail at the last of them and their number as the size, and all are
above `applied_ord`. Since the last reset `applied_ord` has only moved up, and the messages
that were handed out are for ordinals it has moved to, each once, after the replica's own
share for the ordinal was inserted. -/
theorem threshold_delivery (k : Crypto P S G) (c : Site) (xs : List (TcCall P S)) :
    ∃ s ns, TcMemory.run k c xs = some s ∧ s.tcq.Holds ns ∧ Keyed TcNode.key (ns.map Prod.snd) ∧
      (∀ n ∈ ns, s.appliedOrd.key < n.2.key) ∧
      s.trail.getLast? = some s.appliedOrd ∧ Keyed Ordinal.key s.trail ∧
      Keyed (fun t => t.ord.key) s.handed ∧
      ∀ t ∈ s.handed, (∃ o ∈ s.trail, o.key = t.ord.key) ∧ OwnShare c (sinceReset xs) t.ord.key := by
  obtain ⟨s, ns, hrun, h⟩ := TcMemory.inv_run k c xs
  have hascending : (s.trail.map Ordinal.key).Pairwise (· < ·) := List.pairwise_map.mpr h.ascending
  refine ⟨s, ns, hrun, h.holds, h.keyed, fun n hn => h.above n.2 (List.mem_map_of_mem hn), h.last, h.ascending,
    List.pairwise_map.mp (hascending.sublist h.handed), fun t ht => ⟨?_, h.owned t ht⟩⟩
  exact List.mem_map.mp (h.handed.subset (List.mem_map_of_mem ht))

end Runs

end Spire.Itrc
