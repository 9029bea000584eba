import Mathlib.Data.List.Chain
import Mathlib.Data.List.Induction
import Spire.Lib.Runs
import Spire.Reassembly

/-!
# When a working message can be trusted

Any bytes are, from the back, some well-formed fragments and something left in front of them:
nothing, less than a header, or a header that the walk refuses. The three cases settle what a
call does (`build_wellformed`, `build_refused`, `build_outside`), and from them it follows exactly
when a call keeps to the packet, completes only whole messages and leaves nothing
behind where it fails.
-/

namespace Spire.ItLink

open Function (update update_self update_of_ne)

/-! ## Well-formed fragments -/

/-- The fragments of a packet as the walk takes them: one total, and numbers that go up by one
or begin again. -/
structure Wellformed (total : Nat) (frags : Payload) : Prop where
  pos : 0 < total
  lt : total ≤ maxScatterElements - 1
  totals : ∀ f ∈ frags, f.fragTotal = total
  numbered : ∀ f ∈ frags, 0 < f.fragIdx ∧ f.fragIdx ≤ total
  lengths : ∀ f ∈ frags, f.body.length < 2 ^ 16
  consecutive : frags.IsChain fun a b => b.fragIdx = a.fragIdx + 1 ∨ b.fragIdx = 1

/-- The header in front of some fragments goes on with them. The bytes are given last byte first. -/
structure Accepts (total : Nat) (frags : Payload) (left : List UInt8) : Prop where
  sameTotal : (fragmentHeader left).fragTotal = total
  pos : 0 < (fragmentHeader left).fragIdx
  le : (fragmentHeader left).fragIdx ≤ total
  consecutive : ∀ f ∈ frags.head?, f.fragIdx = (fragmentHeader left).fragIdx + 1 ∨ f.fragIdx = 1
  length : fragmentHeaderSize + (fragmentHeader left).fragLength ≤ left.length

section Bytes

variable {total : Nat} {frags : Payload} {f : Fragment} {left front : List UInt8}

theorem bytesOf_append (p q : Payload) : bytesOf (p ++ q) = bytesOf p ++ bytesOf q := List.flatMap_append

theorem bytes_reverse (f : Fragment) (left : List UInt8) :
    f.bytes.reverse ++ left = UInt8.ofNat f.fragTotal :: UInt8.ofNat f.fragIdx :: UInt8.ofNat (f.body.length / 256) ::
      UInt8.ofNat (f.body.length % 256) :: (f.body.reverse ++ left) := by
  simp [Fragment.bytes]

theorem length_bytes (f : Fragment) : f.bytes.length = fragmentHeaderSize + f.body.length := by
  simp [Fragment.bytes, fragmentHeaderSize, Nat.add_comm]

/-- A header is read back as it was written. -/
theorem fragmentHeader_bytes (hidx : f.fragIdx < 256) (htotal : f.fragTotal < 256) (hlen : f.body.length < 2 ^ 16) :
    fragmentHeader (f.bytes.reverse ++ left) = ⟨f.body.length, f.fragIdx, f.fragTotal⟩ := by
  have hdiv : f.body.length / 256 < 256 := by omega
  have hmod : f.body.length % 256 < 256 := by omega
  rw [bytes_reverse]
  simp only [fragmentHeader, List.getD_cons_zero, List.getD_cons_succ, UInt8.toNat_ofNat_of_lt' hidx,
    UInt8.toNat_ofNat_of_lt' htotal, UInt8.toNat_ofNat_of_lt' hdiv, UInt8.toNat_ofNat_of_lt' hmod,
    FragmentHeader.mk.injEq, and_self, and_true]
  omega

theorem fragmentAt_bytes (hidx : f.fragIdx < 256) (htotal : f.fragTotal < 256) (hlen : f.body.length < 2 ^ 16) :
    fragmentAt (fragmentHeader (f.bytes.reverse ++ left)) (f.bytes.reverse ++ left) = f := by
  rw [fragmentHeader_bytes hidx htotal hlen, bytes_reverse]
  simp [fragmentAt, fragmentHeaderSize]

/-- A whole header is read from the packet alone. -/
theorem fragmentHeader_append (hlen : fragmentHeaderSize ≤ left.length) :
    fragmentHeader (left ++ front) = fragmentHeader left := by
  have hget : ∀ i < fragmentHeaderSize, (left ++ front).getD i 0 = left.getD i 0 := by
    intro i hi
    rw [List.getD_eq_getElem?_getD, List.getD_eq_getElem?_getD, List.getElem?_append_left (by omega)]
  simp only [fragmentHeader, hget 0 (by decide), hget 1 (by decide), hget 2 (by decide), hget 3 (by decide)]

theorem fragmentHeader_lt (left : List UInt8) :
    (fragmentHeader left).fragLength < 2 ^ 16 ∧ (fragmentHeader left).fragIdx < 256 ∧
      (fragmentHeader left).fragTotal < 256 := by
  have h0 := (left.getD 0 0).toNat_lt
  have h1 := (left.getD 1 0).toNat_lt
  have h2 := (left.getD 2 0).toNat_lt
  have h3 := (left.getD 3 0).toNat_lt
  refine ⟨?_, h1, h0⟩
  simp only [fragmentHeader]
  omega

/-- What stands in front splits into the fragment of its header and what is left before that. -/
theorem split_fragmentAt (hlen : fragmentHeaderSize + (fragmentHeader left).fragLength ≤ left.length) :
    left = (fragmentAt (fragmentHeader left) left).bytes.reverse ++ left.drop (fragmentHeaderSize + (fragmentHeader left).fragLength) := by
  match left, hlen with
  | b0 :: b1 :: b2 :: b3 :: rest, hlen =>
    have hhead : fragmentHeader (b0 :: b1 :: b2 :: b3 :: rest) = ⟨b3.toNat + 256 * b2.toNat, b1.toNat, b0.toNat⟩ := rfl
    rw [bytes_reverse]
    simp only [fragmentAt, hhead, fragmentHeaderSize, List.length_cons] at hlen ⊢
    have h3 := b3.toNat_lt
    have hbody : ((rest.take (b3.toNat + 256 * b2.toNat)).reverse).length = b3.toNat + 256 * b2.toNat := by
      rw [List.length_reverse, List.length_take]
      omega
    have hdiv : (b3.toNat + 256 * b2.toNat) / 256 = b2.toNat := by omega
    have hmod : (b3.toNat + 256 * b2.toNat) % 256 = b3.toNat := by omega
    simp only [List.drop_succ_cons, List.drop_zero, hbody, hdiv, hmod, UInt8.ofNat_toNat, List.reverse_reverse,
      Nat.add_comm 4, List.take_append_drop]
  | [], hlen => exact absurd hlen (by simp [fragmentHeaderSize])
  | [_], hlen => exact absurd hlen (by simp [fragmentHeaderSize]; omega)
  | [_, _], hlen => exact absurd hlen (by simp [fragmentHeaderSize]; omega)
  | [_, _, _], hlen => exact absurd hlen (by simp [fragmentHeaderSize]; omega)

end Bytes

/-! ## The backward loop -/

/-- The loop has processed some well-formed fragments. Those that the forward loop will append are the first of them, up to
where the numbers begin again. -/
structure Walked (total : Nat) (frags run : Payload) (w : Walk) : Prop where
  total : w.total = total ∨ frags = [] ∧ w.total = 0
  inside : w.inside = true
  run_prefix : run <+: frags
  numbers : run.map Fragment.fragIdx = List.range' (w.arrayIdx + 1) run.length
  max : w.maxArrayIdx = w.arrayIdx + run.length
  addr : ∀ f ∈ run, w.fragAddr f.fragIdx = f
  nil : run = [] → frags = [] ∧ w.arrayIdx = 0
  again : ∀ f ∈ (frags.drop run.length).head?, f.fragIdx = 1

theorem walked_start (total : Nat) {t : Nat} (ht : t = total ∨ t = 0) : Walked total [] [] (.start t) where
  total := ht.imp_right fun h => ⟨rfl, h⟩
  inside := rfl
  run_prefix := List.prefix_refl []
  numbers := rfl
  max := rfl
  addr f hf := by cases hf
  nil _ := ⟨rfl, rfl⟩
  again f hf := by cases hf

section Loop

variable {total t n : Nat} {frags run : Payload} {f : Fragment} {left : List UInt8} {w : Walk}

/-- The number of the first fragment is the one behind `array_idx`. -/
theorem Walked.head (h : Walked total frags run w) : ∀ f ∈ frags.head?, f.fragIdx = w.arrayIdx + 1 := by
  intro f hf
  obtain ⟨tail, rfl⟩ := h.run_prefix
  cases run with
  | nil =>
    rw [(h.nil rfl).1] at hf
    cases hf
  | cons g run =>
    cases hf
    have hnumbers := h.numbers
    rw [List.map_cons, List.length_cons, List.range'_succ] at hnumbers
    exact (List.cons.inj hnumbers).1

/-- The header in front goes on with what was processed. -/
theorem Walked.consecutive (h : Walked total frags run w) {k : Nat} (hk : 0 < k) :
    (∀ f ∈ frags.head?, f.fragIdx = k + 1 ∨ f.fragIdx = 1) ↔ w.arrayIdx = 0 ∨ k = w.arrayIdx := by
  cases frags with
  | nil =>
    have hrun : run = [] := List.prefix_nil.mp h.run_prefix
    simp [(h.nil hrun).2]
  | cons g frags =>
    have hhead := h.head g rfl
    simp only [List.head?_cons, Option.mem_def, Option.some.injEq, forall_eq']
    omega

theorem enter_total (w : Walk) (k : Nat) : (w.enter k).total = w.total := by
  unfold Walk.enter
  split <;> rfl

theorem enter_inside (w : Walk) (k : Nat) : (w.enter k).inside = w.inside := by
  unfold Walk.enter
  split <;> rfl

/-- The second half of a round keeps the total, and fails where the numbers or the length do not fit. -/
theorem walkFragment_spec (rest : List UInt8) (fh : FragmentHeader) (w : Walk) :
    (walkFragment rest fh w).2.total = w.total ∧ (walkFragment rest fh w).2.inside = w.inside ∧
      (((w.arrayIdx = 0 ∨ fh.fragIdx = w.arrayIdx) ∧ fragmentHeaderSize + fh.fragLength ≤ rest.length) ∨
        (walkFragment rest fh w).1 < 0) := by
  have hnext : fh.fragIdx = (w.enter fh.fragIdx).arrayIdx ↔ w.arrayIdx = 0 ∨ fh.fragIdx = w.arrayIdx := by
    unfold Walk.enter
    split <;> simp [*]
  unfold walkFragment
  dsimp only
  split
  · exact ⟨enter_total _ _, enter_inside _ _, .inr (by simp)⟩
  · rename_i hsame
    refine ⟨enter_total _ _, enter_inside _ _, ?_⟩
    by_cases hshort : rest.length < fragmentHeaderSize + fh.fragLength
    · exact .inr (by simp [hshort])
    · exact .inl ⟨hnext.mp (not_not.mp hsame), not_lt.mp hshort⟩

/-- A header that is accepted is processed. -/
theorem walkRound_accepts (front : List UInt8) (hw : Walked total frags run w) (hlt : total ≤ maxScatterElements - 1)
    (hlen : fragmentHeaderSize ≤ left.length) (ha : Accepts total frags left) :
    ∃ run' w', walkRound front left w = (0, w') ∧ Walked total (fragmentAt (fragmentHeader left) left :: frags) run' w' := by
  have hcons := (hw.consecutive ha.pos).mp ha.consecutive
  have hpos := ha.pos
  have hle := ha.le
  have htotal := ha.sameTotal
  have hinside : (w.inside && decide (fragmentHeaderSize ≤ left.length)) = true := by
    rw [hw.inside, Bool.true_and, decide_eq_true hlen]
  unfold walkRound
  rw [fragmentHeader_append hlen]
  dsimp only
  rw [if_neg (by omega), if_neg (by rcases hw.total with h | h <;> omega), if_neg (by omega)]
  unfold walkFragment Walk.enter
  dsimp only
  rw [if_neg (not_lt.mpr ha.length)]
  by_cases hzero : w.arrayIdx = 0
  · -- the numbers begin again, and so do the fragments to append
    rw [if_pos hzero, if_neg (by simp)]
    refine ⟨[fragmentAt (fragmentHeader left) left], _, rfl, .inl htotal, hinside, ⟨frags, rfl⟩, ?_, ?_, ?_, (fun hnil => nomatch hnil), ?_⟩
    · simp [fragmentAt, Walk.note, Nat.sub_add_cancel hpos]
    · simp [Walk.note, Nat.sub_add_cancel hpos]
    · intro f hf
      rw [List.mem_singleton.mp hf]
      exact update_self _ _ _
    · intro f hf
      rw [hw.head f hf, hzero]
  · have hidx := hcons.resolve_left hzero
    rw [if_neg hzero, if_neg (by simpa using hidx)]
    have hnext : w.arrayIdx - 1 + 1 = w.arrayIdx := by omega
    refine ⟨fragmentAt (fragmentHeader left) left :: run, _, rfl, .inl htotal, hinside,
      List.cons_prefix_cons.mpr ⟨rfl, hw.run_prefix⟩, ?_, ?_, ?_, (fun hnil => nomatch hnil), hw.again⟩
    · simp only [Walk.note, List.map_cons, List.length_cons, List.range'_succ, hw.numbers, hnext]
      exact congrArg (· :: _) hidx
    · have hmax := hw.max
      simp only [Walk.note, List.length_cons]
      omega
    · intro f hf
      rcases List.mem_cons.mp hf with rfl | hf
      · exact update_self _ _ _
      · have hmem : f.fragIdx ∈ List.range' (w.arrayIdx + 1) run.length := by
          rw [← hw.numbers]
          exact List.mem_map_of_mem hf
        have hgt := (List.mem_range'_1.mp hmem).1
        have hne : f.fragIdx ≠ (fragmentAt (fragmentHeader left) left).fragIdx := by
          show f.fragIdx ≠ (fragmentHeader left).fragIdx
          omega
        exact (update_of_ne hne _ _).trans (hw.addr f hf)

/-- A whole header that is not accepted ends the loop, and the total is the one that was expected. -/
theorem walkRound_refuses (front : List UInt8) (hw : Walked total frags run w) (hpos : 0 < total) (hlt : total ≤ maxScatterElements - 1)
    (hlen : fragmentHeaderSize ≤ left.length) (hknown : w.total = total ∨ (fragmentHeader left).fragTotal = total)
    (hnot : ¬ Accepts total frags left) :
    (walkRound front left w).1 < 0 ∧ (walkRound front left w).2.inside = true ∧
      (walkRound front left w).2.total = total := by
  have hinside : (w.inside && decide (fragmentHeaderSize ≤ left.length)) = true := by
    rw [hw.inside, Bool.true_and, decide_eq_true hlen]
  have hbefore : w.total = total ∨ w.total = 0 := hw.total.imp_right And.right
  unfold walkRound
  rw [fragmentHeader_append hlen]
  dsimp only
  split
  · exact ⟨by simp, hinside, by dsimp only; omega⟩
  · split
    · rename_i hother
      exact ⟨by simp, hinside, by dsimp only at hother ⊢; omega⟩
    · rename_i hother
      have hsame : (fragmentHeader left).fragTotal = total := by
        omega
      split
      · exact ⟨by simp, hinside, hsame⟩
      · rename_i hidx
        obtain ⟨htotal, hin, hfit | hneg⟩ := walkFragment_spec left (fragmentHeader left)
          { w with inside := w.inside && decide (fragmentHeaderSize ≤ left.length), total := (fragmentHeader left).fragTotal }
        · have hcons := (hw.consecutive (k := (fragmentHeader left).fragIdx) (by omega)).mpr hfit.1
          exact absurd ⟨hsame, by omega, by omega, hcons, hfit.2⟩ hnot
        · exact ⟨hneg, hin.trans hinside, htotal.trans hsame⟩

/-- Less than a header ends the loop too, but the header is read. -/
theorem walkRound_outside (front : List UInt8) (hlen : left.length < fragmentHeaderSize) :
    (walkRound front left w).1 < 0 ∧ (walkRound front left w).2.inside = false := by
  have houtside : (w.inside && decide (fragmentHeaderSize ≤ left.length)) = false := by
    rw [decide_eq_false (not_le.mpr hlen), Bool.and_false]
  unfold walkRound
  dsimp only
  split
  · exact ⟨by simp, houtside⟩
  · split
    · exact ⟨by simp, houtside⟩
    · split
      · exact ⟨by simp, houtside⟩
      · obtain ⟨-, hin, hfit | hneg⟩ := walkFragment_spec left (fragmentHeader (left ++ front))
          { w with inside := w.inside && decide (fragmentHeaderSize ≤ left.length),
                   total := (fragmentHeader (left ++ front)).fragTotal }
        · omega
        · exact ⟨hneg, hin.trans houtside⟩

theorem Wellformed.suffix {done : Payload} (h : Wellformed total (frags ++ done)) : Wellformed total done where
  pos := h.pos
  lt := h.lt
  totals g hg := h.totals g (List.mem_append_right _ hg)
  numbered g hg := h.numbered g (List.mem_append_right _ hg)
  lengths g hg := h.lengths g (List.mem_append_right _ hg)
  consecutive := (List.isChain_append.mp h.consecutive).2.1

theorem Wellformed.accepts {done : Payload} (h : Wellformed total (f :: done)) :
    Accepts total done (f.bytes.reverse ++ left) := by
  have hnum := h.numbered f List.mem_cons_self
  have htotal := h.totals f List.mem_cons_self
  have hlt := h.lt
  have hmax : maxScatterElements = 100 := rfl
  have hhead : fragmentHeader (f.bytes.reverse ++ left) = ⟨f.body.length, f.fragIdx, f.fragTotal⟩ :=
    fragmentHeader_bytes (by omega) (by omega) (h.lengths f List.mem_cons_self)
  refine ⟨?_, ?_, ?_, ?_, ?_⟩
  · rw [hhead]
    exact htotal
  · rw [hhead]
    exact hnum.1
  · rw [hhead]
    exact hnum.2
  · rw [hhead]
    intro g hg
    cases done with
    | nil => cases hg
    | cons g' done =>
      cases hg
      exact (List.isChain_cons_cons.mp h.consecutive).1
  · rw [hhead, List.length_append, List.length_reverse, length_bytes]
    exact Nat.le_add_right _ _

/-- The loop processes well-formed fragments and comes to what is left before them. -/
theorem walk_wellformed (front : List UInt8) {frags done : Payload} (h : Wellformed total (frags ++ done)) (hw : Walked total done run w)
    (hn : ((bytesOf frags).reverse ++ left).length ≤ n) :
    ∃ m run' w', left.length ≤ m ∧ walk front n ((bytesOf frags).reverse ++ left) w = walk front m left w' ∧
      Walked total (frags ++ done) run' w' := by
  induction frags using List.reverseRecOn generalizing done run w n with
  | nil => exact ⟨n, run, w, hn, rfl, hw⟩
  | append_singleton frags f ih =>
    rw [List.append_assoc, List.singleton_append] at h ⊢
    have hsuffix := h.suffix
    have hnum := hsuffix.numbered f List.mem_cons_self
    have htotal := hsuffix.totals f List.mem_cons_self
    have hlen := hsuffix.lengths f List.mem_cons_self
    have hlt := h.lt
    have hmax : maxScatterElements = 100 := rfl
    have hsplit : (bytesOf (frags ++ [f])).reverse ++ left = f.bytes.reverse ++ ((bytesOf frags).reverse ++ left) := by
      simp [bytesOf]
    rw [hsplit] at hn ⊢
    have hwhole : fragmentHeaderSize ≤ (f.bytes.reverse ++ ((bytesOf frags).reverse ++ left)).length := by
      rw [List.length_append, List.length_reverse, length_bytes]
      omega
    obtain ⟨run', w', hround, hw'⟩ := walkRound_accepts front hw h.lt hwhole hsuffix.accepts
    rw [fragmentAt_bytes (by omega) (by omega) hlen] at hw'
    rw [List.length_append, List.length_reverse, length_bytes] at hn
    obtain ⟨n, rfl⟩ : ∃ n', n = n' + 1 := ⟨n - 1, by simp only [fragmentHeaderSize] at hn; omega⟩
    obtain ⟨m, run'', w'', hm, hwalk, hw''⟩ := ih h hw' (n := n) (by simp only [fragmentHeaderSize] at hn; omega)
    refine ⟨m, run'', w'', hm, ?_, hw''⟩
    have hne : f.bytes.reverse ++ ((bytesOf frags).reverse ++ left) ≠ [] := by
      simp [Fragment.bytes]
    have hdrop : (f.bytes.reverse ++ ((bytesOf frags).reverse ++ left)).drop (fragmentHeaderSize + f.body.length) =
        (bytesOf frags).reverse ++ left := by
      rw [← length_bytes, ← List.length_reverse, List.drop_left]
    rw [walk, if_neg hne, hround]
    dsimp only
    rw [if_neg (by decide), fragmentHeader_append hwhole, fragmentHeader_bytes (by omega) (by omega) hlen, hdrop, hwalk]

/-- Any bytes are well-formed fragments behind a header that does not go on with them, or less than a header. -/
theorem exists_wellformed {done : Payload} (h : Wellformed total done) (left : List UInt8) :
    ∃ frags left', left = (bytesOf frags).reverse ++ left' ∧ Wellformed total (frags ++ done) ∧
      (left'.length < fragmentHeaderSize ∨ ¬ Accepts total (frags ++ done) left') := by
  induction hn : left.length using Nat.strong_induction_on generalizing left done with
  | _ n ih =>
    by_cases hgoes : fragmentHeaderSize ≤ left.length ∧ Accepts total done left
    · obtain ⟨hlen, ha⟩ := hgoes
      have hsplit := split_fragmentAt ha.length
      have hlt := fragmentHeader_lt left
      have hcons : Wellformed total (fragmentAt (fragmentHeader left) left :: done) :=
        { pos := h.pos
          lt := h.lt
          totals := List.forall_mem_cons.mpr ⟨ha.sameTotal, h.totals⟩
          numbered := List.forall_mem_cons.mpr ⟨⟨ha.pos, ha.le⟩, h.numbered⟩
          lengths := List.forall_mem_cons.mpr ⟨by
            have hle := List.length_take_le (fragmentHeader left).fragLength (left.drop fragmentHeaderSize)
            simp only [fragmentAt, List.length_reverse]
            omega, h.lengths⟩
          consecutive := List.isChain_cons.mpr ⟨ha.consecutive, h.consecutive⟩ }
      have hshort : (left.drop (fragmentHeaderSize + (fragmentHeader left).fragLength)).length < n := by
        rw [List.length_drop]
        have : fragmentHeaderSize = 4 := rfl
        omega
      obtain ⟨frags, left', hleft, hwell, hend⟩ := ih _ hshort hcons _ rfl
      refine ⟨frags ++ [fragmentAt (fragmentHeader left) left], left', ?_, by simpa using hwell, by simpa using hend⟩
      conv_lhs => rw [hsplit, hleft]
      simp [bytesOf]
    · refine ⟨[], left, rfl, h, ?_⟩
      by_cases hlen : fragmentHeaderSize ≤ left.length
      · exact .inr fun ha => hgoes ⟨hlen, ha⟩
      · exact .inl (not_le.mp hlen)

theorem Wellformed.nil (hpos : 0 < total) (hlt : total ≤ maxScatterElements - 1) : Wellformed total [] where
  pos := hpos
  lt := hlt
  totals f hf := by cases hf
  numbered f hf := by cases hf
  lengths f hf := by cases hf
  consecutive := List.isChain_nil

end Loop

/-! ## What a call does -/

section Call

variable {total t : Nat} {frags run : Payload} {pkt left : List UInt8} {st : Reassembly}

/-- The loop over a packet of well-formed fragments, up to what is left in front. -/
theorem walk_packet (front : List UInt8) (h : Wellformed total frags) (ht : st.total = total ∨ st.total = 0)
    (hpkt : pkt.reverse = (bytesOf frags).reverse ++ left) :
    ∃ m run w, left.length ≤ m ∧ walk front pkt.length pkt.reverse (.start st.total) = walk front m left w ∧
      Walked total frags run w ∧ (frags = [] → w.total = st.total) := by
  rcases eq_or_ne frags [] with rfl | hne
  · refine ⟨pkt.length, [], .start st.total, ?_, by rw [hpkt]; rfl, walked_start total ht, fun _ => rfl⟩
    have hlen := congrArg List.length hpkt
    rw [List.length_reverse] at hlen
    exact le_of_eq hlen.symm
  have hlen : ((bytesOf frags).reverse ++ left).length ≤ pkt.length := by
    rw [← hpkt, List.length_reverse]
  rw [← List.append_nil frags] at h
  obtain ⟨m, run, w, hm, hwalk, hw⟩ := walk_wellformed front h (walked_start total ht) hlen
  rw [List.append_nil] at hw
  exact ⟨m, run, w, hm, hpkt ▸ hwalk, hw, fun hnil => absurd hnil hne⟩

theorem walk_nil (front : List UInt8) (m : Nat) (w : Walk) : walk front m [] w = (0, w) := by
  cases m <;> rfl

theorem walk_ends (front : List UInt8) {m : Nat} {w : Walk} (hm : left.length ≤ m) (hne : left ≠ []) (hneg : (walkRound front left w).1 < 0) :
    walk front m left w = walkRound front left w := by
  cases m with
  | zero => exact absurd (List.length_eq_zero_iff.mp (Nat.le_zero.mp hm)) hne
  | succ m =>
    rw [walk, if_neg hne]
    exact if_pos hneg

/-- The forward loop appends fragments whose numbers go on with those of the working message. -/
theorem appendFragments_run (st : Reassembly) {addr : Nat → Fragment} {fs : List Fragment} (hscat : st.scat = some fs)
    (hnum : run.map Fragment.fragIdx = List.range' st.idx run.length) (haddr : ∀ f ∈ run, addr f.fragIdx = f) :
    appendFragments addr (List.range' st.idx run.length) st =
      (0, { st with scat := some (fs ++ run), idx := st.idx + run.length }) := by
  induction run generalizing st fs with
  | nil =>
    rw [List.append_nil, ← hscat]
    rfl
  | cons f run ih =>
    rw [List.map_cons, List.length_cons, List.range'_succ] at hnum
    obtain ⟨hf, hrest⟩ := List.cons.inj hnum
    have hfirst : addr st.idx = f := hf ▸ haddr f List.mem_cons_self
    rw [List.length_cons, List.range'_succ, appendFragments, hfirst, hf, if_neg (by simp)]
    have hnext := @ih { st with scat := some (st.scat.getD [] ++ [f]), idx := st.idx + 1 } (fs ++ [f])
      (by rw [hscat]; rfl) hrest fun g hg => haddr g (List.mem_cons_of_mem _ hg)
    rw [hnext, List.append_assoc, List.singleton_append, Nat.add_assoc, Nat.add_comm 1]

theorem build_of_walk {front : List UInt8} {w : Walk} (hwalk : walk front pkt.length pkt.reverse (.start st.total) = (0, w)) :
    buildMessage front st pkt =
      let a := appendFragments w.fragAddr (List.range' (w.arrayIdx + 1) (w.maxArrayIdx - w.arrayIdx))
        { st with total := w.total, scat := some (st.scat.getD []) }
      ⟨if a.1 < 0 then a.1 else if a.2.idx = a.2.total + 1 then 1 else 0, a.2, w.inside⟩ := by
  rw [buildMessage, hwalk]
  rfl

/-- A packet without data goes on with nothing. -/
theorem build_empty (front : List UInt8) (st : Reassembly) :
    buildMessage front st [] =
      ⟨if st.idx = st.total + 1 then 1 else 0, { st with scat := some (st.scat.getD []) }, true⟩ := rfl

/-- The state after fragments were appended. -/
def Reassembly.append (st : Reassembly) (total : Nat) (run : Payload) : Reassembly :=
  { st with scat := some (st.scat.getD [] ++ run), idx := st.idx + run.length, total := total }

/-- The state after the first fragment of a packet did not go on with the working message. -/
def Reassembly.release (st : Reassembly) (total : Nat) : Reassembly :=
  { st with scat := some (st.scat.getD []), released := true, total := total }

/-- **Well-formed packets.** The first fragments of the packet, up to where the numbers begin again and no less, are
appended where they go on with the working message, and otherwise the working message is given up. -/
theorem build_wellformed (front : List UInt8) (h : Wellformed total frags) (hne : frags ≠ []) (ht : st.total = total ∨ st.total = 0) :
    ∃ first run, frags.head? = some first ∧ run ≠ [] ∧ run <+: frags ∧
      run.map Fragment.fragIdx = List.range' first.fragIdx run.length ∧ (∀ f ∈ (frags.drop run.length).head?, f.fragIdx = 1) ∧
      buildMessage front st (bytesOf frags) =
        if first.fragIdx = st.idx then
          ⟨if st.idx + run.length = total + 1 then 1 else 0, st.append total run, true⟩
        else ⟨-6, st.release total, true⟩ := by
  obtain ⟨m, run, w, -, hwalk, hw, -⟩ := walk_packet front h ht (List.append_nil _).symm
  rw [walk_nil] at hwalk
  have hrun : run ≠ [] := fun hnil => hne (hw.nil hnil).1
  have htotal : w.total = total := hw.total.resolve_right fun hnil => hne hnil.1
  obtain ⟨first, hfirst⟩ : ∃ first, frags.head? = some first := by
    cases frags with
    | nil => exact absurd rfl hne
    | cons f frags => exact ⟨f, rfl⟩
  have hhead : first.fragIdx = w.arrayIdx + 1 := hw.head first hfirst
  refine ⟨first, run, hfirst, hrun, hw.run_prefix, hhead ▸ hw.numbers, hw.again, ?_⟩
  have hcount : w.maxArrayIdx - w.arrayIdx = run.length := by
    rw [hw.max]
    omega
  rw [build_of_walk hwalk, hcount, htotal, hw.inside]
  by_cases hgoes : first.fragIdx = st.idx
  · have hidx : w.arrayIdx + 1 = st.idx := hhead.symm.trans hgoes
    have happend := appendFragments_run { st with total := total, scat := some (st.scat.getD []) } rfl
      (hidx ▸ hw.numbers) hw.addr
    rw [if_pos hgoes, hidx, happend]
    rfl
  · obtain ⟨f, run, rfl⟩ := List.exists_cons_of_ne_nil hrun
    rw [if_neg hgoes, List.length_cons, List.range'_succ, appendFragments, if_pos (.inl (hhead ▸ hgoes))]
    rfl

/-- **Refused packets.** Where a whole header does not go on with the well-formed fragments behind it, the call fails, and
the total of those is left behind. -/
theorem build_refused (front : List UInt8) (h : Wellformed total frags) (hpkt : pkt.reverse = (bytesOf frags).reverse ++ left)
    (hlen : fragmentHeaderSize ≤ left.length) (hnot : ¬ Accepts total frags left)
    (ht : st.total = total ∨ st.total = 0 ∧ (frags = [] → (fragmentHeader left).fragTotal = total)) :
    (buildMessage front st pkt).ret < 0 ∧ (buildMessage front st pkt).inside = true ∧
      (buildMessage front st pkt).st = { st with total := total } := by
  obtain ⟨m, run, w, hm, hwalk, hw, hsame⟩ := walk_packet front h (ht.imp_right And.left) hpkt
  have hknown : w.total = total ∨ (fragmentHeader left).fragTotal = total := by
    rcases hw.total with hw' | ⟨hnil, -⟩
    · exact .inl hw'
    · exact ht.imp ((hsame hnil).trans ·) fun h => h.2 hnil
  obtain ⟨hneg, hinside, htotal⟩ := walkRound_refuses front hw h.pos h.lt hlen hknown hnot
  have hne : left ≠ [] := by
    rintro rfl
    exact absurd hlen (by decide)
  rw [walk_ends front hm hne hneg] at hwalk
  rw [buildMessage, hwalk]
  dsimp only
  rw [if_pos hneg, htotal]
  exact ⟨hneg, hinside, rfl⟩

/-- Where less than a header is left in front of well-formed fragments, the call fails after reading what is not its packet. -/
theorem build_outside (front : List UInt8) (h : Wellformed total frags) (hpkt : pkt.reverse = (bytesOf frags).reverse ++ left)
    (hne : left ≠ []) (hlen : left.length < fragmentHeaderSize) (ht : st.total = total ∨ st.total = 0) :
    (buildMessage front st pkt).inside = false := by
  obtain ⟨m, run, w, hm, hwalk, hw, -⟩ := walk_packet front h ht hpkt
  obtain ⟨hneg, hinside⟩ := walkRound_outside front (w := w) hlen
  rw [walk_ends front hm hne hneg] at hwalk
  rw [buildMessage, hwalk]
  dsimp only
  rw [if_pos hneg, hinside]

/-- A last header without a valid total is refused before anything is written. -/
theorem build_badTotal (front : List UInt8) (st : Reassembly) (hlen : fragmentHeaderSize ≤ pkt.length)
    (hbad : (fragmentHeader pkt.reverse).fragTotal = 0 ∨ maxScatterElements - 1 < (fragmentHeader pkt.reverse).fragTotal) :
    buildMessage front st pkt = ⟨-1, st, true⟩ := by
  have hwhole : fragmentHeaderSize ≤ pkt.reverse.length := by rwa [List.length_reverse]
  have hround : walkRound front pkt.reverse (.start st.total) = (-1, .start st.total) := by
    unfold walkRound
    rw [fragmentHeader_append hwhole]
    dsimp only
    rw [if_pos hbad, decide_eq_true hwhole]
    rfl
  have hne : pkt.reverse ≠ [] := by
    intro hnil
    rw [hnil] at hwhole
    exact absurd hwhole (by decide)
  have hneg : (walkRound front pkt.reverse (.start st.total)).1 < 0 := by
    rw [hround]
    exact Int.negSucc_lt_zero 0
  have hends := walk_ends front (le_of_eq pkt.length_reverse) hne hneg
  rw [buildMessage, hends, hround]
  rfl

end Call

/-! ## Runs -/

/-- The working message holds the first fragments of a message in order, with its total. The packets gave it what they
begin with. -/
structure Collects (pkts : List (List UInt8)) (st : Reassembly) : Prop where
  held : st.released = false
  parts : ∃ parts : List Payload, st.scat.getD [] = parts.flatten ∧ List.Forall₂ (fun part pkt => bytesOf part <+: pkt) parts pkts
  idx : st.idx = (st.scat.getD []).length + 1
  numbers : (st.scat.getD []).map Fragment.fragIdx = List.range' 1 (st.scat.getD []).length
  totals : ∀ f ∈ st.scat.getD [], f.fragTotal = st.total

/-- The working message is a header and the fragments `1` to `total`. -/
structure Whole (pkts : List (List UInt8)) (st : Reassembly) : Prop extends Collects pkts st where
  pos : 1 ≤ st.total
  message : ∃ frags, st.scat = some frags ∧ frags.length = st.total

/-- What a call on a packet should do. -/
structure SoundCall (s : Receiver) (front pkt : List UInt8) : Prop where
  inside : (buildMessage front s.st pkt).inside = true
  whole : (buildMessage front s.st pkt).ret = 1 → Whole (s.contributed ++ [pkt]) (buildMessage front s.st pkt).st
  clean : (buildMessage front s.st pkt).ret < 0 →
    (buildMessage front s.st pkt).st = s.st ∨ (buildMessage front s.st pkt).st = .empty

def Sound (s : Receiver) : Arrival → Prop
  | .packet front pkt => SoundCall s front pkt
  | .incarnationChange => True

/-- The packets that are taken, or refused, as they should be: well-formed fragments that go on with the working message;
while there is a message, a packet without data and one with a whole header that does not go on with the
well-formed fragments behind it; and otherwise one whose last header has no valid total. -/
inductive Behaves (st : Reassembly) (pkt : List UInt8) : Prop
  | goesOn {total : Nat} {frags : Payload} {first : Fragment} (h : Wellformed total frags) (ht : st.total = total ∨ st.total = 0)
      (hfirst : frags.head? = some first) (hidx : first.fragIdx = st.idx) (hpkt : pkt = bytesOf frags)
  | noData (ht : st.total ≠ 0) (hpkt : pkt = [])
  | refused {frags : Payload} {left : List UInt8} (ht : st.total ≠ 0) (h : Wellformed st.total frags)
      (hpkt : pkt.reverse = (bytesOf frags).reverse ++ left) (hlen : fragmentHeaderSize ≤ left.length)
      (hnot : ¬ Accepts st.total frags left)
  | badTotal (ht : st.total = 0) (hlen : fragmentHeaderSize ≤ pkt.length)
      (hbad : (fragmentHeader pkt.reverse).fragTotal = 0 ∨ maxScatterElements - 1 < (fragmentHeader pkt.reverse).fragTotal)

/-- The working message is empty, or holds some fragments of a message but not all. -/
structure Waits (s : Receiver) : Prop extends Collects s.contributed s.st where
  part : s.st = .empty ∧ s.contributed = [] ∨
    (0 < (s.st.scat.getD []).length ∧ (s.st.scat.getD []).length < s.st.total ∧ s.st.total ≤ maxScatterElements - 1)

section Runs

variable {s : Receiver} {front pkt : List UInt8} {st : Reassembly} {pkts : List (List UInt8)} {total : Nat} {run : Payload}

theorem collects_empty : Collects [] .empty where
  held := rfl
  parts := ⟨[], rfl, .nil⟩
  idx := rfl
  numbers := rfl
  totals f hf := by cases hf

theorem Collects.append (h : Collects pkts st) (ht : st.total = total ∨ st.scat.getD [] = [])
    (hnumbers : run.map Fragment.fragIdx = List.range' st.idx run.length) (htotals : ∀ f ∈ run, f.fragTotal = total)
    (hpkt : bytesOf run <+: pkt) : Collects (pkts ++ [pkt]) (st.append total run) := by
  obtain ⟨parts, hparts, hall⟩ := h.parts
  refine ⟨h.held, ⟨parts ++ [run], ?_, List.rel_append hall (.cons hpkt .nil)⟩, ?_, ?_, ?_⟩
  · simp [Reassembly.append, hparts]
  · simp only [Reassembly.append, Option.getD_some, List.length_append, h.idx]
    omega
  · simp only [Reassembly.append, Option.getD_some, List.map_append, List.length_append, h.numbers, hnumbers, h.idx]
    rw [Nat.add_comm _ 1, List.range'_append_1]
  · intro f hf
    rcases List.mem_append.mp hf with hf | hf
    · rcases ht with ht | ht
      · exact (h.totals f hf).trans ht
      · rw [ht] at hf
        cases hf
    · exact htotals f hf

theorem Waits.total_eq_zero (h : Waits s) (ht : s.st.total = 0) : s.st = .empty := by
  rcases h.part with ⟨hempty, -⟩ | ⟨-, hlt, -⟩
  · exact hempty
  · omega

/-- Well-formed fragments that go on with the working message are appended up to where their numbers begin again. -/
theorem Waits.goesOn (h : Waits s) {frags : Payload} {first : Fragment} (hwell : Wellformed total frags)
    (ht : s.st.total = total ∨ s.st.total = 0) (hfirst : frags.head? = some first) (hidx : first.fragIdx = s.st.idx)
    (front : List UInt8) :
    ∃ run, run ≠ [] ∧ Collects (s.contributed ++ [bytesOf frags]) (s.st.append total run) ∧
      (s.st.append total run).idx ≤ total + 1 ∧
      buildMessage front s.st (bytesOf frags) =
        ⟨if s.st.idx + run.length = total + 1 then 1 else 0, s.st.append total run, true⟩ := by
  have hne : frags ≠ [] := by
    rintro rfl
    cases hfirst
  obtain ⟨first', run, hfirst', hrun, hprefix, hnumbers, -, hbuild⟩ := build_wellformed front hwell hne ht
  cases hfirst.symm.trans hfirst'
  rw [if_pos hidx] at hbuild
  have hmem : ∀ f ∈ run, f ∈ frags := fun f hf => hprefix.subset hf
  have hbytes : bytesOf run <+: bytesOf frags := by
    obtain ⟨tail, rfl⟩ := hprefix
    exact ⟨bytesOf tail, (bytesOf_append run tail).symm⟩
  refine ⟨run, hrun, h.append ?_ (hidx ▸ hnumbers) (fun f hf => hwell.totals f (hmem f hf)) hbytes, ?_, hbuild⟩
  · refine ht.imp_right fun hzero => ?_
    rw [h.total_eq_zero hzero]
    rfl
  · obtain ⟨last, hlast⟩ : ∃ last, last ∈ run ∧ last.fragIdx + 1 = s.st.idx + run.length := by
      have hlen : 0 < run.length := List.length_pos_iff.mpr hrun
      have hget : run[run.length - 1].fragIdx = first.fragIdx + (run.length - 1) := by
        have hmap : (run.map Fragment.fragIdx)[run.length - 1]? = some (first.fragIdx + (run.length - 1)) := by
          rw [hnumbers, List.getElem?_range' (by omega), Nat.one_mul]
        rw [List.getElem?_map, List.getElem?_eq_getElem (by omega)] at hmap
        exact Option.some.inj hmap
      refine ⟨run[run.length - 1], List.getElem_mem _, ?_⟩
      rw [hget, hidx]
      omega
    have hle := (hwell.numbered last (hmem last hlast.1)).2
    have hend : (s.st.append total run).idx = s.st.idx + run.length := rfl
    omega

/-- **Soundness of a call**, from what the packet is. -/
theorem Waits.sound (h : Waits s) (hb : Behaves s.st pkt) (front : List UInt8) : SoundCall s front pkt := by
  cases hb with
  | @goesOn total frags first hwell ht hfirst hidx hpkt =>
    subst hpkt
    obtain ⟨run, hrun, hcollects, hle, hbuild⟩ := h.goesOn hwell ht hfirst hidx front
    refine ⟨by rw [hbuild], ?_, ?_⟩
    · rw [hbuild]
      intro hret
      dsimp only at hret
      split at hret
      · rename_i hend
        have hlen := hcollects.idx
        change s.st.idx + run.length = (s.st.scat.getD [] ++ run).length + 1 at hlen
        refine { hcollects with pos := hwell.pos, message := ⟨_, rfl, ?_⟩ }
        change (s.st.scat.getD [] ++ run).length = total
        omega
      · omega
    · rw [hbuild]
      intro hret
      dsimp only at hret
      split at hret <;> omega
  | noData ht hpkt =>
    subst hpkt
    have hpart := h.part.resolve_left fun hempty => ht (by rw [hempty.1]; rfl)
    have hidx := h.idx
    refine ⟨by rw [build_empty], ?_, ?_⟩
    · rw [build_empty, if_neg (by omega)]
      intro hret
      exact absurd hret (by simp)
    · rw [build_empty, if_neg (by omega)]
      intro hret
      exact absurd hret (by simp)
  | refused ht hwell hpkt hlen hnot =>
    obtain ⟨hneg, hinside, hst⟩ := build_refused front hwell hpkt hlen hnot (.inl rfl)
    exact ⟨hinside, fun hret => by omega, fun _ => .inl hst⟩
  | badTotal ht hlen hbad =>
    have hbuild := build_badTotal front s.st hlen hbad
    refine ⟨by rw [hbuild], ?_, ?_⟩
    · rw [hbuild]
      intro hret
      exact absurd hret (by simp)
    · rw [hbuild]
      exact fun _ => .inl rfl

theorem eq_bytesOf {frags : Payload} (h : pkt.reverse = (bytesOf frags).reverse ++ []) : pkt = bytesOf frags := by
  rw [List.append_nil] at h
  exact List.reverse_inj.mp h

/-- What is left in front of well-formed fragments settles whether the call does what it should, where the working message
has the total of those or none. -/
theorem Waits.split (h : Waits s) {frags : Payload} {left : List UInt8} (hwell : Wellformed total frags)
    (ht : s.st.total = total ∨ s.st.total = 0) (hpkt : pkt.reverse = (bytesOf frags).reverse ++ left) (hne : pkt ≠ [])
    (hlen : left.length < fragmentHeaderSize) (hsound : SoundCall s front pkt) : Behaves s.st pkt := by
  rcases eq_or_ne left [] with rfl | hleft
  · have hbytes := eq_bytesOf hpkt
    have hfrags : frags ≠ [] := by
      rintro rfl
      exact hne hbytes
    obtain ⟨first, run, hfirst, -, -, -, -, hbuild⟩ := build_wellformed front hwell hfrags ht
    by_cases hidx : first.fragIdx = s.st.idx
    · exact .goesOn hwell ht hfirst hidx hbytes
    · -- the working message was given up
      rw [if_neg hidx, ← hbytes] at hbuild
      have hclean := hsound.clean (by simp [hbuild])
      rw [hbuild] at hclean
      rcases hclean with hsame | hempty
      · have hreleased := congrArg Reassembly.released hsame
        rw [h.held] at hreleased
        cases hreleased
      · have hreleased := congrArg Reassembly.released hempty
        cases hreleased
  · have hinside := hsound.inside
    rw [build_outside front hwell hpkt hleft hlen ht] at hinside
    cases hinside

/-- A call does what it should exactly on the packets that behave. -/
theorem Waits.sound_iff (h : Waits s) : SoundCall s front pkt ↔ Behaves s.st pkt := by
  refine ⟨fun hsound => ?_, fun hb => h.sound hb front⟩
  rcases Nat.eq_zero_or_pos s.st.total with hzero | hpos
  · have hempty := h.total_eq_zero hzero
    rcases eq_or_ne pkt [] with rfl | hne
    · -- a packet without data would complete a message without fragments
      have hwhole := hsound.whole (by rw [build_empty, hempty]; rfl)
      have hpos := hwhole.pos
      rw [build_empty] at hpos
      exact absurd hpos (by rw [hempty]; decide)
    · by_cases hlen : pkt.length < fragmentHeaderSize
      · have hlen' : pkt.reverse.length < fragmentHeaderSize := by rwa [List.length_reverse]
        have hnil : Wellformed 1 [] := .nil (by decide) (by decide)
        exact h.split hnil (.inr hzero) rfl hne hlen' hsound
      · by_cases hbad : (fragmentHeader pkt.reverse).fragTotal = 0 ∨
            maxScatterElements - 1 < (fragmentHeader pkt.reverse).fragTotal
        · exact .badTotal hzero (not_lt.mp hlen) hbad
        · have hnil : Wellformed (fragmentHeader pkt.reverse).fragTotal [] := .nil (by omega) (by omega)
          obtain ⟨frags, left, hsplit, hwell, hend⟩ := exists_wellformed hnil pkt.reverse
          rw [List.append_nil] at hwell hend
          by_cases hshort : left.length < fragmentHeaderSize
          · exact h.split hwell (.inr hzero) hsplit hne hshort hsound
          · -- the total of a refused packet was kept
            have hknown : frags = [] → (fragmentHeader left).fragTotal = (fragmentHeader pkt.reverse).fragTotal := by
              rintro rfl
              rw [hsplit]
              rfl
            obtain ⟨hneg, -, hst⟩ := build_refused front hwell hsplit (not_lt.mp hshort)
              (hend.resolve_left hshort) (.inr ⟨hzero, hknown⟩)
            have htotal := congrArg Reassembly.total hst
            have hpos := hwell.pos
            rcases hsound.clean hneg with hsame | hreset
            · exact absurd (htotal.symm.trans ((congrArg Reassembly.total hsame).trans hzero)) hpos.ne'
            · exact absurd (htotal.symm.trans (congrArg Reassembly.total hreset)) hpos.ne'
  · obtain ⟨hlt, hmax⟩ := (h.part.resolve_left fun hempty => by
      rw [hempty.1] at hpos
      exact absurd hpos (by decide)).2
    rcases eq_or_ne pkt [] with rfl | hne
    · exact .noData hpos.ne' rfl
    · obtain ⟨frags, left, hsplit, hwell, hend⟩ := exists_wellformed (.nil hpos hmax) pkt.reverse
      rw [List.append_nil] at hwell hend
      by_cases hshort : left.length < fragmentHeaderSize
      · exact h.split hwell (.inl rfl) hsplit hne hshort hsound
      · exact .refused hpos.ne' hwell hsplit (not_lt.mp hshort) (hend.resolve_left hshort)

theorem waits_start (delivered : List (List Fragment)) : Waits ⟨.empty, [], delivered⟩ where
  toCollects := collects_empty
  part := .inl ⟨rfl, rfl⟩

/-- A packet that behaves leaves a working message that waits for more, or a new one. -/
theorem Waits.packet (h : Waits s) (hb : Behaves s.st pkt) (front : List UInt8) : Waits (s.step (.packet front pkt)) := by
  cases hb with
  | @goesOn total frags first hwell ht hfirst hidx hpkt =>
    subst hpkt
    obtain ⟨run, hrun, hcollects, hle, hbuild⟩ := h.goesOn hwell ht hfirst hidx front
    simp only [Receiver.step, hbuild]
    by_cases hend : s.st.idx + run.length = total + 1
    · rw [if_pos hend, if_pos rfl]
      exact waits_start _
    · rw [if_neg hend, if_neg (by decide), if_neg (by decide)]
      have hlen := hcollects.idx
      change s.st.idx + run.length = (s.st.scat.getD [] ++ run).length + 1 at hlen
      change s.st.idx + run.length ≤ total + 1 at hle
      have hpos : 0 < run.length := List.length_pos_iff.mpr hrun
      rw [List.length_append] at hlen
      refine ⟨hcollects, .inr ⟨?_, ?_, hwell.lt⟩⟩
      · change 0 < (s.st.scat.getD [] ++ run).length
        rw [List.length_append]
        omega
      · change (s.st.scat.getD [] ++ run).length < total
        rw [List.length_append]
        omega
  | noData ht hpkt =>
    subst hpkt
    have hpart := h.part.resolve_left fun hempty => ht (by rw [hempty.1]; rfl)
    have hidx := h.idx
    obtain ⟨frags, hscat⟩ : ∃ frags, s.st.scat = some frags := by
      cases hs : s.st.scat with
      | none =>
        rw [hs] at hpart
        exact absurd hpart.1 (by decide)
      | some frags => exact ⟨frags, rfl⟩
    have hsame : { s.st with scat := some (s.st.scat.getD []) } = s.st.append s.st.total [] := by
      simp [Reassembly.append]
    have hcollects := h.toCollects.append (.inl rfl) (rfl : ([] : Payload).map Fragment.fragIdx = List.range' s.st.idx 0)
      (fun f hf => by cases hf) (List.prefix_refl [])
    have hnot : ¬ s.st.idx = s.st.total + 1 := by omega
    simp only [Receiver.step, build_empty, hsame, if_neg hnot]
    rw [if_neg (by decide), if_neg (by decide)]
    refine ⟨hcollects, .inr ?_⟩
    simpa [Reassembly.append] using hpart
  | refused ht hwell hpkt hlen hnot =>
    obtain ⟨hneg, -, hst⟩ := build_refused front hwell hpkt hlen hnot (.inl rfl)
    simp only [Receiver.step, hst]
    rw [if_neg (by omega), if_pos hneg]
    exact ⟨h.toCollects, h.part⟩
  | badTotal ht hlen hbad =>
    simp only [Receiver.step, build_badTotal front s.st hlen hbad]
    rw [if_neg (by decide), if_pos (by decide)]
    exact ⟨h.toCollects, h.part⟩

theorem Waits.incarnationChange (h : Waits s) : Waits (s.step .incarnationChange) := by
  simp only [Receiver.step]
  split
  · exact waits_start _
  · exact h

end Runs

end Spire.ItLink
