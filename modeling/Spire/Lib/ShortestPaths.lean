import Mathlib

/-!
# Shortest paths, one vertex in between at a time

A walk is the list of its hops. `cheapest` admits the vertices of a list one after the other
as vertices in between, and replaces a path only by a strictly cheaper one. What it finds is a
walk with no vertex twice (`cheapest_via`, `cheapest_simple`), no walk is cheaper
(`cheapest_le`), and the paths from one vertex form a tree: the first part of a path that was
chosen is the path that was chosen for its end (`cheapest_front`). The last holds also among
paths of one weight, whatever the weights, zero included.
-/

namespace Spire.Lib

variable {V : Type*} (w : V → V → Option ℕ)

/-! ## Walks -/

/-- The hops `hs` lead from one vertex to another, and each vertex in between is in `S`. -/
inductive Via (S : Set V) : V → List (V × V) → V → Prop
  | hop {i j : V} : (w i j).isSome → Via S i [(i, j)] j
  | cons {i v j : V} {hs : List (V × V)} : (w i v).isSome → v ∈ S → Via S v hs j → Via S i ((i, v) :: hs) j

/-- The weight of all hops. -/
def total (hs : List (V × V)) : ℕ := (hs.map fun h => (w h.1 h.2).getD 0).sum

variable {w} {S T : Set V} {i j k v : V} {a b hs : List (V × V)}

@[simp] theorem total_nil : total w [] = 0 := rfl

@[simp] theorem total_append : total w (a ++ b) = total w a + total w b := by
  simp [total]

theorem total_cons (h : V × V) (hs : List (V × V)) : total w (h :: hs) = total w [h] + total w hs :=
  total_append (a := [h])

theorem Via.ne_nil (h : Via w S i hs j) : hs ≠ [] := by
  cases h <;> simp

theorem Via.mono (hsub : S ⊆ T) (h : Via w S i hs j) : Via w T i hs j := by
  induction h with
  | hop hw => exact .hop hw
  | cons hw hv _ ih => exact .cons hw (hsub hv) ih

/-- Two walks make one through the vertex where they meet. -/
theorem Via.append (h : Via w S i a k) (hk : k ∈ S) (h' : Via w S k b j) : Via w S i (a ++ b) j := by
  induction h with
  | hop hw => exact .cons hw hk h'
  | cons hw hv _ ih => exact .cons hw hv (ih hk h')

/-- A walk leaves the vertex where it starts. -/
theorem Via.start_mem (h : Via w S i hs j) : i ∈ hs.map Prod.fst := by
  cases h <;> simp

/-- A walk cut in two meets a vertex in between. -/
theorem Via.cut (h : Via w S i hs j) (heq : hs = a ++ b) (ha : a ≠ []) (hb : b ≠ []) :
    ∃ v ∈ S, Via w S i a v ∧ Via w S v b j := by
  induction h generalizing a with
  | hop hw =>
    have hlen := congrArg List.length heq
    have := List.length_pos_of_ne_nil ha
    have := List.length_pos_of_ne_nil hb
    simp only [List.length_cons, List.length_nil, List.length_append] at hlen
    omega
  | cons hw hv hrest ih =>
    cases a with
    | nil => exact absurd rfl ha
    | cons p a =>
      simp only [List.cons_append, List.cons.injEq] at heq
      obtain ⟨rfl, rfl⟩ := heq
      by_cases hnil : a = []
      · subst hnil
        exact ⟨_, hv, .hop hw, hrest⟩
      · obtain ⟨u, hu, hleft, hright⟩ := ih rfl hnil
        exact ⟨u, hu, .cons hw hv hleft, hright⟩

/-- A walk ends where its last hop does. -/
theorem Via.last {u : V} (h : Via w S i (a ++ [(u, v)]) j) : j = v := by
  by_cases ha : a = []
  · subst ha
    cases h with
    | hop _ => rfl
    | cons _ _ hrest => exact absurd rfl hrest.ne_nil
  · obtain ⟨_, _, _, hright⟩ := h.cut rfl ha (by simp)
    cases hright with
    | hop _ => rfl
    | cons _ _ hrest => exact absurd rfl hrest.ne_nil

/-- A walk starts where its first hop does. -/
theorem Via.first {u : V} (h : Via w S i ((u, v) :: b) j) : i = u := by
  cases h <;> rfl

/-- The vertices of a walk, by where its hops start and by where they end. -/
theorem Via.vertices (h : Via w S i hs j) : hs.map Prod.fst ++ [j] = i :: hs.map Prod.snd := by
  induction h with
  | hop _ => rfl
  | cons _ _ _ ih => rw [List.map_cons, List.cons_append, ih, List.map_cons]

theorem Via.weight {u : V} (h : Via w S i hs j) (hmem : (u, v) ∈ hs) : (w u v).isSome := by
  induction h with
  | hop hw =>
    obtain ⟨rfl, rfl⟩ : u = _ ∧ v = _ := by simpa using hmem
    exact hw
  | cons hw _ _ ih =>
    rcases List.mem_cons.mp hmem with heq | hmem
    · obtain ⟨rfl, rfl⟩ : u = _ ∧ v = _ := by simpa using heq
      exact hw
    · exact ih hmem

/-- The vertices that a walk leaves are its start and vertices in between. -/
theorem Via.mem_fst (h : Via w S i hs j) (hv : v ∈ hs.map Prod.fst) : v = i ∨ v ∈ S := by
  induction h with
  | hop hw => exact .inl (by simpa using hv)
  | cons hw hu _ ih =>
    rcases List.mem_cons.mp hv with hv | hv
    · exact .inl hv
    · rcases ih hv with rfl | hv
      · exact .inr hu
      · exact .inr hv

/-- A walk that leaves a vertex passes through it. -/
theorem Via.split (h : Via w S i hs j) (hv : v ∈ hs.map Prod.fst) (hne : v ≠ i) :
    ∃ a b, hs = a ++ b ∧ Via w S i a v ∧ Via w S v b j := by
  induction h with
  | hop hw => simp_all
  | @cons i u j hs hw hu hrest ih =>
    have hv : v ∈ hs.map Prod.fst := by simpa [hne] using hv
    by_cases heq : v = u
    · subst heq
      exact ⟨[(i, v)], hs, rfl, .hop hw, hrest⟩
    · obtain ⟨a, b, rfl, hleft, hright⟩ := ih hv heq
      exact ⟨(i, u) :: a, b, rfl, .cons hw hu hleft, hright⟩

/-- A walk that may also pass through `k` need not pass through it more than once. -/
theorem Via.through (h : Via w (insert k S) i hs j) :
    Via w S i hs j ∨ ∃ a b, Via w S i a k ∧ Via w S k b j ∧ total w a + total w b ≤ total w hs := by
  induction h with
  | hop hw => exact .inl (.hop hw)
  | @cons i v j hs hw hv hrest ih =>
    have hcons := total_cons (w := w) (i, v) hs
    rcases hv with rfl | hv
    · rcases ih with hrest | ⟨a, b, _, hright, hle⟩
      · exact .inr ⟨_, _, .hop hw, hrest, le_of_eq hcons.symm⟩
      · exact .inr ⟨_, _, .hop hw, hright, by omega⟩
    · rcases ih with hrest | ⟨a, b, hleft, hright, hle⟩
      · exact .inl (.cons hw hv hrest)
      · refine .inr ⟨_, _, .cons hw hv hleft, hright, ?_⟩
        have := total_cons (w := w) (i, v) a
        omega

/-! ## Choosing a path -/

section Choice

variable (w)

/-- A path through a new vertex in between, where both parts are known and it is cheaper. -/
def improve (ik kj ij : Option (List (V × V))) : Option (List (V × V)) :=
  match ik, kj with
  | some a, some b =>
    match ij with
    | none => some (a ++ b)
    | some p => if total w (a ++ b) < total w p then some (a ++ b) else some p
  | _, _ => ij

variable [DecidableEq V]

/-- The path that is chosen when the vertices of the list, the last first, have been admitted
as vertices in between. -/
def cheapest : List V → V → V → Option (List (V × V))
  | [], i, j => if (w i j).isSome then some [(i, j)] else none
  | k :: ks, i, j =>
    if i = k ∨ j = k then cheapest ks i j
    else improve w (cheapest ks i k) (cheapest ks k j) (cheapest ks i j)

end Choice

/-- What an improvement yields: the old path, which then is not dearer than the two parts, or
the two parts, which then are cheaper. -/
theorem improve_eq_some {ik kj ij : Option (List (V × V))} {p : List (V × V)} :
    improve w ik kj ij = some p ↔
      (ij = some p ∧ ∀ a b, ik = some a → kj = some b → total w p ≤ total w (a ++ b)) ∨
      ∃ a b, ik = some a ∧ kj = some b ∧ p = a ++ b ∧ ∀ q, ij = some q → total w (a ++ b) < total w q := by
  rcases ik with _ | a
  · simp [improve]
  rcases kj with _ | b
  · simp [improve]
  rcases ij with _ | q
  · simp [improve, eq_comm]
  simp only [improve]
  split
  · rename_i hlt
    constructor
    · rintro ⟨⟩
      exact .inr ⟨a, b, rfl, rfl, rfl, by rintro q ⟨⟩; exact hlt⟩
    · rintro (⟨⟨⟩, hle⟩ | ⟨_, _, ⟨⟩, ⟨⟩, rfl, _⟩)
      · exact absurd hlt (Nat.not_lt.mpr (hle a b rfl rfl))
      · rfl
  · rename_i hle
    constructor
    · rintro ⟨⟩
      exact .inl ⟨rfl, by rintro a b ⟨⟩ ⟨⟩; exact Nat.not_lt.mp hle⟩
    · rintro (⟨⟨⟩, _⟩ | ⟨_, _, ⟨⟩, ⟨⟩, rfl, hlt⟩)
      · rfl
      · exact absurd (hlt q rfl) hle

theorem improve_eq_none {ik kj ij : Option (List (V × V))} :
    improve w ik kj ij = none ↔ ij = none ∧ (ik = none ∨ kj = none) := by
  rcases ik with _ | a <;> rcases kj with _ | b <;> rcases ij with _ | q <;> simp [improve]
  split <;> simp

variable [DecidableEq V] {ks : List V} {p : List (V × V)}

/-! ## What is chosen -/

/-- The path that is chosen is a walk through the vertices that have been admitted. -/
theorem cheapest_via (h : cheapest w ks i j = some p) : Via w {v | v ∈ ks} i p j := by
  induction ks generalizing i j p with
  | nil =>
    simp only [cheapest, Option.ite_none_right_eq_some, Option.some.injEq] at h
    obtain ⟨hw, rfl⟩ := h
    exact .hop hw
  | cons k ks ih =>
    have hsub : {v | v ∈ ks} ⊆ {v | v ∈ k :: ks} := fun v hv => List.mem_cons_of_mem k hv
    rw [cheapest] at h
    split at h
    · exact (ih h).mono hsub
    · rcases improve_eq_some.mp h with ⟨hij, _⟩ | ⟨a, b, hik, hkj, rfl, _⟩
      · exact (ih hij).mono hsub
      · exact ((ih hik).mono hsub).append List.mem_cons_self ((ih hkj).mono hsub)

/-- No walk through these vertices is cheaper, and where there is one a path is chosen. -/
theorem cheapest_le (hne : i ≠ j) (h : Via w {v | v ∈ ks} i hs j) :
    ∃ p, cheapest w ks i j = some p ∧ total w p ≤ total w hs := by
  induction ks generalizing i j hs with
  | nil =>
    cases h with
    | hop hw => exact ⟨_, by rw [cheapest, if_pos hw], le_refl _⟩
    | cons _ hv _ => exact absurd hv List.not_mem_nil
  | cons k ks ih =>
    have hset : {v | v ∈ k :: ks} = insert k {v | v ∈ ks} := by
      ext v
      simp
    rw [hset] at h
    rw [cheapest]
    rcases h.through with hks | ⟨a, b, hleft, hright, hle⟩
    · obtain ⟨p, hp, hle⟩ := ih hne hks
      split
      · exact ⟨p, hp, hle⟩
      · cases himp : improve w (cheapest w ks i k) (cheapest w ks k j) (cheapest w ks i j) with
        | none => simp [improve_eq_none, hp] at himp
        | some q =>
          rcases improve_eq_some.mp himp with ⟨hq, _⟩ | ⟨_, _, _, _, rfl, hlt⟩
          · rw [hp, Option.some.injEq] at hq
            exact ⟨q, rfl, hq ▸ hle⟩
          · exact ⟨_, rfl, le_trans (le_of_lt (hlt p hp)) hle⟩
    · by_cases hi : i = k
      · subst hi
        rw [if_pos (.inl rfl)]
        obtain ⟨p, hp, hp'⟩ := ih hne hright
        exact ⟨p, hp, by omega⟩
      by_cases hj : j = k
      · subst hj
        rw [if_pos (.inr rfl)]
        obtain ⟨p, hp, hp'⟩ := ih hne hleft
        exact ⟨p, hp, by omega⟩
      rw [if_neg (by tauto)]
      obtain ⟨a', ha, hale⟩ := ih hi hleft
      obtain ⟨b', hb, hble⟩ := ih (Ne.symm hj) hright
      cases himp : improve w (cheapest w ks i k) (cheapest w ks k j) (cheapest w ks i j) with
      | none => simp [improve_eq_none, ha, hb] at himp
      | some q =>
        refine ⟨q, rfl, ?_⟩
        rcases improve_eq_some.mp himp with ⟨_, hq⟩ | ⟨a'', b'', ha', hb', rfl, _⟩
        · have := hq a' b' ha hb
          rw [total_append] at this
          omega
        · rw [ha, Option.some.injEq] at ha'
          rw [hb, Option.some.injEq] at hb'
          subst ha' hb'
          rw [total_append]
          omega

/-- Nothing is chosen only where no walk leads. -/
theorem cheapest_eq_none (hne : i ≠ j) : cheapest w ks i j = none ↔ ∀ hs, ¬Via w {v | v ∈ ks} i hs j := by
  constructor
  · intro hnone hs h
    obtain ⟨p, hp, _⟩ := cheapest_le hne h
    rw [hnone] at hp
    cases hp
  · intro hno
    cases hp : cheapest w ks i j with
    | none => rfl
    | some p => exact absurd (cheapest_via hp) (hno p)

/-! ## No vertex twice -/

/-- Where two parts are cheaper than the path there was, they are cheaper than every walk. -/
theorem lt_total_of_improved (hne : i ≠ j)
    (hlt : ∀ q, cheapest w ks i j = some q → total w (a ++ b) < total w q)
    (h : Via w {v | v ∈ ks} i hs j) : total w a + total w b < total w hs := by
  obtain ⟨q, hq, hle⟩ := cheapest_le hne h
  have := hlt q hq
  rw [total_append] at this
  omega

/-- Two parts that are cheaper than every walk have no vertex in common but their end. -/
theorem parts_disjoint (hne : i ≠ j) (hleft : Via w {v | v ∈ ks} i a k) (hright : Via w {v | v ∈ ks} k b j)
    (hk : k ∉ a.map Prod.fst)
    (hbest : ∀ hs, Via w {v | v ∈ ks} i hs j → total w a + total w b < total w hs) (hv : v ∈ a.map Prod.fst) :
    v ≠ j ∧ v ∉ b.map Prod.fst := by
  have hfront : v ≠ i → ∃ a₁, Via w {v | v ∈ ks} i a₁ v ∧ total w a₁ ≤ total w a := by
    intro hvi
    obtain ⟨a₁, a₂, rfl, hwalk, _⟩ := hleft.split hv hvi
    exact ⟨a₁, hwalk, by simp⟩
  constructor
  · rintro rfl
    obtain ⟨a₁, hwalk, hle⟩ := hfront (Ne.symm hne)
    have := hbest a₁ hwalk
    omega
  · intro hvb
    have hvk : v ≠ k := fun heq => hk (heq ▸ hv)
    obtain ⟨b₁, b₂, rfl, _, hwalk⟩ := hright.split hvb hvk
    rw [total_append] at hbest
    by_cases hvi : v = i
    · subst hvi
      have := hbest b₂ hwalk
      omega
    · obtain ⟨a₁, hwalk₁, hle⟩ := hfront hvi
      have hin := (hleft.mem_fst hv).resolve_left hvi
      have := hbest _ (hwalk₁.append hin hwalk)
      rw [total_append] at this
      omega

/-- A path that is chosen passes through no vertex twice. -/
theorem cheapest_simple (hne : i ≠ j) (h : cheapest w ks i j = some p) :
    (p.map Prod.fst).Nodup ∧ j ∉ p.map Prod.fst := by
  induction ks generalizing i j p with
  | nil =>
    simp only [cheapest, Option.ite_none_right_eq_some, Option.some.injEq] at h
    obtain ⟨_, rfl⟩ := h
    simpa using Ne.symm hne
  | cons k ks ih =>
    rw [cheapest] at h
    split at h
    · exact ih hne h
    rename_i hk
    rw [not_or] at hk
    rcases improve_eq_some.mp h with ⟨hij, _⟩ | ⟨a, b, hik, hkj, rfl, hlt⟩
    · exact ih hne hij
    · obtain ⟨hda, hka⟩ := ih hk.1 hik
      obtain ⟨hdb, hjb⟩ := ih (Ne.symm hk.2) hkj
      have hdis := fun v => parts_disjoint (v := v) hne (cheapest_via hik) (cheapest_via hkj) hka
        fun hs hwalk => lt_total_of_improved hne hlt hwalk
      rw [List.map_append, List.nodup_append']
      refine ⟨⟨hda, hdb, fun v hv => (hdis v hv).2⟩, fun hj => ?_⟩
      rcases List.mem_append.mp hj with hj | hj
      · exact (hdis j hj).1 rfl
      · exact hjb hj

/-! ## The paths from one vertex form a tree -/

/-- A path that is not dearer than the two parts stays. -/
theorem cheapest_cons_of_le (h : cheapest w ks i v = some a)
    (hle : i ≠ k → ∀ a' b', cheapest w ks i k = some a' → cheapest w ks k v = some b' → total w a ≤ total w a' + total w b') :
    cheapest w (k :: ks) i v = some a := by
  rw [cheapest]
  split
  · exact h
  · rename_i hk
    refine improve_eq_some.mpr (.inl ⟨h, fun a' b' ha hb => ?_⟩)
    rw [total_append]
    exact hle (fun heq => hk (.inl heq)) a' b' ha hb

/-- **The first part of a path that is chosen is the path that is chosen for its end.** -/
theorem cheapest_front (hnd : ks.Nodup) (hne : i ≠ j) (h : cheapest w ks i j = some (a ++ b)) (ha : a ≠ [])
    (hb : b ≠ []) : ∃ v ∈ ks, Via w {v | v ∈ ks} v b j ∧ cheapest w ks i v = some a := by
  induction ks generalizing i j a b with
  | nil =>
    obtain ⟨_, hv, _⟩ := (cheapest_via h).cut rfl ha hb
    exact absurd hv List.not_mem_nil
  | cons k ks ih =>
    obtain ⟨hk, hnd⟩ := List.nodup_cons.mp hnd
    have hsub : {v | v ∈ ks} ⊆ {v | v ∈ k :: ks} := fun v hv => List.mem_cons_of_mem k hv
    rw [cheapest] at h
    split at h
    · -- an end of the path is the new vertex
      rename_i hend
      obtain ⟨v, hv, hwalk, hfront⟩ := ih hnd hne h ha hb
      refine ⟨v, hsub hv, hwalk.mono hsub, cheapest_cons_of_le hfront fun hik a' b' ha' hb' => ?_⟩
      obtain rfl := hend.resolve_left hik
      rw [h, Option.some.injEq] at ha'
      rw [← ha', total_append]
      omega
    rename_i hend
    rw [not_or] at hend
    rcases improve_eq_some.mp h with ⟨hij, hle⟩ | ⟨a', b', hik, hkj, heq, hlt⟩
    · -- a shorter way to `v` would have been one to `j`
      obtain ⟨v, hv, hwalk, hfront⟩ := ih hnd hne hij ha hb
      refine ⟨v, hsub hv, hwalk.mono hsub, cheapest_cons_of_le hfront fun _ a' b' ha' hb' => ?_⟩
      obtain ⟨b'', hb'', hle'⟩ := cheapest_le (Ne.symm hend.2) ((cheapest_via hb').append hv hwalk)
      have := hle a' b'' ha' hb''
      rw [total_append] at this hle'
      rw [total_append] at this
      omega
    · have hmid : ∀ {c : List (V × V)}, cheapest w ks i k = some c → cheapest w (k :: ks) i k = some c := by
        intro c hc
        rw [cheapest, if_pos (.inr rfl)]
        exact hc
      rcases List.append_eq_append_iff.mp heq with ⟨c, rfl, rfl⟩ | ⟨c, rfl, rfl⟩
      · -- the cut is in the part before the new vertex
        by_cases hc : c = []
        · subst hc
          exact ⟨k, List.mem_cons_self, (cheapest_via hkj).mono hsub, hmid (by simpa using hik)⟩
        · obtain ⟨v, hv, hwalk, hfront⟩ := ih hnd hend.1 hik ha hc
          refine ⟨v, hsub hv, (hwalk.mono hsub).append List.mem_cons_self ((cheapest_via hkj).mono hsub),
            cheapest_cons_of_le hfront fun _ a' b'' ha' _ => ?_⟩
          rw [hik, Option.some.injEq] at ha'
          rw [← ha', total_append]
          omega
      · by_cases hc : c = []
        · subst hc
          exact ⟨k, List.mem_cons_self, (cheapest_via hkj).mono hsub, hmid (by simpa using hik)⟩
        · -- the cut is in the part after it
          obtain ⟨v, hv, hwalk, hfront⟩ := ih hnd (Ne.symm hend.2) hkj hc hb
          refine ⟨v, hsub hv, hwalk.mono hsub, ?_⟩
          have hvk : v ≠ k := fun heq => hk (heq ▸ hv)
          rw [cheapest, if_neg (by tauto)]
          refine improve_eq_some.mpr (.inr ⟨a', c, hik, hfront, rfl, fun q hq => ?_⟩)
          have := lt_total_of_improved hne hlt ((cheapest_via hq).append hv hwalk)
          simp only [total_append] at this ⊢
          omega

/-- A path up to one of its hops, and up to that hop's start, is what is chosen for where it ends. -/
theorem cheapest_hop {u : V} (hnd : ks.Nodup) (hne : i ≠ j) (h : cheapest w ks i j = some (a ++ (u, v) :: b)) :
    v ≠ i ∧ cheapest w ks i v = some (a ++ [(u, v)]) ∧ (u = i ∧ a = [] ∨ u ≠ i ∧ cheapest w ks i u = some a) := by
  have hwalk := cheapest_via h
  have hsimple := (cheapest_simple hne h).1
  have hend : v ≠ i ∧ cheapest w ks i v = some (a ++ [(u, v)]) := by
    by_cases hb : b = []
    · subst hb
      obtain rfl := hwalk.last
      exact ⟨Ne.symm hne, h⟩
    · have hsplit : a ++ (u, v) :: b = (a ++ [(u, v)]) ++ b := by simp
      rw [hsplit] at h hsimple
      obtain ⟨v', _, hright, hfront⟩ := cheapest_front hnd hne h (by simp) hb
      obtain rfl := (cheapest_via hfront).last
      rw [List.map_append] at hsimple
      refine ⟨fun heq => ?_, hfront⟩
      exact List.disjoint_of_nodup_append hsimple (heq ▸ (cheapest_via hfront).start_mem) hright.start_mem
  refine ⟨hend.1, hend.2, ?_⟩
  by_cases ha : a = []
  · subst ha
    exact .inl ⟨hwalk.first.symm, rfl⟩
  · obtain ⟨u', _, hright, hfront⟩ := cheapest_front hnd hne h ha (by simp)
    obtain rfl := hright.first
    rw [List.map_append] at hsimple
    refine .inr ⟨fun heq => ?_, hfront⟩
    exact List.disjoint_of_nodup_append hsimple (heq ▸ (cheapest_via hfront).start_mem) hright.start_mem

end Spire.Lib
