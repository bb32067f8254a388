import Mathlib.Data.List.Chain
import Mathlib.Data.List.Nodup

/-! Numbered entries in groups. A group is kept as its first and its last entry, with a link from each entry
    to the next one. -/

namespace machine.groups

section linked

variable {bounds : Option (Nat × Nat)} {next next' : Nat → Nat} {first last i : Nat} {l : List Nat}

/-- The first and the last entry, and the links between the entries. -/
def Linked (bounds : Option (Nat × Nat)) (next : Nat → Nat) (l : List Nat) : Prop :=
  match bounds with
  | none => l = []
  | some (first, last) => l.head? = some first ∧ l.getLast? = some last ∧ l.IsChain fun i j => next i = j

/-- Links from other entries do not matter. -/
theorem isChain_congr (h : l.IsChain fun i j => next i = j) (heq : ∀ i ∈ l, next' i = next i) :
    l.IsChain fun i j => next' i = j := by
  induction h with
  | nil => exact .nil
  | singleton i => exact .singleton i
  | @cons_cons i j l hlink _ ih =>
    refine .cons_cons ?_ (ih fun i hi => heq i (List.mem_cons_of_mem _ hi))
    rw [heq i List.mem_cons_self, hlink]

theorem Linked.congr (h : Linked bounds next l) (heq : ∀ i ∈ l, next' i = next i) :
    Linked bounds next' l := by
  cases bounds with
  | none => exact h
  | some b => exact ⟨h.1, h.2.1, isChain_congr h.2.2 heq⟩

theorem linked_singleton (next : Nat → Nat) (i : Nat) : Linked (some (i, i)) next [i] :=
  ⟨rfl, rfl, .singleton i⟩

/-- An entry goes to the end of a group that is not empty. -/
theorem Linked.push (h : Linked (some (first, last)) next l) (hnodup : l.Nodup) :
    Linked (some (first, i)) (Function.update next last i) (l ++ [i]) := by
  obtain ⟨hhead, hlast, hchain⟩ := h
  obtain ⟨l, rfl⟩ := List.getLast?_eq_some_iff.mp hlast
  refine ⟨?_, List.getLast?_concat, ?_⟩
  · rw [List.head?_append, hhead]
    rfl
  · have hfront : ∀ j ∈ l, Function.update next last i j = next j := by
      intro j hj
      have hne : j ≠ last := by
        rintro rfl
        exact (List.nodup_append.mp hnodup).2.2 j hj j (List.mem_singleton_self j) rfl
      exact Function.update_of_ne hne _ _
    obtain ⟨hinit, -, hlink⟩ := List.isChain_append.mp hchain
    refine List.isChain_append.mpr ⟨List.isChain_append.mpr ⟨isChain_congr hinit hfront, .singleton _, ?_⟩,
      .singleton _, ?_⟩
    · intro x hx y hy
      rw [hfront x (List.mem_of_getLast? hx)]
      exact hlink x hx y hy
    · intro x hx y hy
      rw [List.getLast?_concat] at hx
      cases hx
      cases hy
      exact Function.update_self _ _ _

end linked

section visit

variable {σ : Type}

/-- `for (;;) { …; if (cur == last) break; cur = next[cur]; }` -/
def visit (next : Nat → Nat) (last : Nat) (f : σ → Nat → σ) : Nat → Nat → σ → Option σ
  | 0, _, _ => none
  | fuel + 1, cur, s => if cur = last then some (f s cur) else visit next last f fuel (next cur) (f s cur)

theorem visit_eq {next : Nat → Nat} {last i : Nat} {l : List Nat} (f : σ → Nat → σ)
    (hchain : (i :: l).IsChain fun i j => next i = j) (hnodup : (i :: l).Nodup)
    (hlast : (i :: l).getLast? = some last) {fuel : Nat} (hfuel : l.length < fuel) (s : σ) :
    visit next last f fuel i s = some ((i :: l).foldl f s) := by
  induction l generalizing i fuel s with
  | nil =>
    obtain rfl : i = last := Option.some.inj hlast
    cases fuel with
    | zero => exact absurd hfuel (Nat.not_lt_zero _)
    | succ fuel => rw [visit, if_pos rfl]; rfl
  | cons j l ih =>
    cases fuel with
    | zero => exact absurd hfuel (Nat.not_lt_zero _)
    | succ fuel =>
      cases hchain with
      | cons_cons hlink hrest =>
        have hne : i ≠ last := by
          rintro rfl
          have hmem := List.mem_of_getLast? (l := j :: l) hlast
          exact (List.nodup_cons.mp hnodup).1 hmem
        rw [visit, if_neg hne, hlink, List.foldl_cons]
        exact ih hrest (List.nodup_cons.mp hnodup).2 hlast (Nat.lt_of_succ_lt_succ hfuel) _

/-- The loop over a group visits its entries in order. -/
theorem Linked.visit_eq {first last : Nat} {next : Nat → Nat} {l : List Nat}
    (h : Linked (some (first, last)) next l) (hnodup : l.Nodup) (f : σ → Nat → σ) {fuel : Nat}
    (hfuel : l.length ≤ fuel) (s : σ) : visit next last f fuel first s = some (l.foldl f s) := by
  obtain ⟨hhead, hlast, hchain⟩ := h
  obtain ⟨l, rfl⟩ := List.head?_eq_some_iff.mp hhead
  exact machine.groups.visit_eq f hchain hnodup hlast hfuel s

end visit

section layout

variable (key : Nat → Option Nat)

/-- The entries below `n` of a group. -/
def group (n b : Nat) : List Nat := (List.range n).filter fun i => key i = some b

/-- The entries below `n` of no group. -/
def others (n : Nat) : List Nat := (List.range n).filter fun i => key i = none

/-- The entries below `n`, group by group. -/
def order (n m : Nat) : List Nat := others key n ++ (List.range m).flatMap (group key n)

variable {key} {n m b i : Nat}

theorem mem_group : i ∈ group key n b ↔ i < n ∧ key i = some b := by simp [group]

theorem mem_others : i ∈ others key n ↔ i < n ∧ key i = none := by simp [others]

theorem nodup_group : (group key n b).Nodup := List.nodup_range.filter _

theorem sorted_group : (group key n b).Pairwise (· < ·) := List.pairwise_lt_range.filter _

theorem group_succ (n b : Nat) :
    group key (n + 1) b = if key n = some b then group key n b ++ [n] else group key n b := by
  rw [group, List.range_succ, List.filter_append, group]
  split
  · rename_i h
    simp [h]
  · rename_i h
    simp [h]

theorem others_succ (n : Nat) :
    others key (n + 1) = if key n = none then others key n ++ [n] else others key n := by
  rw [others, List.range_succ, List.filter_append, others]
  split
  · rename_i h
    simp [h]
  · rename_i h
    simp [h]

section enter

variable {bounds : Nat → Option (Nat × Nat)} {next : Nat → Nat} {first last : Nat}

/-- The next entry is in no group. -/
theorem linked_skip (h : ∀ b, Linked (bounds b) next (group key n b)) (hk : key n = none) (b : Nat) :
    Linked (bounds b) next (group key (n + 1) b) := by
  rw [group_succ, if_neg (by simp [hk])]
  exact h b

/-- The next entry is the first one of its group. -/
theorem linked_first (h : ∀ b, Linked (bounds b) next (group key n b)) (hk : key n = some b)
    (hb : bounds b = none) (b' : Nat) :
    Linked (Function.update bounds b (some (n, n)) b') next (group key (n + 1) b') := by
  rw [group_succ, hk]
  by_cases heq : b' = b
  · subst heq
    have hnil : group key n b' = [] := by
      have hl := h b'
      rw [hb] at hl
      exact hl
    rw [Function.update_self, if_pos rfl, hnil]
    exact linked_singleton next n
  · rw [Function.update_of_ne heq, if_neg fun hs => heq (Option.some.inj hs).symm]
    exact h b'

/-- The next entry comes after the last one of its group. -/
theorem linked_next (h : ∀ b, Linked (bounds b) next (group key n b)) (hk : key n = some b)
    (hb : bounds b = some (first, last)) (b' : Nat) :
    Linked (Function.update bounds b (some (first, n)) b') (Function.update next last n)
      (group key (n + 1) b') := by
  have hl := h b
  rw [hb] at hl
  rw [group_succ, hk]
  by_cases heq : b' = b
  · subst heq
    rw [Function.update_self, if_pos rfl]
    exact hl.push nodup_group
  · rw [Function.update_of_ne heq, if_neg fun hs => heq (Option.some.inj hs).symm]
    have hlast := (mem_group.mp (List.mem_of_getLast? hl.2.1)).2
    refine (h b').congr fun i hi => Function.update_of_ne ?_ _ _
    rintro rfl
    exact heq (Option.some.inj ((mem_group.mp hi).2.symm.trans hlast))

end enter

/-- A group stands between those before it and those after it. -/
theorem flatMap_range_split {α : Type} (f : Nat → List α) (hb : b < m) :
    ∃ back, (List.range m).flatMap f = (List.range b).flatMap f ++ (f b ++ back) := by
  obtain ⟨d, rfl⟩ := Nat.exists_eq_add_of_lt hb
  refine ⟨(List.map (fun i => b + 1 + i) (List.range d)).flatMap f, ?_⟩
  rw [Nat.add_right_comm, List.range_add, List.range_succ, List.flatMap_append, List.flatMap_append,
    List.flatMap_singleton, List.append_assoc]

theorem mem_order (hkey : ∀ i < n, ∀ b, key i = some b → b < m) : i ∈ order key n m ↔ i < n := by
  rw [order, List.mem_append, mem_others, List.mem_flatMap]
  constructor
  · rintro (h | ⟨b, -, hi⟩)
    · exact h.1
    · exact (mem_group.mp hi).1
  · intro hi
    cases hb : key i with
    | none => exact .inl ⟨hi, rfl⟩
    | some b => exact .inr ⟨b, List.mem_range.mpr (hkey i hi b hb), mem_group.mpr ⟨hi, hb⟩⟩

theorem nodup_order : (order key n m).Nodup := by
  rw [order, List.nodup_append]
  refine ⟨List.nodup_range.filter _, ?_, ?_⟩
  · rw [List.nodup_flatMap]
    refine ⟨fun b _ => nodup_group, List.nodup_range.imp ?_⟩
    intro b b' hne i hi hi'
    have heq := (mem_group.mp hi).2.symm.trans (mem_group.mp hi').2
    exact hne (Option.some.inj heq)
  · rintro i hi j hj rfl
    obtain ⟨b, -, hb⟩ := List.mem_flatMap.mp hj
    have heq := (mem_others.mp hi).2.symm.trans (mem_group.mp hb).2
    cases heq

/-- Every entry has one place. -/
theorem order_perm (hkey : ∀ i < n, ∀ b, key i = some b → b < m) : (order key n m).Perm (List.range n) := by
  refine (List.perm_ext_iff_of_nodup nodup_order List.nodup_range).mpr fun i => ?_
  rw [mem_order hkey, List.mem_range]

end layout

end machine.groups
