import Mathlib.Tactic.Common

namespace splay_tree

inductive Tree (α : Type) where
  | nil
  | node (left : Tree α) (val : α) (right : Tree α)
  deriving Repr

variable {α : Type}

/-- The values of a tree from left to right. -/
def Tree.toList : Tree α → List α
  | nil => []
  | node a x b => a.toList ++ x :: b.toList

@[simp] theorem Tree.toList_nil : (nil : Tree α).toList = [] := rfl

@[simp] theorem Tree.toList_node (a b : Tree α) (x : α) :
    (node a x b).toList = a.toList ++ x :: b.toList := rfl

/-- The nodes that were linked to the left partial tree, the last one first, each
    with its left subtree; those of the right one come with their right subtrees. -/
abbrev Spine (α : Type) := List (α × Tree α)

def leftTree (l : Spine α) (a : Tree α) : Tree α := l.foldl (fun t p => .node p.2 p.1 t) a

def rightTree (r : Spine α) (b : Tree α) : Tree α := r.foldl (fun t p => .node t p.1 p.2) b

/-- The partial trees are put under the node at which the descent ended. -/
def assemble (l r : Spine α) (a : Tree α) (x : α) (b : Tree α) : Tree α :=
  .node (leftTree l a) x (rightTree r b)

/-- The loop of top-down splaying: `cmp` says on which side of a value the target is. -/
def descend (cmp : α → Ordering) : Tree α → Spine α → Spine α → Tree α
  | .nil, _, _ => .nil
  | .node a x b, l, r =>
    match cmp x with
    | .lt =>
      match a with
      | .nil => assemble l r .nil x b
      | .node c y d =>
        if cmp y = .lt then
          match c with
          | .nil => assemble l r .nil y (.node d x b)
          | .node _ _ _ => descend cmp c l ((y, .node d x b) :: r)
        else descend cmp (.node c y d) l ((x, b) :: r)
    | .gt =>
      match b with
      | .nil => assemble l r a x .nil
      | .node c y d =>
        if cmp y = .gt then
          match d with
          | .nil => assemble l r (.node a x c) y .nil
          | .node _ _ _ => descend cmp d ((y, .node a x c) :: l) r
        else descend cmp (.node c y d) ((x, a) :: l) r
    | .eq => assemble l r a x b

def splay (cmp : α → Ordering) (t : Tree α) : Tree α := descend cmp t [] []

def leftList (l : Spine α) : List α := l.reverse.flatMap fun p => p.2.toList ++ [p.1]

def rightList (r : Spine α) : List α := r.flatMap fun p => p.1 :: p.2.toList

@[simp] theorem leftList_nil : leftList ([] : Spine α) = [] := rfl

@[simp] theorem rightList_nil : rightList ([] : Spine α) = [] := rfl

@[simp] theorem leftList_cons (x : α) (a : Tree α) (l : Spine α) :
    leftList ((x, a) :: l) = leftList l ++ (a.toList ++ [x]) := by
  simp [leftList]

@[simp] theorem rightList_cons (x : α) (b : Tree α) (r : Spine α) :
    rightList ((x, b) :: r) = x :: b.toList ++ rightList r := by
  simp [rightList]

theorem leftTree_toList (l : Spine α) (a : Tree α) :
    (leftTree l a).toList = leftList l ++ a.toList := by
  induction l generalizing a with
  | nil => rfl
  | cons p l ih =>
    obtain ⟨x, b⟩ := p
    change (leftTree l (.node b x a)).toList = _
    simp [ih]

theorem rightTree_toList (r : Spine α) (b : Tree α) :
    (rightTree r b).toList = b.toList ++ rightList r := by
  induction r generalizing b with
  | nil => simp [rightTree]
  | cons p r ih =>
    obtain ⟨x, a⟩ := p
    change (rightTree r (.node b x a)).toList = _
    simp [ih]

/-- Along the values the target is first to their right, then at them, then to
    their left. -/
def Ordered (cmp : α → Ordering) (xs : List α) : Prop :=
  xs.Pairwise fun x y => (cmp y = .gt → cmp x = .gt) ∧ (cmp x = .lt → cmp y = .lt)

/-- What splaying makes of the values `xs`: they stay in order, and when the root
    is not the target, the target would be next to it. -/
structure Splayed (cmp : α → Ordering) (xs : List α) (a : Tree α) (x : α) (b : Tree α) : Prop where
  toList : a.toList ++ x :: b.toList = xs
  left : cmp x = .lt → ∀ y ∈ a.toList, cmp y = .gt
  right : cmp x = .gt → ∀ y ∈ b.toList, cmp y = .lt

theorem assemble_splayed {cmp : α → Ordering} {l r : Spine α} {a b : Tree α} {x : α}
    (hleft : cmp x = .lt → ∀ y ∈ leftList l ++ a.toList, cmp y = .gt)
    (hright : cmp x = .gt → ∀ y ∈ b.toList ++ rightList r, cmp y = .lt) :
    ∃ a' x' b', assemble l r a x b = .node a' x' b' ∧
      Splayed cmp (leftList l ++ (a.toList ++ x :: b.toList) ++ rightList r) a' x' b' := by
  refine ⟨_, _, _, rfl, ?_, ?_, ?_⟩
  · simp [leftTree_toList, rightTree_toList]
  · rwa [leftTree_toList]
  · rwa [rightTree_toList]

theorem Ordered.node {cmp : α → Ordering} {a b : Tree α} {x : α}
    (h : Ordered cmp (Tree.node a x b).toList) :
    Ordered cmp a.toList ∧ Ordered cmp b.toList ∧
      (cmp x = .gt → ∀ y ∈ a.toList, cmp y = .gt) ∧ (cmp x = .lt → ∀ y ∈ b.toList, cmp y = .lt) := by
  rw [Ordered, Tree.toList_node, List.pairwise_append, List.pairwise_cons] at h
  obtain ⟨ha, ⟨hx, hb⟩, hax⟩ := h
  exact ⟨ha, hb, fun hgt y hy => (hax y hy x List.mem_cons_self).1 hgt,
    fun hlt y hy => (hx y hy).2 hlt⟩

theorem descend_splayed {cmp : α → Ordering} (t : Tree α) (l r : Spine α) (ht : t ≠ .nil)
    (hordered : Ordered cmp t.toList) (hl : ∀ y ∈ leftList l, cmp y = .gt)
    (hr : ∀ y ∈ rightList r, cmp y = .lt) :
    ∃ a x b, descend cmp t l r = .node a x b ∧
      Splayed cmp (leftList l ++ t.toList ++ rightList r) a x b := by
  fun_induction descend cmp t l r with
  | case1 => exact absurd rfl ht
  | case2 x b l r hlt =>
    refine assemble_splayed (fun _ => ?_) (fun hgt => ?_)
    · simpa using hl
    · rw [hlt] at hgt
      cases hgt
  | case3 x b l r hlt y d hy =>
    have hroot := @assemble_splayed α cmp l r .nil (.node d x b) y
      (fun _ => by simpa using hl) (fun hgt => by rw [hy] at hgt; cases hgt)
    simpa using hroot
  | case4 x b l r hlt y d hy c₁ c₂ c₃ ih =>
    obtain ⟨ha, -, -, hb⟩ := hordered.node
    obtain ⟨hc, -, -, hd⟩ := ha.node
    have hroot := ih nofun hc hl ?_
    · simpa using hroot
    · intro z hz
      simp only [rightList_cons, Tree.toList_node, List.mem_append, List.mem_cons] at hz
      obtain (rfl | hz | rfl | hz) | hz := hz
      · exact hy
      · exact hd hy z hz
      · exact hlt
      · exact hb hlt z hz
      · exact hr z hz
  | case5 x b l r hlt c y d hy ih =>
    obtain ⟨ha, -, -, hb⟩ := hordered.node
    have hroot := ih nofun ha hl ?_
    · simpa using hroot
    · intro z hz
      simp only [rightList_cons, List.mem_append, List.mem_cons] at hz
      obtain (rfl | hz) | hz := hz
      · exact hlt
      · exact hb hlt z hz
      · exact hr z hz
  | case6 a x l r hgt =>
    refine assemble_splayed (fun hlt => ?_) (fun _ => ?_)
    · rw [hgt] at hlt
      cases hlt
    · simpa using hr
  | case7 a x l r hgt c y hy =>
    have hroot := @assemble_splayed α cmp l r (.node a x c) .nil y
      (fun hlt => by rw [hy] at hlt; cases hlt) (fun _ => by simpa using hr)
    simpa using hroot
  | case8 a x l r hgt c y hy d₁ d₂ d₃ ih =>
    obtain ⟨-, hb, ha, -⟩ := hordered.node
    obtain ⟨-, hd, hc, -⟩ := hb.node
    have hroot := ih nofun hd ?_ hr
    · simpa using hroot
    · intro z hz
      simp only [leftList_cons, Tree.toList_node, List.mem_append, List.mem_cons, List.not_mem_nil,
        or_false] at hz
      obtain hz | (hz | rfl | hz) | rfl := hz
      · exact hl z hz
      · exact ha hgt z hz
      · exact hgt
      · exact hc hy z hz
      · exact hy
  | case9 a x l r hgt c y d hy ih =>
    obtain ⟨-, hb, ha, -⟩ := hordered.node
    have hroot := ih nofun hb ?_ hr
    · simpa using hroot
    · intro z hz
      simp only [leftList_cons, List.mem_append, List.mem_singleton] at hz
      obtain hz | hz | rfl := hz
      · exact hl z hz
      · exact ha hgt z hz
      · exact hgt
  | case10 a x b l r heq =>
    refine assemble_splayed (fun hlt => ?_) (fun hgt => ?_)
    · rw [heq] at hlt
      cases hlt
    · rw [heq] at hgt
      cases hgt

/-- Splaying keeps the values in their order and brings the target to the root. -/
theorem splay_splayed {cmp : α → Ordering} {t : Tree α} (ht : t ≠ .nil)
    (hordered : Ordered cmp t.toList) :
    ∃ a x b, splay cmp t = .node a x b ∧ Splayed cmp t.toList a x b := by
  obtain ⟨a, x, b, hdescend, hsplayed⟩ :=
    descend_splayed t [] [] ht hordered (fun _ h => absurd h List.not_mem_nil)
      (fun _ h => absurd h List.not_mem_nil)
  refine ⟨a, x, b, hdescend, ?_⟩
  simpa using hsplayed

theorem Splayed.root_eq {cmp : α → Ordering} {xs : List α} {a b : Tree α} {x : α}
    (h : Splayed cmp xs a x b) (hordered : Ordered cmp xs) {y : α} (hy : y ∈ xs)
    (heq : cmp y = .eq) : cmp x = .eq := by
  have hnode : Ordered cmp (Tree.node a x b).toList := by
    rw [Tree.toList_node, h.toList]
    exact hordered
  obtain ⟨-, -, hgt, hlt⟩ := hnode.node
  rw [← h.toList, List.mem_append, List.mem_cons] at hy
  cases hx : cmp x with
  | eq => rfl
  | lt =>
    obtain hy | rfl | hy := hy
    · rw [h.left hx y hy] at heq
      cases heq
    · rw [hx] at heq
      cases heq
    · rw [hlt hx y hy] at heq
      cases heq
  | gt =>
    obtain hy | rfl | hy := hy
    · rw [hgt hx y hy] at heq
      cases heq
    · rw [hx] at heq
      cases heq
    · rw [h.right hx y hy] at heq
      cases heq

/-- When the target is to the right of every value, splaying brings up the last one. -/
theorem Splayed.right_nil {cmp : α → Ordering} {xs : List α} {a b : Tree α} {x : α}
    (h : Splayed cmp xs a x b) (hgt : ∀ y ∈ xs, cmp y = .gt) : b = .nil := by
  have hx : cmp x = .gt := hgt x (by rw [← h.toList]; simp)
  cases b with
  | nil => rfl
  | node c y d =>
    have hy : y ∈ (Tree.node c y d).toList := by simp
    have hlt := h.right hx y hy
    rw [hgt y (by rw [← h.toList]; simp)] at hlt
    cases hlt

/-- A search tree: the values are ordered by `lt` around every node. -/
def Tree.IsSearch (lt : α → α → Prop) : Tree α → Prop
  | nil => True
  | node a x b => (∀ y ∈ a.toList, lt y x) ∧ (∀ y ∈ b.toList, lt x y) ∧ a.IsSearch lt ∧ b.IsSearch lt

theorem Tree.isSearch_iff {lt : α → α → Prop} (htrans : ∀ x y z, lt x y → lt y z → lt x z)
    (t : Tree α) : t.IsSearch lt ↔ t.toList.Pairwise lt := by
  induction t with
  | nil => simp [IsSearch]
  | node a x b iha ihb =>
    rw [IsSearch, iha, ihb, toList_node, List.pairwise_append, List.pairwise_cons]
    constructor
    · rintro ⟨ha, hb, hpa, hpb⟩
      refine ⟨hpa, ⟨hb, hpb⟩, fun y hy z hz => ?_⟩
      obtain rfl | hz := List.mem_cons.mp hz
      · exact ha y hy
      · exact htrans y x z (ha y hy) (hb z hz)
    · rintro ⟨hpa, ⟨hb, hpb⟩, hcross⟩
      exact ⟨fun y hy => hcross y hy x List.mem_cons_self, hb, hpa, hpb⟩

end splay_tree
