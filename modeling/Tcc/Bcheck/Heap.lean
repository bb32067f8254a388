import Tcc.Bcheck.RegionMap

/-! The functions that take the place of `malloc` and the others: the regions of the blocks, and
    the list in which freed blocks wait. Checking is on, and what the C library answers is part
    of a call. -/

namespace bcheck.heap

def FREE_REUSE_SIZE : Nat := 100

def TCC_TYPE_MALLOC : Nat := 1
def TCC_TYPE_CALLOC : Nat := 2
def TCC_TYPE_REALLOC : Nat := 3
def TCC_TYPE_MEMALIGN : Nat := 4

structure Heap where
  tree : Tree
  free_reuse_list : Nat → BitVec 64
  free_reuse_index : Nat

/-- `if (tree && tree->start == (size_t) ptr) tree->type = type` -/
def set_type (ptr : BitVec 64) (type : Nat) : Tree → Tree
  | .nil => .nil
  | .node a x b => .node a (if x.start = ptr then { x with type := type } else x) b

/-- The region of a new block. -/
def new_block (type : Nat) (ptr size : BitVec 64) (s : Heap) : Heap :=
  if ptr ≠ 0#64 then
    { s with tree := set_type ptr type (splay_insert ptr (if size ≠ 0#64 then size else size + 1#64) s.tree) }
  else s

/-- `ptr` is what `BOUND_MALLOC (size + 1)` gives. -/
def bound_malloc (size ptr : BitVec 64) (s : Heap) : Heap := new_block TCC_TYPE_MALLOC ptr size s

def bound_memalign (size ptr : BitVec 64) (s : Heap) : Heap := new_block TCC_TYPE_MEMALIGN ptr size s

/-- `ptr` is what `BOUND_MALLOC` gives for the product, which is computed in a `size_t`. -/
def bound_calloc (nmemb size ptr : BitVec 64) (s : Heap) : Heap := new_block TCC_TYPE_CALLOC ptr
    (size * nmemb) s

/-- The pointers other than NULL that `BOUND_FREE` is called with are the second part. -/
def bound_free (ptr : BitVec 64) (s : Heap) : Heap × List (BitVec 64) :=
  if ptr = 0#64 then (s, [])
  else
    match splay ptr s.tree with
    | .nil => (s, []) -- the tree was empty
    | .node a x b =>
      if x.start = ptr then
        if x.is_invalid then
          -- freeing invalid region
          ({ s with tree := .node a x b }, [])
        else
          let tree : Tree := .node a { x with is_invalid := true } b
          let p := s.free_reuse_list s.free_reuse_index
          ({ tree := if p ≠ 0#64 then splay_delete p tree else tree
             free_reuse_list := Function.update s.free_reuse_list s.free_reuse_index ptr
             free_reuse_index := (s.free_reuse_index + 1) % FREE_REUSE_SIZE }, if p ≠ 0#64 then [p] else [])
      else ({ s with tree := .node a x b }, [ptr])

/-- `new_ptr` is what `BOUND_REALLOC (ptr, size + 1)` gives; the second part are the pointers other
    than NULL that it or `BOUND_FREE` is called with. -/
def bound_realloc (ptr size new_ptr : BitVec 64) (s : Heap) : Heap × List (BitVec 64) :=
  if size = 0#64 then bound_free ptr s
  else
    let tree := if ptr ≠ 0#64 then splay_delete ptr s.tree else s.tree
    (new_block TCC_TYPE_REALLOC new_ptr size { s with tree := tree }, if ptr ≠ 0#64 then [ptr] else [])

inductive Op where
  | malloc (size ptr : BitVec 64)
  | memalign (size ptr : BitVec 64)
  | calloc (nmemb size ptr : BitVec 64)
  | free (ptr : BitVec 64)
  | realloc (ptr size new_ptr : BitVec 64)

def Op.exec : Op → Heap → Heap × List (BitVec 64)
  | malloc size ptr, s => (bound_malloc size ptr s, [])
  | memalign size ptr, s => (bound_memalign size ptr s, [])
  | calloc nmemb size ptr, s => (bound_calloc nmemb size ptr s, [])
  | free ptr, s => bound_free ptr s
  | realloc ptr size new_ptr, s => bound_realloc ptr size new_ptr s

/-- The heap as it is meant: the live blocks with the sizes that were asked for, the freed ones
    that wait, the oldest first, and the pointers that have been given back to the C library
    since they were last given out. -/
structure Blocks where
  live : Set Key
  waiting : List Key
  returned : Set (BitVec 64)

/-- A block is given out. -/
def Blocks.add (ptr size : BitVec 64) (h : Blocks) : Blocks :=
  { h with live := insert (ptr, size) h.live, returned := h.returned \ {ptr} }

/-- No block and no region starts at a pointer. -/
def Blocks.Foreign (others : Set Key) (h : Blocks) (ptr : BitVec 64) : Prop :=
  ∀ k, k ∈ h.live ∨ k ∈ h.waiting ∨ k ∈ others → k.1 ≠ ptr

/-- A call, with the pointers that are given back by it. -/
inductive Step (others : Set Key) : Op → Blocks → List (BitVec 64) → Blocks → Prop where
  | malloc {h : Blocks} {size ptr : BitVec 64} (hptr : ptr ≠ 0#64) :
    Step others (.malloc size ptr) h [] (h.add ptr size)
  | malloc_null {h : Blocks} {size : BitVec 64} : Step others (.malloc size 0#64) h [] h
  | memalign {h : Blocks} {size ptr : BitVec 64} (hptr : ptr ≠ 0#64) :
    Step others (.memalign size ptr) h [] (h.add ptr size)
  | memalign_null {h : Blocks} {size : BitVec 64} : Step others (.memalign size 0#64) h [] h
  | calloc {h : Blocks} {nmemb size ptr : BitVec 64} (hfits : nmemb.toNat * size.toNat < 2 ^ 64)
    (hptr : ptr ≠ 0#64) :
    Step others (.calloc nmemb size ptr) h [] (h.add ptr (BitVec.ofNat 64 (nmemb.toNat * size.toNat)))
  | calloc_null {h : Blocks} {nmemb size : BitVec 64} : Step others (.calloc nmemb size 0#64) h [] h
  | free {h : Blocks} {k : Key} (hk : k ∈ h.live) (hlen : h.waiting.length < FREE_REUSE_SIZE) :
    Step others (.free k.1) h [] { h with live := h.live \ {k}, waiting := h.waiting ++ [k] }
  | free_full {h : Blocks} {k old : Key} {rest : List Key} (hk : k ∈ h.live)
    (hwaiting : h.waiting = old :: rest)
      (hlen : h.waiting.length = FREE_REUSE_SIZE) :
    Step others (.free k.1) h [old.1]
      ⟨h.live \ {k}, rest ++ [k], insert old.1 h.returned⟩
  | free_again {h : Blocks} {k : Key} (hk : k ∈ h.waiting) : Step others (.free k.1) h [] h
  | free_null {h : Blocks} : Step others (.free 0#64) h [] h
  | free_foreign {h : Blocks} {ptr : BitVec 64} (hptr : h.Foreign others ptr) (hnull : ptr ≠ 0#64) :
    Step others (.free ptr) h [ptr] { h with returned := insert ptr h.returned }
  | free_nothing {h : Blocks} {ptr : BitVec 64} (hptr : ∀ k, k ∉ h.live ∧ k ∉ h.waiting ∧ k ∉ others) :
    Step others (.free ptr) h [] h
  | realloc_zero {h h' : Blocks} {ptr new_ptr : BitVec 64} {back : List (BitVec 64)}
      (hfree : Step others (.free ptr) h back h') : Step others (.realloc ptr 0#64 new_ptr) h back h'
  | realloc_null {h : Blocks} {size new_ptr : BitVec 64} (hsize : size ≠ 0#64) (hnew : new_ptr ≠ 0#64) :
    Step others (.realloc 0#64 size new_ptr) h [] (h.add new_ptr size)
  | realloc_null_null {h : Blocks} {size : BitVec 64} (hsize : size ≠ 0#64) :
    Step others (.realloc 0#64 size 0#64) h [] h
  | realloc {h : Blocks} {k : Key} {size new_ptr : BitVec 64} (hk : k ∈ h.live) (hsize : size ≠ 0#64)
      (hnew : new_ptr ≠ 0#64) : Step others (.realloc k.1 size new_ptr) h [k.1]
      (Blocks.add new_ptr size ⟨h.live \ {k}, h.waiting, insert k.1 h.returned⟩)
  | realloc_fails {h : Blocks} {k : Key} {size : BitVec 64} (hk : k ∈ h.live) (hsize : size ≠ 0#64) :
    Step others (.realloc k.1 size 0#64) h [k.1] h
  | realloc_foreign {h : Blocks} {ptr size new_ptr : BitVec 64} (hptr : h.Foreign others ptr)
    (hnull : ptr ≠ 0#64)
      (hsize : size ≠ 0#64) (hnew : new_ptr ≠ 0#64) : Step others (.realloc ptr size new_ptr) h [ptr]
      (Blocks.add new_ptr size { h with returned := insert ptr h.returned })
  | realloc_foreign_fails {h : Blocks} {ptr size : BitVec 64} (hptr : h.Foreign others ptr)
    (hnull : ptr ≠ 0#64)
      (hsize : size ≠ 0#64) : Step others (.realloc ptr size 0#64) h [ptr] h

/-- What the C library answers with a block is apart from all that is there. -/
def Fresh (others : Set Key) (h : Blocks) (ptr size : BitVec 64) : Prop :=
  ptr.toNat + size.toNat < 2 ^ 64 ∧
    ∀ k, k ∈ h.live ∨ k ∈ h.waiting ∨ k ∈ others → Disjoint (bytes ptr size) (bytes k.1 k.2)

/-- What is relied on of the C library: the block it answers with is as large as was asked for. -/
def Op.Answered (others : Set Key) (h : Blocks) : Op → Prop
  | malloc size ptr => ptr ≠ 0#64 → size.toNat + 1 < 2 ^ 64 → Fresh others h ptr size
  | memalign size ptr => ptr ≠ 0#64 → size.toNat + 1 < 2 ^ 64 → Fresh others h ptr size
  | calloc nmemb size ptr =>
    ptr ≠ 0#64 → nmemb.toNat * size.toNat + 1 < 2 ^ 64 → Fresh others h ptr (size * nmemb)
  | free _ => True
  | realloc ptr size new_ptr => size ≠ 0#64 → new_ptr ≠ 0#64 → size.toNat + 1 < 2 ^ 64 →
    Fresh others { h with live := {k ∈ h.live | k.1 ≠ ptr} } new_ptr size

/-- A pointer that can be given back: its block has not been, and no other region starts there. -/
def Freeable (others : Set Key) (h : Blocks) (ptr : BitVec 64) : Prop :=
  ptr ≠ 0#64 → ptr ∉ h.returned ∧ ∀ k ∈ others, k.1 ≠ ptr

/-- The condition on a call: the size of a new block is not zero, and neither it nor a product
    overflows; a pointer can be given back; `realloc` is not called with a freed block, and does
    not fail on a live one. -/
def Op.Meets (others : Set Key) (h : Blocks) : Op → Prop
  | malloc size ptr => ptr ≠ 0#64 → size ≠ 0#64 ∧ size.toNat + 1 < 2 ^ 64
  | memalign size ptr => ptr ≠ 0#64 → size ≠ 0#64 ∧ size.toNat + 1 < 2 ^ 64
  | calloc nmemb size ptr =>
    ptr ≠ 0#64 → 0 < nmemb.toNat * size.toNat ∧ nmemb.toNat * size.toNat + 1 < 2 ^ 64
  | free ptr => Freeable others h ptr
  | realloc ptr size new_ptr => Freeable others h ptr ∧ (size ≠ 0#64 →
    (new_ptr ≠ 0#64 → size.toNat + 1 < 2 ^ 64) ∧ (∀ k ∈ h.waiting, k.1 ≠ ptr) ∧
      ((∃ k ∈ h.live, k.1 = ptr) → new_ptr ≠ 0#64))

/-- The starts and sizes of the regions, and whether they are invalid. -/
def entries (t : Tree) : Set (Key × Bool) := {e | ∃ r ∈ t.toList, ((r.start, r.size), r.is_invalid) = e}

/-- `free_reuse_list` from the place that is used next on. -/
def ring (s : Heap) : List (BitVec 64) :=
  (List.range FREE_REUSE_SIZE).map fun j => s.free_reuse_list ((s.free_reuse_index + j) % FREE_REUSE_SIZE)

/-- The state of the code for a heap: the valid regions are those of the live blocks and the
    others, the invalid ones those of the blocks that wait. -/
structure Agrees (others : Set Key) (s : Heap) (h : Blocks) : Prop where
  inv : Inv s.tree
  entries : ∀ k b, (k, b) ∈ entries s.tree ↔
    b = false ∧ (k ∈ h.live ∨ k ∈ others) ∨ b = true ∧ k ∈ h.waiting
  live_others : ∀ k ∈ h.live, k ∉ others
  nodup : h.waiting.Nodup
  length_le : h.waiting.length ≤ FREE_REUSE_SIZE
  index_lt : s.free_reuse_index < FREE_REUSE_SIZE
  ring : ring s = List.replicate (FREE_REUSE_SIZE - h.waiting.length) 0#64 ++ h.waiting.map Prod.fst
  kept : ∀ k, k ∈ h.live ∨ k ∈ h.waiting → k.1 ∉ h.returned ∧ k.1 ≠ 0#64

section tree

variable {t : Tree} {others : Set Key} {s : Heap} {h : Blocks}

theorem entries_unique (hinv : Inv t) {e e' : Key × Bool} (he : e ∈ entries t) (he' : e' ∈ entries t)
    (hstart : e.1.1 = e'.1.1) : e = e' := by
  obtain ⟨r, hr, rfl⟩ := he
  obtain ⟨r', hr', rfl⟩ := he'
  have hsize := (hinv.proper r hr).1
  have hsize' := (hinv.proper r' hr').1
  have hstart' : r.start = r'.start := hstart
  have hsame : r = r' := hinv.unique hr hr' (n := r.start.toNat)
    (by rw [bytes, Set.mem_Ico]; omega) (by rw [bytes, Set.mem_Ico, hstart']; omega)
  rw [hsame]

/-- The root is replaced by a region of the same bytes. -/
theorem inv_root {a b : Tree} {x y : Region} (hinv : Inv (.node a x b)) (hstart : y.start = x.start)
    (hsize : y.size = x.size) : Inv (.node a y b) := by
  have hstop : y.stop = x.stop := by rw [Region.stop, Region.stop, hstart, hsize]
  have hapart := hinv.apart
  rw [splay_tree.Tree.toList_node, Apart, List.pairwise_append, List.pairwise_cons] at hapart
  refine ⟨fun r hr => ?_, ?_⟩
  · rw [splay_tree.Tree.toList_node, List.mem_append, List.mem_cons] at hr
    obtain hr | rfl | hr := hr
    · exact hinv.proper r (by rw [splay_tree.Tree.toList_node]; exact List.mem_append_left _ hr)
    · rw [hstart, hsize]
      exact hinv.proper x (by rw [splay_tree.Tree.toList_node]; simp)
    · exact hinv.proper r (by rw [splay_tree.Tree.toList_node]; simp [hr])
  · rw [splay_tree.Tree.toList_node, Apart, List.pairwise_append, List.pairwise_cons]
    refine ⟨hapart.1, ⟨fun z hz => ?_, hapart.2.1.2⟩, fun z hz w hw => ?_⟩
    · rw [hstop]
      exact hapart.2.1.1 z hz
    · obtain rfl | hw := List.mem_cons.mp hw
      · rw [hstart]
        exact hapart.2.2 z hz x List.mem_cons_self
      · exact hapart.2.2 z hz w (List.mem_cons_of_mem x hw)

theorem entries_node {a b : Tree} {x : Region} : entries (.node a x b) =
    insert ((x.start, x.size), x.is_invalid) (entries a ∪ entries b) := by
  ext e
  simp only [entries, splay_tree.Tree.toList_node, List.mem_append, List.mem_cons, Set.mem_ofPred_eq,
    Set.mem_insert_iff,
    Set.mem_union]
  constructor
  · rintro ⟨r, hr | rfl | hr, rfl⟩
    · exact Or.inr (Or.inl ⟨r, hr, rfl⟩)
    · exact Or.inl rfl
    · exact Or.inr (Or.inr ⟨r, hr, rfl⟩)
  · rintro (rfl | ⟨r, hr, rfl⟩ | ⟨r, hr, rfl⟩)
    · exact ⟨x, Or.inr (Or.inl rfl), rfl⟩
    · exact ⟨r, Or.inl hr, rfl⟩
    · exact ⟨r, Or.inr (Or.inr hr), rfl⟩

theorem set_type_spec (hinv : Inv t) (ptr : BitVec 64) (type : Nat) :
    Inv (set_type ptr type t) ∧ entries (set_type ptr type t) = entries t := by
  cases t with
  | nil => exact ⟨hinv, rfl⟩
  | node a x b =>
    rw [set_type]
    split
    · exact ⟨inv_root hinv rfl rfl, by rw [entries_node, entries_node]⟩
    · exact ⟨hinv, rfl⟩

theorem entries_of_toList {t' : Tree} (heq : t'.toList = t.toList) : entries t' = entries t := by
  rw [entries, entries, heq]

/-- The root after a search for a pointer: it starts there if a region does. -/
theorem splay_root (hinv : Inv t) (ptr : BitVec 64) :
    (t = .nil ∧ splay ptr t = .nil) ∨ ∃ a x b, splay ptr t = .node a x b ∧ Inv (.node a x b) ∧
      entries (.node a x b) = entries t ∧ ∀ e ∈ entries t, e.1.1 = ptr →
        ((x.start, x.size), x.is_invalid) = e := by
  by_cases hnil : t = .nil
  · left
    subst hnil
    exact ⟨rfl, rfl⟩
  · right
    obtain ⟨a, x, b, heq, hsplayed⟩ := splay_spec hinv.laid hnil ptr
    have hlist : (splay_tree.Tree.node a x b).toList = t.toList := by
      rw [splay_tree.Tree.toList_node]
      exact hsplayed.toList
    refine ⟨a, x, b, heq, hinv.of_toList_eq hlist, entries_of_toList hlist, ?_⟩
    rintro e ⟨r, hr, rfl⟩ hstart
    have hsize := (hinv.proper r hr).1
    have hstart' : r.start = ptr := hstart
    have hbytes : ptr.toNat ∈ bytes r.start r.size := by
      rw [bytes, Set.mem_Ico, hstart']
      omega
    obtain ⟨a', x', b', heq', hx', hbytes'⟩ := splay_finds hinv.laid hr hbytes
    rw [heq] at heq'
    cases heq'
    rw [hinv.unique hx' hr hbytes' hbytes]

/-- The region that starts at a pointer becomes invalid. -/
theorem invalidate_spec {a b : Tree} {x : Region} (hinv : Inv (.node a x b)) :
    Inv (.node a { x with is_invalid := true } b) ∧ ∀ e, e ∈ entries
      (.node a { x with is_invalid := true } b) ↔
      e = ((x.start, x.size), true) ∨ e ∈ entries (.node a x b) ∧ e.1.1 ≠ x.start := by
  have hinv' : Inv (.node a { x with is_invalid := true } b) := inv_root hinv rfl rfl
  refine ⟨hinv', fun e => ?_⟩
  have hroot : (((x.start, x.size), x.is_invalid) : Key × Bool) ∈ entries (.node a x b) := by
    rw [entries_node]
    exact Set.mem_insert _ _
  have hroot' : (((x.start, x.size), true) : Key × Bool) ∈ entries
    (.node a { x with is_invalid := true } b) := by
    rw [entries_node]
    exact Set.mem_insert _ _
  constructor
  · intro he
    by_cases hstart : e.1.1 = x.start
    · exact Or.inl (entries_unique hinv' he hroot' hstart)
    · refine Or.inr ⟨?_, hstart⟩
      rw [entries_node, Set.mem_insert_iff] at he ⊢
      refine he.imp (fun heq => ?_) id
      rw [heq] at hstart
      exact absurd rfl hstart
  · rintro (rfl | ⟨he, hstart⟩)
    · exact hroot'
    · rw [entries_node, Set.mem_insert_iff] at he ⊢
      refine he.imp (fun heq => ?_) id
      rw [heq] at hstart
      exact absurd rfl hstart

theorem delete_spec (hinv : Inv t) (ptr : BitVec 64) : Inv (splay_delete ptr t) ∧
    ∀ e, e ∈ entries (splay_delete ptr t) ↔ e ∈ entries t ∧ e.1.1 ≠ ptr := by
  obtain ⟨hinv', hmem⟩ := splay_delete_spec hinv ptr
  refine ⟨hinv', fun e => ?_⟩
  constructor
  · rintro ⟨r, hr, rfl⟩
    obtain ⟨hr, hne⟩ := (hmem r).mp hr
    exact ⟨⟨r, hr, rfl⟩, hne⟩
  · rintro ⟨⟨r, hr, rfl⟩, hne⟩
    exact ⟨r, (hmem r).mpr ⟨hr, hne⟩, rfl⟩

theorem insert_spec (hinv : Inv t) {ptr size : BitVec 64} (hproper : Proper ptr size)
    (hdisjoint : ∀ e ∈ entries t, Disjoint (bytes ptr size) (bytes e.1.1 e.1.2)) :
    Inv (splay_insert ptr size t) ∧
      ∀ e, e ∈ entries (splay_insert ptr size t) ↔ e = ((ptr, size), false) ∨ e ∈ entries t := by
  obtain ⟨hinv', hmem⟩ := splay_insert_spec hinv hproper fun r hr => hdisjoint _ ⟨r, hr, rfl⟩
  refine ⟨hinv', fun e => ?_⟩
  constructor
  · rintro ⟨r, hr, rfl⟩
    obtain rfl | hr := (hmem r).mp hr
    · exact Or.inl rfl
    · exact Or.inr ⟨r, hr, rfl⟩
  · rintro (rfl | ⟨r, hr, rfl⟩)
    · exact ⟨_, (hmem _).mpr (Or.inl rfl), rfl⟩
    · exact ⟨r, (hmem r).mpr (Or.inr hr), rfl⟩

end tree

section ring

variable {f : Nat → BitVec 64} {i : Nat} {t : Tree}

theorem ring_length (s : Heap) : (ring s).length = FREE_REUSE_SIZE := by
  rw [ring, List.length_map, List.length_range]

theorem ring_head (hi : i < FREE_REUSE_SIZE) {p : BitVec 64} {ps : List (BitVec 64)}
    (hring : ring ⟨t, f, i⟩ = p :: ps) : f i = p := by
  have hhead : (ring ⟨t, f, i⟩)[0]? = some p := by rw [hring, List.getElem?_cons_zero]
  rw [ring, List.getElem?_map, List.getElem?_range (by decide), Option.map_some, Option.some_inj] at hhead
  rw [← hhead, Nat.add_zero, Nat.mod_eq_of_lt hi]

/-- A pointer takes the place of the oldest one and is the last from then on. -/
theorem ring_update (hi : i < FREE_REUSE_SIZE) {p : BitVec 64} {ps : List (BitVec 64)}
    (hring : ring ⟨t, f, i⟩ = p :: ps) (t' : Tree) (q : BitVec 64) :
    ring ⟨t', Function.update f i q, (i + 1) % FREE_REUSE_SIZE⟩ = ps ++ [q] := by
  have hlength := ring_length ⟨t, f, i⟩
  rw [hring, List.length_cons] at hlength
  apply List.ext_getElem
  · rw [ring_length, List.length_append, List.length_singleton, hlength]
  · intro j hj hj'
    rw [ring_length] at hj
    simp only [ring, List.getElem_map, List.getElem_range]
    rw [FREE_REUSE_SIZE] at hi hj hlength ⊢
    by_cases hlast : j = 99
    · have hplace : ((i + 1) % 100 + j) % 100 = i := by omega
      rw [hplace, Function.update_self, List.getElem_append_right (by omega), List.getElem_singleton]
    · have hplace : ((i + 1) % 100 + j) % 100 ≠ i := by omega
      have hlt : j < ps.length := by omega
      have hnext : (ring ⟨t, f, i⟩)[j + 1]? = some ps[j] := by
        rw [hring, List.getElem?_cons_succ, List.getElem?_eq_getElem]
      rw [ring, List.getElem?_map, List.getElem?_range (by rw [FREE_REUSE_SIZE]; omega), Option.map_some,
        Option.some_inj] at hnext
      have hsame : ((i + 1) % 100 + j) % 100 = (i + (j + 1)) % 100 := by omega
      rw [Function.update_of_ne hplace, List.getElem_append_left hlt, ← hnext, FREE_REUSE_SIZE, hsame]

end ring

section agrees

variable {others : Set Key} {s : Heap} {h : Blocks}

/-- What has a region and starts at a pointer is the root after a search for it. -/
theorem Agrees.region (hagrees : Agrees others s h) {k : Key} (hk : k ∈ h.live ∨ k ∈ h.waiting ∨ k ∈ others) :
    ∃ b, (k, b) ∈ heap.entries s.tree := by
  obtain hk | hk | hk := hk
  · exact ⟨false, (hagrees.entries k false).mpr (Or.inl ⟨rfl, Or.inl hk⟩)⟩
  · exact ⟨true, (hagrees.entries k true).mpr (Or.inr ⟨rfl, hk⟩)⟩
  · exact ⟨false, (hagrees.entries k false).mpr (Or.inl ⟨rfl, Or.inr hk⟩)⟩

theorem Agrees.same_start (hagrees : Agrees others s h) {k k' : Key} (hk : k ∈ h.live ∨ k ∈ h.waiting ∨
    k ∈ others)
    (hk' : k' ∈ h.live ∨ k' ∈ h.waiting ∨ k' ∈ others) (hstart : k.1 = k'.1) : k = k' := by
  obtain ⟨b, hb⟩ := hagrees.region hk
  obtain ⟨b', hb'⟩ := hagrees.region hk'
  exact congrArg Prod.fst (entries_unique hagrees.inv hb hb' hstart)

/-- What has a valid region does not wait. -/
theorem Agrees.notMem_waiting (hagrees : Agrees others s h) {k : Key} (hk : k ∈ h.live ∨ k ∈ others) :
    k ∉ h.waiting := by
  intro hwaiting
  have hvalid := (hagrees.entries k false).mpr (Or.inl ⟨rfl, hk⟩)
  have hinvalid := (hagrees.entries k true).mpr (Or.inr ⟨rfl, hwaiting⟩)
  exact Bool.false_ne_true (congrArg Prod.snd (entries_unique hagrees.inv hvalid hinvalid rfl))

/-- A search moves regions only. -/
theorem Agrees.with_tree (hagrees : Agrees others s h) {t : Tree} (hinv : Inv t)
    (hentries : heap.entries t = heap.entries s.tree) : Agrees others { s with tree := t } h where
  inv := hinv
  entries := fun k b => by rw [hentries, hagrees.entries]
  live_others := hagrees.live_others
  nodup := hagrees.nodup
  length_le := hagrees.length_le
  index_lt := hagrees.index_lt
  ring := hagrees.ring
  kept := hagrees.kept

theorem new_block_agrees (hagrees : Agrees others s h) {ptr size : BitVec 64}
    (hfresh : Fresh others h ptr size)
    (hsize : size ≠ 0#64) (hptr : ptr ≠ 0#64) (type : Nat) :
    Agrees others (new_block type ptr size s) (h.add ptr size) := by
  have hpos : 0 < size.toNat := by
    rw [Nat.pos_iff_ne_zero]
    intro hzero
    exact hsize (BitVec.eq_of_toNat_eq hzero)
  have hproper : Proper ptr size := ⟨hpos, hfresh.1⟩
  have hapart (k : Key) (hk : k ∈ h.live ∨ k ∈ h.waiting ∨ k ∈ others) : k.1 ≠ ptr := by
    intro hstart
    obtain ⟨b, r, hr, heq⟩ := hagrees.region hk
    have hregion := (hagrees.inv.proper r hr).1
    have hkey : k = (r.start, r.size) := (congrArg Prod.fst heq).symm
    have hdisjoint := hfresh.2 k hk
    rw [hkey] at hdisjoint hstart
    change Disjoint (bytes ptr size) (bytes r.start r.size) at hdisjoint
    change r.start = ptr at hstart
    have hmem : ptr.toNat ∈ bytes ptr size := by
      rw [bytes, Set.mem_Ico]
      omega
    refine Set.disjoint_left.mp hdisjoint hmem ?_
    rw [bytes, Set.mem_Ico, hstart]
    omega
  obtain ⟨hinv, hentries⟩ := insert_spec hagrees.inv hproper (by
    rintro ⟨k, b⟩ hk
    apply hfresh.2 k
    obtain ⟨-, hk | hk⟩ | ⟨-, hk⟩ := (hagrees.entries k b).mp hk
    · exact Or.inl hk
    · exact Or.inr (Or.inr hk)
    · exact Or.inr (Or.inl hk))
  obtain ⟨hinv', hentries'⟩ := set_type_spec hinv ptr type
  rw [new_block, if_pos hptr, if_pos hsize]
  refine ⟨hinv', fun k b => ?_, fun k hk hother => ?_, hagrees.nodup, hagrees.length_le, hagrees.index_lt,
    hagrees.ring, fun k hk => ?_⟩
  · rw [hentries', hentries, hagrees.entries, Blocks.add, Set.mem_insert_iff, Prod.mk.injEq]
    tauto
  · obtain rfl | hk := hk
    · exact hapart _ (Or.inr (Or.inr hother)) rfl
    · exact hagrees.live_others k hk hother
  · have hold : k ∈ h.live ∨ k ∈ h.waiting → k.1 ∉ h.returned \ {ptr} ∧ k.1 ≠ 0#64 := fun hk =>
      ⟨fun hreturned => (hagrees.kept k hk).1 hreturned.1, (hagrees.kept k hk).2⟩
    obtain (rfl | hk) | hk := hk
    · exact ⟨fun hreturned => hreturned.2 rfl, hptr⟩
    · exact hold (Or.inl hk)
    · exact hold (Or.inr hk)

/-- A live block is given back at once. -/
theorem delete_live_agrees (hagrees : Agrees others s h) {k : Key} (hk : k ∈ h.live) :
    Agrees others { s with tree := splay_delete k.1 s.tree } ⟨h.live \ {k}, h.waiting,
      insert k.1 h.returned⟩ := by
  obtain ⟨hinv, hentries⟩ := delete_spec hagrees.inv k.1
  have hstart {k' : Key} (hk' : k' ∈ h.live ∨ k' ∈ h.waiting ∨ k' ∈ others) (hne : k' ≠ k) : k'.1 ≠ k.1 :=
    fun heq => hne (hagrees.same_start hk' (Or.inl hk) heq)
  refine ⟨hinv, fun k' b => ?_, fun k' hk' => hagrees.live_others k' hk'.1, hagrees.nodup, hagrees.length_le,
    hagrees.index_lt, hagrees.ring, fun k' hk' => ?_⟩
  · rw [hentries, hagrees.entries, Set.mem_sdiff, Set.mem_singleton_iff]
    constructor
    · rintro ⟨⟨hb, hlive | hother⟩ | ⟨hb, hwaiting⟩, hne⟩
      · exact Or.inl ⟨hb, Or.inl ⟨hlive, fun heq => hne (congrArg Prod.fst heq)⟩⟩
      · exact Or.inl ⟨hb, Or.inr hother⟩
      · exact Or.inr ⟨hb, hwaiting⟩
    · rintro (⟨hb, ⟨hlive, hne⟩ | hother⟩ | ⟨hb, hwaiting⟩)
      · exact ⟨Or.inl ⟨hb, Or.inl hlive⟩, hstart (Or.inl hlive) hne⟩
      · exact ⟨Or.inl ⟨hb, Or.inr hother⟩, hstart (Or.inr (Or.inr hother)) fun heq =>
          hagrees.live_others k hk (heq ▸ hother)⟩
      · exact ⟨Or.inr ⟨hb, hwaiting⟩, hstart (Or.inr (Or.inl hwaiting)) fun heq =>
          hagrees.notMem_waiting (Or.inl hk) (heq ▸ hwaiting)⟩
  · have hkept (hne : k' ≠ k) (hk' : k' ∈ h.live ∨ k' ∈ h.waiting) : k'.1 ∉ insert k.1 h.returned ∧
      k'.1 ≠ 0#64 := by
      refine ⟨?_, (hagrees.kept k' hk').2⟩
      rintro (heq | hreturned)
      · exact hstart (hk'.imp id Or.inl) hne heq
      · exact (hagrees.kept k' hk').1 hreturned
    obtain hk' | hk' := hk'
    · exact hkept hk'.2 (Or.inl hk'.1)
    · exact hkept (fun heq => hagrees.notMem_waiting (Or.inl hk) (heq ▸ hk')) (Or.inr hk')

/-- A pointer to no block is given back. -/
theorem foreign_agrees (hagrees : Agrees others s h) {ptr : BitVec 64} (hforeign : h.Foreign others ptr) :
    Agrees others s { h with returned := insert ptr h.returned } where
  inv := hagrees.inv
  entries := hagrees.entries
  live_others := hagrees.live_others
  nodup := hagrees.nodup
  length_le := hagrees.length_le
  index_lt := hagrees.index_lt
  ring := hagrees.ring
  kept := fun k hk => by
    refine ⟨?_, (hagrees.kept k hk).2⟩
    rintro (heq | hreturned)
    · exact hforeign k (hk.imp id Or.inl) heq
    · exact (hagrees.kept k hk).1 hreturned

/-- Nothing is deleted where no region starts. -/
theorem delete_foreign_agrees (hagrees : Agrees others s h) {ptr : BitVec 64}
    (hforeign : h.Foreign others ptr) :
    Agrees others { s with tree := splay_delete ptr s.tree } h := by
  obtain ⟨hinv, hentries⟩ := delete_spec hagrees.inv ptr
  apply hagrees.with_tree hinv
  ext ⟨k, b⟩
  rw [hentries]
  refine and_iff_left_of_imp fun hk => ?_
  obtain ⟨-, hk | hk⟩ | ⟨-, hk⟩ := (hagrees.entries k b).mp hk
  · exact hforeign k (Or.inl hk)
  · exact hforeign k (Or.inr (Or.inr hk))
  · exact hforeign k (Or.inr (Or.inl hk))

/-- The pointers given back are new ones, and the heap is again as it is meant. -/
def Meant (others : Set Key) (op : Op) (h : Blocks) (out : Heap × List (BitVec 64)) : Prop :=
  ∃ h', Step others op h out.2 h' ∧ (∀ p ∈ out.2, p ∉ h.returned) ∧ Agrees others out.1 h'

/-- A block that was live waits. -/
theorem waits_agrees {f : Nat → BitVec 64} {i : Nat} {t t' : Tree} {k : Key} {waiting : List Key}
    {returned : Set (BitVec 64)} (hagrees : Agrees others ⟨t, f, i⟩ h) (hk : k ∈ h.live) (hinv : Inv t')
    (hentries : ∀ e, e ∈ heap.entries t' ↔ e = (k, true) ∨ e ∈ heap.entries t ∧ e.1 ≠ k ∧
    (e.1 ∈ h.waiting → e.1 ∈ waiting))
    (hsub : waiting.Sublist h.waiting) (hlength : waiting.length < FREE_REUSE_SIZE) {p : BitVec 64}
    (hring : heap.ring ⟨t, f, i⟩ =
      p :: (List.replicate (FREE_REUSE_SIZE - 1 - waiting.length) 0#64 ++ waiting.map Prod.fst))
    (hreturned : ∀ k', k' ∈ h.live ∨ k' ∈ waiting → k'.1 ∉ returned) :
    Agrees others ⟨t', Function.update f i k.1, (i + 1) % FREE_REUSE_SIZE⟩
      ⟨h.live \ {k}, waiting ++ [k], returned⟩ := by
  refine ⟨hinv, fun k' b => ?_, fun k' hk' => hagrees.live_others k' hk'.1, ?_, ?_, Nat.mod_lt _
    (by decide), ?_,
    fun k' hk' => ?_⟩
  · rw [hentries, hagrees.entries, Prod.mk.injEq, List.mem_append, List.mem_singleton, Set.mem_sdiff,
      Set.mem_singleton_iff]
    constructor
    · rintro (⟨hkey, hb⟩ | ⟨⟨hb, hlive | hother⟩ | ⟨hb, hwaiting⟩, hne, hstays⟩)
      · exact Or.inr ⟨hb, Or.inr hkey⟩
      · exact Or.inl ⟨hb, Or.inl ⟨hlive, hne⟩⟩
      · exact Or.inl ⟨hb, Or.inr hother⟩
      · exact Or.inr ⟨hb, Or.inl (hstays hwaiting)⟩
    · rintro (⟨hb, ⟨hlive, hne⟩ | hother⟩ | ⟨hb, hwaiting | hkey⟩)
      · exact Or.inr ⟨Or.inl ⟨hb, Or.inl hlive⟩, hne, fun hwaiting => absurd hwaiting
          (hagrees.notMem_waiting (Or.inl hlive))⟩
      · exact Or.inr ⟨Or.inl ⟨hb, Or.inr hother⟩, fun heq => hagrees.live_others k hk (heq ▸ hother),
          fun hwaiting => absurd hwaiting (hagrees.notMem_waiting (Or.inr hother))⟩
      · exact Or.inr ⟨Or.inr ⟨hb, hsub.subset hwaiting⟩, fun heq => hagrees.notMem_waiting (Or.inl hk)
          (heq ▸ hsub.subset hwaiting),
          fun _ => hwaiting⟩
      · exact Or.inl ⟨hkey, hb⟩
  · rw [List.nodup_append]
    refine ⟨hagrees.nodup.sublist hsub, List.pairwise_singleton _ k, fun k' hk' k₂ hk₂ heq => ?_⟩
    rw [List.mem_singleton.mp hk₂] at heq
    exact hagrees.notMem_waiting (Or.inl hk) (heq ▸ hsub.subset hk')
  · rw [List.length_append, List.length_singleton]
    exact hlength
  · rw [ring_update hagrees.index_lt hring, List.length_append, List.length_singleton, List.map_append,
      List.append_assoc, Nat.sub_sub, Nat.add_comm 1]
    rfl
  · have hlive : k' ∈ h.live ∨ k' ∈ waiting := by
      obtain hk' | hk' := hk'
      · exact Or.inl hk'.1
      · obtain hk' | hk' := List.mem_append.mp hk'
        · exact Or.inr hk'
        · exact Or.inl (List.mem_singleton.mp hk' ▸ hk)
    exact ⟨hreturned k' hlive, (hagrees.kept k' (hlive.imp id fun hk' => hsub.subset hk')).2⟩

theorem bound_free_meant (hagrees : Agrees others s h) {ptr : BitVec 64} (hfreeable : Freeable others h ptr) :
    Meant others (.free ptr) h (bound_free ptr s) := by
  by_cases hnull : ptr = 0#64
  · rw [bound_free, if_pos hnull, hnull]
    exact ⟨h, .free_null, fun p hp => absurd hp List.not_mem_nil, hagrees⟩
  obtain ⟨hreturned, hother⟩ := hfreeable hnull
  obtain ⟨hnil, hsplay⟩ | ⟨a, x, b, hsplay, hinv, hentries, hroot⟩ := splay_root hagrees.inv ptr
  · have hexec : bound_free ptr s = (s, []) := by rw [bound_free, if_neg hnull, hsplay]
    rw [hexec]
    refine ⟨h, .free_nothing fun k => ?_, fun p hp => absurd hp List.not_mem_nil, hagrees⟩
    have hempty (hk : k ∈ h.live ∨ k ∈ h.waiting ∨ k ∈ others) : False := by
      obtain ⟨b, r, hr, -⟩ := hagrees.region hk
      rw [hnil] at hr
      exact List.not_mem_nil hr
    exact ⟨fun hk => hempty (Or.inl hk), fun hk => hempty (Or.inr (Or.inl hk)), fun hk => hempty
      (Or.inr (Or.inr hk))⟩
  have hsearched : Agrees others { s with tree := .node a x b } h := hagrees.with_tree hinv hentries
  have hmem : (((x.start, x.size), x.is_invalid) : Key × Bool) ∈ heap.entries s.tree := by
    rw [← hentries, entries_node]
    exact Set.mem_insert _ _
  by_cases hstart : x.start = ptr
  swap
  · have hexec : bound_free ptr s = ({ s with tree := .node a x b }, [ptr]) := by
      rw [bound_free, if_neg hnull, hsplay]
      exact if_neg hstart
    have hforeign : h.Foreign others ptr := by
      intro k hk hptr
      obtain ⟨c, hc⟩ := hagrees.region hk
      have heq := hroot _ hc hptr
      exact hstart ((congrArg (fun e : Key × Bool => e.1.1) heq).trans hptr)
    rw [hexec]
    refine ⟨_, .free_foreign hforeign hnull, fun p hp => ?_, foreign_agrees hsearched hforeign⟩
    rw [List.mem_singleton.mp hp]
    exact hreturned
  subst hstart
  obtain ⟨hvalid, hlive⟩ | ⟨hinvalid, hwaiting⟩ := (hagrees.entries _ _).mp hmem
  swap
  · have hexec : bound_free x.start s = ({ s with tree := .node a x b }, []) := by
      rw [bound_free, if_neg hnull, hsplay]
      exact (if_pos rfl).trans (if_pos hinvalid)
    rw [hexec]
    exact ⟨h, .free_again (k := (x.start, x.size)) hwaiting, fun p hp => absurd hp List.not_mem_nil,
      hsearched⟩
  replace hlive := hlive.resolve_right fun hk => hother _ hk rfl
  obtain ⟨hinv', hentries'⟩ := invalidate_spec hinv
  rw [hentries] at hentries'
  have hne {e : Key × Bool} (he : e ∈ heap.entries s.tree) : e.1.1 ≠ x.start ↔ e.1 ≠ (x.start, x.size) := by
    refine not_congr ⟨fun heq => ?_, fun heq => congrArg Prod.fst heq⟩
    exact congrArg Prod.fst (entries_unique hagrees.inv he hmem heq)
  have hexec : bound_free x.start s =
      ({ tree := if s.free_reuse_list s.free_reuse_index ≠ 0#64 then
           splay_delete (s.free_reuse_list s.free_reuse_index) (.node a { x with is_invalid := true } b)
         else .node a { x with is_invalid := true } b
         free_reuse_list := Function.update s.free_reuse_list s.free_reuse_index x.start
         free_reuse_index := (s.free_reuse_index + 1) % FREE_REUSE_SIZE },
       if s.free_reuse_list s.free_reuse_index ≠ 0#64 then [s.free_reuse_list s.free_reuse_index] else []) := by
    rw [bound_free, if_neg hnull, hsplay]
    exact (if_pos rfl).trans (if_neg (by rw [hvalid]; exact Bool.false_ne_true))
  rw [hexec]
  obtain hlength | hlength := hagrees.length_le.lt_or_eq
  · -- a place is free
    have hring : heap.ring s = 0#64 ::
        (List.replicate (FREE_REUSE_SIZE - 1 - h.waiting.length) 0#64 ++ h.waiting.map Prod.fst) := by
      have hsucc : FREE_REUSE_SIZE - h.waiting.length = FREE_REUSE_SIZE - 1 - h.waiting.length + 1 := by omega
      rw [hagrees.ring, hsucc, List.replicate_succ, List.cons_append]
    rw [ring_head hagrees.index_lt hring, if_neg (not_not.mpr rfl), if_neg (not_not.mpr rfl)]
    refine ⟨_, .free (k := (x.start, x.size)) hlive hlength, fun p hp => absurd hp List.not_mem_nil, ?_⟩
    refine waits_agrees hagrees hlive hinv' (fun e => ?_) (List.Sublist.refl _) hlength hring
      fun k hk => (hagrees.kept k hk).1
    rw [hentries']
    refine or_congr Iff.rfl (and_congr_right fun he => ?_)
    rw [hne he]
    exact (and_iff_left id).symm
  · -- the oldest one leaves
    obtain ⟨old, rest, hwaiting⟩ : ∃ old rest, h.waiting = old :: rest := by
      apply List.exists_cons_of_length_pos
      rw [hlength]
      decide
    have hold : old ∈ h.waiting := by
      rw [hwaiting]
      exact List.mem_cons_self
    have hrest : rest.length = FREE_REUSE_SIZE - 1 := by
      rw [hwaiting, List.length_cons] at hlength
      omega
    have hring : heap.ring s = old.1 ::
        (List.replicate (FREE_REUSE_SIZE - 1 - rest.length) 0#64 ++ rest.map Prod.fst) := by
      rw [hagrees.ring, hlength, hrest, Nat.sub_self, Nat.sub_self, hwaiting]
      rfl
    have hnotin : old ∉ rest := by
      have hnodup := hagrees.nodup
      rw [hwaiting, List.nodup_cons] at hnodup
      exact hnodup.1
    obtain ⟨hkept, hold_null⟩ := hagrees.kept old (Or.inr hold)
    obtain ⟨hinv₂, hentries₂⟩ := delete_spec hinv' old.1
    rw [ring_head hagrees.index_lt hring, if_pos hold_null, if_pos hold_null]
    refine ⟨_, .free_full (k := (x.start, x.size)) hlive hwaiting hlength, fun p hp => ?_, ?_⟩
    · rw [List.mem_singleton.mp hp]
      exact hkept
    · refine waits_agrees hagrees hlive hinv₂ (fun e => ?_) ?_ (by rw [hrest]; decide) hring fun k hk => ?_
      · rw [hentries₂, hentries']
        constructor
        · rintro ⟨heq | ⟨he, hstart⟩, hnot⟩
          · exact Or.inl heq
          · refine Or.inr ⟨he, (hne he).mp hstart, fun hk => ?_⟩
            rw [hwaiting] at hk
            exact (List.mem_cons.mp hk).resolve_left fun heq => hnot (congrArg Prod.fst heq)
        · rintro (rfl | ⟨he, hkey, hstays⟩)
          · refine ⟨Or.inl rfl, fun heq => hagrees.notMem_waiting (Or.inl hlive) ?_⟩
            rw [hagrees.same_start (k := (x.start, x.size)) (Or.inl hlive) (Or.inr (Or.inl hold)) heq]
            exact hold
          · refine ⟨Or.inr ⟨he, (hne he).mpr hkey⟩, fun heq => hnotin ?_⟩
            have hinvalid := (hagrees.entries old true).mpr (Or.inr ⟨rfl, hold⟩)
            have hsame := congrArg Prod.fst (entries_unique hagrees.inv he hinvalid heq)
            rw [hsame] at hstays
            exact hstays hold
      · rw [hwaiting]
        exact List.sublist_cons_self old rest
      · have hk' : k ∈ h.live ∨ k ∈ h.waiting := by
          refine hk.imp id fun hk => ?_
          rw [hwaiting]
          exact List.mem_cons_of_mem old hk
        rintro (heq | hback)
        · have hsame := hagrees.same_start (hk'.imp id Or.inl) (Or.inr (Or.inl hold)) heq
          rw [hsame] at hk
          exact hk.elim (fun hk => hagrees.notMem_waiting (Or.inl hk) hold) hnotin
        · exact (hagrees.kept k hk').1 hback

theorem Fresh.mono {h' : Blocks} {ptr size : BitVec 64} (hfresh : Fresh others h ptr size)
    (hlive : ∀ k ∈ h'.live, k ∈ h.live) (hwaiting : h'.waiting = h.waiting) : Fresh others h' ptr size := by
  refine ⟨hfresh.1, fun k hk => hfresh.2 k ?_⟩
  obtain hk | hk | hk := hk
  · exact Or.inl (hlive k hk)
  · exact Or.inr (Or.inl (hwaiting ▸ hk))
  · exact Or.inr (Or.inr hk)

theorem bound_realloc_meant (hagrees : Agrees others s h) {ptr size new_ptr : BitVec 64}
    (hanswered : (Op.realloc ptr size new_ptr).Answered others h)
    (hmeets : (Op.realloc ptr size new_ptr).Meets others h) :
    Meant others (.realloc ptr size new_ptr) h (bound_realloc ptr size new_ptr s) := by
  obtain ⟨hfreeable, hblock⟩ := hmeets
  by_cases hsize : size = 0#64
  · obtain ⟨h', hstep, hback, hagrees'⟩ := bound_free_meant hagrees hfreeable
    rw [bound_realloc, if_pos hsize, hsize]
    exact ⟨h', .realloc_zero hstep, hback, hagrees'⟩
  obtain ⟨hfits, hfreed, hfails⟩ := hblock hsize
  rw [bound_realloc, if_neg hsize]
  by_cases hnull : ptr = 0#64
  · subst hnull
    rw [if_neg (not_not.mpr rfl), if_neg (not_not.mpr rfl)]
    by_cases hnew : new_ptr = 0#64
    · subst hnew
      exact ⟨h, .realloc_null_null hsize, fun p hp => absurd hp List.not_mem_nil, hagrees⟩
    · refine ⟨_, .realloc_null hsize hnew, fun p hp => absurd hp List.not_mem_nil, ?_⟩
      apply new_block_agrees hagrees _ hsize hnew
      refine (hanswered hsize hnew (hfits hnew)).mono (fun k hk => ⟨hk, ?_⟩) rfl
      exact (hagrees.kept k (Or.inl hk)).2
  rw [if_pos hnull, if_pos hnull]
  obtain ⟨hreturned, hother⟩ := hfreeable hnull
  have hback (p : BitVec 64) (hp : p ∈ [ptr]) : p ∉ h.returned := by
    rw [List.mem_singleton.mp hp]
    exact hreturned
  by_cases hlive : ∃ k ∈ h.live, k.1 = ptr
  · have hnew := hfails hlive
    obtain ⟨k, hk, rfl⟩ := hlive
    refine ⟨_, .realloc hk hsize hnew, hback, ?_⟩
    apply new_block_agrees (delete_live_agrees hagrees hk) _ hsize hnew
    refine (hanswered hsize hnew (hfits hnew)).mono (fun k' hk' => ⟨hk'.1, fun heq => hk'.2 ?_⟩) rfl
    exact hagrees.same_start (Or.inl hk'.1) (Or.inl hk) heq
  · have hforeign : h.Foreign others ptr := by
      rintro k (hk | hk | hk) heq
      · exact hlive ⟨k, hk, heq⟩
      · exact hfreed k hk heq
      · exact hother k hk heq
    have hagrees' := delete_foreign_agrees hagrees hforeign
    by_cases hnew : new_ptr = 0#64
    · subst hnew
      exact ⟨h, .realloc_foreign_fails hforeign hnull hsize, hback, hagrees'⟩
    · refine ⟨_, .realloc_foreign hforeign hnull hsize hnew, hback, ?_⟩
      apply new_block_agrees (foreign_agrees hagrees' hforeign) _ hsize hnew
      exact (hanswered hsize hnew (hfits hnew)).mono (fun k hk => ⟨hk, hforeign k (Or.inl hk)⟩) rfl

theorem calloc_size {nmemb size : BitVec 64} (hpos : 0 < nmemb.toNat * size.toNat)
    (hfits : nmemb.toNat * size.toNat + 1 < 2 ^ 64) :
    size * nmemb = BitVec.ofNat 64 (nmemb.toNat * size.toNat) ∧ size * nmemb ≠ 0#64 := by
  have hnat : (size * nmemb).toNat = nmemb.toNat * size.toNat := by
    rw [BitVec.toNat_mul, Nat.mul_comm, Nat.mod_eq_of_lt (by omega)]
  constructor
  · rw [← hnat, BitVec.ofNat_toNat, BitVec.setWidth_eq]
  · intro hzero
    rw [hzero, BitVec.toNat_ofNat] at hnat
    omega

theorem exec_meant (hagrees : Agrees others s h) {op : Op} (hanswered : op.Answered others h)
    (hmeets : op.Meets others h) : Meant others op h (op.exec s) := by
  have hnone (p : BitVec 64) (hp : p ∈ ([] : List (BitVec 64))) : p ∉ h.returned := absurd hp List.not_mem_nil
  cases op with
  | malloc size ptr =>
    by_cases hptr : ptr = 0#64
    · subst hptr
      exact ⟨h, .malloc_null, hnone, hagrees⟩
    · exact ⟨_, .malloc hptr, hnone,
        new_block_agrees hagrees (hanswered hptr (hmeets hptr).2) (hmeets hptr).1 hptr _⟩
  | memalign size ptr =>
    by_cases hptr : ptr = 0#64
    · subst hptr
      exact ⟨h, .memalign_null, hnone, hagrees⟩
    · exact ⟨_, .memalign hptr, hnone,
        new_block_agrees hagrees (hanswered hptr (hmeets hptr).2) (hmeets hptr).1 hptr _⟩
  | calloc nmemb size ptr =>
    by_cases hptr : ptr = 0#64
    · subst hptr
      exact ⟨h, .calloc_null, hnone, hagrees⟩
    · obtain ⟨hpos, hfits⟩ := hmeets hptr
      obtain ⟨hsize, hnonzero⟩ := calloc_size hpos hfits
      refine ⟨_, .calloc (Nat.lt_of_succ_lt hfits) hptr, hnone, ?_⟩
      rw [← hsize]
      exact new_block_agrees hagrees (hanswered hptr hfits) hnonzero hptr _
  | free ptr => exact bound_free_meant hagrees hmeets
  | realloc ptr size new_ptr => exact bound_realloc_meant hagrees hanswered hmeets

end agrees

/-- The regions are those of the live blocks and of the others, and the invalid ones of the
    blocks that wait. -/
def Recorded (others : Set Key) (s : Heap) (h : Blocks) : Prop :=
  ∀ k b, (k, b) ∈ entries s.tree ↔ b = false ∧ (k ∈ h.live ∨ k ∈ others) ∨ b = true ∧ k ∈ h.waiting

/-- A sequence of calls goes as it is meant as long as each meets `ok`: no pointer is given back
    that has been since it was last given out, and the regions are recorded after each. -/
def Keeps (others : Set Key) (ok : Op → Blocks → Prop) : List Op → Heap → Blocks → Prop
  | [], s, h => Recorded others s h
  | op :: ops, s, h => Recorded others s h ∧ (op.Answered others h → ok op h →
      ∃ h', Step others op h (op.exec s).2 h' ∧ (∀ p ∈ (op.exec s).2, p ∉ h.returned) ∧
        Keeps others ok ops (op.exec s).1 h')

theorem Agrees.keeps {others : Set Key} (ops : List Op) {s : Heap} {h : Blocks}
    (hagrees : Agrees others s h) :
    Keeps others (fun op h => op.Meets others h) ops s h := by
  induction ops generalizing s h with
  | nil => exact hagrees.entries
  | cons op ops ih =>
    refine ⟨hagrees.entries, fun hanswered hmeets => ?_⟩
    obtain ⟨h', hstep, hback, hagrees'⟩ := exec_meant hagrees hanswered hmeets
    exact ⟨h', hstep, hback, ih hagrees'⟩

/-- From the regions of what is no block, every sequence of calls goes as it is meant. -/
theorem calls_keep (others : Set Key) (ops : List Op) (t : Tree) (hinv : Inv t)
    (hothers : ∀ k b, (k, b) ∈ entries t ↔ b = false ∧ k ∈ others) :
    Keeps others (fun op h => op.Meets others h) ops ⟨t, fun _ => 0#64, 0⟩ ⟨∅, [], ∅⟩ := by
  apply Agrees.keeps
  refine ⟨hinv, fun k b => ?_, fun k hk => absurd hk (Set.notMem_empty k), List.nodup_nil, Nat.zero_le _,
    Nat.succ_pos _, ?_, fun k hk => ?_⟩
  · rw [hothers]
    simp only [Set.mem_empty_iff_false, false_or, List.not_mem_nil, and_false, or_false]
  · rfl
  · exact hk.elim (absurd · (Set.notMem_empty k)) (absurd · List.not_mem_nil)

/-- Where there is nothing, every block is apart. -/
theorem fresh_empty {ptr size : BitVec 64} (hstop : ptr.toNat + size.toNat < 2 ^ 64) :
    Fresh ∅ ⟨∅, [], ∅⟩ ptr size := by
  refine ⟨hstop, fun k hk => ?_⟩
  simp only [Set.mem_empty_iff_false, List.not_mem_nil, or_false] at hk

theorem calls_keep_malloc_free : ∃ h', Step ∅ (.malloc 8#64 4096#64) ⟨∅, [], ∅⟩ [] h' ∧
    Keeps ∅ (fun op h => op.Meets ∅ h) [.free 4096#64, .free 4096#64]
      (bound_malloc 8#64 4096#64 ⟨.nil, fun _ => 0#64, 0⟩) h' := by
  have hnone (k : Key) (b : Bool) : (k, b) ∈ entries .nil ↔ b = false ∧ k ∈ (∅ : Set Key) := by
    constructor
    · rintro ⟨r, hr, -⟩
      exact absurd hr List.not_mem_nil
    · rintro ⟨-, hk⟩
      exact absurd hk (Set.notMem_empty k)
  obtain ⟨-, hrun⟩ :=
    calls_keep ∅ [.malloc 8#64 4096#64, .free 4096#64, .free 4096#64] .nil inv_nil hnone
  obtain ⟨h', hstep, -, hkeeps⟩ := hrun (fun _ _ => fresh_empty (by decide)) fun _ => ⟨by decide, by decide⟩
  exact ⟨h', hstep, hkeeps⟩

theorem Step.malloc_eq {others : Set Key} {op : Op} {h h' : Blocks} {back : List (BitVec 64)}
    (hstep : Step others op h back h') {size ptr : BitVec 64} (hop : op = .malloc size ptr)
    (hptr : ptr ≠ 0#64) :
    h' = h.add ptr size := by
  cases hstep <;> cases hop
  · rfl
  · exact absurd rfl hptr

theorem Step.realloc_fails_eq {others : Set Key} {op : Op} {h h' : Blocks} {back : List (BitVec 64)}
    (hstep : Step others op h back h') {size ptr : BitVec 64} (hop : op = .realloc ptr size 0#64)
    (hsize : size ≠ 0#64) : h' = h := by
  cases hstep <;> cases hop
  case realloc_zero => exact absurd rfl hsize
  case realloc_null hnew => exact absurd rfl hnew
  case realloc hnew => exact absurd rfl hnew
  case realloc_foreign hnew => exact absurd rfl hnew
  all_goals rfl

/-- A `realloc` that fails removes the region of the old block, which stays live. -/
theorem failed_realloc_forgets : ¬ Keeps ∅ (fun _ _ => True)
    [.malloc 8#64 4096#64, .realloc 4096#64 16#64 0#64] ⟨.nil, fun _ => 0#64, 0⟩ ⟨∅, [], ∅⟩ := by
  rintro ⟨-, hrun⟩
  obtain ⟨h₁, hstep₁, -, -, hrun₁⟩ := hrun (fun _ _ => fresh_empty (by decide)) trivial
  obtain ⟨h₂, hstep₂, -, hrecorded⟩ := hrun₁ (fun _ hnew => absurd rfl hnew) trivial
  have hlive : ((4096#64, 8#64) : Key) ∈ h₂.live := by
    rw [hstep₂.realloc_fails_eq rfl (by decide), hstep₁.malloc_eq rfl (by decide)]
    exact Set.mem_insert _ _
  obtain ⟨r, hr, -⟩ := (hrecorded _ false).mpr (Or.inl ⟨rfl, Or.inl hlive⟩)
  exact absurd hr List.not_mem_nil

end bcheck.heap
