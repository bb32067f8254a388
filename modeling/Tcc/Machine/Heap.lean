import Mathlib.Data.List.Pairwise
import Mathlib.Tactic.Common

/-! A heap of bytes and the regions that are allocated in it. What `malloc` answers is given
    beforehand, an address and the bytes that are there for each call. -/

namespace machine.heap

abbrev Mem := Nat → BitVec 8

def read (mem : Mem) (a n : Nat) : List (BitVec 8) := (List.range n).map fun i => mem (a + i)

def write (mem : Mem) (a : Nat) (bs : List (BitVec 8)) : Mem :=
  fun x => if a ≤ x ∧ x < a + bs.length then bs.getD (x - a) 0 else mem x

section mem

variable {mem mem' : Mem} {a b m n x : Nat} {bs : List (BitVec 8)}

@[simp] theorem length_read : (read mem a n).length = n := by
  rw [read, List.length_map, List.length_range]

theorem getElem?_read {i : Nat} (hi : i < n) : (read mem a n)[i]? = some (mem (a + i)) := by
  rw [read, List.getElem?_map, List.getElem?_range hi, Option.map_some]

theorem read_congr (hsame : ∀ x, a ≤ x → x < a + n → mem' x = mem x) : read mem' a n = read mem a n := by
  rw [read, read, List.map_inj_left]
  intro i hi
  rw [List.mem_range] at hi
  exact hsame (a + i) (by omega) (by omega)

theorem read_take (h : m ≤ n) : (read mem a n).take m = read mem a m := by
  rw [read, read, ← List.map_take, List.take_range, Nat.min_eq_left h]

theorem write_of_not (hx : ¬ (a ≤ x ∧ x < a + bs.length)) : write mem a bs x = mem x := if_neg hx

theorem read_write_self : read (write mem a bs) a bs.length = bs := by
  apply List.ext_getElem?
  intro i
  by_cases hi : i < bs.length
  · rw [getElem?_read hi, write, if_pos (by omega), Nat.add_sub_cancel_left, List.getD_eq_getElem?_getD,
      List.getElem?_eq_getElem hi, Option.getD_some]
  · rw [List.getElem?_eq_none (by rw [length_read]; omega), List.getElem?_eq_none (by omega)]

theorem read_write_of_length (hn : bs.length = n) : read (write mem a bs) a n = bs := by
  rw [← hn, read_write_self]

/-- One byte of a range. -/
theorem read_write_one {k : Nat} {c : BitVec 8} (hk : k < n) :
    read (write mem (a + k) [c]) a n = (read mem a n).set k c := by
  apply List.ext_getElem?
  intro i
  by_cases hi : i < n
  · rw [getElem?_read hi, List.getElem?_set, length_read, if_pos hk, getElem?_read hi, write, List.length_singleton]
    by_cases hsame : k = i
    · subst hsame
      rw [if_pos rfl, if_pos (by omega), Nat.sub_self]
      rfl
    · rw [if_neg hsame, if_neg (by omega)]
  · rw [List.getElem?_eq_none (by rw [length_read]; omega),
      List.getElem?_eq_none (by rw [List.length_set, length_read]; omega)]

end mem

structure Region where
  start : Nat
  size : Nat
deriving DecidableEq

/-- Regions without a common byte; an empty one has an address of its own, too. -/
def Region.Apart (r q : Region) : Prop := r.start + max r.size 1 ≤ q.start ∨ q.start + max q.size 1 ≤ r.start

instance (r q : Region) : Decidable (r.Apart q) := inferInstanceAs (Decidable (_ ∨ _))

theorem Region.Apart.symm {r q : Region} (h : r.Apart q) : q.Apart r := Or.symm h

instance : Std.Symm Region.Apart := ⟨fun _ _ h => h.symm⟩

theorem Region.Apart.ne {r q : Region} (h : r.Apart q) : r ≠ q := by
  rintro rfl
  rw [Region.Apart] at h
  omega

/-- A byte range inside a region. -/
def Region.Covers (r : Region) (a n : Nat) : Prop := r.start ≤ a ∧ a + n ≤ r.start + r.size

instance (r : Region) (a n : Nat) : Decidable (r.Covers a n) := inferInstanceAs (Decidable (_ ∧ _))

/-- What is apart from a region is apart from each range in it. -/
theorem Region.Apart.of_covers {r q : Region} (h : r.Apart q) {a n : Nat} (hn : 0 < n) (hcovers : q.Covers a n) :
    r.Apart ⟨a, n⟩ := by
  obtain ⟨hlo, hhi⟩ := hcovers
  rw [Region.Apart] at h ⊢
  dsimp only
  omega

/-- The next address that `malloc` gives, and what the memory there holds. -/
structure Answer where
  addr : Nat
  fill : Mem

structure Heap where
  mem : Mem
  regions : List Region
  answers : List Answer
  apart : regions.Pairwise Region.Apart
  nonnull : ∀ r ∈ regions, r.start ≠ 0

/-- Why there is no result: there is no memory, or the behaviour is undefined. -/
inductive Fault where
  | no_memory
  | undefined
deriving DecidableEq

namespace Heap

/-- There is no memory where no answer is left, or where the answer is in use. -/
def malloc (h : Heap) (n : Nat) : Except Fault (Nat × Heap) :=
  match h.answers with
  | [] => .error .no_memory
  | answer :: answers =>
    if hfree : answer.addr ≠ 0 ∧ ∀ r ∈ h.regions, Region.Apart ⟨answer.addr, n⟩ r then
      .ok (answer.addr, {
        mem := fun x => if answer.addr ≤ x ∧ x < answer.addr + n then answer.fill x else h.mem x
        regions := ⟨answer.addr, n⟩ :: h.regions
        answers := answers
        apart := List.pairwise_cons.mpr ⟨hfree.2, h.apart⟩
        nonnull := List.forall_mem_cons.mpr ⟨hfree.1, h.nonnull⟩ })
    else .error .no_memory

/-- Without a region. -/
def erase (h : Heap) (r : Region) : Heap :=
  { h with
    regions := h.regions.erase r
    apart := h.apart.sublist List.erase_sublist
    nonnull := fun q hq => h.nonnull q (List.mem_of_mem_erase hq) }

def free (h : Heap) (p : Nat) : Except Fault Heap :=
  match h.regions.find? fun r => r.start = p with
  | none => .error .undefined
  | some r => .ok (h.erase r)

def realloc (h : Heap) (p n : Nat) : Except Fault (Nat × Heap) :=
  match h.regions.find? fun r => r.start = p with
  | none => .error .undefined
  | some r => do
    let (a, moved) ← (h.erase r).malloc n
    .ok (a, { moved with mem := write moved.mem a (read h.mem p (min r.size n)) })

/-- The range is allocated. -/
def Allocated (h : Heap) (a n : Nat) : Prop := ∃ r ∈ h.regions, r.Covers a n

instance (h : Heap) (a n : Nat) : Decidable (h.Allocated a n) := inferInstanceAs (Decidable (∃ r ∈ _, _))

def store (h : Heap) (a : Nat) (bs : List (BitVec 8)) : Except Fault Heap :=
  if h.Allocated a bs.length then .ok { h with mem := write h.mem a bs } else .error .undefined

def load (h : Heap) (a n : Nat) : Except Fault (List (BitVec 8)) :=
  if h.Allocated a n then .ok (read h.mem a n) else .error .undefined

def memcpy (h : Heap) (dst src n : Nat) : Except Fault Heap :=
  if h.Allocated dst n ∧ h.Allocated src n ∧ (dst + n ≤ src ∨ src + n ≤ dst) then
    .ok { h with mem := write h.mem dst (read h.mem src n) }
  else .error .undefined

end Heap

section heap

variable {h : Heap}

/-- What `malloc` gives is a new region; the memory outside it is what it was. -/
theorem malloc_spec (n : Nat) :
    h.malloc n = .error .no_memory ∨
      ∃ a g, h.malloc n = .ok (a, g) ∧ a ≠ 0 ∧ (∀ r ∈ h.regions, Region.Apart ⟨a, n⟩ r) ∧
        g.regions = ⟨a, n⟩ :: h.regions ∧ g.answers.length < h.answers.length ∧
        ∀ x, ¬ (a ≤ x ∧ x < a + n) → g.mem x = h.mem x := by
  unfold Heap.malloc
  rcases h.answers with _ | ⟨answer, answers⟩
  · exact .inl rfl
  · dsimp only
    by_cases hfree : answer.addr ≠ 0 ∧ ∀ r ∈ h.regions, Region.Apart ⟨answer.addr, n⟩ r
    · rw [dif_pos hfree]
      exact .inr ⟨_, _, rfl, hfree.1, hfree.2, rfl, Nat.lt_succ_self _, fun x hx => if_neg hx⟩
    · rw [dif_neg hfree]
      exact .inl rfl

theorem Heap.apart_of_ne {r q : Region} (hr : r ∈ h.regions) (hq : q ∈ h.regions) (hne : r ≠ q) : r.Apart q :=
  h.apart.forall hr hq hne

/-- A region is found by its address. -/
theorem Heap.find?_region {r : Region} (hr : r ∈ h.regions) :
    (h.regions.find? fun q => q.start = r.start) = some r := by
  obtain ⟨q, hq⟩ : ∃ q, (h.regions.find? fun q => q.start = r.start) = some q := by
    rw [← Option.isSome_iff_exists, List.find?_isSome]
    exact ⟨r, hr, by simp⟩
  have hstart : q.start = r.start := by simpa using List.find?_some hq
  have hsame : q = r := by
    by_contra hne
    have happ := Heap.apart_of_ne (List.mem_of_find?_eq_some hq) hr hne
    rw [Region.Apart] at happ
    omega
  rw [hq, hsame]

theorem free_spec {r : Region} (hr : r ∈ h.regions) :
    h.free r.start = .ok (h.erase r) := by
  unfold Heap.free
  rw [Heap.find?_region hr]

/-- What `realloc` gives is a region apart from the others, with the bytes of the old one. -/
theorem realloc_spec {r : Region} (hr : r ∈ h.regions) (n : Nat) :
    h.realloc r.start n = .error .no_memory ∨
      ∃ a g, h.realloc r.start n = .ok (a, g) ∧ a ≠ 0 ∧
        (∀ q ∈ (h.erase r).regions, Region.Apart ⟨a, n⟩ q) ∧ g.regions = ⟨a, n⟩ :: (h.erase r).regions ∧
        read g.mem a (min r.size n) = read h.mem r.start (min r.size n) ∧
        ∀ x, ¬ (a ≤ x ∧ x < a + n) → g.mem x = h.mem x := by
  unfold Heap.realloc
  rw [Heap.find?_region hr]
  dsimp only
  rcases @malloc_spec (h.erase r) n with hnone | ⟨a, g, hmalloc, ha, happ, hgrown, -, hsame⟩
  · rw [hnone]
    exact .inl rfl
  · rw [hmalloc]
    refine .inr ⟨a, _, rfl, ha, happ, hgrown, ?_, ?_⟩
    · exact read_write_of_length length_read
    · intro x hx
      dsimp only
      rw [write_of_not, hsame x hx]
      · rfl
      · rw [length_read]
        omega

theorem store_spec {a : Nat} {bs : List (BitVec 8)} (ha : h.Allocated a bs.length) :
    h.store a bs = .ok { h with mem := write h.mem a bs } := if_pos ha

theorem load_spec {a n : Nat} (ha : h.Allocated a n) : h.load a n = .ok (read h.mem a n) := if_pos ha

theorem memcpy_spec {dst src n : Nat} (hdst : h.Allocated dst n) (hsrc : h.Allocated src n)
    (happ : dst + n ≤ src ∨ src + n ≤ dst) :
    h.memcpy dst src n = .ok { h with mem := write h.mem dst (read h.mem src n) } := if_pos ⟨hdst, hsrc, happ⟩

end heap

end machine.heap
