import Mathlib.Algebra.Order.Ring.Int
import Mathlib.Data.Int.Order.Basic
import Tcc.Bcheck.Check

/-! The string and memory functions that are checked. A loop over the bytes of a string is given a
    number of turns, after which it has no result. -/

namespace bcheck.str

abbrev Mem := BitVec 64 → BitVec 8

/-- A pointer, with a size as it is computed. -/
abbrev Place := BitVec 64 × BitVec 64

/-- The bytes from a pointer on, with their number. -/
abbrev Extent := BitVec 64 × Nat

def Extent.place (a : Extent) : Place := (a.1, BitVec.ofNat 64 a.2)

inductive Ret where
  | ptr (p : BitVec 64)
  | int (n : Int)

structure Outcome where
  ret : Ret
  mem : Mem

/-- The places reported as invalid, whether an overlap is reported, and what is returned and
    written unless the program exits. -/
structure Answer where
  errors : List Place
  overlapping : Bool
  outcome : Option Outcome

section memory

variable (m : Mem)

/-- `n` bytes are copied, as if by way of another place. -/
def copy (dest src : BitVec 64) (n : Nat) : Mem := fun a =>
  if (a - dest).toNat < n then m (src + (a - dest)) else m a

def fill (s : BitVec 64) (c : BitVec 8) (n : Nat) : Mem := fun a => if (a - s).toNat < n then c else m a

/-- What `strncpy` writes: the first `len` bytes, up to the end of the string, then NULs. -/
def pad (dest src : BitVec 64) (len n : Nat) : Mem := fun a =>
  if (a - dest).toNat < len then m (src + (a - dest)) else if (a - dest).toNat < n then 0#8 else m a

/-- The difference of two bytes as `int`. -/
def difference (s1 s2 i : BitVec 64) : Int := ((m (s1 + i)).toNat : Int) - (m (s2 + i)).toNat

end memory

section loops

variable (m : Mem)

/-- A loop over the bytes of a string that ends at the first index of a kind. -/
def scan (stop : BitVec 64 → Bool) : Nat → BitVec 64 → Option (BitVec 64)
  | 0, _ => none
  | fuel + 1, i => if stop i then some i else scan stop fuel (i + 1#64)

/-- `while (*p++)`: the bytes up to the end of a string, and its end. -/
def string_size (fuel : Nat) (s : BitVec 64) : Option (BitVec 64) :=
  (scan (fun i => m (s + i) == 0#8) fuel 0#64).map (· + 1#64)

/-- `while (len-- && *p++)`. -/
def limited_size (s : BitVec 64) : Nat → BitVec 64 → BitVec 64
  | 0, i => i
  | n + 1, i => if m (s + i) = 0#8 then i + 1#64 else limited_size s n (i + 1#64)

/-- The loops of `memcmp` and `strncmp`, the second of which ends at a NUL as well: the result and
    the bytes read. -/
def compare_loop (ends : BitVec 8 → Bool) (s1 s2 : BitVec 64) : Nat → BitVec 64 → Int × BitVec 64
  | 0, i => (0, i)
  | n + 1, i =>
    if m (s1 + i) ≠ m (s2 + i) then (difference m s1 s2 i, i + 1#64)
    else if ends (m (s1 + i)) then (0, i + 1#64)
    else compare_loop ends s1 s2 n (i + 1#64)

end loops

section check

variable (settings : Settings)

/-- `__bound_check`, with whether it reports an error. -/
def bound_check (p size : BitVec 64) (tree : Tree) : Bool × Tree :=
  if size ≠ 0#64 then
    let answer := bound_ptr_add settings tree p size
    (answer.ret == INVALID_POINTER, answer.tree)
  else (false, tree)

def check_overlap (p1 n1 p2 n2 : BitVec 64) : Bool :=
  !settings.no_checking && n1 != 0#64 && n2 != 0#64 &&
    ((decide (p1 ≤ p2) && decide (p1 + n1 > p2)) || (decide (p2 ≤ p1) && decide (p2 + n2 > p1)))

/-- The checks a function makes one by one: the errors, up to the first one if it exits then. -/
def bound_checks : List Place → Tree → List Place
  | [], _ => []
  | (p, size) :: rest, tree =>
    match bound_check settings p size tree with
    | (true, tree) => (p, size) :: if settings.never_fatal = 0 then [] else bound_checks rest tree
    | (false, tree) => bound_checks rest tree

/-- Whether the two places of a function that copies overlap. -/
def overlapping (copies : Bool) (checks : List Place) : Bool :=
  match checks with
  | [x, y] => copies && check_overlap settings x.1 x.2 y.1 y.2
  | _ => false

/-- A checked function: its checks, whether it copies, and what is done after them, or if its
    places overlap and the program does not exit for that. -/
def checked (tree : Tree) (copies : Bool) (checks : List Place) (skipped done : Outcome) : Answer :=
  let errors := bound_checks settings checks tree
  if errors ≠ [] ∧ settings.never_fatal = 0 then ⟨errors, false, none⟩
  else if overlapping settings copies checks then
    ⟨errors, true, if settings.never_fatal = 0 then none
      else if settings.never_fatal < 0 then some skipped else some done⟩
  else ⟨errors, false, some done⟩

variable (tree : Tree) (m : Mem)

def bound_memcpy (dest src n : BitVec 64) : Answer :=
  checked settings tree true [(dest, n), (src, n)] ⟨.ptr dest, m⟩ ⟨.ptr dest, copy m dest src n.toNat⟩

def bound_memcmp (s1 s2 n : BitVec 64) : Answer :=
  let (retval, u) := compare_loop m (fun _ => false) s1 s2 n.toNat 0#64
  checked settings tree false [(s1, u), (s2, u)] ⟨.int retval, m⟩ ⟨.int retval, m⟩

def bound_memmove (dest src n : BitVec 64) : Answer :=
  checked settings tree false [(dest, n), (src, n)] ⟨.ptr dest, m⟩
    ⟨.ptr dest, copy m dest src n.toNat⟩

def bound_memset (s : BitVec 64) (c : BitVec 32) (n : BitVec 64) : Answer :=
  checked settings tree false [(s, n)] ⟨.ptr s, m⟩ ⟨.ptr s, fill m s (c.setWidth 8) n.toNat⟩

/-- The result is an `int`. -/
def bound_strlen (fuel : Nat) (s : BitVec 64) : Option Answer := do
  let size ← string_size m fuel s
  let ret : Ret := .int ((size - 1#64).setWidth 32).toInt
  return checked settings tree false [(s, size)] ⟨ret, m⟩ ⟨ret, m⟩

def bound_strcpy (fuel : Nat) (dest src : BitVec 64) : Option Answer := do
  let len ← string_size m fuel src
  return checked settings tree true [(dest, len), (src, len)]
    ⟨.ptr dest, m⟩ ⟨.ptr dest, copy m dest src ((len - 1#64).toNat + 1)⟩

def bound_strncpy (dest src n : BitVec 64) : Answer :=
  let len := limited_size m src n.toNat 0#64
  checked settings tree true [(dest, len), (src, len)]
    ⟨.ptr dest, m⟩ ⟨.ptr dest, pad m dest src len.toNat n.toNat⟩

def bound_strcmp (fuel : Nat) (s1 s2 : BitVec 64) : Option Answer := do
  let u ← scan (fun i => m (s1 + i) == 0#8 || m (s1 + i) != m (s2 + i)) fuel 0#64
  let ret : Ret := .int (difference m s1 s2 u)
  return checked settings tree false [(s1, u + 1#64), (s2, u + 1#64)] ⟨ret, m⟩ ⟨ret, m⟩

def bound_strncmp (s1 s2 n : BitVec 64) : Answer :=
  let (retval, u) := compare_loop m (· == 0#8) s1 s2 n.toNat 0#64
  checked settings tree false [(s1, u), (s2, u)] ⟨.int retval, m⟩ ⟨.int retval, m⟩

def bound_strcat (fuel : Nat) (dest src : BitVec 64) : Option Answer := do
  let d ← string_size m fuel dest
  let s ← string_size m fuel src
  return checked settings tree true [(dest, d + s - 1#64), (src, s)]
    ⟨.ptr (dest + d), m⟩
    ⟨.ptr dest, copy m (dest + (d - 1#64)) src ((s - 1#64).toNat + 1)⟩

def bound_strchr (fuel : Nat) (s : BitVec 64) (c : BitVec 32) : Option Answer := do
  let ch := c.setWidth 8
  let str ← scan (fun i => m (s + i) == 0#8 || m (s + i) == ch) fuel 0#64
  let ret : Ret := .ptr (if m (s + str) = ch then s + str else 0#64)
  return checked settings tree false [(s, str + 1#64)] ⟨ret, m⟩ ⟨ret, m⟩

/-- `new` is what `BOUND_MALLOC` gives. The region of the copy is added afterwards. -/
def bound_strdup (fuel : Nat) (s new : BitVec 64) : Option Answer := do
  let size ← string_size m fuel s
  let done : Outcome := if new ≠ 0#64 then ⟨.ptr new, copy m new s size.toNat⟩ else ⟨.ptr new, m⟩
  return checked settings tree false [(s, size)] done done

end check

inductive Call where
  | memcpy (dest src n : BitVec 64)
  | memmove (dest src n : BitVec 64)
  | memset (s : BitVec 64) (c : BitVec 32) (n : BitVec 64)
  | memcmp (s1 s2 n : BitVec 64)
  | strlen (s : BitVec 64)
  | strcpy (dest src : BitVec 64)
  | strncpy (dest src n : BitVec 64)
  | strcmp (s1 s2 : BitVec 64)
  | strncmp (s1 s2 n : BitVec 64)
  | strcat (dest src : BitVec 64)
  | strchr (s : BitVec 64) (c : BitVec 32)
  | strdup (s new : BitVec 64)

def Call.exec (settings : Settings) (tree : Tree) (m : Mem) (fuel : Nat) : Call → Option Answer
  | memcpy dest src n => some (bound_memcpy settings tree m dest src n)
  | memmove dest src n => some (bound_memmove settings tree m dest src n)
  | memset s c n => some (bound_memset settings tree m s c n)
  | memcmp s1 s2 n => some (bound_memcmp settings tree m s1 s2 n)
  | strlen s => bound_strlen settings tree m fuel s
  | strcpy dest src => bound_strcpy settings tree m fuel dest src
  | strncpy dest src n => some (bound_strncpy settings tree m dest src n)
  | strcmp s1 s2 => bound_strcmp settings tree m fuel s1 s2
  | strncmp s1 s2 n => some (bound_strncmp settings tree m s1 s2 n)
  | strcat dest src => bound_strcat settings tree m fuel dest src
  | strchr s c => bound_strchr settings tree m fuel s c
  | strdup s new => bound_strdup settings tree m fuel s new

/-- The first index of a kind. -/
def First (p : Nat → Prop) (k : Nat) : Prop := p k ∧ ∀ j < k, ¬ p j

/-- A byte of a place. -/
def Mem.at (m : Mem) (s : BitVec 64) (i : Nat) : BitVec 8 := m (s + BitVec.ofNat 64 i)

/-- The end of a string. -/
def Ends (m : Mem) (s : BitVec 64) (k : Nat) : Prop := First (fun i => m.at s i = 0#8) k

/-- Two areas share a byte. -/
def Overlap (x y : Extent) : Prop :=
  ∃ i < x.2, ∃ j < y.2, x.1 + BitVec.ofNat 64 i = y.1 + BitVec.ofNat 64 j

/-- What the C function does: the bytes it reads and writes through each pointer, the areas it
    copies from and to, the result and the memory afterwards. A comparison ends with the first
    bytes that differ, and only the sign of its result is determined. -/
inductive Plain (m : Mem) : Call → List Extent → Option (Extent × Extent) → Outcome → Prop where
  | memcpy {dest src n : BitVec 64} : Plain m (.memcpy dest src n) [(dest, n.toNat), (src, n.toNat)]
      (some ((dest, n.toNat), (src, n.toNat))) ⟨.ptr dest, copy m dest src n.toNat⟩
  | memmove {dest src n : BitVec 64} : Plain m (.memmove dest src n) [(dest, n.toNat), (src, n.toNat)]
      none ⟨.ptr dest, copy m dest src n.toNat⟩
  | memset {s n : BitVec 64} {c : BitVec 32} : Plain m (.memset s c n) [(s, n.toNat)] none
      ⟨.ptr s, fill m s (c.setWidth 8) n.toNat⟩
  | memcmp {s1 s2 n : BitVec 64} {k : Nat} {i : Int} (hk : k < n.toNat)
      (hfirst : First (fun j => m.at s1 j ≠ m.at s2 j) k)
      (hsign : i.sign = (((m.at s1 k).toNat : Int) - (m.at s2 k).toNat).sign) :
      Plain m (.memcmp s1 s2 n) [(s1, k + 1), (s2, k + 1)] none ⟨.int i, m⟩
  | memcmp_same {s1 s2 n : BitVec 64} (hsame : ∀ j < n.toNat, m.at s1 j = m.at s2 j) :
      Plain m (.memcmp s1 s2 n) [(s1, n.toNat), (s2, n.toNat)] none ⟨.int 0, m⟩
  | strlen {s : BitVec 64} {k : Nat} (hk : Ends m s k) : Plain m (.strlen s) [(s, k + 1)] none ⟨.int k, m⟩
  | strcpy {dest src : BitVec 64} {k : Nat} (hk : Ends m src k) :
      Plain m (.strcpy dest src) [(dest, k + 1), (src, k + 1)] (some ((dest, k + 1), (src, k + 1)))
        ⟨.ptr dest, copy m dest src (k + 1)⟩
  | strncpy {dest src n : BitVec 64} {k : Nat} (hk : Ends m src k) (hlen : k < n.toNat) :
      Plain m (.strncpy dest src n) [(dest, n.toNat), (src, k + 1)] (some ((dest, n.toNat), (src, k + 1)))
        ⟨.ptr dest, pad m dest src (k + 1) n.toNat⟩
  | strncpy_cut {dest src n : BitVec 64} (hlen : ∀ j < n.toNat, m.at src j ≠ 0#8) :
      Plain m (.strncpy dest src n) [(dest, n.toNat), (src, n.toNat)]
        (some ((dest, n.toNat), (src, n.toNat))) ⟨.ptr dest, copy m dest src n.toNat⟩
  | strcmp {s1 s2 : BitVec 64} {k : Nat} {i : Int}
      (hfirst : First (fun j => m.at s1 j = 0#8 ∨ m.at s1 j ≠ m.at s2 j) k)
      (hsign : i.sign = (((m.at s1 k).toNat : Int) - (m.at s2 k).toNat).sign) :
      Plain m (.strcmp s1 s2) [(s1, k + 1), (s2, k + 1)] none ⟨.int i, m⟩
  | strncmp {s1 s2 n : BitVec 64} {k : Nat} {i : Int} (hk : k < n.toNat)
      (hfirst : First (fun j => m.at s1 j = 0#8 ∨ m.at s1 j ≠ m.at s2 j) k)
      (hsign : i.sign = (((m.at s1 k).toNat : Int) - (m.at s2 k).toNat).sign) :
      Plain m (.strncmp s1 s2 n) [(s1, k + 1), (s2, k + 1)] none ⟨.int i, m⟩
  | strncmp_same {s1 s2 n : BitVec 64} (hsame : ∀ j < n.toNat, m.at s1 j ≠ 0#8 ∧ m.at s1 j = m.at s2 j) :
      Plain m (.strncmp s1 s2 n) [(s1, n.toNat), (s2, n.toNat)] none ⟨.int 0, m⟩
  | strcat {dest src : BitVec 64} {d k : Nat} (hd : Ends m dest d) (hk : Ends m src k) :
      Plain m (.strcat dest src) [(dest, d + k + 1), (src, k + 1)]
        (some ((dest + BitVec.ofNat 64 d, k + 1), (src, k + 1)))
        ⟨.ptr dest, copy m (dest + BitVec.ofNat 64 d) src (k + 1)⟩
  | strchr {s : BitVec 64} {c : BitVec 32} {k : Nat}
    (hfirst : First (fun j => m.at s j = 0#8 ∨ m.at s j = c.setWidth 8) k) :
      Plain m (.strchr s c) [(s, k + 1)] none
        ⟨.ptr (if m.at s k = c.setWidth 8 then s + BitVec.ofNat 64 k else 0#64), m⟩
  | strdup {s new : BitVec 64} {k : Nat} (hk : Ends m s k)
      (hnew : new ≠ 0#64 → ¬ Overlap (new, k + 1) (s, k + 1)) : Plain m (.strdup s new) [(s, k + 1)] none
        (if new ≠ 0#64 then ⟨.ptr new, copy m new s (k + 1)⟩ else ⟨.ptr new, m⟩)

/-- A function leaves the region a pointer points into. -/
def Oversteps (tree : Tree) (a : Extent) : Prop :=
  ∃ r ∈ tree.toList, a.1.toNat ∈ r.pointers ∧ 0 < a.2 ∧
    (r.is_invalid ∨ ∃ i < a.2, (a.1 + BitVec.ofNat 64 i).toNat ∉ bytes r.start r.size)

/-- The bounds-checked function does what it should: it reports what leaves a region, and else
    does what the C function does. -/
structure Right (tree : Tree) (m : Mem) (c : Call) (accesses : List Extent)
    (copied : Option (Extent × Extent))
    (answer : Answer) : Prop where
  reports : (∃ a ∈ accesses, Oversteps tree a) → answer.errors ≠ [] ∨ answer.overlapping
  agrees : (∀ a ∈ accesses, ¬ Oversteps tree a) → (∀ x y, copied = some (x, y) → ¬ Overlap x y) →
    answer.errors = [] ∧ answer.overlapping = false ∧
      ∃ out, answer.outcome = some out ∧ Plain m c accesses copied out

/-- The size of a place, added to the offset of the pointer in its region, comes back to the
    region; or it is no size of a `size_t` but zero. -/
def WrapsBack (tree : Tree) (a : Extent) : Prop :=
  ∃ r ∈ tree.toList, a.1.toNat ∈ r.pointers ∧ r.is_invalid = false ∧
    a.1 - r.start + BitVec.ofNat 64 a.2 ≤ r.size

/-- A place is found to be invalid: it leaves its region and checking is on, or its end is the
    pointer that stands for an invalid one. -/
def Caught (settings : Settings) (tree : Tree) (a : Extent) : Prop :=
  a.2 % 2 ^ 64 ≠ 0 ∧
    ((settings.no_checking = false ∧ settings.never_fatal ≤ 0) ∧ Oversteps tree a ∧ ¬ WrapsBack tree a ∨
      a.1 + BitVec.ofNat 64 a.2 = INVALID_POINTER)

/-- The places that are checked: `strncpy` checks as much of its destination as it reads. -/
def Call.checks : Call → List Extent → List Extent
  | strncpy _ _ _, [dest, src] => [(dest.1, src.2), src]
  | _, accesses => accesses

def Call.copies : Call → Bool
  | memcpy _ _ _ | strcpy _ _ | strncpy _ _ _ | strcat _ _ => true
  | _ => false

/-- The condition: what leaves its region is found, and else nothing is; a string has a length that
    is an `int`. -/
structure Meets (settings : Settings) (tree : Tree) (c : Call) (accesses : List Extent)
    (copied : Option (Extent × Extent)) : Prop where
  found : (∃ a ∈ accesses, Oversteps tree a) →
    (∃ a ∈ c.checks accesses, Caught settings tree a) ∨ overlapping settings c.copies
    ((c.checks accesses).map Extent.place)
  clean : (∀ a ∈ accesses, ¬ Oversteps tree a) → (∀ x y, copied = some (x, y) → ¬ Overlap x y) →
    (∀ a ∈ c.checks accesses, ¬ Caught settings tree a) ∧ ∀ s, c = .strlen s → ∀ a ∈ accesses, a.2 ≤ 2 ^ 31

section checks

variable {settings : Settings} {t : Tree}

theorem Live.of_toList {t' : Tree} (hlive : Live t) (heq : t'.toList = t.toList) : Live t' := by
  refine ⟨?_, fun r hr => hlive.stop_lt r (heq ▸ hr), heq ▸ hlive.disjoint⟩
  have hsearch (t : Tree) := @splay_tree.Tree.isSearch_iff _ (fun x y : Region => x.start < y.start)
    (fun _ _ _ hxy hyz => BitVec.lt_trans hxy hyz) t
  rw [hsearch, heq, ← hsearch]
  exact hlive.search

theorem bound_ptr_add_toList (hlive : Live t) (p offset : BitVec 64) :
    (bound_ptr_add settings t p offset).tree.toList = t.toList := by
  have hlist := locate_toList hlive p
  unfold bound_ptr_add
  split
  · rfl
  · cases heq : locate p t with
    | nil =>
      rw [heq] at hlist
      exact hlist
    | node a x b =>
      rw [heq] at hlist
      simp only
      split_ifs <;> exact hlist

theorem mem_bytes_add {r : Region} (hstop : r.stop < 2 ^ 64) {p : BitVec 64}
    (hp : p.toNat ∈ r.pointers) {n : Nat} :
    (∃ i < n, (p + BitVec.ofNat 64 i).toNat ∉ bytes r.start r.size) ↔ 0 < n ∧ r.stop < p.toNat + n := by
  obtain ⟨hlow, hhigh⟩ := Set.mem_Icc.mp hp
  rw [Region.stop] at hhigh hstop ⊢
  constructor
  · rintro ⟨i, hi, hout⟩
    refine ⟨by omega, ?_⟩
    by_contra hle
    apply hout
    rw [bytes, Set.mem_Ico, BitVec.toNat_add, BitVec.toNat_ofNat]
    omega
  · rintro ⟨hn, hlt⟩
    refine ⟨r.start.toNat + r.size.toNat - p.toNat, by omega, ?_⟩
    rw [bytes, Set.mem_Ico, BitVec.toNat_add, BitVec.toNat_ofNat]
    omega

/-- What `__bound_check` finds. -/
theorem bound_check_iff (hlive : Live t) (p : BitVec 64) (n : Nat) :
    (bound_check settings p (BitVec.ofNat 64 n) t).1 = true ↔ Caught settings t (p, n) := by
  rw [Caught, bound_check]
  by_cases hzero : BitVec.ofNat 64 n = 0#64
  · rw [if_neg (not_not.mpr hzero)]
    have hmod : n % 2 ^ 64 = 0 := by
      have := congrArg BitVec.toNat hzero
      rwa [BitVec.toNat_ofNat] at this
    simp only [Bool.false_eq_true, hmod, ne_eq, not_true_eq_false, false_and]
  · have hmod : n % 2 ^ 64 ≠ 0 := by
      intro hmod
      apply hzero
      apply BitVec.eq_of_toNat_eq
      rw [BitVec.toNat_ofNat, hmod]
      rfl
    rw [if_pos hzero, beq_iff_eq, and_iff_right hmod]
    by_cases hchecking : settings.no_checking = false
    swap
    · rw [Bool.not_eq_false] at hchecking
      rw [bound_ptr_add, if_pos hchecking, hchecking]
      simp only [Bool.true_eq_false, false_and, false_or]
    rw [(bound_ptr_ret _ 0#64).2, and_iff_right hchecking]
    by_cases hin : ∃ r ∈ t.toList, p.toNat ∈ r.pointers
    · obtain ⟨r, hr, hp⟩ := hin
      have hstop := hlive.stop_lt r hr
      have hpos : 0 < n := by
        rw [Nat.pos_iff_ne_zero]
        rintro rfl
        exact hmod rfl
      have hover : Oversteps t (p, n) ↔ r.is_invalid = true ∨ r.stop < p.toNat + n := by
        constructor
        · rintro ⟨r', hr', hp', -, hout⟩
          rw [hlive.unique hr hr' hp hp']
          exact hout.imp id fun hout => ((mem_bytes_add (hlive.stop_lt r' hr') hp').mp hout).2
        · exact fun hout => ⟨r, hr, hp, hpos, hout.imp id fun hlt => (mem_bytes_add hstop hp).mpr ⟨hpos, hlt⟩⟩
      have hback : WrapsBack t (p, n) ↔ r.is_invalid = false ∧ p - r.start + BitVec.ofNat 64 n ≤ r.size := by
        constructor
        · rintro ⟨r', hr', hp', hsum⟩
          rw [hlive.unique hr hr' hp hp']
          exact hsum
        · exact fun hsum => ⟨r, hr, hp, hsum⟩
      have hsum : p - r.start + BitVec.ofNat 64 n > r.size → r.stop < p.toNat + n := by
        obtain ⟨hlow, hhigh⟩ := Set.mem_Icc.mp hp
        rw [Region.stop] at hhigh hstop ⊢
        rw [gt_iff_lt, BitVec.lt_def, BitVec.toNat_add, BitVec.toNat_sub, BitVec.toNat_ofNat]
        omega
      have hout : (bound_ptr_add settings t p (BitVec.ofNat 64 n)).verdict = .outside ↔
          Oversteps t (p, n) ∧ ¬ WrapsBack t (p, n) := by
        rw [bound_ptr_add_found hchecking hlive hr hp, hover, hback]
        cases r.is_invalid with
        | true => simp only [true_or, true_and, Bool.true_eq_false, false_and, not_false_eq_true]
        | false =>
          rw [or_iff_right Bool.false_ne_true, or_iff_right Bool.false_ne_true, and_iff_right rfl, gt_iff_lt,
            BitVec.not_le, and_iff_right_of_imp hsum]
      rw [← hout]
      split
      · rename_i houtside
        exact ⟨fun _ => Or.inl houtside.symm, fun _ => rfl⟩
      · rename_i hinside
        exact (or_iff_right fun houtside => hinside houtside.symm).symm
    · have hnone : ∀ r ∈ t.toList, p.toNat ∉ r.pointers := fun r hr hp => hin ⟨r, hr, hp⟩
      obtain ⟨-, hverdict, -⟩ := bound_ptr_not_found hchecking hlive hnone (BitVec.ofNat 64 n) 0#64
      have hover : ¬ Oversteps t (p, n) := by
        rintro ⟨r, hr, hp, -⟩
        exact hnone r hr hp
      rw [hverdict, if_neg (fun hfound => absurd hfound.1 (by simp)), or_iff_right fun hover' => hover hover'.2.1]

/-- Some place is reported just when one is found to be invalid. -/
theorem bound_checks_iff (checks : List Extent) (hlive : Live t) :
    bound_checks settings (checks.map Extent.place) t ≠ [] ↔ ∃ a ∈ checks, Caught settings t a := by
  induction checks generalizing t with
  | nil => simp only [List.map_nil, bound_checks, ne_eq, not_true_eq_false, List.not_mem_nil, false_and,
    exists_false]
  | cons a rest ih =>
    obtain ⟨p, n⟩ := a
    have hcheck := @bound_check_iff settings t hlive p n
    have htree : (bound_check settings p (BitVec.ofNat 64 n) t).2.toList = t.toList := by
      rw [bound_check]
      split
      · exact bound_ptr_add_toList hlive _ _
      · rfl
    have hcaught (a : Extent) : Caught settings (bound_check settings p (BitVec.ofNat 64 n) t).2 a ↔
      Caught settings t a := by
      rw [Caught, Caught, Oversteps, Oversteps, WrapsBack, WrapsBack, htree]
    simp only [List.mem_cons, or_and_right, exists_or, exists_eq_left]
    rw [← hcheck, List.map_cons, Extent.place, bound_checks]
    cases heq : bound_check settings p (BitVec.ofNat 64 n) t with
    | mk found t' =>
      rw [heq] at htree hcaught
      cases found with
      | true => simp only [ne_eq, reduceCtorEq, not_false_eq_true, true_or]
      | false =>
        rw [or_iff_right Bool.false_ne_true]
        rw [ih (Live.of_toList hlive htree)]
        simp only [hcaught]

theorem check_overlap_overlaps {p1 p2 : BitVec 64} {n1 n2 : Nat}
    (hcheck : check_overlap settings p1 (BitVec.ofNat 64 n1) p2 (BitVec.ofNat 64 n2) = true) :
    Overlap (p1, n1) (p2, n2) := by
  simp only [check_overlap, Bool.and_eq_true, Bool.or_eq_true, decide_eq_true_eq, bne_iff_ne] at hcheck
  obtain ⟨⟨⟨-, hn1⟩, hn2⟩, hover⟩ := hcheck
  have hpos {n : Nat} (hn : BitVec.ofNat 64 n ≠ 0#64) : 0 < n := by
    rw [Nat.pos_iff_ne_zero]
    rintro rfl
    exact hn rfl
  have hmod (n : Nat) : (BitVec.ofNat 64 n).toNat ≤ n := by
    rw [BitVec.toNat_ofNat]
    exact Nat.mod_le _ _
  obtain ⟨hle, hgt⟩ | ⟨hle, hgt⟩ := hover
  · refine ⟨(p2 - p1).toNat, ?_, 0, hpos hn2, ?_⟩
    · refine lt_of_lt_of_le ?_ (hmod n1)
      generalize BitVec.ofNat 64 n1 = m1 at hgt
      bv_omega
    · rw [BitVec.ofNat_toNat, BitVec.setWidth_eq]
      bv_omega
  · refine ⟨0, hpos hn1, (p1 - p2).toNat, ?_, ?_⟩
    · refine lt_of_lt_of_le ?_ (hmod n2)
      generalize BitVec.ofNat 64 n2 = m2 at hgt
      bv_omega
    · rw [BitVec.ofNat_toNat, BitVec.setWidth_eq]
      bv_omega

theorem checked_errors (copies : Bool) (checks : List Place) (skipped done : Outcome) :
    (checked settings t copies checks skipped done).errors = bound_checks settings checks t := by
  unfold checked
  simp only
  split_ifs <;> rfl

theorem checked_reports (copies : Bool) (checks : List Place) (skipped done : Outcome) :
    (checked settings t copies checks skipped done).errors ≠ [] ∨
        (checked settings t copies checks skipped done).overlapping = true ↔
      bound_checks settings checks t ≠ [] ∨ overlapping settings copies checks = true := by
  rw [checked_errors, checked]
  split_ifs with hexit hover
  · simp only [hexit.1, ne_eq, not_false_eq_true, true_or]
  all_goals simp only [hover, or_true, Bool.false_eq_true]

/-- Nothing is reported, and what is to be done is. -/
theorem checked_clean {copies : Bool} {checks : List Place} (skipped done : Outcome)
    (herrors : bound_checks settings checks t = []) (hover : overlapping settings copies checks = false) :
    checked settings t copies checks skipped done = ⟨[], false, some done⟩ := by
  rw [checked]
  simp only [herrors, hover, ne_eq, not_true_eq_false, false_and, if_false, Bool.false_eq_true]

/-- A checked function is right just when what should be found is, provided what it does in the
    end is what the C function does. -/
theorem checked_right_iff (hlive : Live t) {m : Mem} {c : Call} {accesses : List Extent} {checks : List Place}
    {copied : Option (Extent × Extent)} {skipped done : Outcome}
    (hchecks : (c.checks accesses).map Extent.place = checks)
    (hover : overlapping settings c.copies checks = true → ∃ x y, copied = some (x, y) ∧ Overlap x y)
    (hdone : Plain m c accesses copied done ↔ ∀ s, c = .strlen s → ∀ a ∈ accesses, a.2 ≤ 2 ^ 31) :
    Right t m c accesses copied (checked settings t c.copies checks skipped done) ↔
      Meets settings t c accesses copied := by
  have herrors := @bound_checks_iff settings t (c.checks accesses) hlive
  rw [hchecks] at herrors
  have hreported := @checked_reports settings t c.copies checks skipped done
  constructor
  · rintro ⟨hreports, hagrees⟩
    refine ⟨fun hout => ?_, fun hin hapart => ?_⟩
    · rw [← herrors, hchecks, ← hreported]
      exact hreports hout
    · obtain ⟨hnone, hno, out, hout, hplain⟩ := hagrees hin hapart
      have hclean : ¬ (bound_checks settings checks t ≠ [] ∨
        overlapping settings c.copies checks = true) := by
        rw [← hreported, hnone, hno]
        simp only [ne_eq, not_true_eq_false, Bool.false_eq_true, or_self, not_false_eq_true]
      rw [not_or, not_not, Bool.not_eq_true] at hclean
      rw [checked_clean skipped done hclean.1 hclean.2] at hout
      obtain rfl := Option.some.inj hout
      exact ⟨fun a ha hcaught => herrors.mpr ⟨a, ha, hcaught⟩ hclean.1, hdone.mp hplain⟩
  · rintro ⟨hfound, hclean⟩
    refine ⟨fun hout => ?_, fun hin hapart => ?_⟩
    · rw [hreported, herrors, ← hchecks]
      exact hfound hout
    · obtain ⟨hnone, hlen⟩ := hclean hin hapart
      have hempty : bound_checks settings checks t = [] := by
        by_contra hsome
        obtain ⟨a, ha, hcaught⟩ := herrors.mp hsome
        exact hnone a ha hcaught
      have hno : overlapping settings c.copies checks = false := by
        rw [← Bool.not_eq_true]
        intro hyes
        obtain ⟨x, y, hcopied, hshare⟩ := hover hyes
        exact hapart x y hcopied hshare
      rw [checked_clean skipped done hempty hno]
      exact ⟨rfl, rfl, done, rfl, hdone.mpr hlen⟩

end checks

section loops

variable {m : Mem}

theorem add_ofNat_succ (i : BitVec 64) (j : Nat) :
    i + BitVec.ofNat 64 (j + 1) = i + 1#64 + BitVec.ofNat 64 j := by
  rw [BitVec.add_assoc, BitVec.add_comm 1#64, BitVec.ofNat_add]

/-- The first index of a kind, counted from the next one on. -/
theorem First.shift {q : BitVec 64 → Prop} {i : BitVec 64} {k : Nat}
    (hfirst : First (fun j => q (i + BitVec.ofNat 64 j)) (k + 1)) :
    First (fun j => q (i + 1#64 + BitVec.ofNat 64 j)) k := by
  refine ⟨?_, fun j hj => ?_⟩
  · change q (i + 1#64 + BitVec.ofNat 64 k)
    rw [← add_ofNat_succ i k]
    exact hfirst.1
  · change ¬ q (i + 1#64 + BitVec.ofNat 64 j)
    rw [← add_ofNat_succ i j]
    exact hfirst.2 (j + 1) (Nat.succ_lt_succ hj)

/-- What depends on the number of a byte in the address space only is first there. -/
theorem First.lt {p : Nat → Prop} {k : Nat} (hfirst : First p k)
    (hp : ∀ i j, BitVec.ofNat 64 i = BitVec.ofNat 64 j → p i → p j) : k < 2 ^ 64 := by
  by_contra hle
  refine hfirst.2 (k - 2 ^ 64) (by omega) (hp k _ ?_ hfirst.1)
  apply BitVec.eq_of_toNat_eq
  rw [BitVec.toNat_ofNat, BitVec.toNat_ofNat]
  omega

theorem scan_first {stop : BitVec 64 → Bool} {fuel k : Nat} {i : BitVec 64}
    (hfirst : First (fun j => stop (i + BitVec.ofNat 64 j) = true) k) (hfuel : k < fuel) :
    scan stop fuel i = some (i + BitVec.ofNat 64 k) := by
  induction fuel generalizing i k with
  | zero => exact absurd hfuel (Nat.not_lt_zero k)
  | succ fuel ih =>
    rw [scan]
    cases k with
    | zero =>
      have hstop : stop i = true := by
        rw [← BitVec.add_zero i]
        exact hfirst.1
      rw [if_pos hstop]
      exact congrArg some (BitVec.add_zero i).symm
    | succ k =>
      have hgo : ¬ stop i = true := by
        rw [← BitVec.add_zero i]
        exact hfirst.2 0 (Nat.succ_pos k)
      rw [if_neg hgo, add_ofNat_succ i k]
      exact ih (@First.shift (fun a => stop a = true) i k hfirst) (Nat.lt_of_succ_lt_succ hfuel)

theorem string_size_eq {s : BitVec 64} {k fuel : Nat} (hk : Ends m s k) (hfuel : k < fuel) :
    string_size m fuel s = some (BitVec.ofNat 64 (k + 1)) := by
  rw [string_size, scan_first (k := k)
    (by simpa only [beq_iff_eq, BitVec.zero_add, Ends, Mem.at] using hk) hfuel, Option.map_some,
    BitVec.zero_add, BitVec.ofNat_add]

theorem limited_size_first {s i : BitVec 64} {k n : Nat}
    (hfirst : First (fun j => m (s + (i + BitVec.ofNat 64 j)) = 0#8) k) (hk : k < n) :
    limited_size m s n i = i + BitVec.ofNat 64 (k + 1) := by
  induction n generalizing i k with
  | zero => exact absurd hk (Nat.not_lt_zero k)
  | succ n ih =>
    rw [limited_size]
    cases k with
    | zero =>
      have hstop : m (s + i) = 0#8 := by
        rw [← BitVec.add_zero i]
        exact hfirst.1
      rw [if_pos hstop]
    | succ k =>
      have hgo : ¬ m (s + i) = 0#8 := by
        rw [← BitVec.add_zero i]
        exact hfirst.2 0 (Nat.succ_pos k)
      rw [if_neg hgo, add_ofNat_succ i (k + 1)]
      exact ih (@First.shift (fun a => m (s + a) = 0#8) i k hfirst) (Nat.lt_of_succ_lt_succ hk)

theorem limited_size_all {s i : BitVec 64} {n : Nat} (hall : ∀ j < n, m (s + (i + BitVec.ofNat 64 j)) ≠ 0#8) :
    limited_size m s n i = i + BitVec.ofNat 64 n := by
  induction n generalizing i with
  | zero => exact (BitVec.add_zero i).symm
  | succ n ih =>
    have hgo : ¬ m (s + i) = 0#8 := by
      rw [← BitVec.add_zero i]
      exact hall 0 (Nat.succ_pos n)
    rw [limited_size, if_neg hgo, add_ofNat_succ i n]
    apply ih
    intro j hj
    rw [← add_ofNat_succ]
    exact hall (j + 1) (Nat.succ_lt_succ hj)

theorem compare_loop_first {ends : BitVec 8 → Bool} {s1 s2 i : BitVec 64} {k n : Nat}
    (hfirst : First (fun j => ends (m (s1 + (i + BitVec.ofNat 64 j))) = true ∨
      m (s1 + (i + BitVec.ofNat 64 j)) ≠ m (s2 + (i + BitVec.ofNat 64 j))) k) (hk : k < n) :
    compare_loop m ends s1 s2 n i = (difference m s1 s2 (i + BitVec.ofNat 64 k), i + BitVec.ofNat 64
      (k + 1)) := by
  induction n generalizing i k with
  | zero => exact absurd hk (Nat.not_lt_zero k)
  | succ n ih =>
    rw [compare_loop]
    cases k with
    | zero =>
      have hstop := hfirst.1
      simp only [BitVec.add_zero] at hstop ⊢
      by_cases hne : m (s1 + i) ≠ m (s2 + i)
      · rw [if_pos hne]
      · rw [if_neg hne, if_pos (hstop.resolve_right hne)]
        rw [not_not] at hne
        rw [difference, hne, sub_self]
    | succ k =>
      have hgo := hfirst.2 0 (Nat.succ_pos k)
      simp only [BitVec.add_zero, not_or] at hgo
      rw [if_neg hgo.2, if_neg hgo.1, add_ofNat_succ i k, add_ofNat_succ i (k + 1)]
      exact ih (@First.shift (fun a => ends (m (s1 + a)) = true ∨ m (s1 + a) ≠ m (s2 + a)) i k hfirst)
        (Nat.lt_of_succ_lt_succ hk)

theorem compare_loop_all {ends : BitVec 8 → Bool} {s1 s2 i : BitVec 64} {n : Nat}
    (hall : ∀ j < n, ¬ (ends (m (s1 + (i + BitVec.ofNat 64 j))) = true ∨
      m (s1 + (i + BitVec.ofNat 64 j)) ≠ m (s2 + (i + BitVec.ofNat 64 j)))) :
    compare_loop m ends s1 s2 n i = (0, i + BitVec.ofNat 64 n) := by
  induction n generalizing i with
  | zero => exact congrArg (Prod.mk 0) (BitVec.add_zero i).symm
  | succ n ih =>
    have hgo := hall 0 (Nat.succ_pos n)
    simp only [BitVec.add_zero, not_or] at hgo
    rw [compare_loop, if_neg hgo.2, if_neg hgo.1, add_ofNat_succ i n]
    apply ih
    intro j hj
    rw [← add_ofNat_succ]
    exact hall (j + 1) (Nat.succ_lt_succ hj)

theorem Ends.lt {s : BitVec 64} {k : Nat} (hk : Ends m s k) : k < 2 ^ 64 :=
  First.lt hk fun i j heq hi => by rwa [Mem.at, ← heq]

theorem length_sub {k : Nat} : BitVec.ofNat 64 (k + 1) - 1#64 = BitVec.ofNat 64 k := by
  rw [BitVec.ofNat_add, BitVec.add_sub_cancel]

theorem toNat_length {k : Nat} (hk : k < 2 ^ 64) : (BitVec.ofNat 64 k).toNat = k := by
  rw [BitVec.toNat_ofNat, Nat.mod_eq_of_lt hk]

/-- Only the length itself is the result of `strlen`. -/
theorem plain_strlen_iff {s : BitVec 64} {k : Nat} (hk : Ends m s k) (i : Int) :
    Plain m (.strlen s) [(s, k + 1)] none ⟨.int i, m⟩ ↔ i = k := by
  constructor
  · intro hplain
    cases hplain with
    | strlen _ => rfl
  · rintro rfl
    exact .strlen hk

theorem toInt_length {k : Nat} (hk : k < 2 ^ 64) :
    ((BitVec.ofNat 64 (k + 1) - 1#64).setWidth 32).toInt = k ↔ k + 1 ≤ 2 ^ 31 := by
  rw [BitVec.toInt_eq_toNat_cond, BitVec.toNat_setWidth, BitVec.toNat_sub, BitVec.toNat_ofNat,
    BitVec.toNat_ofNat]
  split <;> omega

end loops

section functions

variable {settings : Settings} {t : Tree} {m : Mem}

theorem Overlap.mono {x y : Extent} {n : Nat} (hover : Overlap x y) (hle : x.2 ≤ n) : Overlap (x.1, n) y := by
  obtain ⟨i, hi, j, hj, heq⟩ := hover
  exact ⟨i, lt_of_lt_of_le hi hle, j, hj, heq⟩

/-- If the string that is appended overlaps the place it is appended in, it does so at its end. -/
theorem strcat_overlap {dest src : BitVec 64} {d k : Nat} (hd : Ends m dest d) (hk : Ends m src k)
    (hover : Overlap (dest, d + k + 1) (src, k + 1)) :
    Overlap (dest + BitVec.ofNat 64 d, k + 1) (src, k + 1) := by
  obtain ⟨i, hi, j, hj, heq⟩ := hover
  change dest + BitVec.ofNat 64 i = src + BitVec.ofNat 64 j at heq
  change i < d + k + 1 at hi
  change j < k + 1 at hj
  by_cases hlt : i < d
  · -- both strings go on to the same end
    have hshift (e : Nat) : m.at dest (i + e) = m.at src (j + e) := by
      rw [Mem.at, Mem.at, BitVec.ofNat_add, BitVec.ofNat_add, ← BitVec.add_assoc, heq, BitVec.add_assoc]
    have hnot : ¬ k - j < d - i := by
      intro hearly
      refine hd.2 (i + (k - j)) (by omega) ?_
      change m.at dest (i + (k - j)) = 0#8
      rw [hshift, Nat.add_sub_cancel' (Nat.le_of_lt_succ hj)]
      exact hk.1
    have hnot' : ¬ d - i < k - j := by
      intro hearly
      refine hk.2 (j + (d - i)) (by omega) ?_
      change m.at src (j + (d - i)) = 0#8
      rw [← hshift, Nat.add_sub_cancel' hlt.le]
      exact hd.1
    refine ⟨0, Nat.succ_pos k, k, Nat.lt_succ_self k, ?_⟩
    have hd' : d = i + (k - j) := by omega
    have hk' : k = j + (k - j) := by omega
    change dest + BitVec.ofNat 64 d + 0#64 = src + BitVec.ofNat 64 k
    rw [BitVec.add_zero, hd', BitVec.ofNat_add, ← BitVec.add_assoc, heq, BitVec.add_assoc,
      ← BitVec.ofNat_add, ← hk']
  · refine ⟨i - d, ?_, j, hj, ?_⟩
    · change i - d < k + 1
      omega
    · change dest + BitVec.ofNat 64 d + BitVec.ofNat 64 (i - d) = src + BitVec.ofNat 64 j
      rw [BitVec.add_assoc, ← BitVec.ofNat_add, Nat.add_sub_cancel' (not_lt.mp hlt)]
      exact heq

theorem overlapping_pair {p1 p2 : BitVec 64} {n1 n2 : Nat}
    (hover : overlapping settings true [(p1, BitVec.ofNat 64 n1), (p2, BitVec.ofNat 64 n2)] = true) :
    Overlap (p1, n1) (p2, n2) := by
  rw [overlapping, Bool.true_and] at hover
  exact check_overlap_overlaps hover

theorem overlapping_of_not_copies {c : Call} (hcopies : c.copies = false) {checks : List Place}
    {copied : Option (Extent × Extent)} (hover : overlapping settings c.copies checks = true) :
    ∃ x y, copied = some (x, y) ∧ Overlap x y := by
  unfold overlapping at hover
  rw [hcopies] at hover
  split at hover
  · rw [Bool.false_and] at hover
    cases hover
  · cases hover

section runs

variable {dest src s s1 s2 n : BitVec 64} {d k fuel : Nat}

theorem place_toNat (p n : BitVec 64) : Extent.place (p, n.toNat) = (p, n) := by
  rw [Extent.place, BitVec.ofNat_toNat, BitVec.setWidth_eq]

theorem memcmp_run (hk : k < n.toNat) (hfirst : First (fun j => m.at s1 j ≠ m.at s2 j) k) :
    bound_memcmp settings t m s1 s2 n = checked settings t false
      [(s1, BitVec.ofNat 64 (k + 1)), (s2, BitVec.ofNat 64 (k + 1))]
      ⟨.int (difference m s1 s2 (BitVec.ofNat 64 k)), m⟩ ⟨.int (difference m s1 s2 (BitVec.ofNat 64 k)), m⟩ := by
  have hloop : compare_loop m (fun _ => false) s1 s2 n.toNat 0#64 =
      (difference m s1 s2 (BitVec.ofNat 64 k), BitVec.ofNat 64 (k + 1)) := by
    rw [compare_loop_first (k := k) _ hk, BitVec.zero_add, BitVec.zero_add]
    simpa only [Bool.false_eq_true, false_or, BitVec.zero_add, Mem.at] using hfirst
  rw [bound_memcmp, hloop]

theorem memcmp_same_run (hsame : ∀ j < n.toNat, m.at s1 j = m.at s2 j) :
    bound_memcmp settings t m s1 s2 n =
      checked settings t false [(s1, n), (s2, n)] ⟨.int 0, m⟩ ⟨.int 0, m⟩ := by
  have hloop : compare_loop m (fun _ => false) s1 s2 n.toNat 0#64 = (0, n) := by
    rw [compare_loop_all, BitVec.zero_add, BitVec.ofNat_toNat, BitVec.setWidth_eq]
    simpa only [Bool.false_eq_true, false_or, BitVec.zero_add, not_not, Mem.at] using hsame
  rw [bound_memcmp, hloop]

theorem strlen_run (hk : Ends m s k) (hfuel : k < fuel) :
    bound_strlen settings t m fuel s = some (checked settings t false [(s, BitVec.ofNat 64 (k + 1))]
      ⟨.int ((BitVec.ofNat 64 (k + 1) - 1#64).setWidth 32).toInt, m⟩
      ⟨.int ((BitVec.ofNat 64 (k + 1) - 1#64).setWidth 32).toInt, m⟩) := by
  rw [bound_strlen, string_size_eq hk hfuel]
  rfl

theorem strcpy_run (hk : Ends m src k) (hfuel : k < fuel) :
    bound_strcpy settings t m fuel dest src = some (checked settings t true
      [(dest, BitVec.ofNat 64 (k + 1)), (src, BitVec.ofNat 64 (k + 1))]
      ⟨.ptr dest, m⟩ ⟨.ptr dest, copy m dest src (k + 1)⟩) := by
  rw [bound_strcpy, string_size_eq hk hfuel, Option.bind_eq_bind, Option.bind_some, length_sub, toNat_length hk.lt]
  rfl

theorem strncpy_run (hk : Ends m src k) (hlen : k < n.toNat) :
    bound_strncpy settings t m dest src n = checked settings t true
      [(dest, BitVec.ofNat 64 (k + 1)), (src, BitVec.ofNat 64 (k + 1))]
      ⟨.ptr dest, m⟩ ⟨.ptr dest, pad m dest src (k + 1) n.toNat⟩ := by
  have hnat : (BitVec.ofNat 64 (k + 1)).toNat = k + 1 := toNat_length (lt_of_le_of_lt hlen n.isLt)
  have hloop : limited_size m src n.toNat 0#64 = BitVec.ofNat 64 (k + 1) := by
    rw [limited_size_first (k := k) _ hlen, BitVec.zero_add]
    simpa only [BitVec.zero_add, Ends, Mem.at] using hk
  rw [bound_strncpy, hloop, hnat]

theorem strncpy_cut_run (hlen : ∀ j < n.toNat, m.at src j ≠ 0#8) :
    bound_strncpy settings t m dest src n = checked settings t true [(dest, n), (src, n)]
      ⟨.ptr dest, m⟩ ⟨.ptr dest, copy m dest src n.toNat⟩ := by
  have hloop : limited_size m src n.toNat 0#64 = n := by
    rw [limited_size_all, BitVec.zero_add, BitVec.ofNat_toNat, BitVec.setWidth_eq]
    simpa only [BitVec.zero_add, Mem.at] using hlen
  have hpad : pad m dest src n.toNat n.toNat = copy m dest src n.toNat := by
    funext a
    rw [pad, copy]
    split_ifs <;> rfl
  rw [bound_strncpy, hloop, hpad]

theorem strcmp_run (hfirst : First (fun j => m.at s1 j = 0#8 ∨ m.at s1 j ≠ m.at s2 j) k) (hfuel : k < fuel) :
    bound_strcmp settings t m fuel s1 s2 = some (checked settings t false
      [(s1, BitVec.ofNat 64 (k + 1)), (s2, BitVec.ofNat 64 (k + 1))]
      ⟨.int (difference m s1 s2 (BitVec.ofNat 64 k)), m⟩ ⟨.int (difference m s1 s2 (BitVec.ofNat 64 k)), m⟩) := by
  have hscan : scan (fun i => m (s1 + i) == 0#8 || m (s1 + i) != m (s2 + i)) fuel 0#64 = some (BitVec.ofNat 64 k) := by
    rw [scan_first (k := k) _ hfuel, BitVec.zero_add]
    simpa only [Bool.or_eq_true, beq_iff_eq, bne_iff_ne, BitVec.zero_add, Mem.at] using hfirst
  rw [bound_strcmp, hscan, BitVec.ofNat_add]
  rfl

theorem strncmp_run (hk : k < n.toNat) (hfirst : First (fun j => m.at s1 j = 0#8 ∨ m.at s1 j ≠ m.at s2 j) k) :
    bound_strncmp settings t m s1 s2 n = checked settings t false
      [(s1, BitVec.ofNat 64 (k + 1)), (s2, BitVec.ofNat 64 (k + 1))]
      ⟨.int (difference m s1 s2 (BitVec.ofNat 64 k)), m⟩ ⟨.int (difference m s1 s2 (BitVec.ofNat 64 k)), m⟩ := by
  have hloop : compare_loop m (· == 0#8) s1 s2 n.toNat 0#64 =
      (difference m s1 s2 (BitVec.ofNat 64 k), BitVec.ofNat 64 (k + 1)) := by
    rw [compare_loop_first (k := k) _ hk, BitVec.zero_add, BitVec.zero_add]
    simpa only [beq_iff_eq, BitVec.zero_add, Mem.at] using hfirst
  rw [bound_strncmp, hloop]

theorem strncmp_same_run (hsame : ∀ j < n.toNat, m.at s1 j ≠ 0#8 ∧ m.at s1 j = m.at s2 j) :
    bound_strncmp settings t m s1 s2 n =
      checked settings t false [(s1, n), (s2, n)] ⟨.int 0, m⟩ ⟨.int 0, m⟩ := by
  have hloop : compare_loop m (· == 0#8) s1 s2 n.toNat 0#64 = (0, n) := by
    rw [compare_loop_all, BitVec.zero_add, BitVec.ofNat_toNat, BitVec.setWidth_eq]
    simpa only [beq_iff_eq, BitVec.zero_add, not_or, not_not, Mem.at] using hsame
  rw [bound_strncmp, hloop]

theorem strcat_run (hd : Ends m dest d) (hk : Ends m src k) (hfuel : max (d + 1) (k + 1) ≤ fuel) :
    bound_strcat settings t m fuel dest src = some (checked settings t true
      [(dest, BitVec.ofNat 64 (d + k + 1)), (src, BitVec.ofNat 64 (k + 1))]
      ⟨.ptr (dest + BitVec.ofNat 64 (d + 1)), m⟩
      ⟨.ptr dest, copy m (dest + BitVec.ofNat 64 d) src (k + 1)⟩) := by
  have hsum : BitVec.ofNat 64 (d + 1) + BitVec.ofNat 64 (k + 1) - 1#64 = BitVec.ofNat 64 (d + k + 1) := by
    apply BitVec.eq_of_toNat_eq
    rw [BitVec.toNat_sub, BitVec.toNat_add, BitVec.toNat_ofNat, BitVec.toNat_ofNat, BitVec.toNat_ofNat,
      BitVec.toNat_ofNat]
    omega
  rw [bound_strcat, string_size_eq hd (le_trans (le_max_left _ _) hfuel),
    string_size_eq hk (le_trans (le_max_right _ _) hfuel), Option.bind_eq_bind, Option.bind_some,
    Option.bind_some, hsum, length_sub, length_sub, toNat_length hk.lt]
  rfl

theorem strchr_run {ch : BitVec 32} (hfirst : First (fun j => m.at s j = 0#8 ∨ m.at s j = ch.setWidth 8) k)
    (hfuel : k < fuel) :
    bound_strchr settings t m fuel s ch = some (checked settings t false [(s, BitVec.ofNat 64 (k + 1))]
      ⟨.ptr (if m.at s k = ch.setWidth 8 then s + BitVec.ofNat 64 k else 0#64), m⟩
      ⟨.ptr (if m.at s k = ch.setWidth 8 then s + BitVec.ofNat 64 k else 0#64), m⟩) := by
  have hscan : scan (fun i => m (s + i) == 0#8 || m (s + i) == ch.setWidth 8) fuel 0#64 =
      some (BitVec.ofNat 64 k) := by
    rw [scan_first (k := k) _ hfuel, BitVec.zero_add]
    simpa only [Bool.or_eq_true, beq_iff_eq, BitVec.zero_add, Mem.at] using hfirst
  rw [bound_strchr, hscan, BitVec.ofNat_add]
  rfl

theorem strdup_run {new : BitVec 64} (hk : Ends m s k) (hnew : new ≠ 0#64 → ¬ Overlap (new, k + 1) (s, k + 1))
    (hfuel : k < fuel) :
    bound_strdup settings t m fuel s new = some (checked settings t false [(s, BitVec.ofNat 64 (k + 1))]
      (if new ≠ 0#64 then ⟨.ptr new, copy m new s (k + 1)⟩ else ⟨.ptr new, m⟩)
      (if new ≠ 0#64 then ⟨.ptr new, copy m new s (k + 1)⟩ else ⟨.ptr new, m⟩)) := by
  have hdone : (if new ≠ 0#64 then (⟨.ptr new, copy m new s (BitVec.ofNat 64 (k + 1)).toNat⟩ : Outcome)
      else ⟨.ptr new, m⟩) = if new ≠ 0#64 then ⟨.ptr new, copy m new s (k + 1)⟩ else ⟨.ptr new, m⟩ := by
    split_ifs with hnull
    · -- a string of all bytes is not apart from its copy
      have hlt : k + 1 < 2 ^ 64 := by
        by_contra hle
        refine hnew hnull ⟨0, Nat.succ_pos k, (new - s).toNat, lt_of_lt_of_le (new - s).isLt
          (not_lt.mp hle), ?_⟩
        rw [BitVec.ofNat_toNat, BitVec.setWidth_eq]
        bv_omega
      rw [BitVec.toNat_ofNat, Nat.mod_eq_of_lt hlt]
    · rfl
  rw [bound_strdup, string_size_eq hk hfuel, Option.bind_eq_bind, Option.bind_some, hdone]
  rfl

end runs

/-- For what the C function does there is a checked function that, run long enough, returns an
    answer that is right just when the condition is met. -/
theorem exec_right_iff (hlive : Live t) {c : Call} {accesses : List Extent} {copied :
    Option (Extent × Extent)} {out : Outcome}
    (hplain : Plain m c accesses copied out) :
    ∃ enough, ∀ fuel, enough ≤ fuel → ∃ answer, c.exec settings t m fuel = some answer ∧
      (Right t m c accesses copied answer ↔ Meets settings t c accesses copied) := by
  have hright {c : Call} {accesses : List Extent} {copied : Option (Extent × Extent)} {checks : List Place}
      {skipped done : Outcome} := @checked_right_iff settings t hlive m c accesses checks copied
        skipped done
  cases hplain with
  | @memcpy dest src n =>
    refine ⟨0, fun fuel _ => ⟨_, rfl, hright ?_ (fun hover => ⟨_, _, rfl, ?_⟩)
      (iff_of_true .memcpy fun _ => nofun)⟩⟩
    · simp only [Call.checks, List.map_cons, List.map_nil, place_toNat]
    · change overlapping settings true [(dest, n), (src, n)] = true at hover
      rw [← place_toNat dest n, ← place_toNat src n] at hover
      exact overlapping_pair hover
  | @memmove dest src n =>
    refine ⟨0, fun fuel _ => ⟨_, rfl, hright ?_ (overlapping_of_not_copies rfl)
      (iff_of_true .memmove fun _ => nofun)⟩⟩
    simp only [Call.checks, List.map_cons, List.map_nil, place_toNat]
  | @memset s n ch =>
    refine ⟨0, fun fuel _ => ⟨_, rfl, hright ?_ (overlapping_of_not_copies rfl)
      (iff_of_true .memset fun _ => nofun)⟩⟩
    simp only [Call.checks, List.map_cons, List.map_nil, place_toNat]
  | @memcmp s1 s2 n k i hk hfirst hsign =>
    refine ⟨0, fun fuel _ => ⟨_, congrArg some (memcmp_run hk hfirst), ?_⟩⟩
    exact hright rfl (overlapping_of_not_copies rfl) (iff_of_true (.memcmp hk hfirst rfl) fun _ => nofun)
  | @memcmp_same s1 s2 n hsame =>
    refine ⟨0, fun fuel _ => ⟨_, congrArg some (memcmp_same_run hsame), ?_⟩⟩
    refine hright ?_ (overlapping_of_not_copies rfl) (iff_of_true (.memcmp_same hsame) fun _ => nofun)
    simp only [Call.checks, List.map_cons, List.map_nil, place_toNat]
  | @strlen s k hk =>
    refine ⟨k + 1, fun fuel hfuel => ⟨_, strlen_run hk hfuel, ?_⟩⟩
    refine hright rfl (overlapping_of_not_copies rfl) ?_
    rw [plain_strlen_iff hk, toInt_length hk.lt]
    constructor
    · intro hlen s' _ a ha
      rw [List.mem_singleton.mp ha]
      exact hlen
    · exact fun hlen => hlen s rfl _ List.mem_cons_self
  | @strcpy dest src k hk =>
    refine ⟨k + 1, fun fuel hfuel => ⟨_, strcpy_run hk hfuel, ?_⟩⟩
    exact hright rfl (fun hover => ⟨_, _, rfl, overlapping_pair hover⟩)
      (iff_of_true (.strcpy hk) fun _ => nofun)
  | @strncpy dest src n k hk hlen =>
    refine ⟨0, fun fuel _ => ⟨_, congrArg some (strncpy_run hk hlen), ?_⟩⟩
    refine hright rfl (fun hover => ⟨_, _, rfl, ?_⟩) (iff_of_true (.strncpy hk hlen) fun _ => nofun)
    exact (overlapping_pair hover).mono hlen
  | @strncpy_cut dest src n hlen =>
    refine ⟨0, fun fuel _ => ⟨_, congrArg some (strncpy_cut_run hlen), ?_⟩⟩
    refine hright ?_ (fun hover => ⟨_, _, rfl, ?_⟩) (iff_of_true (.strncpy_cut hlen) fun _ => nofun)
    · simp only [Call.checks, List.map_cons, List.map_nil, place_toNat]
    · change overlapping settings true [(dest, n), (src, n)] = true at hover
      rw [← place_toNat dest n, ← place_toNat src n] at hover
      exact overlapping_pair hover
  | @strcmp s1 s2 k i hfirst hsign =>
    refine ⟨k + 1, fun fuel hfuel => ⟨_, strcmp_run hfirst hfuel, ?_⟩⟩
    exact hright rfl (overlapping_of_not_copies rfl) (iff_of_true (.strcmp hfirst rfl) fun _ => nofun)
  | @strncmp s1 s2 n k i hk hfirst hsign =>
    refine ⟨0, fun fuel _ => ⟨_, congrArg some (strncmp_run hk hfirst), ?_⟩⟩
    exact hright rfl (overlapping_of_not_copies rfl) (iff_of_true (.strncmp hk hfirst rfl) fun _ => nofun)
  | @strncmp_same s1 s2 n hsame =>
    refine ⟨0, fun fuel _ => ⟨_, congrArg some (strncmp_same_run hsame), ?_⟩⟩
    refine hright ?_ (overlapping_of_not_copies rfl) (iff_of_true (.strncmp_same hsame) fun _ => nofun)
    simp only [Call.checks, List.map_cons, List.map_nil, place_toNat]
  | @strcat dest src d k hd hk =>
    refine ⟨max (d + 1) (k + 1), fun fuel hfuel => ⟨_, strcat_run hd hk hfuel, ?_⟩⟩
    exact hright rfl (fun hover => ⟨_, _, rfl, strcat_overlap hd hk (overlapping_pair hover)⟩)
      (iff_of_true (.strcat hd hk) fun _ => nofun)
  | @strchr s ch k hfirst =>
    refine ⟨k + 1, fun fuel hfuel => ⟨_, strchr_run hfirst hfuel, ?_⟩⟩
    exact hright rfl (overlapping_of_not_copies rfl) (iff_of_true (.strchr hfirst) fun _ => nofun)
  | @strdup s new k hk hnew =>
    refine ⟨k + 1, fun fuel hfuel => ⟨_, strdup_run hk hnew hfuel, ?_⟩⟩
    exact hright rfl (overlapping_of_not_copies rfl) (iff_of_true (.strdup hk hnew) fun _ => nofun)

end functions

/-- The bytes before the last of a region are filled. -/
theorem fill_right_iff : ∃ enough, ∀ fuel, enough ≤ fuel → ∃ answer,
    (Call.memset 100#64 0#32 8#64).exec checking eight_bytes (fun _ => 1#8) fuel = some answer ∧
      (Right eight_bytes (fun _ => 1#8) (.memset 100#64 0#32 8#64) [(100#64, 8)] none answer ↔
        Meets checking eight_bytes (.memset 100#64 0#32 8#64) [(100#64, 8)] none) :=
  @exec_right_iff checking eight_bytes _ eight_bytes_live _ _ _ _ .memset

/-- `strncpy` fills sixteen bytes of a region of eight with NULs. -/
theorem strncpy_pads_unchecked : ¬ Right eight_bytes (fun _ => 0#8) (.strncpy 100#64 1000#64 16#64)
    [(100#64, 16), (1000#64, 1)] (some ((100#64, 16), (1000#64, 1)))
    (bound_strncpy checking eight_bytes (fun _ => 0#8) 100#64 1000#64 16#64) := by
  intro hright
  have hover : ∃ a ∈ [((100#64, 16) : Extent), (1000#64, 1)], Oversteps eight_bytes a :=
    ⟨_, List.mem_cons_self, ⟨100#64, 8#64, TCC_TYPE_NONE, false⟩, by decide, by decide, by decide,
      Or.inr ⟨8, by decide, by rw [bytes, Set.mem_Ico]; decide⟩⟩
  obtain herrors | hover := hright.reports hover
  · exact herrors rfl
  · exact Bool.false_ne_true hover

end bcheck.str
