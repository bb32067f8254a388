import Mathlib.Tactic.NormNum
import Mathlib.Tactic.Ring

/-! The growing strings of the preprocessor. A size that does not fit an int ends a function
    without a result. -/

namespace tcc.pp

abbrev Byte := BitVec 8

/-- A `realloc` that stops the compiler where there is no memory: the old elements, then
    whatever the new memory holds. -/
structure Realloc (α : Type) where
  realloc : List α → Nat → List α
  length_realloc : ∀ data n, (realloc data n).length = n
  take_realloc : ∀ data n, data.length ≤ n → (realloc data n).take data.length = data

/-- New memory that holds one element everywhere. -/
def filled {α : Type} (x : α) : Realloc α where
  realloc data n := data.take n ++ List.replicate (n - data.length) x
  length_realloc := by
    intro data n
    rw [List.length_append, List.length_take, List.length_replicate]
    omega
  take_realloc := by
    intro data n hle
    rw [List.take_of_length_le hle, List.take_left]

def is_int (n : Nat) : Prop := n < 2 ^ 31

instance (n : Nat) : Decidable (is_int n) := inferInstanceAs (Decidable (n < 2 ^ 31))

/-- What the strings are grown to. -/
def IsCapacity (n : Nat) : Prop := n = 0 ∨ ∃ k ≤ 27, n = 8 * 2 ^ k

/-- A string; `size_allocated` is the length of `data`. -/
structure CString where
  data : List Byte
  size : Nat
  size_le : size ≤ data.length
  capacity : IsCapacity data.length

def CString.size_allocated (cstr : CString) : Nat := cstr.data.length

/-- The bytes that were added. -/
def CString.content (cstr : CString) : List Byte := cstr.data.take cstr.size

def cstr_new : CString := ⟨[], 0, le_refl 0, .inl rfl⟩

def cstr_reset (cstr : CString) : CString := { cstr with size := 0, size_le := Nat.zero_le _ }

/-- The loop of `cstr_realloc`; a doubled size that is no int has no result. -/
def double_size : Nat → Nat → Nat → Option Nat
  | 0, _, _ => none
  | turns + 1, size, new_size =>
    if size < new_size then
      if is_int (size * 2) then double_size turns (size * 2) new_size else none
    else some size

/-- From 8 on no int is doubled more often. -/
def max_turns : Nat := 32

theorem double_size_of_le {k new_size : Nat} (hk : k ≤ 27) (hnew : new_size ≤ 2 ^ 30) (turns : Nat)
    (hturns : 28 ≤ turns + k) :
    ∃ j, k ≤ j ∧ j ≤ 27 ∧ double_size turns (8 * 2 ^ k) new_size = some (8 * 2 ^ j) ∧
      new_size ≤ 8 * 2 ^ j := by
  induction turns generalizing k with
  | zero => omega
  | succ turns ih =>
    by_cases hlt : 8 * 2 ^ k < new_size
    · have hsucc : 8 * 2 ^ k * 2 = 8 * 2 ^ (k + 1) := by ring
      have hbelow : k < 27 := by
        by_contra hnot
        have hlast : k = 27 := by omega
        rw [hlast] at hlt
        norm_num at hlt
        omega
      have hint : is_int (8 * 2 ^ k * 2) := by
        have hmono : 2 ^ (k + 1) ≤ 2 ^ 27 := Nat.pow_le_pow_right (by decide) hbelow
        rw [is_int, hsucc]
        omega
      obtain ⟨j, hkj, hj, hdouble, hfits⟩ := ih (k := k + 1) hbelow (by omega)
      refine ⟨j, by omega, hj, ?_, hfits⟩
      rw [double_size, if_pos hlt, if_pos hint, hsucc, hdouble]
    · exact ⟨k, le_refl k, hk, by rw [double_size, if_neg hlt], by omega⟩

/-- A size that is found is a capacity, and large enough. -/
theorem double_size_spec {turns k new_size size : Nat} (hk : k ≤ 27)
    (hdouble : double_size turns (8 * 2 ^ k) new_size = some size) :
    new_size ≤ size ∧ 8 * 2 ^ k ≤ size ∧ ∃ j ≤ 27, size = 8 * 2 ^ j := by
  induction turns generalizing k with
  | zero => simp [double_size] at hdouble
  | succ turns ih =>
    rw [double_size] at hdouble
    by_cases hlt : 8 * 2 ^ k < new_size
    · rw [if_pos hlt] at hdouble
      by_cases hint : is_int (8 * 2 ^ k * 2)
      · rw [if_pos hint] at hdouble
        have hsucc : 8 * 2 ^ k * 2 = 8 * 2 ^ (k + 1) := by ring
        have hbelow : k + 1 ≤ 27 := by
          have hpow : 2 ^ (k + 1) < 2 ^ 28 := by
            rw [is_int, hsucc] at hint
            omega
          have := (Nat.pow_lt_pow_iff_right (by decide)).mp hpow
          omega
        rw [hsucc] at hdouble
        obtain ⟨hnew, hle, hcapacity⟩ := ih hbelow hdouble
        have : 8 * 2 ^ (k + 1) = 8 * 2 ^ k * 2 := by ring
        exact ⟨hnew, by omega, hcapacity⟩
      · rw [if_neg hint] at hdouble
        cases hdouble
    · rw [if_neg hlt] at hdouble
      cases hdouble
      exact ⟨by omega, le_refl _, k, hk, rfl⟩

/-- The size that the loop starts from. -/
def start_size (size_allocated : Nat) : Nat := if size_allocated < 8 then 8 else size_allocated

theorem IsCapacity.start_size {n : Nat} (hcapacity : IsCapacity n) :
    ∃ k ≤ 27, start_size n = 8 * 2 ^ k ∧ n ≤ 8 * 2 ^ k := by
  rcases hcapacity with rfl | ⟨k, hk, rfl⟩
  · exact ⟨0, by omega, by decide, by omega⟩
  · have hpos : 1 ≤ 2 ^ k := Nat.one_le_two_pow
    exact ⟨k, hk, by rw [pp.start_size, if_neg (by omega)], le_refl _⟩

theorem IsCapacity.le {n : Nat} (hcapacity : IsCapacity n) : n ≤ 2 ^ 30 := by
  rcases hcapacity with rfl | ⟨k, hk, rfl⟩
  · exact Nat.zero_le _
  · have hmono : 2 ^ k ≤ 2 ^ 27 := Nat.pow_le_pow_right (by decide) hk
    omega

/-- Twice a capacity is one, below the largest. -/
theorem IsCapacity.double_le {n m : Nat} (hn : IsCapacity n) (hm : m ≤ 2 ^ 30) (hlt : n < m) :
    2 * n ≤ 2 ^ 30 := by
  rcases hn with rfl | ⟨k, hk, rfl⟩
  · exact Nat.zero_le _
  · have hbelow : k < 27 := by
      by_contra hnot
      have hlast : k = 27 := by omega
      rw [hlast] at hlt
      norm_num at hlt
      omega
    have hmono : 2 ^ (k + 1) ≤ 2 ^ 27 := Nat.pow_le_pow_right (by decide) hbelow
    have hsucc : 2 * (8 * 2 ^ k) = 8 * 2 ^ (k + 1) := by ring
    omega

variable (mem : Realloc Byte)

def cstr_realloc (cstr : CString) (new_size : Nat) : Option CString :=
  match hdouble : double_size max_turns (start_size cstr.size_allocated) new_size with
  | none => none
  | some size => some
    { cstr with
      data := mem.realloc cstr.data size
      size_le := by
        obtain ⟨k, hk, hstart, hle⟩ := cstr.capacity.start_size
        rw [CString.size_allocated, hstart] at hdouble
        obtain ⟨-, hgrown, -⟩ := double_size_spec hk hdouble
        have := cstr.size_le
        rw [mem.length_realloc]
        omega
      capacity := by
        obtain ⟨k, hk, hstart, hle⟩ := cstr.capacity.start_size
        rw [CString.size_allocated, hstart] at hdouble
        obtain ⟨-, -, hcapacity⟩ := double_size_spec hk hdouble
        rw [mem.length_realloc]
        exact .inr hcapacity }

/-- A string that is grown has room, the same size and the same content. -/
theorem cstr_realloc_spec {cstr grown : CString} {new_size : Nat}
    (hrealloc : cstr_realloc mem cstr new_size = some grown) :
    new_size ≤ grown.size_allocated ∧ cstr.size_allocated ≤ grown.size_allocated ∧
      grown.size = cstr.size ∧ grown.content = cstr.content := by
  unfold cstr_realloc at hrealloc
  split at hrealloc
  · cases hrealloc
  · rename_i size hdouble
    obtain ⟨k, hk, hstart, hle⟩ := cstr.capacity.start_size
    rw [CString.size_allocated, hstart] at hdouble
    obtain ⟨hnew, hgrown, -⟩ := double_size_spec hk hdouble
    cases hrealloc
    have hsize := cstr.size_le
    refine ⟨?_, ?_, rfl, ?_⟩
    · rw [CString.size_allocated, mem.length_realloc]
      exact hnew
    · simp only [CString.size_allocated, mem.length_realloc]
      exact hle.trans hgrown
    · have htake := mem.take_realloc cstr.data size (hle.trans hgrown)
      rw [CString.content, CString.content]
      conv_rhs => rw [← htake]
      rw [List.take_take, Nat.min_eq_left hsize]

/-- A string is grown exactly up to the largest capacity. -/
theorem cstr_realloc_isSome (cstr : CString) {new_size : Nat} :
    (∃ grown, cstr_realloc mem cstr new_size = some grown) ↔ new_size ≤ 2 ^ 30 := by
  constructor
  · rintro ⟨grown, hrealloc⟩
    exact (cstr_realloc_spec mem hrealloc).1.trans grown.capacity.le
  · intro hnew
    obtain ⟨k, hk, hstart, -⟩ := cstr.capacity.start_size
    obtain ⟨j, -, -, hdouble, -⟩ := double_size_of_le hk hnew max_turns (by rw [max_turns]; omega)
    rw [← hstart] at hdouble
    unfold cstr_realloc
    split
    · rename_i hnone
      rw [CString.size_allocated, hdouble] at hnone
      cases hnone
    · exact ⟨_, rfl⟩

/-- The room for a size, as each of the functions below makes it. -/
def cstr_reserve (cstr : CString) (size : Nat) : Option CString :=
  if cstr.size_allocated < size then cstr_realloc mem cstr size else some cstr

theorem cstr_reserve_spec {cstr grown : CString} {size : Nat}
    (hreserve : cstr_reserve mem cstr size = some grown) :
    size ≤ grown.size_allocated ∧ cstr.size_allocated ≤ grown.size_allocated ∧
      grown.size = cstr.size ∧ grown.content = cstr.content := by
  unfold cstr_reserve at hreserve
  split at hreserve
  · exact cstr_realloc_spec mem hreserve
  · cases hreserve
    exact ⟨by omega, le_refl _, rfl, rfl⟩

theorem cstr_reserve_isSome (cstr : CString) {size : Nat} :
    (∃ grown, cstr_reserve mem cstr size = some grown) ↔ size ≤ 2 ^ 30 := by
  unfold cstr_reserve
  split
  · exact cstr_realloc_isSome mem cstr
  · rename_i hroom
    exact ⟨fun _ => (Nat.le_of_not_lt hroom).trans cstr.capacity.le, fun _ => ⟨cstr, rfl⟩⟩

/-- Writes over what is behind the content. -/
def CString.write (cstr : CString) (tail : List Byte)
    (htail : tail.length = cstr.size_allocated - cstr.size) : CString where
  data := cstr.content ++ tail
  size := cstr.size
  size_le := by
    rw [List.length_append, content, List.length_take, Nat.min_eq_left cstr.size_le]
    omega
  capacity := by
    have hsize := cstr.size_le
    rw [size_allocated] at htail
    rw [List.length_append, content, List.length_take, Nat.min_eq_left hsize, htail,
      Nat.add_sub_cancel' hsize]
    exact cstr.capacity

/-- Takes bytes behind the content into it. -/
def CString.advance (cstr : CString) (len : Nat) (hlen : len ≤ cstr.size_allocated - cstr.size) :
    CString :=
  { cstr with
    size := cstr.size + len
    size_le := by
      have := cstr.size_le
      rw [size_allocated] at hlen
      omega }

theorem CString.length_content (cstr : CString) : cstr.content.length = cstr.size := by
  rw [content, List.length_take, Nat.min_eq_left cstr.size_le]

theorem CString.size_allocated_write (cstr : CString) (tail : List Byte)
    (htail : tail.length = cstr.size_allocated - cstr.size) :
    (cstr.write tail htail).size_allocated = cstr.size_allocated := by
  have hsize := cstr.size_le
  have hlength := cstr.length_content
  simp only [size_allocated, write, List.length_append, hlength] at htail ⊢
  omega

theorem CString.content_write (cstr : CString) (tail : List Byte)
    (htail : tail.length = cstr.size_allocated - cstr.size) :
    (cstr.write tail htail).content = cstr.content :=
  List.take_left' cstr.length_content

theorem CString.content_advance_write (cstr : CString) (tail : List Byte) (len : Nat)
    (htail : tail.length = cstr.size_allocated - cstr.size)
    (hlen : len ≤ (cstr.write tail htail).size_allocated - (cstr.write tail htail).size) :
    ((cstr.write tail htail).advance len hlen).content = cstr.content ++ tail.take len := by
  have hlength := cstr.length_content
  simp only [content, write, advance] at hlength ⊢
  rw [List.take_append, hlength, List.take_take, Nat.min_eq_right (by omega), Nat.add_sub_cancel_left]

/-- What `cstr_ccat`, `cstr_wccat` and `cstr_cat` do with their bytes. -/
def cstr_append (cstr : CString) (bytes : List Byte) : Option CString :=
  match hreserve : cstr_reserve mem cstr (cstr.size + bytes.length) with
  | none => none
  | some grown => some <|
    have hroom : bytes.length ≤ grown.size_allocated - grown.size := by
      obtain ⟨hroom, -, hsize, -⟩ := cstr_reserve_spec mem hreserve
      omega
    have htail : (bytes ++ grown.data.drop (grown.size + bytes.length)).length =
        grown.size_allocated - grown.size := by
      rw [List.length_append, List.length_drop]
      rw [CString.size_allocated] at hroom ⊢
      omega
    (grown.write (bytes ++ grown.data.drop (grown.size + bytes.length)) htail).advance bytes.length
      (by rw [CString.size_allocated_write]; exact hroom)

def cstr_ccat (cstr : CString) (ch : Byte) : Option CString := cstr_append mem cstr [ch]

def cstr_cat (cstr : CString) (str : List Byte) : Option CString := cstr_append mem cstr str

/-- Bytes are added behind the content, as long as the string can grow. -/
theorem cstr_append_spec (cstr : CString) (bytes : List Byte) :
    (cstr.size + bytes.length ≤ 2 ^ 30 → ∃ grown, cstr_append mem cstr bytes = some grown) ∧
      ∀ grown, cstr_append mem cstr bytes = some grown → grown.content = cstr.content ++ bytes := by
  constructor
  · intro hsize
    obtain ⟨grown, hreserve⟩ := (cstr_reserve_isSome mem cstr).mpr hsize
    unfold cstr_append
    split
    · rename_i hnone
      rw [hreserve] at hnone
      cases hnone
    · exact ⟨_, rfl⟩
  · intro grown happend
    unfold cstr_append at happend
    split at happend
    · cases happend
    · rename_i room hreserve
      obtain ⟨-, -, -, hcontent⟩ := cstr_reserve_spec mem hreserve
      cases happend
      rw [CString.content_advance_write, hcontent, List.take_left']
      rfl

end tcc.pp
