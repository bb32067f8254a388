import Mathlib.Tactic.Common

/-! Buffers that are written at a position that only grows. What is behind the position stays
    until it is overwritten. -/

namespace machine.buffer

variable {α : Type}

/-- A buffer; `used` is the position of the next write. -/
structure Buffer (α : Type) where
  data : List α
  used : Nat
  used_le : used ≤ data.length

/-- The buffer holds a list at an offset. -/
def Holds (data : List α) (offset : Nat) (xs : List α) : Prop :=
  ∀ i < xs.length, data[offset + i]? = xs[i]?

/-- Writes a list, over what is there. -/
def Buffer.add (b : Buffer α) (xs : List α) : Buffer α where
  data := b.data.take b.used ++ (xs ++ b.data.drop (b.used + xs.length))
  used := b.used + xs.length
  used_le := by
    have := b.used_le
    simp only [List.length_append, List.length_take, List.length_drop]
    omega

theorem Buffer.used_add (b : Buffer α) (xs : List α) : (b.add xs).used = b.used + xs.length :=
  rfl

theorem Buffer.getElem?_add_of_lt (b : Buffer α) (xs : List α) {i : Nat} (hi : i < b.used) :
    (b.add xs).data[i]? = b.data[i]? := by
  have := b.used_le
  rw [Buffer.add, List.getElem?_append_left (by rw [List.length_take]; omega), List.getElem?_take_of_lt hi]

theorem Buffer.getElem?_add_of_ge (b : Buffer α) (xs : List α) {i : Nat} (hi : b.used + xs.length ≤ i) :
    (b.add xs).data[i]? = b.data[i]? := by
  have hlength : (b.data.take b.used).length = b.used := by
    rw [List.length_take, Nat.min_eq_left b.used_le]
  rw [Buffer.add, List.getElem?_append_right (by omega), hlength,
    List.getElem?_append_right (by omega), List.getElem?_drop]
  congr 1
  omega

theorem Buffer.getElem?_add_self (b : Buffer α) (xs : List α) {i : Nat} (hi : i < xs.length) :
    (b.add xs).data[b.used + i]? = xs[i]? := by
  have hlength : (b.data.take b.used).length = b.used := by
    rw [List.length_take, Nat.min_eq_left b.used_le]
  rw [Buffer.add, List.getElem?_append_right (by omega), hlength, Nat.add_sub_cancel_left,
    List.getElem?_append_left hi]

/-- A list that is written is held. -/
theorem Buffer.holds_add_self (b : Buffer α) (xs : List α) : Holds (b.add xs).data b.used xs :=
  fun _ hi => b.getElem?_add_self xs hi

/-- A list before the position stays. -/
theorem Holds.add_of_before {b : Buffer α} {offset : Nat} {ys : List α} (hholds : Holds b.data offset ys)
    (hbefore : offset + ys.length ≤ b.used) (xs : List α) : Holds (b.add xs).data offset ys := by
  intro i hi
  rw [b.getElem?_add_of_lt xs (by omega)]
  exact hholds i hi

/-- A list behind what is written stays. -/
theorem Holds.add_of_after {b : Buffer α} {offset : Nat} {ys xs : List α} (hholds : Holds b.data offset ys)
    (hafter : b.used + xs.length ≤ offset) : Holds (b.add xs).data offset ys := by
  intro i hi
  rw [b.getElem?_add_of_ge xs (by omega)]
  exact hholds i hi

theorem Holds.isPrefix {data : List α} {offset : Nat} {xs : List α} (hholds : Holds data offset xs) :
    List.IsPrefix xs (data.drop offset) := by
  rw [List.prefix_iff_getElem?]
  intro i hi
  rw [List.getElem?_drop, hholds i hi, List.getElem?_eq_getElem hi]

end machine.buffer
