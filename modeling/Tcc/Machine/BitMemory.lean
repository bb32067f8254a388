import Mathlib.Logic.Function.Basic

/-! Memory as a sequence of bits, those of a byte from the lowest one on. -/

namespace machine.bit_memory

/-- The bytes of a memory. -/
abbrev Mem := Nat → BitVec 8

def bit (mem : Mem) (i : Nat) : Bool := (mem (i / 8)).getLsbD (i % 8)

/-- The bytes from `a` on as one number, the lowest first. -/
def read (w : Nat) (mem : Mem) (a : Nat) : Nat → BitVec w
  | 0 => 0#w
  | k + 1 => (mem a).setWidth w ||| read w mem (a + 1) k <<< 8

def write {w : Nat} (mem : Mem) (a : Nat) : Nat → BitVec w → Mem
  | 0, _ => mem
  | k + 1, v => write (Function.update mem a (v.setWidth 8)) (a + 1) k (v >>> 8)

section bits

variable {w : Nat} {mem : Mem} {a k i j : Nat} {v : BitVec w}

theorem bit_byte (hj : j < 8) : bit mem (8 * a + j) = (mem a).getLsbD j := by
  rw [bit, show (8 * a + j) / 8 = a by omega, show (8 * a + j) % 8 = j by omega]

/-- A byte is known by its bits. -/
theorem byte_eq_of_bit {mem' : Mem} (h : ∀ i, 8 * a ≤ i → i < 8 * a + 8 → bit mem' i = bit mem i) :
    mem' a = mem a := by
  apply BitVec.eq_of_getLsbD_eq
  intro j hj
  rw [← bit_byte hj, ← bit_byte hj]
  exact h _ (by omega) (by omega)

theorem bit_update (b : BitVec 8) :
    bit (Function.update mem a b) i = if i / 8 = a then b.getLsbD (i % 8) else bit mem i := by
  rw [bit, Function.update_apply]
  split <;> rfl

theorem getLsbD_read : (read w mem a k).getLsbD j =
    (decide (j < w) && (decide (j < 8 * k) && bit mem (8 * a + j))) := by
  induction k generalizing a j with
  | zero => simp [read]
  | succ k ih =>
    rw [read, BitVec.getLsbD_or, BitVec.getLsbD_shiftLeft, BitVec.getLsbD_setWidth, ih]
    by_cases hj : j < 8
    · rw [bit_byte hj]
      simp [hj, show j < 8 * (k + 1) by omega]
    · rw [BitVec.getLsbD_of_ge _ _ (Nat.le_of_not_lt hj), show 8 * (a + 1) + (j - 8) = 8 * a + j by omega]
      by_cases hw : j < w
      · simp [hj, hw, show j - 8 < w by omega, show (j - 8 < 8 * k) = (j < 8 * (k + 1)) by simp; omega]
      · simp [hw]

theorem bit_write : bit (write mem a k v) i =
    if 8 * a ≤ i ∧ i < 8 * (a + k) then v.getLsbD (i - 8 * a) else bit mem i := by
  induction k generalizing mem a v with
  | zero => rw [write, if_neg (by omega)]
  | succ k ih =>
    rw [write, ih, bit_update]
    by_cases hrest : 8 * (a + 1) ≤ i ∧ i < 8 * (a + 1 + k)
    · rw [if_pos hrest, if_pos (by omega), BitVec.getLsbD_ushiftRight]
      congr 1
      omega
    · rw [if_neg hrest]
      by_cases hfirst : i / 8 = a
      · rw [if_pos hfirst, if_pos (by omega), BitVec.getLsbD_setWidth, show i - 8 * a = i % 8 by omega]
        simp [show i % 8 < 8 by omega]
      · rw [if_neg hfirst, if_neg (by omega)]

end bits

end machine.bit_memory
