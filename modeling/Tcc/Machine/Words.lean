import Mathlib.Algebra.Group.Int.Defs
import Mathlib.Algebra.Group.Nat.Defs
import Mathlib.Order.Defs.PartialOrder
import Mathlib.Tactic.Common
import Mathlib.Tactic.Linarith
import Mathlib.Tactic.Positivity
import Tcc.Machine.Bits

/-! Words of 32 bits held in registers of 64 bits, sign-extended or zero-extended:
    how the operations on the registers restrict to the words; and a 64-bit word as two words of 32 bits. -/

namespace machine

theorem setWidth_signExtend (x : BitVec 32) : (x.signExtend 64).setWidth 32 = x := by
  ext i hi
  rw [BitVec.getElem_setWidth, BitVec.getLsbD_signExtend]
  simp [hi, show i < 64 by omega]

theorem setWidth_zeroExtend (x : BitVec 32) : (x.setWidth 64).setWidth 32 = x := by
  rw [BitVec.setWidth_setWidth_of_le _ (by decide : 32 ≤ 64), BitVec.setWidth_eq]

theorem signExtend_inj {x y : BitVec 32} : x.signExtend 64 = y.signExtend 64 ↔ x = y := by
  constructor
  · intro h
    rw [← setWidth_signExtend x, h, setWidth_signExtend]
  · rintro rfl
    rfl

theorem toInt_signExtend (x : BitVec 32) : (x.signExtend 64).toInt = x.toInt :=
  BitVec.toInt_signExtend_of_le (by decide)

theorem toNat_zeroExtend (x : BitVec 32) : (x.setWidth 64).toNat = x.toNat := by
  rw [BitVec.toNat_setWidth, Nat.mod_eq_of_lt]
  have := x.isLt
  omega

theorem setWidth_sub (x y : BitVec 64) :
    (x - y).setWidth 32 = x.setWidth 32 - y.setWidth 32 := by
  apply BitVec.eq_of_toNat_eq
  simp only [BitVec.toNat_setWidth, BitVec.toNat_sub]
  omega

/-- Copying the sign bit of a `k`-bit value above it is sign extension. -/
theorem or_neg_signBit {k : Nat} (hpos : 0 < k) (hk : k < 64) (x : BitVec k) :
    x.setWidth 64 ||| -(x.setWidth 64 &&& BitVec.twoPow 64 (k - 1)) = x.signExtend 64 := by
  have hbit : (x.setWidth 64).getLsbD (k - 1) = x.msb := by
    rw [BitVec.getLsbD_setWidth, BitVec.msb_eq_getLsbD_last, decide_eq_true (by omega),
      Bool.true_and]
  rw [BitVec.and_twoPow, hbit]
  cases hmsb : x.msb with
  | false =>
    rw [BitVec.signExtend_eq_setWidth_of_msb_false hmsb]
    simp
  | true =>
    have hlast : x.getLsbD (k - 1) = true := by rw [← BitVec.msb_eq_getLsbD_last, hmsb]
    rw [if_pos rfl, BitVec.signExtend_eq_not_setWidth_not_of_msb_true hmsb]
    apply BitVec.eq_of_getLsbD_eq
    intro i hi
    have hneg : (-BitVec.twoPow 64 (k - 1)).getLsbD i = decide (k - 1 ≤ i) := by
      rw [BitVec.getLsbD_neg, BitVec.getLsbD_twoPow]
      by_cases hlt : k - 1 < i
      · simp [hi, hlt.ne, hlt.le]
        omega
      · have hno : ¬∃ j, j < i ∧ (BitVec.twoPow 64 (k - 1)).getLsbD j = true := by
          rintro ⟨j, hj, hbit⟩
          rw [BitVec.getLsbD_twoPow] at hbit
          simp at hbit
          omega
        simp only [hno, decide_false, Bool.bne_false, Bool.and_false, hi, decide_true]
        rw [Bool.eq_iff_iff]
        simp
        omega
    rw [BitVec.getLsbD_or, hneg]
    by_cases hik : i < k
    · obtain hlow | rfl : ¬k - 1 ≤ i ∨ i = k - 1 := by omega
      · simp [hi, hik, hlow]
      · simp [hi, hik, hlast]
    · have hhigh : k - 1 ≤ i := by omega
      simp [hi, hik, hhigh]

theorem sdiv_signExtend (x y : BitVec 32) :
    ((x.signExtend 64).sdiv (y.signExtend 64)).setWidth 32 = x.sdiv y := by
  apply BitVec.eq_of_toInt_eq
  rw [toInt_setWidth_eq_bmod (by decide), BitVec.toInt_sdiv, BitVec.toInt_sdiv,
    toInt_signExtend, toInt_signExtend, Int.bmod_bmod_of_dvd (by decide)]

theorem srem_signExtend (x y : BitVec 32) :
    ((x.signExtend 64).srem (y.signExtend 64)).setWidth 32 = x.srem y := by
  apply BitVec.eq_of_toInt_eq
  rw [toInt_setWidth_eq_bmod (by decide), BitVec.toInt_srem, toInt_signExtend,
    toInt_signExtend, ← BitVec.toInt_srem, BitVec.toInt_bmod_cancel]

theorem sshiftRight_signExtend (x : BitVec 32) (n : Nat) :
    ((x.signExtend 64).sshiftRight n).setWidth 32 = x.sshiftRight n := by
  apply BitVec.eq_of_toInt_eq
  rw [toInt_setWidth_eq_bmod (by decide), BitVec.toInt_sshiftRight, toInt_signExtend,
    ← BitVec.toInt_sshiftRight, BitVec.toInt_bmod_cancel]

theorem udiv_zeroExtend (x y : BitVec 32) :
    (x.setWidth 64 / y.setWidth 64).setWidth 32 = x / y := by
  apply BitVec.eq_of_toNat_eq
  rw [BitVec.toNat_setWidth, BitVec.toNat_udiv, BitVec.toNat_udiv, toNat_zeroExtend,
    toNat_zeroExtend]
  exact Nat.mod_eq_of_lt (lt_of_le_of_lt (Nat.div_le_self _ _) x.isLt)

theorem umod_zeroExtend (x y : BitVec 32) :
    (x.setWidth 64 % y.setWidth 64).setWidth 32 = x % y := by
  apply BitVec.eq_of_toNat_eq
  rw [BitVec.toNat_setWidth, BitVec.toNat_umod, BitVec.toNat_umod, toNat_zeroExtend,
    toNat_zeroExtend]
  exact Nat.mod_eq_of_lt (lt_of_le_of_lt (Nat.mod_le _ _) x.isLt)

theorem ushiftRight_zeroExtend (x : BitVec 32) (n : Nat) :
    (x.setWidth 64 >>> n).setWidth 32 = x >>> n := by
  apply BitVec.eq_of_toNat_eq
  rw [BitVec.toNat_setWidth, BitVec.toNat_ushiftRight, BitVec.toNat_ushiftRight,
    toNat_zeroExtend, Nat.shiftRight_eq_div_pow]
  exact Nat.mod_eq_of_lt (lt_of_le_of_lt (Nat.div_le_self _ _) x.isLt)

theorem slt_signExtend (x y : BitVec 32) :
    (x.signExtend 64).slt (y.signExtend 64) = x.slt y := by
  rw [Bool.eq_iff_iff, BitVec.slt_iff_toInt_lt, BitVec.slt_iff_toInt_lt, toInt_signExtend,
    toInt_signExtend]

/-- Sign extension keeps the unsigned order of words. -/
theorem ult_signExtend (x y : BitVec 32) :
    (x.signExtend 64).ult (y.signExtend 64) = x.ult y := by
  have hx := toInt_signExtend x
  have hy := toInt_signExtend y
  rw [BitVec.toInt_eq_toNat_cond, BitVec.toInt_eq_toNat_cond] at hx hy
  have hxlt := x.isLt
  have hylt := y.isLt
  rw [Bool.eq_iff_iff, BitVec.ult_iff_lt, BitVec.ult_iff_lt, BitVec.lt_def, BitVec.lt_def]
  split at hx <;> split at hx <;> split at hy <;> split at hy <;> omega

theorem ult_zeroExtend (x y : BitVec 32) :
    (x.setWidth 64).ult (y.setWidth 64) = x.ult y := by
  rw [Bool.eq_iff_iff, BitVec.ult_iff_lt, BitVec.ult_iff_lt, BitVec.lt_def, BitVec.lt_def,
    toNat_zeroExtend, toNat_zeroExtend]

theorem zeroExtend_inj {x y : BitVec 32} : x.setWidth 64 = y.setWidth 64 ↔ x = y := by
  rw [← BitVec.toNat_inj, toNat_zeroExtend, toNat_zeroExtend, BitVec.toNat_inj]

/-- The register is the sign extension of its low word. -/
def IsWord (v : BitVec 64) : Prop := (v.setWidth 32).signExtend 64 = v

theorem isWord_iff (v : BitVec 64) : IsWord v ↔ -2 ^ 31 ≤ v.toInt ∧ v.toInt < 2 ^ 31 :=
  signExtend_setWidth_iff (by decide) (by decide) v

theorem isWord_signExtend {k : Nat} (hk : k ≤ 32) (x : BitVec k) : IsWord (x.signExtend 64) := by
  rw [isWord_iff, BitVec.toInt_signExtend_of_le (by omega)]
  have hpow : (2 : Int) ^ (k - 1) ≤ 2 ^ 31 := pow_le_pow_right₀ (by decide) (by omega)
  have hlo := BitVec.le_toInt x
  have hhi := BitVec.toInt_lt (x := x)
  constructor <;> omega

theorem isWord_of_toNat_lt {v : BitVec 64} (h : v.toNat < 2 ^ 31) : IsWord v := by
  rw [isWord_iff, BitVec.toInt_eq_toNat_of_lt (by omega)]
  constructor <;> omega

theorem isWord_sshiftRight {n : Nat} (hn : 32 ≤ n) (y : BitVec 64) : IsWord (y.sshiftRight n) := by
  have hpow : (2 : Int) ^ 32 ≤ 2 ^ n := pow_le_pow_right₀ (by decide) hn
  have hlo := BitVec.le_toInt y
  have hhi := BitVec.toInt_lt (x := y)
  norm_num at hpow hlo hhi
  rw [isWord_iff, BitVec.toInt_sshiftRight, Int.shiftRight_eq_div_pow]
  push_cast
  constructor
  · rw [Int.le_ediv_iff_mul_le (by positivity)]
    linarith
  · rw [Int.ediv_lt_iff_lt_mul (by positivity)]
    linarith

/-- A logical shift down by 32 bits or more, where the bit that becomes the sign
    of the word is clear. -/
theorem isWord_shiftUpDown {n : Nat} (hlo : 32 ≤ n) (hhi : n < 64) {x : BitVec 64}
    (hbit : n = 32 → x.getLsbD 31 = false) : IsWord ((x <<< n) >>> n) := by
  apply isWord_of_toNat_lt
  have hlt := x.isLt
  rw [BitVec.toNat_ushiftRight, Nat.shiftRight_eq_div_pow, BitVec.toNat_shiftLeft,
    Nat.shiftLeft_eq]
  obtain rfl | hgt := Nat.eq_or_lt_of_le hlo
  · have hclear := hbit rfl
    rw [BitVec.getLsbD, Nat.testBit_eq_decide_div_mod_eq, decide_eq_false_iff_not] at hclear
    omega
  · rw [Nat.div_lt_iff_lt_mul (Nat.two_pow_pos n)]
    refine lt_of_lt_of_le (Nat.mod_lt _ (by decide)) ?_
    rw [← pow_add]
    exact Nat.pow_le_pow_right (by decide) (by omega)

theorem IsWord.exists_eq {v : BitVec 64} (h : IsWord v) : ∃ x : BitVec 32, v = x.signExtend 64 :=
  ⟨v.setWidth 32, h.symm⟩

/-- Signed and unsigned division by a positive divisor agree on the
    nonnegative dividends, and on all dividends only when dividing by one. -/
theorem sdiv_eq_udiv_iff {w : Nat} (x y : BitVec w) (hy : 0 < y.toInt) :
    x.sdiv y = x / y ↔ 0 ≤ x.toInt ∨ y = 1#w := by
  have hymsb : y.msb = false := by
    rw [BitVec.msb_eq_toInt, decide_eq_false_iff_not]
    omega
  constructor
  · intro heq
    by_contra hnot
    push Not at hnot
    obtain ⟨hneg, hone⟩ := hnot
    have hxmsb : x.msb = true := by
      rw [BitVec.msb_eq_toInt, decide_eq_true_iff]
      exact hneg
    rw [BitVec.toInt_eq_toNat_of_msb hymsb] at hy
    have hylt := BitVec.msb_eq_false_iff_two_mul_lt.mp hymsb
    have hxge := BitVec.msb_eq_true_iff_two_mul_ge.mp hxmsb
    have hxlt := x.isLt
    have hne : y.toNat ≠ 1 := by
      intro h
      apply hone
      rw [← BitVec.toNat_inj, h, BitVec.toNat_ofNat, Nat.mod_eq_of_lt]
      omega
    have hq : 0 < x.toNat / y.toNat := Nat.div_pos (by omega) (by omega)
    have hqle : x.toNat / y.toNat ≤ x.toNat / 2 := Nat.div_le_div_left (by omega) (by decide)
    have hrle : (2 ^ w - x.toNat) / y.toNat ≤ (2 ^ w - x.toNat) / 2 :=
      Nat.div_le_div_left (by omega) (by decide)
    rw [BitVec.sdiv_eq, hxmsb, hymsb] at heq
    have hnat := congrArg BitVec.toNat heq
    simp only [BitVec.toNat_neg, BitVec.udiv_eq, BitVec.toNat_udiv] at hnat
    rw [Nat.mod_eq_of_lt (by omega : 2 ^ w - x.toNat < 2 ^ w)] at hnat
    generalize x.toNat / y.toNat = q at *
    generalize (2 ^ w - x.toNat) / y.toNat = r at *
    by_cases hr : r = 0
    · rw [hr, Nat.sub_zero, Nat.mod_self] at hnat
      omega
    · rw [Nat.mod_eq_of_lt (by omega : 2 ^ w - r < 2 ^ w)] at hnat
      omega
  · rintro (hx | rfl)
    · have hxmsb : x.msb = false := by
        rw [BitVec.msb_eq_toInt, decide_eq_false_iff_not]
        omega
      rw [BitVec.sdiv_eq, hxmsb, hymsb]
      rfl
    · rw [BitVec.sdiv_one]
      exact BitVec.udiv_one.symm
end machine

namespace machine

/-- The low and the high word. -/
def low_word (x : BitVec 64) : BitVec 32 := x.setWidth 32

def high_word (x : BitVec 64) : BitVec 32 := (x >>> 32).setWidth 32

section

variable (hi lo : BitVec 32) (x y : BitVec 64)

theorem toNat_append : (hi ++ lo : BitVec 64).toNat = hi.toNat * 2 ^ 32 + lo.toNat := by
  have happend : (hi ++ lo : BitVec 64).toNat = hi.toNat <<< 32 ||| lo.toNat := BitVec.toNat_append hi lo
  rw [happend, ← Nat.shiftLeft_add_eq_or_of_lt lo.isLt, Nat.shiftLeft_eq]

theorem toNat_words : x.toNat = (high_word x).toNat * 2 ^ 32 + (low_word x).toNat := by
  have hlt := x.isLt
  rw [high_word, low_word, BitVec.toNat_setWidth, BitVec.toNat_setWidth, BitVec.toNat_ushiftRight,
    Nat.shiftRight_eq_div_pow]
  omega

theorem append_eq_iff : (hi ++ lo : BitVec 64) = x ↔ hi = high_word x ∧ lo = low_word x := by
  have hx := toNat_words x
  have hlo := lo.isLt
  have hlow := (low_word x).isLt
  rw [← BitVec.toNat_inj, ← BitVec.toNat_inj, ← BitVec.toNat_inj, toNat_append]
  omega

theorem high_word_append : high_word (hi ++ lo) = hi := ((append_eq_iff hi lo _).mp rfl).1.symm

theorem low_word_append : low_word (hi ++ lo) = lo := ((append_eq_iff hi lo _).mp rfl).2.symm

theorem toInt_words : x.toInt = (high_word x).toInt * 2 ^ 32 + (low_word x).toNat := by
  have hnat := toNat_words x
  have hlt := (low_word x).isLt
  rw [BitVec.toInt_eq_toNat_cond, BitVec.toInt_eq_toNat_cond]
  split <;> split <;> omega

theorem ult_words : x.ult y = ((high_word x).ult (high_word y) ||
    (high_word x == high_word y && (low_word x).ult (low_word y))) := by
  have hx := toNat_words x
  have hy := toNat_words y
  have hlx := (low_word x).isLt
  have hly := (low_word y).isLt
  rw [Bool.eq_iff_iff]
  simp only [Bool.or_eq_true, Bool.and_eq_true, beq_iff_eq, BitVec.ult_iff_lt, BitVec.lt_def,
    ← BitVec.toNat_inj]
  omega

theorem slt_words : x.slt y = ((high_word x).slt (high_word y) ||
    (high_word x == high_word y && (low_word x).ult (low_word y))) := by
  have hx := toInt_words x
  have hy := toInt_words y
  have hlx := (low_word x).isLt
  have hly := (low_word y).isLt
  rw [Bool.eq_iff_iff]
  simp only [Bool.or_eq_true, Bool.and_eq_true, beq_iff_eq, BitVec.ult_iff_lt, BitVec.lt_def,
    BitVec.slt_iff_toInt_lt, ← BitVec.toInt_inj]
  omega

theorem getLsbD_low_word (i : Nat) : (low_word x).getLsbD i = (decide (i < 32) && x.getLsbD i) :=
  BitVec.getLsbD_setWidth 32 x i

theorem getLsbD_high_word (i : Nat) : (high_word x).getLsbD i = (decide (i < 32) && x.getLsbD (32 + i)) := by
  rw [high_word, BitVec.getLsbD_setWidth, BitVec.getLsbD_ushiftRight]

theorem low_word_shiftLeft {n : Nat} :
    low_word (x <<< n) = if n < 32 then low_word x <<< n else 0#32 := by
  apply BitVec.eq_of_getLsbD_eq
  intro i hi
  split
  · simp only [getLsbD_low_word, BitVec.getLsbD_shiftLeft]
    grind
  · simp only [getLsbD_low_word, BitVec.getLsbD_shiftLeft, BitVec.getLsbD_zero]
    grind

theorem high_word_shiftLeft {n : Nat} (_ : n < 64) :
    high_word (x <<< n) = if n < 32 then low_word x >>> (32 - n) ||| high_word x <<< n
      else low_word x <<< (n - 32) := by
  apply BitVec.eq_of_getLsbD_eq
  intro i hi
  split
  · simp only [getLsbD_low_word, getLsbD_high_word, BitVec.getLsbD_shiftLeft, BitVec.getLsbD_or,
      BitVec.getLsbD_ushiftRight]
    grind
  · simp only [getLsbD_low_word, getLsbD_high_word, BitVec.getLsbD_shiftLeft]
    grind

theorem low_word_ushiftRight {n : Nat} (_ : n < 64) :
    low_word (x >>> n) = if n < 32 then high_word x <<< (32 - n) ||| low_word x >>> n
      else high_word x >>> (n - 32) := by
  apply BitVec.eq_of_getLsbD_eq
  intro i hi
  split
  · simp only [getLsbD_low_word, getLsbD_high_word, BitVec.getLsbD_shiftLeft, BitVec.getLsbD_or,
      BitVec.getLsbD_ushiftRight]
    grind
  · simp only [getLsbD_low_word, getLsbD_high_word, BitVec.getLsbD_ushiftRight]
    grind

theorem high_word_ushiftRight {n : Nat} :
    high_word (x >>> n) = if n < 32 then high_word x >>> n else 0#32 := by
  apply BitVec.eq_of_getLsbD_eq
  intro i hi
  split
  · simp only [getLsbD_high_word, BitVec.getLsbD_ushiftRight]
    grind
  · simp only [getLsbD_high_word, BitVec.getLsbD_ushiftRight, BitVec.getLsbD_zero]
    rw [decide_eq_true hi, Bool.true_and]
    exact BitVec.getLsbD_of_ge _ _ (by omega)

theorem msb_high_word : (high_word x).msb = x.msb := by
  rw [BitVec.msb_eq_getLsbD_last, BitVec.msb_eq_getLsbD_last, getLsbD_high_word]
  rfl

theorem low_word_sshiftRight {n : Nat} (_ : n < 64) :
    low_word (x.sshiftRight n) = if n < 32 then high_word x <<< (32 - n) ||| low_word x >>> n
      else (high_word x).sshiftRight (n - 32) := by
  apply BitVec.eq_of_getLsbD_eq
  intro i hi
  split
  · simp only [getLsbD_low_word, getLsbD_high_word, BitVec.getLsbD_shiftLeft, BitVec.getLsbD_or,
      BitVec.getLsbD_ushiftRight, BitVec.getLsbD_sshiftRight]
    grind
  · simp only [getLsbD_low_word, getLsbD_high_word, BitVec.getLsbD_sshiftRight, msb_high_word]
    grind

theorem high_word_sshiftRight {n : Nat} :
    high_word (x.sshiftRight n) = if n < 32 then (high_word x).sshiftRight n else (high_word x).sshiftRight 31 := by
  apply BitVec.eq_of_getLsbD_eq
  intro i hi
  have hlast : x.getLsbD 63 = x.msb := (BitVec.msb_eq_getLsbD_last x).symm
  split
  · simp only [getLsbD_high_word, BitVec.getLsbD_sshiftRight, msb_high_word]
    grind
  · simp only [getLsbD_high_word, BitVec.getLsbD_sshiftRight, msb_high_word]
    grind

end

end machine
