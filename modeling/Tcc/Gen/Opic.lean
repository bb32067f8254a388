import Mathlib.Tactic.IntervalCases
import Tcc.Gen.Types
import Tcc.Machine.Words

namespace tcc

open BType Op

def gen_opic_sdiv (a b : BitVec 64) : BitVec 64 :=
  let x := (if a >>> 63 ≠ 0#64 then -a else a) / (if b >>> 63 ≠ 0#64 then -b else b)
  if (a ^^^ b) >>> 63 ≠ 0#64 then -x else x

def gen_opic_lt (a b : BitVec 64) : Bool :=
  (a ^^^ 0x8000000000000000#64).ult (b ^^^ 0x8000000000000000#64)

/-- The truncation `gen_opic` applies to a constant of a type that is not 64
    bits wide: the low word, sign-extended unless the type is unsigned. -/
def opic_trunc (t : Scalar) (l : BitVec 64) : BitVec 64 :=
  if t.bt ≠ VT_LLONG ∧ t.bt ≠ VT_PTR then
    (l.setWidth 32).setWidth 64 ||| (if t.unsigned then 0#64 else -(l &&& 0x80000000#64))
  else l

/-- The switch of `gen_opic` over the operator, on operands already brought to
    their types; `none` is its `general_case`. -/
def opic_op (op : Op) (shm l1 l2 : BitVec 64) : Option (BitVec 64) :=
  match op with
  | .add => some (l1 + l2)
  | .sub => some (l1 - l2)
  | .and => some (l1 &&& l2)
  | .xor => some (l1 ^^^ l2)
  | .or => some (l1 ||| l2)
  | .mul => some (l1 * l2)
  | TOK_PDIV | .div => if l2 = 0#64 then none else some (gen_opic_sdiv l1 l2)
  | .mod => if l2 = 0#64 then none else some (l1 - l2 * gen_opic_sdiv l1 l2)
  | TOK_UDIV => if l2 = 0#64 then none else some (l1 / l2)
  | TOK_UMOD => if l2 = 0#64 then none else some (l1 % l2)
  | TOK_SHL => some (l1 <<< (l2 &&& shm).toNat)
  | TOK_SHR => some (l1 >>> (l2 &&& shm).toNat)
  | TOK_SAR =>
    some (if l1 >>> 63 ≠ 0#64 then ~~~(~~~l1 >>> (l2 &&& shm).toNat)
      else l1 >>> (l2 &&& shm).toNat)
  | TOK_ULT => some (boolWord (l1.ult l2))
  | TOK_UGE => some (boolWord (!l1.ult l2))
  | TOK_EQ => some (boolWord (l1 == l2))
  | TOK_NE => some (boolWord (l1 != l2))
  | TOK_ULE => some (boolWord (!l2.ult l1))
  | TOK_UGT => some (boolWord (l2.ult l1))
  | TOK_LT => some (boolWord (gen_opic_lt l1 l2))
  | TOK_GE => some (boolWord (!gen_opic_lt l1 l2))
  | TOK_LE => some (boolWord (!gen_opic_lt l2 l1))
  | TOK_GT => some (boolWord (gen_opic_lt l2 l1))
  | TOK_LAND => some (boolWord (l1 != 0#64 && l2 != 0#64))
  | TOK_LOR => some (boolWord (l1 != 0#64 || l2 != 0#64))

/-- `gen_opic` on two constants of the types `t1` and `t2`: the folded constant,
    or `none` when the operation is left to generated code. -/
def gen_opic_const (op : Op) (t1 t2 : Scalar) (v1 v2 : BitVec 64) : Option (BitVec 64) :=
  let shm : BitVec 64 := if t1.bt = VT_LLONG then 63#64 else 31#64
  (opic_op op shm (opic_trunc t1 v1) (opic_trunc t2 v2)).map (opic_trunc t1)

/-- The choice between `gen_opl` and `gen_opi`. -/
def opic_ll (t1 t2 : Scalar) : Bool :=
  t1.bt = VT_LLONG || t2.bt = VT_LLONG || (t1.bt = VT_PTR || t2.bt = VT_PTR)

theorem shr_63_ne_zero_iff (a : BitVec 64) : a >>> 63 ≠ 0#64 ↔ a.msb = true := by
  rw [BitVec.msb_eq_decide, decide_eq_true_iff, ne_eq, ← BitVec.toNat_inj,
    BitVec.toNat_ushiftRight, Nat.shiftRight_eq_div_pow]
  have := a.isLt
  simp only [BitVec.toNat_ofNat]
  omega

theorem gen_opic_sdiv_eq (a b : BitVec 64) : gen_opic_sdiv a b = a.sdiv b := by
  simp only [gen_opic_sdiv, shr_63_ne_zero_iff, BitVec.msb_xor, BitVec.sdiv_eq]
  cases a.msb <;> cases b.msb <;> simp

theorem gen_opic_srem_eq (a b : BitVec 64) : a - b * gen_opic_sdiv a b = a.srem b := by
  rw [gen_opic_sdiv_eq]
  apply BitVec.eq_of_toInt_eq
  rw [BitVec.toInt_srem, BitVec.toInt_sub, BitVec.toInt_mul, BitVec.toInt_sdiv,
    Int.mul_bmod_bmod, Int.sub_bmod_bmod, ← Int.tmod_def, ← BitVec.toInt_srem,
    BitVec.toInt_bmod_cancel]

theorem xor_signBit_toNat (a : BitVec 64) :
    ((a ^^^ 0x8000000000000000#64).toNat : Int) = a.toInt + 2 ^ 63 := by
  have hlt := a.isLt
  have hdiv := Nat.xor_div_two_pow (a := a.toNat) (b := 2 ^ 63) (n := 63)
  have hmod := Nat.xor_mod_two_pow (a := a.toNat) (b := 2 ^ 63) (n := 63)
  rw [Nat.mod_self, Nat.xor_zero] at hmod
  rw [BitVec.toNat_xor, BitVec.toInt_eq_toNat_cond]
  change ((a.toNat ^^^ 2 ^ 63 : Nat) : Int) = _
  obtain hq | hq : a.toNat / 2 ^ 63 = 0 ∨ a.toNat / 2 ^ 63 = 1 := by omega
  · rw [hq, show (0 ^^^ 2 ^ 63 / 2 ^ 63 : Nat) = 1 from rfl] at hdiv
    split <;> omega
  · rw [hq, show (1 ^^^ 2 ^ 63 / 2 ^ 63 : Nat) = 0 from rfl] at hdiv
    split <;> omega

theorem gen_opic_lt_eq (a b : BitVec 64) : gen_opic_lt a b = a.slt b := by
  have ha := xor_signBit_toNat a
  have hb := xor_signBit_toNat b
  rw [gen_opic_lt, Bool.eq_iff_iff, BitVec.ult_iff_lt, BitVec.lt_def, BitVec.slt_iff_toInt_lt]
  omega

theorem opic_sar_eq (a : BitVec 64) (n : Nat) :
    (if a >>> 63 ≠ 0#64 then ~~~(~~~a >>> n) else a >>> n) = a.sshiftRight n := by
  simp only [shr_63_ne_zero_iff]
  split
  · rename_i hmsb
    rw [BitVec.sshiftRight_eq_of_msb_true hmsb]
  · rename_i hmsb
    rw [BitVec.sshiftRight_eq_of_msb_false (Bool.not_eq_true _ ▸ hmsb)]

theorem opic_trunc_int (l : BitVec 64) :
    opic_trunc .int l = (l.setWidth 32).signExtend 64 := by
  have hbit : l &&& 0x80000000#64 = if (l.setWidth 32).msb then 0x80000000#64 else 0#64 := by
    rw [BitVec.msb_eq_getLsbD_last, BitVec.getLsbD_setWidth]
    ext i hi
    interval_cases i <;> simp <;> split <;> simp_all
  change (l.setWidth 32).setWidth 64 ||| -(l &&& 0x80000000#64) = _
  rw [hbit]
  split
  · rename_i hmsb
    rw [BitVec.signExtend_eq_not_setWidth_not_of_msb_true hmsb]
    rw [BitVec.msb_eq_getLsbD_last, BitVec.getLsbD_setWidth] at hmsb
    ext i hi
    interval_cases i <;> simp_all
  · rename_i hmsb
    rw [BitVec.signExtend_eq_setWidth_of_msb_false (Bool.not_eq_true _ ▸ hmsb)]
    simp

theorem opic_trunc_uint (l : BitVec 64) :
    opic_trunc .uint l = (l.setWidth 32).setWidth 64 := by
  simp [opic_trunc, Scalar.uint]

/-- Truncation to a type leaves the low word as it is. -/
theorem opic_trunc_setWidth (t : Scalar) (l : BitVec 64) :
    (opic_trunc t l).setWidth 32 = l.setWidth 32 := by
  unfold opic_trunc
  split
  · split
    · simp
    · rw [show (l.setWidth 32).setWidth 64 ||| -(l &&& 0x80000000#64) = opic_trunc .int l from rfl,
        opic_trunc_int, machine.setWidth_signExtend]
  · rfl

end tcc
