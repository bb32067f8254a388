import Tcc.Gen.Riscv64.Cast

open machine

namespace tcc

open BType Op riscv64

/-- The truncation of `gen_opic`, where pointers have `PTR_SIZE` bytes. -/
def trunc_const (PTR_SIZE : Nat) (t : Scalar) (l : BitVec 64) : BitVec 64 :=
  if t.bt ≠ VT_LLONG ∧ (PTR_SIZE ≠ 8 ∨ t.bt ≠ VT_PTR) then
    (l.setWidth 32).setWidth 64 ||| (if t.unsigned then 0#64 else -(l &&& 0x80000000#64))
  else l

/-- What `gen_opic` leaves of an operation: one operand, or an operation for the back end. -/
inductive Simplified where
  | value (v : SValue)
  | operation (op : Op) (v1 v2 : SValue)
  deriving DecidableEq, Repr

/-- The branches of `gen_opic` after the operands have been ordered: `c1` and `c2` say whether the
    first and the second operand is a constant, `l1` and `l2` are the constants. -/
def gen_opic_branches (const_wanted : Bool) (op : Op) (t2 : Scalar) (c1 c2 : Bool)
    (l1 l2 : BitVec 64) (v1 v2 : SValue) : Simplified :=
  if !const_wanted && c1 && constantShift op l1 then .value v1
  else if !const_wanted && c2 && constantResult op t2 l2 then
    .value (if l2 = 1#64 then { v2 with loc := .VT_CONST 0#64 } else v2)
  else if c2 && noOperation op t2 l2 then .value v1
  else if c2 && (op == .mul || op == TOK_PDIV || op == TOK_UDIV) then
    match shiftFor op l2 with
    | some (op', n) => .operation op' v1 { v2 with loc := .VT_CONST (BitVec.ofNat 64 n) }
    | none => .operation op v1 v2
  else if c2 then
    match addAddress op v1 l2 with
    | some v => .value v
    | none => .operation op v1 v2
  else .operation op v1 v2

/-- `gen_opic` on two operands that are not both constants. -/
def gen_opic_one (PTR_SIZE : Nat) (const_wanted : Bool) (op : Op) (v1 v2 : SValue) : Simplified :=
  let c1 := v1.const?
  let c2 := v2.const?
  let l1 := trunc_const PTR_SIZE v1.type (c1.getD 0#64)
  let l2 := trunc_const PTR_SIZE v2.type (c2.getD 0#64)
  if c1.isSome && commutative op then
    gen_opic_branches const_wanted op v2.type c1.isSome true l1 l1 v2 v1
  else gen_opic_branches const_wanted op v2.type c1.isSome c2.isSome l1 l2 v1 v2

/-- The values at run time: of the symbols, of the frame pointer and of everything that is not a
    constant or the address of a symbol or a local variable. -/
structure Env where
  sym : SymRef → BitVec 64
  fp : BitVec 64
  other : SValue → BitVec 64

/-- A word whose low part, of the width of the type, is the value of the operand. -/
def SValue.word (e : Env) (v : SValue) : BitVec 64 :=
  match v.loc with
  | .VT_CONST c => c
  | .VT_SYM s => e.sym { s with c := 0#64 } + s.c
  | .VT_LOCAL c => e.fp + c
  | _ => e.other v

/-- The width of the integers of a type. -/
def width (PTR_SIZE : Nat) (t : Scalar) : Nat :=
  if t.bt = VT_LLONG ∨ (PTR_SIZE = 8 ∧ t.bt = VT_PTR) then 64 else 32

/-- The value of a C operation on integers, where C defines one. The right operand of a shift is a
    number less than the width, a difference of pointers is a multiple of the size it is divided
    by; overflow wraps around. -/
def c_value {w : Nat} (op : Op) (x y : BitVec w) (count : Nat) : Option (BitVec w) :=
  match op with
  | .add => some (x + y)
  | .sub => some (x - y)
  | .and => some (x &&& y)
  | .xor => some (x ^^^ y)
  | .or => some (x ||| y)
  | .mul => some (x * y)
  | .div => if y = 0#w then none else some (x.sdiv y)
  | .mod => if y = 0#w then none else some (x.srem y)
  | TOK_UDIV => if y = 0#w then none else some (x / y)
  | TOK_UMOD => if y = 0#w then none else some (x % y)
  | TOK_PDIV =>
    if y ≠ 0#w ∧ (y.toNat : Int) ∣ x.toInt then some (BitVec.ofInt w (x.toInt / y.toNat)) else none
  | TOK_SHL => if count < w then some (x <<< count) else none
  | TOK_SHR => if count < w then some (x >>> count) else none
  | TOK_SAR => if count < w then some (x.sshiftRight count) else none
  | TOK_LAND | TOK_LOR => none
  | op => some (if op.holds x y then 1#w else 0#w)

/-- The value of an operation at the width `w` of its left operand. -/
def operation_value (PTR_SIZE : Nat) (e : Env) (w : Nat) (op : Op) (v1 v2 : SValue) :
    Option (BitVec w) :=
  c_value op ((v1.word e).setWidth w) ((v2.word e).setWidth w)
    ((v2.word e).setWidth (width PTR_SIZE v2.type)).toNat

def Simplified.eval (PTR_SIZE : Nat) (e : Env) (w : Nat) : Simplified → Option (BitVec w)
  | .value v => some ((v.word e).setWidth w)
  | .operation op v1 v2 => operation_value PTR_SIZE e w op v1 v2

/-- The types that `gen_op` gives the operands: those of the usual conversions, an `int` for the
    right operand of a shift, and a pointer with an integer of its width or another pointer. -/
def OperandTypes (PTR_SIZE : Nat) (op : Op) (t1 t2 : Scalar) : Prop :=
  if op.isShift then (t1.bt = VT_INT ∨ t1.bt = VT_LLONG) ∧ t2 = .int
  else (t1 = t2 ∧ (t1.bt = VT_INT ∨ t1.bt = VT_LLONG)) ∨
    ((op = .add ∨ op = .sub) ∧ t1.bt = VT_PTR ∧ width PTR_SIZE t2 = width PTR_SIZE t1)

theorem trunc_const_eq (PTR_SIZE : Nat) (t : Scalar) (l : BitVec 64) :
    trunc_const PTR_SIZE t l = if width PTR_SIZE t = 64 then l else
      if t.unsigned then (l.setWidth 32).setWidth 64 else (l.setWidth 32).signExtend 64 := by
  have hsigned := opic_trunc_int l
  have hwidth : width PTR_SIZE t = 64 ↔ ¬(t.bt ≠ VT_LLONG ∧ (PTR_SIZE ≠ 8 ∨ t.bt ≠ VT_PTR)) := by
    unfold width
    split <;> simp <;> tauto
  unfold trunc_const
  by_cases hw : t.bt ≠ VT_LLONG ∧ (PTR_SIZE ≠ 8 ∨ t.bt ≠ VT_PTR)
  · have hne : ¬width PTR_SIZE t = 64 := by
      rw [hwidth]
      exact not_not.mpr hw
    rw [if_pos hw, if_neg hne, ← hsigned]
    cases t.unsigned with
    | true => simp
    | false => rfl
  · rw [if_neg hw, if_pos (hwidth.mpr hw)]

theorem width_cases (PTR_SIZE : Nat) (t : Scalar) : width PTR_SIZE t = 32 ∨ width PTR_SIZE t = 64 := by
  unfold width
  split
  · exact Or.inr rfl
  · exact Or.inl rfl

/-- Truncation keeps the value at the type. -/
theorem trunc_const_setWidth (PTR_SIZE : Nat) (t : Scalar) (l : BitVec 64) :
    (trunc_const PTR_SIZE t l).setWidth (width PTR_SIZE t) = l.setWidth (width PTR_SIZE t) := by
  rw [trunc_const_eq]
  by_cases hw : width PTR_SIZE t = 64
  · rw [if_pos hw]
  · have hw32 := (width_cases PTR_SIZE t).resolve_right hw
    rw [if_neg hw, hw32]
    split
    · rw [BitVec.setWidth_setWidth_of_le _ (by decide), BitVec.setWidth_setWidth_of_le _ (by decide)]
    · rw [machine.setWidth_signExtend]

/-- A power of two among the constants of a narrow type fits the type. -/
theorem trunc_const_pow (PTR_SIZE : Nat) (t : Scalar) (l : BitVec 64) {n : Nat}
    (hn : (trunc_const PTR_SIZE t l).toNat = 2 ^ n) : n < width PTR_SIZE t := by
  have hlt := (trunc_const PTR_SIZE t l).isLt
  have hn64 : n < 64 := by
    rw [hn] at hlt
    exact (Nat.pow_lt_pow_iff_right (by decide)).mp hlt
  have hlow : (l.setWidth 32).toNat < 2 ^ 32 := (l.setWidth 32).isLt
  rw [trunc_const_eq] at hn
  by_cases hw : width PTR_SIZE t = 64
  · omega
  · have hw32 := (width_cases PTR_SIZE t).resolve_right hw
    have hsmall : 2 ^ n < 2 ^ 32 → n < 32 := fun h => (Nat.pow_lt_pow_iff_right (by decide)).mp h
    have hlarge : 2 ^ n ≤ 2 ^ 63 := Nat.pow_le_pow_right (by decide) (by omega)
    rw [hw32]
    apply hsmall
    rw [if_neg hw] at hn
    split at hn
    · rw [BitVec.toNat_setWidth_of_le (by decide)] at hn
      omega
    · rw [BitVec.toNat_signExtend, BitVec.toNat_setWidth_of_le (by decide)] at hn
      split at hn <;> omega

theorem setWidth_neg_one {w : Nat} (hw : w ≤ 64) : (-1#64).setWidth w = BitVec.allOnes w := by
  rw [BitVec.neg_one_eq_allOnes]
  ext i hi
  rw [BitVec.getElem_setWidth, BitVec.getLsbD_allOnes, BitVec.getElem_allOnes,
    decide_eq_true (by omega)]

theorem setWidth_low_ones {w : Nat} (hw : w ≤ 32) :
    (0xffffffff#64).setWidth w = BitVec.allOnes w := by
  have hlow : 0xffffffff#64 = (BitVec.allOnes 32).setWidth 64 := by decide
  rw [hlow, BitVec.setWidth_setWidth_of_le _ (by omega)]
  ext i hi
  rw [BitVec.getElem_setWidth, BitVec.getLsbD_allOnes, BitVec.getElem_allOnes,
    decide_eq_true (by omega)]

theorem sshiftRight_ones (w n : Nat) : (BitVec.allOnes w).sshiftRight n = BitVec.allOnes w := by
  ext i hi
  rw [BitVec.getElem_sshiftRight, BitVec.getElem_allOnes, BitVec.msb_allOnes (by omega)]
  split
  · exact BitVec.getElem_allOnes _ _
  · rfl

theorem setWidth_one_eq {w : Nat} : (1#64).setWidth w = 1#w := by
  apply BitVec.eq_of_toNat_eq
  rw [BitVec.toNat_setWidth, BitVec.toNat_ofNat, BitVec.toNat_ofNat]

theorem one_ne_zero_of_pos {w : Nat} (hw : 0 < w) : ¬1#w = 0#w := by
  intro heq
  have hnat := congrArg BitVec.toNat heq
  rw [BitVec.toNat_one hw] at hnat
  cases hnat

theorem isShift_cases {op : Op} (hop : op.isShift = true) :
    op = TOK_SHL ∨ op = TOK_SHR ∨ op = TOK_SAR := by
  cases op <;> first | exact absurd hop (by decide) | simp

section

variable {w : Nat} {op : Op} {t2 : Scalar} {l : BitVec 64} {x y r : BitVec w} {count : Nat}

attribute [local simp] c_value in
/-- `0 << x`, `0 >> x` and `-1 >> x` do not depend on `x`. -/
theorem constantShift_value (hw : w ≤ 64) (hl : constantShift op l = true) (hx : x = l.setWidth w)
    (hr : c_value op x y count = some r) : x = r := by
  have hcases : (l = 0#64 ∧ op.isShift = true) ∨ (l = -1#64 ∧ op = TOK_SAR) := by
    simpa [constantShift] using hl
  rcases hcases with ⟨rfl, hop⟩ | ⟨rfl, rfl⟩
  · have hzero : x = 0#w := by rw [hx, BitVec.setWidth_zero]
    subst hzero
    rcases isShift_cases hop with rfl | rfl | rfl
    all_goals
      rw [c_value] at hr
      obtain ⟨-, hr⟩ := Option.ite_none_right_eq_some.mp hr
      cases hr
      simp
  · rw [c_value] at hr
    obtain ⟨-, hr⟩ := Option.ite_none_right_eq_some.mp hr
    cases hr
    rw [hx, setWidth_neg_one hw, sshiftRight_ones]

/-- `x & 0`, `x * 0`, `x | -1` and `x % 1` do not depend on `x`. -/
theorem constantResult_value (hw : 0 < w) (hw64 : w ≤ 64) (hl : constantResult op t2 l = true)
    (hy : y = l.setWidth w) (ht : op = .or → t2.bt ≠ VT_LLONG → w ≤ 32)
    (hr : c_value op x y count = some r) : (if l = 1#64 then 0#64 else l).setWidth w = r := by
  have hcases : (l = 0#64 ∧ (op = .and ∨ op = .mul)) ∨
      (op = .or ∧ (l = -1#64 ∨ (l = 0xffffffff#64 ∧ t2.bt ≠ VT_LLONG))) ∨
      (l = 1#64 ∧ (op = .mod ∨ op = TOK_UMOD)) := by
    simpa [constantResult, or_assoc] using hl
  have hne := one_ne_zero_of_pos hw
  rcases hcases with ⟨rfl, rfl | rfl⟩ | ⟨rfl, hones⟩ | ⟨rfl, rfl | rfl⟩
  · rw [hy, c_value, BitVec.setWidth_zero, BitVec.and_zero] at hr
    rw [if_neg (by decide), BitVec.setWidth_zero, Option.some.inj hr]
  · rw [hy, c_value, BitVec.setWidth_zero, BitVec.mul_zero] at hr
    rw [if_neg (by decide), BitVec.setWidth_zero, Option.some.inj hr]
  · have hall : l.setWidth w = BitVec.allOnes w := by
      rcases hones with rfl | ⟨rfl, hbt⟩
      · exact setWidth_neg_one hw64
      · exact setWidth_low_ones (ht rfl hbt)
    have hlne : l ≠ 1#64 := by
      rcases hones with rfl | ⟨rfl, -⟩ <;> decide
    rw [hy, hall, c_value, BitVec.or_allOnes] at hr
    rw [if_neg hlne, hall, Option.some.inj hr]
  · rw [hy, setWidth_one_eq, c_value, if_neg hne, BitVec.srem_one] at hr
    rw [if_pos rfl, BitVec.setWidth_zero, Option.some.inj hr]
  · rw [hy, setWidth_one_eq, c_value, if_neg hne, BitVec.umod_one] at hr
    rw [if_pos rfl, BitVec.setWidth_zero, Option.some.inj hr]

/-- `x * 1`, `x - 0` and `x & -1` are `x`. -/
theorem noOperation_value (hw : 0 < w) (hw64 : w ≤ 64) (hl : noOperation op t2 l = true)
    (hy : op.isShift = false → y = l.setWidth w) (ht : op = .and → t2.bt ≠ VT_LLONG → w ≤ 32)
    (hcount : op.isShift = true → l = 0#64 → count = 0)
    (hr : c_value op x y count = some r) : x = r := by
  have hcases : ((op = .mul ∨ op = .div ∨ op = TOK_UDIV ∨ op = TOK_PDIV) ∧ l = 1#64) ∨
      ((op = .add ∨ op = .sub ∨ op = .or ∨ op = .xor) ∧ l = 0#64) ∨
      (op.isShift = true ∧ l = 0#64) ∨
      (op = .and ∧ (l = -1#64 ∨ (l = 0xffffffff#64 ∧ t2.bt ≠ VT_LLONG))) := by
    simp only [noOperation, Bool.or_eq_true, Bool.and_eq_true, beq_iff_eq, bne_iff_ne] at hl
    rcases hl with (⟨hop, hl⟩ | ⟨hop | hop, hl⟩) | hand
    · exact Or.inl ⟨by simpa only [or_assoc] using hop, hl⟩
    · exact Or.inr (Or.inl ⟨by simpa only [or_assoc] using hop, hl⟩)
    · exact Or.inr (Or.inr (Or.inl ⟨hop, hl⟩))
    · exact Or.inr (Or.inr (Or.inr hand))
  rcases hcases with ⟨hop, rfl⟩ | ⟨hop, rfl⟩ | ⟨hop, rfl⟩ | ⟨rfl, hones⟩
  · have hne := one_ne_zero_of_pos hw
    have hshift : op.isShift = false := by
      rcases hop with rfl | rfl | rfl | rfl <;> rfl
    rw [hy hshift, setWidth_one_eq] at hr
    rcases hop with rfl | rfl | rfl | rfl
    · rw [c_value, BitVec.mul_one] at hr
      exact Option.some.inj hr
    · rw [c_value, if_neg hne, BitVec.sdiv_one] at hr
      exact Option.some.inj hr
    · rw [c_value, if_neg hne, BitVec.udiv_one] at hr
      exact Option.some.inj hr
    · rw [c_value, BitVec.toNat_one hw] at hr
      obtain ⟨-, hr⟩ := Option.ite_none_right_eq_some.mp hr
      rw [Nat.cast_one, Int.ediv_one, BitVec.ofInt_toInt] at hr
      exact Option.some.inj hr
  · have hshift : op.isShift = false := by
      rcases hop with rfl | rfl | rfl | rfl <;> rfl
    rw [hy hshift, BitVec.setWidth_zero] at hr
    rcases hop with rfl | rfl | rfl | rfl
    · rw [c_value, BitVec.add_zero] at hr
      exact Option.some.inj hr
    · rw [c_value, BitVec.sub_zero] at hr
      exact Option.some.inj hr
    · rw [c_value, BitVec.or_zero] at hr
      exact Option.some.inj hr
    · rw [c_value, BitVec.xor_zero] at hr
      exact Option.some.inj hr
  · rw [hcount hop rfl] at hr
    rcases isShift_cases hop with rfl | rfl | rfl
    all_goals
      rw [c_value] at hr
      obtain ⟨-, hr⟩ := Option.ite_none_right_eq_some.mp hr
      simpa using hr
  · have hall : l.setWidth w = BitVec.allOnes w := by
      rcases hones with rfl | ⟨rfl, hbt⟩
      · exact setWidth_neg_one hw64
      · exact setWidth_low_ones (ht rfl hbt)
    rw [hy rfl, hall, c_value, BitVec.and_allOnes] at hr
    exact Option.some.inj hr

theorem shiftFor_pow {op' : Op} {n : Nat} (hl : shiftFor op l = some (op', n)) :
    l.toNat = 2 ^ n ∧ ((op = .mul ∧ op' = TOK_SHL) ∨ (op = TOK_PDIV ∧ op' = TOK_SAR) ∨
      (op = TOK_UDIV ∧ op' = TOK_SHR)) := by
  unfold shiftFor at hl
  obtain ⟨⟨hne, hpow⟩, hl⟩ := Option.ite_none_right_eq_some.mp hl
  have hpos : 0 < l.toNat := by
    rw [Nat.pos_iff_ne_zero]
    exact fun hzero => hne (BitVec.eq_of_toNat_eq hzero)
  have hnat : l.toNat &&& (l.toNat - 1) = 0 := by
    have hsub : (l - 1#64).toNat = l.toNat - 1 := by
      rw [BitVec.toNat_sub_of_le]
      · rfl
      · rw [BitVec.le_def]
        exact hpos
    rw [← hsub, ← BitVec.toNat_and, hpow]
    rfl
  obtain ⟨k, hk⟩ := (Nat.and_sub_one_eq_zero_iff_isPowerOfTwo hpos.ne').mp hnat
  rw [hk, Nat.log2_two_pow] at hl
  split at hl
  · cases hl
    exact ⟨hk, Or.inl ⟨rfl, rfl⟩⟩
  · cases hl
    exact ⟨hk, Or.inr (Or.inl ⟨rfl, rfl⟩)⟩
  · cases hl
    exact ⟨hk, Or.inr (Or.inr ⟨rfl, rfl⟩)⟩
  · cases hl

/-- Multiplications and divisions by a power of two are shifts. -/
theorem shiftFor_value {op' : Op} {n : Nat} {z : BitVec w} (hl : shiftFor op l = some (op', n))
    (hy : y = l.setWidth w) (hn : n < w) (hr : c_value op x y count = some r) :
    c_value op' x z n = some r := by
  obtain ⟨hpow, hop⟩ := shiftFor_pow hl
  have hy_nat : y.toNat = 2 ^ n := by
    rw [hy, BitVec.toNat_setWidth, hpow, Nat.mod_eq_of_lt (Nat.pow_lt_pow_right (by decide) hn)]
  have hy_pow : y = BitVec.twoPow w n := by
    apply BitVec.eq_of_toNat_eq
    rw [hy_nat, BitVec.toNat_twoPow, Nat.mod_eq_of_lt (Nat.pow_lt_pow_right (by decide) hn)]
  rcases hop with ⟨rfl, rfl⟩ | ⟨rfl, rfl⟩ | ⟨rfl, rfl⟩
  · rw [c_value, hy_pow, ← BitVec.shiftLeft_eq_mul_twoPow] at hr
    rw [c_value, if_pos hn, hr]
  · rw [c_value, hy_nat] at hr
    obtain ⟨-, hr⟩ := Option.ite_none_right_eq_some.mp hr
    have hsar : x.sshiftRight n = BitVec.ofInt w (x.toInt / (2 ^ n : Nat)) := by
      rw [← Int.shiftRight_eq_div_pow, ← BitVec.toInt_sshiftRight, BitVec.ofInt_toInt]
    rw [c_value, if_pos hn, hsar, hr]
  · rw [c_value] at hr
    obtain ⟨-, hr⟩ := Option.ite_none_left_eq_some.mp hr
    rw [hy_pow, BitVec.udiv_twoPow_eq_of_lt hn] at hr
    rw [c_value, if_pos hn, hr]

end

/-- The sum of an address and a constant, where it stays an address, is that address. -/
theorem addAddress_value {w : Nat} (hw : w ≤ 64) {op : Op} {v v' : SValue} {l : BitVec 64}
    (hadd : addAddress op v l = some v') (e : Env) {y r : BitVec w} (hy : y = l.setWidth w)
    {count : Nat} (hr : c_value op ((v.word e).setWidth w) y count = some r) :
    (v'.word e).setWidth w = r := by
  have hsum (a c m : BitVec 64) (hop : op = .add ∨ op = .sub) (hm : m = if op = .sub then -l else l)
      (hr : c_value op ((a + c).setWidth w) y count = some r) : (a + (m + c)).setWidth w = r := by
    rcases hop with rfl | rfl
    · rw [if_neg (by decide)] at hm
      rw [c_value, hy, hm.symm] at hr
      rw [BitVec.add_comm m, ← BitVec.add_assoc, BitVec.setWidth_add _ _ hw, Option.some.inj hr]
    · rw [if_pos rfl] at hm
      rw [c_value, hy] at hr
      rw [hm, BitVec.add_comm (-l), ← BitVec.add_assoc, BitVec.setWidth_add _ _ hw,
        BitVec.setWidth_neg_of_le hw, ← BitVec.sub_eq_add_neg, Option.some.inj hr]
  unfold addAddress at hadd
  simp only at hadd
  obtain ⟨hop, hadd⟩ := Option.ite_none_right_eq_some.mp hadd
  split at hadd
  · rename_i s hloc
    obtain ⟨-, hadd⟩ := Option.ite_none_right_eq_some.mp hadd
    cases hadd
    rw [SValue.word, hloc] at hr
    exact hsum _ _ _ hop rfl hr
  · rename_i c hloc
    obtain ⟨-, hadd⟩ := Option.ite_none_right_eq_some.mp hadd
    cases hadd
    rw [SValue.word, hloc] at hr
    exact hsum _ _ _ hop rfl hr
  · cases hadd

theorem constantResult_isShift {op : Op} {t : Scalar} {l : BitVec 64}
    (h : constantResult op t l = true) : op.isShift = false := by
  cases op <;> first | rfl | simp [constantResult] at h

theorem addAddress_isShift {op : Op} {v v' : SValue} {l : BitVec 64}
    (h : addAddress op v l = some v') : op.isShift = false := by
  unfold addAddress at h
  obtain ⟨rfl | rfl, -⟩ := Option.ite_none_right_eq_some.mp h <;> rfl

/-- The branches of `gen_opic` keep the value of the operation. -/
theorem gen_opic_branches_value {P w : Nat} (hw : 0 < w) (hw64 : w ≤ 64) {cw : Bool} {op : Op}
    {t2 : Scalar} {c1 c2 : Bool} {l1 l2 : BitVec 64} {a b : SValue} (e : Env)
    (ha : c1 = true → constantShift op l1 = true → (a.word e).setWidth w = l1.setWidth w)
    (hb : c2 = true → (op.isShift = true → l2 = 0#64 →
        ((b.word e).setWidth (width P b.type)).toNat = 0) ∧
      (op.isShift = false → (b.word e).setWidth w = l2.setWidth w))
    (ht : op = .or ∨ op = .and → t2.bt ≠ VT_LLONG → w ≤ 32)
    (hpow : ∀ n, op.isShift = false → l2.toNat = 2 ^ n → n < w) {r : BitVec w}
    (hr : operation_value P e w op a b = some r) :
    (gen_opic_branches cw op t2 c1 c2 l1 l2 a b).eval P e w = some r := by
  unfold operation_value at hr
  unfold gen_opic_branches
  by_cases hshift : (!cw && c1 && constantShift op l1) = true
  · rw [if_pos hshift]
    simp only [Bool.and_eq_true] at hshift
    exact congrArg some (constantShift_value hw64 hshift.2 (ha hshift.1.2 hshift.2) hr)
  rw [if_neg hshift]
  by_cases hresult : (!cw && c2 && constantResult op t2 l2) = true
  · rw [if_pos hresult]
    simp only [Bool.and_eq_true] at hresult
    have hop := constantResult_isShift hresult.2
    have hword := (hb hresult.1.2).2 hop
    have hvalue := constantResult_value hw hw64 hresult.2 hword (fun h => ht (Or.inl h)) hr
    rw [Simplified.eval, ← hvalue]
    by_cases hone : l2 = 1#64
    · rw [if_pos hone, if_pos hone]
      rfl
    · rw [if_neg hone, if_neg hone, hword]
  rw [if_neg hresult]
  by_cases hnop : (c2 && noOperation op t2 l2) = true
  · rw [if_pos hnop]
    simp only [Bool.and_eq_true] at hnop
    have hright := hb hnop.1
    exact congrArg some (noOperation_value hw hw64 hnop.2 hright.2 (fun h => ht (Or.inr h)) hright.1 hr)
  rw [if_neg hnop]
  by_cases hpower : (c2 && (op == .mul || op == TOK_PDIV || op == TOK_UDIV)) = true
  · rw [if_pos hpower]
    cases hshiftFor : shiftFor op l2 with
    | none => exact hr
    | some q =>
      obtain ⟨op', n⟩ := q
      have hop : op.isShift = false := by
        obtain ⟨rfl, -⟩ | ⟨rfl, -⟩ | ⟨rfl, -⟩ := (shiftFor_pow hshiftFor).2
        all_goals rfl
      have hn := hpow n hop (shiftFor_pow hshiftFor).1
      simp only [Bool.and_eq_true] at hpower
      have hcount : ((BitVec.ofNat 64 n).setWidth (width P b.type)).toNat = n := by
        have hsmall : n < 2 ^ 32 := by omega
        have hwide : 2 ^ 32 ≤ 2 ^ width P b.type := by
          obtain h | h := width_cases P b.type
          · rw [h]
          · rw [h]
            decide
        rw [BitVec.toNat_setWidth, BitVec.toNat_ofNat, Nat.mod_eq_of_lt (by omega),
          Nat.mod_eq_of_lt (by omega)]
      change c_value op' ((a.word e).setWidth w) ((BitVec.ofNat 64 n).setWidth w)
        ((BitVec.ofNat 64 n).setWidth (width P b.type)).toNat = some r
      rw [hcount]
      exact shiftFor_value hshiftFor ((hb hpower.1).2 hop) hn hr
  rw [if_neg hpower]
  by_cases hc2 : c2 = true
  · rw [if_pos hc2]
    cases hadd : addAddress op a l2 with
    | none => exact hr
    | some v => exact congrArg some (addAddress_value hw64 hadd e ((hb hc2).2 (addAddress_isShift hadd)) hr)
  · rw [if_neg hc2]
    exact hr

theorem commutative_isShift {op : Op} (h : commutative op = true) :
    op.isShift = false ∧ op ≠ .sub ∧ ∀ l, constantShift op l = false := by
  cases op <;> first | exact absurd h (by decide) | simp [Op.isShift, constantShift]

theorem c_value_comm {w : Nat} {op : Op} (h : commutative op = true) (x y : BitVec w) (m n : Nat) :
    c_value op x y m = c_value op y x n := by
  cases op <;> cases h
  · exact congrArg some (BitVec.add_comm x y)
  · exact congrArg some (BitVec.mul_comm x y)
  · exact congrArg some (BitVec.and_comm x y)
  · exact congrArg some (BitVec.xor_comm x y)
  · exact congrArg some (BitVec.or_comm x y)
  · exact congrArg (fun b : Bool => some (if b then 1#w else 0#w)) Bool.beq_comm
  · exact congrArg (fun b : Bool => some (if b then 1#w else 0#w)) bne_comm

theorem word_of_const {e : Env} {v : SValue} {c : BitVec 64} (h : v.const? = some c) :
    v.word e = c := by
  unfold SValue.const? at h
  unfold SValue.word
  split at h
  · rename_i c' hloc
    rw [hloc]
    exact Option.some.inj h
  · cases h

theorem OperandTypes.width_eq {P : Nat} {op : Op} {t1 t2 : Scalar} (h : OperandTypes P op t1 t2)
    (hop : op.isShift = false) : width P t2 = width P t1 := by
  rw [OperandTypes, if_neg (by rw [hop]; decide)] at h
  rcases h with ⟨rfl, -⟩ | ⟨-, -, h⟩
  · rfl
  · exact h

theorem OperandTypes.width_le {P : Nat} {op : Op} {t1 t2 : Scalar} (h : OperandTypes P op t1 t2)
    (hop : op = .or ∨ op = .and) (hbt : t2.bt ≠ VT_LLONG) : width P t1 ≤ 32 := by
  have hshift : ¬op.isShift = true := by
    rcases hop with rfl | rfl <;> decide
  rw [OperandTypes, if_neg hshift] at h
  rcases h with ⟨rfl, h⟩ | ⟨h, -⟩
  · rw [width, h.resolve_right hbt, if_neg (by simp)]
  · rcases hop with rfl | rfl <;> simp at h

/-- With a constant on one side, `gen_opic` keeps the value of the operation for every value of
    the other operand. -/
theorem gen_opic_one_value {P : Nat} (cw : Bool) {op : Op} {v1 v2 : SValue}
    (htypes : OperandTypes P op v1.type v2.type) (e : Env) {r : BitVec (width P v1.type)}
    (hr : operation_value P e (width P v1.type) op v1 v2 = some r) :
    (gen_opic_one P cw op v1 v2).eval P e (width P v1.type) = some r := by
  have hw : 0 < width P v1.type ∧ width P v1.type ≤ 64 := by
    rcases width_cases P v1.type with h | h <;> rw [h] <;> decide
  have hconst {v : SValue} (h : v.const?.isSome = true) :
      (v.word e).setWidth (width P v.type) =
        (trunc_const P v.type (v.const?.getD 0#64)).setWidth (width P v.type) := by
    obtain ⟨c, hc⟩ := Option.isSome_iff_exists.mp h
    rw [trunc_const_setWidth, word_of_const hc, hc, Option.getD_some]
  unfold gen_opic_one
  simp only
  by_cases hswap : (v1.const?.isSome && commutative op) = true
  · rw [if_pos hswap]
    simp only [Bool.and_eq_true] at hswap
    obtain ⟨hc1, hcomm⟩ := hswap
    obtain ⟨hshift, -, hnot⟩ := commutative_isShift hcomm
    refine gen_opic_branches_value hw.1 hw.2 e ?_ ?_ htypes.width_le ?_ ?_
    · intro _ h
      rw [hnot] at h
      cases h
    · intro _
      refine ⟨fun h => ?_, fun _ => hconst hc1⟩
      rw [hshift] at h
      cases h
    · exact fun n _ hn => trunc_const_pow P _ _ hn
    · exact (c_value_comm hcomm _ _ _ _).trans hr
  · rw [if_neg hswap]
    refine gen_opic_branches_value hw.1 hw.2 e ?_ ?_ htypes.width_le ?_ hr
    · exact fun hc1 _ => hconst hc1
    · intro hc2
      constructor
      · intro _ hzero
        rw [hconst hc2, hzero, BitVec.setWidth_zero]
        rfl
      · intro hop
        have hword := hconst hc2
        rw [htypes.width_eq hop] at hword
        exact hword
    · intro n hop hn
      rw [← htypes.width_eq hop]
      exact trunc_const_pow P _ _ hn

/-- `x * 8` becomes `x << 3`, which has its value. -/
theorem gen_opic_one_value_mul :
    let x : SValue := ⟨.llong, .reg 0, 0⟩
    let y : SValue := ⟨.llong, .VT_CONST 8#64, 0⟩
    let e : Env := ⟨fun _ => 0#64, 0#64, fun _ => 5#64⟩
    gen_opic_one 8 false .mul x y = .operation TOK_SHL x ⟨.llong, .VT_CONST 3#64, 0⟩ ∧
      (gen_opic_one 8 false .mul x y).eval 8 e (width 8 x.type) = some 40#64 := by
  intro x y e
  have htypes : OperandTypes 8 .mul x.type y.type := by
    rw [OperandTypes, if_neg (by decide)]
    exact Or.inl ⟨rfl, Or.inr rfl⟩
  have hvalue : operation_value 8 e (width 8 x.type) .mul x y = some 40#64 := rfl
  exact ⟨by decide, gen_opic_one_value false htypes e hvalue⟩

/-- The state of the code generator when what is left of an operation takes the place of its
    operands. -/
def Simplified.push (ll : Bool) (s : Gen) (rest : List SValue) : Simplified → Option Gen
  | .value v => some { s with vstack := v :: rest }
  | .operation op v1 v2 => gen_opil op ll { s with vstack := v2 :: v1 :: rest }

theorem trunc_const_8 (t : Scalar) (l : BitVec 64) : trunc_const 8 t l = opic_trunc t l := by
  simp [trunc_const, opic_trunc]

theorem vswap_of_stack {s : Gen} {a b : SValue} {rest : List SValue} (hs : s.vstack = a :: b :: rest)
    (hcmp : topIsCmp s = false) : vswap s = some { s with vstack := b :: a :: rest } := by
  have hcheck : vcheck_cmp s = some s := by
    unfold vcheck_cmp
    unfold topIsCmp at hcmp
    split
    · rename_i heq
      rw [heq] at hcmp
      cases hcmp
    · rfl
  rw [vswap, hcheck, Option.bind_eq_bind, Option.bind_some, hs]

theorem shiftFor_eq_none {op : Op} {l : BitVec 64}
    (h : ¬(op == .mul || op == TOK_PDIV || op == TOK_UDIV) = true) : shiftFor op l = none := by
  unfold shiftFor
  split
  · cases op <;> first | rfl | exact absurd rfl h
  · rfl

theorem addAddress_eq_none {op : Op} {v : SValue} {l : BitVec 64}
    (h : (op == .mul || op == TOK_PDIV || op == TOK_UDIV) = true) : addAddress op v l = none := by
  unfold addAddress
  simp only
  refine if_neg ?_
  rintro (rfl | rfl) <;> cases h

theorem gen_opic_simplify_eq {op : Op} {ll c1 c2 : Bool} {t2 : Scalar} {l1 l2 : BitVec 64} {s : Gen}
    {v1 v2 : SValue} {rest : List SValue} (hs : s.vstack = v2 :: v1 :: rest)
    (hcmp : topIsCmp s = false) :
    gen_opic_simplify op ll t2 c1 c2 l1 l2 s =
      (gen_opic_branches false op t2 c1 c2 l1 l2 v1 v2).push ll s rest := by
  have hself : s = { s with vstack := v2 :: v1 :: rest } := by rw [← hs]
  have hdrop : vdrop s = { s with vstack := v1 :: rest } := by rw [vdrop, hs, List.tail_cons]
  have htop (f : SValue → SValue) : setTop s f = { s with vstack := f v2 :: v1 :: rest } := by
    rw [setTop, hs]
  unfold gen_opic_simplify gen_opic_branches
  rw [Bool.not_false, Bool.true_and, Bool.true_and]
  split
  · rw [hdrop]
    rfl
  split
  · split
    · rw [htop, vswap_of_stack rfl rfl]
      rfl
    · rw [vswap_of_stack hs hcmp]
      rfl
  split
  · rw [hdrop]
    rfl
  cases c2 with
  | false =>
    rw [if_neg (by decide), Bool.false_and, if_neg (by decide), if_neg (by decide)]
    exact congrArg (gen_opil op ll) hself
  | true =>
    rw [if_pos rfl, Bool.true_and, if_pos rfl]
    by_cases hop : (op == .mul || op == TOK_PDIV || op == TOK_UDIV) = true
    · rw [if_pos hop]
      cases shiftFor op l2 with
      | none =>
        simp only [hs, addAddress_eq_none hop]
        exact congrArg (gen_opil op ll) hself
      | some q =>
        simp only [htop]
        rfl
    · rw [if_neg hop, shiftFor_eq_none hop]
      simp only [hs]
      cases addAddress op v1 l2 with
      | none => exact congrArg (gen_opil op ll) hself
      | some v => rfl

/-- What the 64-bit code generator does with two operands, one of them a constant at most, is
    what is left of their operation. -/
theorem gen_opic_eq {op : Op} {s : Gen} {v1 v2 : SValue} {rest : List SValue}
    (hs : s.vstack = v2 :: v1 :: rest) (hcmp : topIsCmp s = false)
    (hone : v1.const? = none ∨ v2.const? = none) :
    gen_opic op s =
      (gen_opic_one 8 false op v1 v2).push (opic_ll v1.type v2.type) s rest := by
  have hswap := vswap_of_stack hs hcmp
  have hcmp' (hc : v1.const?.isSome = true) :
      topIsCmp { s with vstack := v1 :: v2 :: rest } = false := by
    obtain ⟨t, l, m⟩ := v1
    cases l <;> first | rfl | cases hc
  unfold gen_opic gen_opic_one
  rw [hs]
  simp only [trunc_const_8]
  rcases hc1 : v1.const? with - | c1
  · simp only [Option.isSome_none, Bool.false_and, Bool.false_eq_true, if_false]
    exact gen_opic_simplify_eq hs hcmp
  · have hc2 : v2.const? = none := hone.resolve_left (by rw [hc1]; nofun)
    rw [hc2]
    simp only [Option.isSome_some, Bool.true_and]
    split
    · rw [hswap, Option.bind_eq_bind, Option.bind_some]
      exact gen_opic_simplify_eq rfl (hcmp' (by rw [hc1]; rfl))
    · exact gen_opic_simplify_eq hs hcmp

end tcc
