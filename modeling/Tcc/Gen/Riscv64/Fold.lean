import Tcc.Gen.Opic
import Tcc.Gen.Riscv64.Opil

open machine.rv64

namespace tcc.riscv64

open BType tcc.Op

/-- The type of the second operand: `gen_op` casts shift counts to `int`. -/
def operand2 (op : Op) (t : Scalar) : Scalar := if op.isShift then .int else t

/-- The type of the result. -/
def resultType (op : Op) (t : Scalar) : Scalar := if op.isCmp then .int else t

attribute [local simp] opic_op in
theorem opic_op_cmp {op : Op} (hop : op.isCmp = true) (shm x y : BitVec 64) :
    opic_op op shm x y = some (boolWord (op.holds x y)) := by
  cases op with
  | TOK_LT => simp only [opic_op, gen_opic_lt_eq, Op.holds]
  | TOK_GE => simp only [opic_op, gen_opic_lt_eq, Op.holds]
  | TOK_LE => simp only [opic_op, gen_opic_lt_eq, Op.holds]
  | TOK_GT => simp only [opic_op, gen_opic_lt_eq, Op.holds]
  | TOK_ULT | TOK_UGE | TOK_ULE | TOK_UGT | TOK_EQ | TOK_NE => rfl
  | _ => exact absurd hop (by decide)

theorem and_63_toNat (y : BitVec 64) : (y &&& 63#64).toNat = y.toNat % 64 := by
  rw [BitVec.toNat_and]
  exact Nat.and_two_pow_sub_one_eq_mod y.toNat 6

theorem and_31_toNat (y : BitVec 64) : (y &&& 31#64).toNat = (y.setWidth 32).toNat % 32 := by
  rw [BitVec.toNat_and, BitVec.toNat_setWidth, Nat.mod_mod_of_dvd _ (by decide)]
  exact Nat.and_two_pow_sub_one_eq_mod y.toNat 5

/-- On 64-bit operands the folded value is the one the instruction computes. -/
theorem opic_op_alu {op : Op} (hcmp : op.isCmp = false) (hland : op ≠ TOK_LAND)
    (hlor : op ≠ TOK_LOR) (hpdiv : op ≠ TOK_PDIV) {x y l : BitVec 64}
    (h : opic_op op 63#64 x y = some l) : op.alu x y = l := by
  cases op with
  | add | sub | mul | and | xor | or => exact Option.some.inj h
  | div =>
    simp only [opic_op, Option.ite_none_left_eq_some, Option.some.injEq, gen_opic_sdiv_eq] at h
    rw [Op.alu, divS, if_neg h.1, h.2]
  | mod =>
    simp only [opic_op, Option.ite_none_left_eq_some, Option.some.injEq, gen_opic_srem_eq] at h
    exact h.2
  | TOK_UDIV =>
    simp only [opic_op, Option.ite_none_left_eq_some, Option.some.injEq] at h
    rw [Op.alu, divU, if_neg h.1, h.2]
  | TOK_UMOD =>
    simp only [opic_op, Option.ite_none_left_eq_some, Option.some.injEq] at h
    exact h.2
  | TOK_SHL | TOK_SHR =>
    simp only [opic_op, and_63_toNat, Option.some.injEq] at h
    exact h
  | TOK_SAR =>
    simp only [opic_op, opic_sar_eq, and_63_toNat, Option.some.injEq] at h
    exact h
  | TOK_PDIV => exact absurd rfl hpdiv
  | TOK_LAND => exact absurd rfl hland
  | TOK_LOR => exact absurd rfl hlor
  | _ => exact absurd hcmp (by decide)

/-- On signed words, taken as 64-bit operands, the folded value has the low word
    that the word instruction computes. -/
theorem opic_op_int {op : Op} (hcmp : op.isCmp = false) (hused : op.usedAt .int)
    (hpdiv : op ≠ TOK_PDIV) {x y : BitVec 32} {l : BitVec 64}
    (h : opic_op op 31#64 (x.signExtend 64) (y.signExtend 64) = some l) :
    op.alu x y = l.setWidth 32 := by
  cases op with
  | add | mul | and | xor | or =>
    simp only [opic_op, Option.some.injEq] at h
    subst h
    simp only [Op.alu, BitVec.setWidth_add, BitVec.setWidth_mul, BitVec.setWidth_and,
      BitVec.setWidth_or, BitVec.setWidth_xor, machine.setWidth_signExtend, Nat.reduceLeDiff]
  | sub =>
    simp only [opic_op, Option.some.injEq] at h
    rw [← h, machine.setWidth_sub, machine.setWidth_signExtend, machine.setWidth_signExtend, Op.alu]
  | div =>
    simp only [opic_op, Option.ite_none_left_eq_some, Option.some.injEq, gen_opic_sdiv_eq] at h
    obtain ⟨hne, rfl⟩ := h
    have hy : y ≠ 0#32 := fun h0 => hne (by rw [h0]; rfl)
    rw [Op.alu, divS, if_neg hy, machine.sdiv_signExtend]
  | mod =>
    simp only [opic_op, Option.ite_none_left_eq_some, Option.some.injEq, gen_opic_srem_eq] at h
    rw [← h.2, machine.srem_signExtend, Op.alu]
  | TOK_SHL =>
    simp only [opic_op, and_31_toNat, machine.setWidth_signExtend, Option.some.injEq] at h
    rw [← h, BitVec.setWidth_shiftLeft_of_le (by decide), machine.setWidth_signExtend, Op.alu]
  | TOK_SAR =>
    simp only [opic_op, opic_sar_eq, and_31_toNat, machine.setWidth_signExtend,
      Option.some.injEq] at h
    rw [← h, machine.sshiftRight_signExtend, Op.alu]
  | TOK_PDIV => exact absurd rfl hpdiv
  | TOK_LAND => exact absurd rfl hused.1
  | TOK_LOR => exact absurd rfl hused.2.1
  | TOK_UDIV | TOK_UMOD | TOK_SHR => exact absurd (hused.2.2.2 rfl) (by decide)
  | _ => exact absurd hcmp (by decide)

/-- The same on unsigned words; the count of a shift is still signed. -/
theorem opic_op_uint {op : Op} (hcmp : op.isCmp = false) (hused : op.usedAt .uint)
    (hpdiv : op ≠ TOK_PDIV) {x y : BitVec 32} {l : BitVec 64}
    (h : opic_op op 31#64 (x.setWidth 64)
      (if op.isShift then y.signExtend 64 else y.setWidth 64) = some l) :
    op.alu x y = l.setWidth 32 := by
  cases op with
  | add | mul | and | xor | or =>
    simp only [opic_op, Op.isShift, Option.some.injEq, Bool.false_eq_true, if_false] at h
    subst h
    simp only [Op.alu, BitVec.setWidth_add, BitVec.setWidth_mul, BitVec.setWidth_and,
      BitVec.setWidth_or, BitVec.setWidth_xor, machine.setWidth_zeroExtend, Nat.reduceLeDiff]
  | sub =>
    simp only [opic_op, Op.isShift, Option.some.injEq, Bool.false_eq_true, if_false] at h
    rw [← h, machine.setWidth_sub, machine.setWidth_zeroExtend, machine.setWidth_zeroExtend,
      Op.alu]
  | TOK_UDIV =>
    simp only [opic_op, Op.isShift, Bool.false_eq_true, if_false, Option.ite_none_left_eq_some,
      Option.some.injEq] at h
    obtain ⟨hne, rfl⟩ := h
    have hy : y ≠ 0#32 := fun h0 => hne (by rw [h0]; rfl)
    rw [Op.alu, divU, if_neg hy, machine.udiv_zeroExtend]
  | TOK_UMOD =>
    simp only [opic_op, Op.isShift, Bool.false_eq_true, if_false, Option.ite_none_left_eq_some,
      Option.some.injEq] at h
    rw [← h.2, machine.umod_zeroExtend, Op.alu]
  | TOK_SHL =>
    simp only [opic_op, Op.isShift, if_true, and_31_toNat, machine.setWidth_signExtend,
      Option.some.injEq] at h
    rw [← h, BitVec.setWidth_shiftLeft_of_le (by decide), machine.setWidth_zeroExtend, Op.alu]
  | TOK_SHR =>
    simp only [opic_op, Op.isShift, if_true, and_31_toNat, machine.setWidth_signExtend,
      Option.some.injEq] at h
    rw [← h, machine.ushiftRight_zeroExtend, Op.alu]
  | TOK_PDIV => exact absurd rfl hpdiv
  | TOK_LAND => exact absurd rfl hused.1
  | TOK_LOR => exact absurd rfl hused.2.1
  | div | mod | TOK_SAR => exact absurd (hused.2.2.1 rfl) (by decide)
  | _ => exact absurd hcmp (by decide)

theorem holds_signExtend (op : Op) (x y : BitVec 32) :
    op.holds (x.signExtend 64) (y.signExtend 64) = op.holds x y := by
  have heq : (x.signExtend 64 == y.signExtend 64) = (x == y) := by
    rw [Bool.eq_iff_iff, beq_iff_eq, beq_iff_eq, machine.signExtend_inj]
  cases op <;>
    simp only [Op.holds, machine.ult_signExtend, machine.slt_signExtend, bne, heq]

theorem holds_zeroExtend {op : Op} (hsigned : op.signed = false) (x y : BitVec 32) :
    op.holds (x.setWidth 64) (y.setWidth 64) = op.holds x y := by
  have heq : (x.setWidth 64 == y.setWidth 64) = (x == y) := by
    rw [Bool.eq_iff_iff, beq_iff_eq, beq_iff_eq, machine.zeroExtend_inj]
  cases op with
  | TOK_LT | TOK_GE | TOK_LE | TOK_GT => exact absurd hsigned (by decide)
  | _ => simp only [Op.holds, machine.ult_zeroExtend, bne, heq]

/-- On registers that hold sign-extended words every operation computes the
    sign-extended result of the word operation. -/
theorem opil_value_word {op : Op} (hcmp : op.isCmp = false) (x y : BitVec 32) :
    opil_value op false (x.signExtend 64) (y.signExtend 64) = (op.alu x y).signExtend 64 := by
  rw [opil_value, hcmp, if_neg (by decide), Bool.false_or]
  split
  · cases op with
    | and => exact BitVec.signExtend_and.symm
    | xor => exact BitVec.signExtend_xor.symm
    | or => exact BitVec.signExtend_or.symm
    | _ => rename_i h; exact absurd h (by decide)
  · rw [machine.setWidth_signExtend, machine.setWidth_signExtend]

theorem opic_trunc_boolWord (t : Scalar) (b : Bool) : opic_trunc t (boolWord b) = boolWord b := by
  unfold opic_trunc
  split
  · cases b <;> cases t.unsigned <;> decide
  · rfl

theorem regValue_boolWord (t : Scalar) (b : Bool) : regValue t (boolWord b) = boolWord b := by
  unfold regValue
  split
  · cases b <;> decide
  · rfl

/-- When the generated code computes the folded constant: always, apart from
    dividing a negative difference of pointers. -/
def agreesWhen (op : Op) (t : Scalar) (v1 v2 : BitVec 64) : Prop :=
  op = TOK_PDIV → 0 ≤ (opic_trunc t v1).toInt ∨ opic_trunc t v2 = 1#64

theorem opil_value_cmp {op : Op} (hop : op.isCmp = true) (ll : Bool) (x y : BitVec 64) :
    opil_value op ll x y = boolWord (op.holds x y) := by
  rw [opil_value, if_pos hop]

theorem isCmp_ne_pdiv {op : Op} (hop : op.isCmp = true) : op ≠ TOK_PDIV := by
  rintro rfl
  exact absurd hop (by decide)

theorem fold_llong_iff {op : Op} {unsigned : Bool} {v1 v2 c : BitVec 64}
    (hused : op.usedAt ⟨VT_LLONG, unsigned⟩)
    (hfold : gen_opic_const op ⟨VT_LLONG, unsigned⟩ (operand2 op ⟨VT_LLONG, unsigned⟩) v1 v2 =
      some c)
    (hpos : op = TOK_PDIV → 0 < v2.toInt) :
    opil_value op true v1 (regValue (operand2 op ⟨VT_LLONG, unsigned⟩) v2) =
        regValue (resultType op ⟨VT_LLONG, unsigned⟩) c ↔
      agreesWhen op ⟨VT_LLONG, unsigned⟩ v1 v2 := by
  have hsecond : opic_trunc (operand2 op ⟨VT_LLONG, unsigned⟩) v2 =
      regValue (operand2 op ⟨VT_LLONG, unsigned⟩) v2 := by
    unfold operand2
    split
    · exact opic_trunc_int v2
    · rfl
  obtain ⟨l, hl, hc⟩ := Option.map_eq_some_iff.mp hfold
  change opic_op op 63#64 v1 _ = some l at hl
  change l = c at hc
  subst hc
  rw [hsecond] at hl
  by_cases hcmp : op.isCmp = true
  · rw [opic_op_cmp hcmp, Option.some.injEq] at hl
    rw [opil_value_cmp hcmp, hl, ← hl, regValue_boolWord]
    exact iff_of_true rfl fun hp => absurd hp (isCmp_ne_pdiv hcmp)
  · rw [Bool.not_eq_true] at hcmp
    rw [opil_value, hcmp, if_neg (by decide), Bool.true_or, if_pos rfl]
    simp only [resultType, hcmp, Bool.false_eq_true, if_false]
    change _ = l ↔ _
    by_cases hp : op = TOK_PDIV
    · subst hp
      change opic_op TOK_PDIV 63#64 v1 v2 = some l at hl
      simp only [opic_op, Option.ite_none_left_eq_some, Option.some.injEq,
        gen_opic_sdiv_eq] at hl
      obtain ⟨hne, rfl⟩ := hl
      change divU v1 v2 = _ ↔ (_ → 0 ≤ v1.toInt ∨ v2 = 1#64)
      rw [divU, if_neg hne, eq_comm, machine.sdiv_eq_udiv_iff _ _ (hpos rfl)]
      exact ⟨fun h _ => h, fun h => h rfl⟩
    · exact iff_of_true (opic_op_alu hcmp hused.1 hused.2.1 hp hl) fun h => absurd h hp

theorem fold_int_iff {op : Op} {v1 v2 c : BitVec 64} (hused : op.usedAt .int)
    (hfold : gen_opic_const op .int (operand2 op .int) v1 v2 = some c)
    (hpos : op = TOK_PDIV → 0 < (opic_trunc .int v2).toInt) :
    opil_value op false (regValue .int v1) (regValue (operand2 op .int) v2) =
        regValue (resultType op .int) c ↔ agreesWhen op .int v1 v2 := by
  have hop2 : operand2 op .int = .int := by
    unfold operand2
    split <;> rfl
  have hres : resultType op .int = .int := by
    unfold resultType
    split <;> rfl
  obtain ⟨l, hl, rfl⟩ := Option.map_eq_some_iff.mp hfold
  rw [hop2, opic_trunc_int, opic_trunc_int] at hl
  rw [hop2, hres]
  change opil_value op false ((v1.setWidth 32).signExtend 64) ((v2.setWidth 32).signExtend 64) = _ ↔ _
  generalize hx : v1.setWidth 32 = x at *
  generalize hy : v2.setWidth 32 = y at *
  by_cases hcmp : op.isCmp = true
  · rw [opic_op_cmp hcmp, Option.some.injEq] at hl
    rw [opil_value_cmp hcmp, ← hl, opic_trunc_boolWord, regValue_boolWord]
    exact iff_of_true rfl fun hp => absurd hp (isCmp_ne_pdiv hcmp)
  · rw [Bool.not_eq_true] at hcmp
    rw [opil_value_word hcmp]
    change _ = ((opic_trunc .int l).setWidth 32).signExtend 64 ↔ _
    rw [opic_trunc_setWidth, machine.signExtend_inj]
    by_cases hp : op = TOK_PDIV
    · subst hp
      simp only [opic_op, Option.ite_none_left_eq_some, Option.some.injEq,
        gen_opic_sdiv_eq] at hl
      obtain ⟨hne, rfl⟩ := hl
      have hy0 : y ≠ 0#32 := fun h0 => hne (by rw [h0]; rfl)
      have hypos : 0 < y.toInt := by
        rw [← machine.toInt_signExtend, ← hy, ← opic_trunc_int]
        exact hpos rfl
      have hyone : y.signExtend 64 = 1#64 ↔ y = 1#32 :=
        machine.signExtend_inj (y := 1#32)
      rw [machine.sdiv_signExtend, Op.alu, divU, if_neg hy0, eq_comm,
        machine.sdiv_eq_udiv_iff _ _ hypos, agreesWhen, opic_trunc_int, opic_trunc_int, hx, hy,
        machine.toInt_signExtend, hyone]
      exact ⟨fun h _ => h, fun h => h rfl⟩
    · exact iff_of_true (opic_op_int hcmp hused hp hl) fun h => absurd h hp

theorem fold_uint_iff {op : Op} {v1 v2 c : BitVec 64} (hused : op.usedAt .uint)
    (hfold : gen_opic_const op .uint (operand2 op .uint) v1 v2 = some c) :
    opil_value op false (regValue .uint v1) (regValue (operand2 op .uint) v2) =
        regValue (resultType op .uint) c ↔ agreesWhen op .uint v1 v2 := by
  have hsecond : opic_trunc (operand2 op .uint) v2 =
      if op.isShift then (v2.setWidth 32).signExtend 64 else (v2.setWidth 32).setWidth 64 := by
    unfold operand2
    split
    · exact opic_trunc_int v2
    · exact opic_trunc_uint v2
  have hreg : regValue (operand2 op .uint) v2 = (v2.setWidth 32).signExtend 64 := by
    unfold operand2
    split <;> rfl
  obtain ⟨l, hl, rfl⟩ := Option.map_eq_some_iff.mp hfold
  have hnonneg : 0 ≤ (opic_trunc .uint v1).toInt := by
    rw [opic_trunc_uint, BitVec.toInt_eq_toNat_of_lt]
    · exact Int.natCast_nonneg _
    · rw [machine.toNat_zeroExtend]
      have := (v1.setWidth 32).isLt
      omega
  refine iff_of_true ?_ fun _ => Or.inl hnonneg
  rw [hsecond] at hl
  rw [hreg]
  change opil_value op false ((v1.setWidth 32).signExtend 64) _ = _
  rw [opic_trunc_uint] at hl hnonneg
  generalize v1.setWidth 32 = x at *
  generalize v2.setWidth 32 = y at *
  by_cases hcmp : op.isCmp = true
  · have hshift : op.isShift = false := by
      cases op <;> first | rfl | exact absurd hcmp (by decide)
    have hsigned : op.signed = false := by
      cases hs : op.signed with
      | false => rfl
      | true => exact absurd (hused.2.2.1 hs) (by decide)
    rw [opic_op_cmp hcmp, Option.some.injEq, hshift, if_neg (by decide),
      holds_zeroExtend hsigned] at hl
    rw [opil_value_cmp hcmp, ← hl, opic_trunc_boolWord, regValue_boolWord, holds_signExtend]
  · rw [Bool.not_eq_true] at hcmp
    rw [opil_value_word hcmp, resultType, hcmp, if_neg (by decide)]
    change _ = ((opic_trunc .uint l).setWidth 32).signExtend 64
    rw [opic_trunc_setWidth, machine.signExtend_inj]
    by_cases hp : op = TOK_PDIV
    · subst hp
      simp only [opic_op, Op.isShift, Bool.false_eq_true, if_false, Option.ite_none_left_eq_some,
        Option.some.injEq, gen_opic_sdiv_eq] at hl
      obtain ⟨hne, rfl⟩ := hl
      have hy0 : y ≠ 0#32 := fun h0 => hne (by rw [h0]; rfl)
      have hypos : 0 < (y.setWidth 64).toInt := by
        rw [BitVec.toInt_eq_toNat_of_lt, machine.toNat_zeroExtend]
        · have : y.toNat ≠ 0 := fun h0 => hy0 (BitVec.eq_of_toNat_eq h0)
          omega
        · rw [machine.toNat_zeroExtend]
          have := y.isLt
          omega
      rw [(machine.sdiv_eq_udiv_iff _ _ hypos).mpr (Or.inl hnonneg), machine.udiv_zeroExtend,
        Op.alu, divU, if_neg hy0]
    · exact opic_op_uint hcmp hused hp hl

/-- Constant folding against generated code. The operands are held in the
    registers `a` and `b`, the result is wanted in `d`: the code of the operation
    leaves there the constant `gen_opic` folds, unless it divides a negative
    difference of pointers, which is folded as a signed and emitted as an
    unsigned division. -/
theorem fold_agrees_iff {op : Op} {t : Scalar}
    (ht : t = .int ∨ t = .uint ∨ t = .llong ∨ t = .ullong) (hused : op.usedAt t)
    {v1 v2 c : BitVec 64} (hfold : gen_opic_const op t (operand2 op t) v1 v2 = some c)
    (hpos : op = TOK_PDIV → 0 < (opic_trunc t v2).toInt) {d a b : BitVec 5} (hd : d ≠ 0#5)
    {h : Hart} (ha : h.get a = regValue t v1) (hb : h.get b = regValue (operand2 op t) v2) :
    ∃ ws h', opil_code op (opic_ll t (operand2 op t)) d a b = some ws ∧ run ws h = some h' ∧
      (h'.get d = regValue (resultType op t) c ↔
        (op = TOK_PDIV → 0 ≤ (opic_trunc t v1).toInt ∨ opic_trunc t v2 = 1#64)) := by
  obtain ⟨ws, h', hcode, hrun, hsets⟩ :=
    opil_code_run op (opic_ll t (operand2 op t)) hd a b h hused.1 hused.2.1
  refine ⟨ws, h', hcode, hrun, ?_⟩
  rw [hsets.value, ha, hb]
  obtain rfl | rfl | rfl | rfl := ht
  · have hll : opic_ll .int (operand2 op .int) = false := by
      unfold operand2
      split <;> rfl
    rw [hll]
    exact fold_int_iff hused hfold hpos
  · have hll : opic_ll .uint (operand2 op .uint) = false := by
      unfold operand2
      split <;> rfl
    rw [hll]
    exact fold_uint_iff hused hfold
  · exact fold_llong_iff hused hfold hpos
  · exact fold_llong_iff hused hfold hpos

/-- Two pointers to elements of 12 bytes, two elements apart. -/
theorem fold_agrees_six :
    ∃ ws h', opil_code TOK_PDIV true 10 10 11 = some ws ∧
      run ws ⟨fun r => if r = 10 then 72#64 else 12#64, fun _ => 0, 0⟩ = some h' ∧
      (h'.get 10 = 6#64 ↔ (TOK_PDIV = TOK_PDIV → 0 ≤ (72#64).toInt ∨ 12#64 = 1#64)) :=
  @fold_agrees_iff _ .llong (by decide) (by decide) 72 12 6 (by decide) (by decide) _ _ _ (by decide) _ rfl rfl

/-- The difference `p - (p + 2)` of pointers to elements of 12 bytes is folded to
    `-2`; the generated code divides `-24` by `12` as unsigned numbers. -/
theorem negative_difference_differs :
    gen_opic_const TOK_PDIV .llong .llong (-24#64) 12#64 = some (-2#64) ∧
      ∃ ws h', opil_code TOK_PDIV true 10 10 11 = some ws ∧
        run ws ⟨fun r => if r = 10 then -24#64 else 12#64, fun _ => 0, 0⟩ = some h' ∧
        h'.get 10 = 1537228672809129299#64 := by
  refine ⟨by decide, _, _, rfl, rfl, ?_⟩
  decide

end tcc.riscv64
