import Mathlib.Data.Nat.SuccPred
import Tcc.Machine.Rv32.Decode

open machine machine.rv32
open machine.rv64 hiding Format

namespace tcc.riscv32

def emit_R (funct7 rs2 rs1 funct3 rd opcode : BitVec 32) : Word :=
  funct7 <<< 25 ||| rs2 <<< 20 ||| rs1 <<< 15 ||| funct3 <<< 12 ||| rd <<< 7 ||| opcode

def emit_I (imm rs1 funct3 rd opcode : BitVec 32) : Word :=
  imm <<< 20 ||| rs1 <<< 15 ||| funct3 <<< 12 ||| rd <<< 7 ||| opcode

def emit_S (imm rs2 rs1 funct3 opcode : BitVec 32) : Word :=
  let imm_h := 0x7f#32 &&& (imm >>> 5)
  let imm_l := 0x1f#32 &&& imm
  imm_h <<< 25 ||| rs2 <<< 20 ||| rs1 <<< 15 ||| funct3 <<< 12 ||| imm_l <<< 7 ||| opcode

def emit_B (imm rs2 rs1 funct3 opcode : BitVec 32) : Word :=
  let imm_h := 0x7f#32 &&& ((((0x800#32 &&& imm) >>> 1) ||| (0x7e0#32 &&& imm)) >>> 5)
  let imm_l := (0x1e#32 &&& imm) ||| (0x1#32 &&& (imm >>> 11))
  imm_h <<< 25 ||| rs2 <<< 20 ||| rs1 <<< 15 ||| funct3 <<< 12 ||| imm_l <<< 7 ||| opcode

def emit_U (imm rd opcode : BitVec 32) : Word := imm <<< 12 ||| rd <<< 7 ||| opcode

def emit_J (imm rd opcode : BitVec 32) : Word :=
  let immediate := ((imm >>> 12) &&& 0xff#32) <<< 12 ||| ((imm >>> 11) &&& 1#32) <<< 20 |||
    ((imm >>> 1) &&& 0x3ff#32) <<< 21 ||| ((imm >>> 20) &&& 1#32) <<< 31
  immediate ||| rd <<< 7 ||| opcode

section

variable (opc : BitVec 7) (f3 : BitVec 3) (d a b : BitVec 5) (f7 : BitVec 7) (imm : BitVec 32)

/-- The fields of a word are the arguments of its encoder. -/
theorem fields_emit_R : fields .R (emit_R (f7.setWidth 32) (b.setWidth 32) (a.setWidth 32)
    (f3.setWidth 32) (d.setWidth 32) (opc.setWidth 32)) = .R opc d f3 a b f7 := by
  rw [fields, Fields.R.injEq]
  refine ⟨?_, ?_, ?_, ?_, ?_, ?_⟩ <;> ext i hi <;> interval_cases i <;>
    simp [emit_R, opcode, rd, funct3, rs1, rs2, funct7]

theorem fields_emit_I : fields .I (emit_I imm (a.setWidth 32) (f3.setWidth 32) (d.setWidth 32)
    (opc.setWidth 32)) = .I opc d f3 a ((imm.setWidth 12).signExtend 32) := by
  rw [fields, Fields.I.injEq, rv32.immI]
  refine ⟨?_, ?_, ?_, ?_, congrArg (BitVec.signExtend 32) ?_⟩ <;> ext i hi <;> interval_cases i <;>
    simp [emit_I, opcode, rd, funct3, rs1]

theorem fields_emit_S : fields .S (emit_S imm (b.setWidth 32) (a.setWidth 32) (f3.setWidth 32)
    (opc.setWidth 32)) = .S opc f3 a b ((imm.setWidth 12).signExtend 32) := by
  rw [fields, Fields.S.injEq, rv32.immS]
  refine ⟨?_, ?_, ?_, ?_, congrArg (BitVec.signExtend 32) ?_⟩ <;> ext i hi <;> interval_cases i <;>
    simp [emit_S, opcode, funct3, rs1, rs2]

theorem fields_emit_U : fields .U (emit_U imm (d.setWidth 32) (opc.setWidth 32)) =
    .U opc d (imm <<< 12) := by
  rw [fields, Fields.U.injEq, rv32.immU]
  refine ⟨?_, ?_, ?_⟩ <;> ext i hi <;> interval_cases i <;> simp [emit_U, opcode, rd]

theorem fields_emit_J : fields .J (emit_J imm (d.setWidth 32) (opc.setWidth 32)) =
    .J opc d (((imm &&& ~~~1#32).setWidth 21).signExtend 32) := by
  rw [fields, Fields.J.injEq, rv32.immJ]
  refine ⟨?_, ?_, congrArg (BitVec.signExtend 32) ?_⟩ <;> ext i hi <;> interval_cases i <;>
    simp [emit_J, opcode, rd]

/-- The immediate that a branch gets: bit 12 is lost, and bit 11 also sets bit 10. -/
def branchImm (imm : BitVec 32) : BitVec 32 :=
  ((imm >>> 1) &&& 0x400#32) ||| (imm &&& 0xffe#32)

theorem fields_emit_B : fields .B (emit_B imm (b.setWidth 32) (a.setWidth 32) (f3.setWidth 32)
    (opc.setWidth 32)) = .B opc f3 a b (branchImm imm) := by
  have hpos : branchImm imm = ((branchImm imm).setWidth 13).signExtend 32 := by
    ext i hi
    interval_cases i <;> simp [branchImm, BitVec.getElem_signExtend, BitVec.msb_eq_getLsbD_last]
  rw [hpos, fields, Fields.B.injEq, rv32.immB]
  refine ⟨?_, ?_, ?_, ?_, congrArg (BitVec.signExtend 32) ?_⟩ <;> ext i hi <;> interval_cases i <;>
    simp [emit_B, branchImm, opcode, funct3, rs1, rs2]

end

theorem getLsbD_branchImm (imm : BitVec 32) (i : Nat) : (branchImm imm).getLsbD i =
    if i = 10 then imm.getLsbD 11 || imm.getLsbD 10
    else decide (1 ≤ i ∧ i < 12) && imm.getLsbD i := by
  by_cases hi : i < 32
  · have hhigh : ∀ i : Fin 32, (0x400#32).getLsbD i = decide (i.val = 10) := by decide
    have hlow : ∀ i : Fin 32, (0xffe#32).getLsbD i = decide (1 ≤ i.val ∧ i.val < 12) := by decide
    rw [branchImm, BitVec.getLsbD_or, BitVec.getLsbD_and, BitVec.getLsbD_and,
      BitVec.getLsbD_ushiftRight, hhigh ⟨i, hi⟩, hlow ⟨i, hi⟩]
    by_cases h10 : i = 10
    · simp [h10]
    · simp [h10, Bool.and_comm]
  · rw [BitVec.getLsbD_of_ge _ _ (by omega), if_neg (by omega), BitVec.getLsbD_of_ge imm _ (by omega),
      Bool.and_false]

theorem branchImm_eq_iff_bits (imm : BitVec 32) : branchImm imm = imm ↔
    imm.getLsbD 0 = false ∧ imm.toNat < 2 ^ 12 ∧ (imm.getLsbD 11 = true → imm.getLsbD 10 = true) := by
  constructor
  · intro heq
    have hbit (i : Nat) : imm.getLsbD i = (if i = 10 then imm.getLsbD 11 || imm.getLsbD 10
        else decide (1 ≤ i ∧ i < 12) && imm.getLsbD i) := by
      rw [← getLsbD_branchImm, heq]
    refine ⟨hbit 0, Nat.lt_pow_two_of_testBit _ fun i hi => ?_, fun h11 => ?_⟩
    · have := hbit i
      rw [if_neg (by omega), decide_eq_false (by omega), Bool.false_and] at this
      exact this
    · rw [hbit 10, if_pos rfl, h11, Bool.true_or]
  · rintro ⟨heven, hlt, hhigh⟩
    apply BitVec.eq_of_getLsbD_eq
    intro i _
    rw [getLsbD_branchImm]
    by_cases h10 : i = 10
    · rw [if_pos h10, h10]
      cases h11 : imm.getLsbD 11 with
      | false => rw [Bool.false_or]
      | true => rw [hhigh h11, Bool.or_true]
    · rw [if_neg h10]
      by_cases hmid : 1 ≤ i ∧ i < 12
      · rw [decide_eq_true hmid, Bool.true_and]
      · rw [decide_eq_false hmid, Bool.false_and]
        by_cases h0 : i = 0
        · rw [h0, heven]
        · exact (Nat.testBit_lt_two_pow
            (hlt.trans_le (Nat.pow_le_pow_right (by decide) (by omega)))).symm

/-- A branch keeps its displacement when this is not negative and either has bit 11 clear
    or both bits 10 and 11 set. -/
theorem branchImm_eq_iff {imm : BitVec 32} (heven : imm.getLsbD 0 = false) :
    branchImm imm = imm ↔
      (0 ≤ imm.toInt ∧ imm.toInt < 2 ^ 11) ∨ (3 * 2 ^ 10 ≤ imm.toInt ∧ imm.toInt < 2 ^ 12) := by
  have hlt := imm.isLt
  rw [branchImm_eq_iff_bits, and_iff_right heven, BitVec.getLsbD, BitVec.getLsbD,
    Nat.testBit_eq_decide_div_mod_eq, Nat.testBit_eq_decide_div_mod_eq, decide_eq_true_iff,
    decide_eq_true_iff, BitVec.toInt_eq_toNat_cond]
  split <;> omega

/-- Different immediates give different words. -/
def Separates (represents : BitVec 32 → Prop) (emit : BitVec 32 → Word) : Prop :=
  ∀ imm imm', represents imm → represents imm' → emit imm = emit imm' → imm = imm'

theorem separates_of_fields {represents : BitVec 32 → Prop} {emit : BitVec 32 → Word} {f : Format}
    {mk : BitVec 32 → Fields} (hmk : Function.Injective mk)
    (hfields : ∀ imm, represents imm → fields f (emit imm) = mk imm) :
    Separates represents emit := by
  intro imm imm' himm himm' heq
  apply hmk
  rw [← hfields imm himm, heq, hfields imm' himm']

/-- Decoding the word of an encoder gives back the arguments, for every format but `B`
    and for every immediate that the format represents; `B` gives its immediate back
    exactly for those that are not negative and, from 2 KiB on, are at least 3 KiB. -/
theorem encoders_faithful_iff (opc : BitVec 7) (f3 : BitVec 3) (d a b : BitVec 5) (f7 : BitVec 7) :
    fields .R (emit_R (f7.setWidth 32) (b.setWidth 32) (a.setWidth 32) (f3.setWidth 32)
      (d.setWidth 32) (opc.setWidth 32)) = .R opc d f3 a b f7 ∧
    (∀ imm, Format.I.Represents imm → fields .I (emit_I imm (a.setWidth 32) (f3.setWidth 32)
      (d.setWidth 32) (opc.setWidth 32)) = .I opc d f3 a imm) ∧
    (∀ imm, Format.S.Represents imm → fields .S (emit_S imm (b.setWidth 32) (a.setWidth 32)
      (f3.setWidth 32) (opc.setWidth 32)) = .S opc f3 a b imm) ∧
    (∀ imm, Format.B.Represents imm → (fields .B (emit_B imm (b.setWidth 32) (a.setWidth 32)
      (f3.setWidth 32) (opc.setWidth 32)) = .B opc f3 a b imm ↔
        (0 ≤ imm.toInt ∧ imm.toInt < 2 ^ 11) ∨ (3 * 2 ^ 10 ≤ imm.toInt ∧ imm.toInt < 2 ^ 12))) ∧
    (∀ imm, Format.U.Represents imm → fields .U (emit_U imm (d.setWidth 32) (opc.setWidth 32)) =
      .U opc d (imm <<< 12)) ∧
    (∀ imm, Format.J.Represents imm → fields .J (emit_J imm (d.setWidth 32) (opc.setWidth 32)) =
      .J opc d imm) ∧
    Separates Format.I.Represents (emit_I · (a.setWidth 32) (f3.setWidth 32) (d.setWidth 32)
      (opc.setWidth 32)) ∧
    Separates Format.S.Represents (emit_S · (b.setWidth 32) (a.setWidth 32) (f3.setWidth 32)
      (opc.setWidth 32)) ∧
    Separates (fun imm => Format.B.Represents imm ∧ ((0 ≤ imm.toInt ∧ imm.toInt < 2 ^ 11) ∨
      (3 * 2 ^ 10 ≤ imm.toInt ∧ imm.toInt < 2 ^ 12)))
      (emit_B · (b.setWidth 32) (a.setWidth 32) (f3.setWidth 32) (opc.setWidth 32)) ∧
    Separates Format.U.Represents (emit_U · (d.setWidth 32) (opc.setWidth 32)) ∧
    Separates Format.J.Represents (emit_J · (d.setWidth 32) (opc.setWidth 32)) := by
  have hI (imm : BitVec 32) (himm : Format.I.Represents imm) : fields .I (emit_I imm
      (a.setWidth 32) (f3.setWidth 32) (d.setWidth 32) (opc.setWidth 32)) = .I opc d f3 a imm := by
    rw [fields_emit_I, signExtend_low12 himm]
  have hS (imm : BitVec 32) (himm : Format.S.Represents imm) : fields .S (emit_S imm
      (b.setWidth 32) (a.setWidth 32) (f3.setWidth 32) (opc.setWidth 32)) = .S opc f3 a b imm := by
    rw [fields_emit_S, signExtend_low12 himm]
  have hB (imm : BitVec 32) (himm : Format.B.Represents imm) : fields .B (emit_B imm
      (b.setWidth 32) (a.setWidth 32) (f3.setWidth 32) (opc.setWidth 32)) = .B opc f3 a b imm ↔
        (0 ≤ imm.toInt ∧ imm.toInt < 2 ^ 11) ∨ (3 * 2 ^ 10 ≤ imm.toInt ∧ imm.toInt < 2 ^ 12) := by
    rw [fields_emit_B, Fields.B.injEq, ← branchImm_eq_iff himm.1]
    simp only [true_and]
  have hU (imm : BitVec 32) : fields .U (emit_U imm (d.setWidth 32) (opc.setWidth 32)) =
      .U opc d (imm <<< 12) := fields_emit_U opc d imm
  have hJ (imm : BitVec 32) (himm : Format.J.Represents imm) : fields .J (emit_J imm
      (d.setWidth 32) (opc.setWidth 32)) = .J opc d imm := by
    rw [fields_emit_J, and_not_one_of_even himm.1, signExtend_low21 himm.2]
  refine ⟨fields_emit_R opc f3 d a b f7, hI, hS, hB, fun imm _ => hU imm, hJ,
    separates_of_fields (fun x y h => (Fields.I.inj h).2.2.2.2) hI,
    separates_of_fields (fun x y h => (Fields.S.inj h).2.2.2.2) hS,
    separates_of_fields (fun x y h => (Fields.B.inj h).2.2.2.2) fun imm himm =>
      (hB imm himm.1).mpr himm.2,
    fun imm imm' himm himm' heq => ?_,
    separates_of_fields (fun x y h => (Fields.J.inj h).2.2) hJ⟩
  have hshift := (Fields.U.inj (((hU imm).symm.trans (congrArg _ heq)).trans (hU imm'))).2.2
  have hnat := congrArg BitVec.toNat hshift
  rw [BitVec.toNat_shiftLeft, BitVec.toNat_shiftLeft, Nat.shiftLeft_eq, Nat.shiftLeft_eq] at hnat
  have hlt : imm.toNat < 2 ^ 20 := himm
  have hlt' : imm'.toNat < 2 ^ 20 := himm'
  apply BitVec.eq_of_toNat_eq
  omega

/-- A branch back by four bytes is encoded as one forward by 4092. -/
theorem branch_back_goes_forward : Format.B.Represents (BitVec.ofInt 32 (-4)) ∧
    fields .B (emit_B (BitVec.ofInt 32 (-4)) 11#32 10#32 0#32 0x63#32) =
      .B 0x63#7 0#3 10#5 11#5 4092#32 ∧ 4092#32 ≠ BitVec.ofInt 32 (-4) :=
  ⟨⟨rfl, by decide, by decide⟩, rfl, by decide⟩

def IMM_LOW (imm : BitVec 32) : BitVec 32 := imm &&& 0xfff#32

def IMM_HIGH (imm : BitVec 32) : BitVec 32 := (imm &&& 0xfffff000#32) >>> 12

def LARGE_IMM (imm : BitVec 32) : Bool := IMM_HIGH (imm + 0x800#32) != 0#32

section

variable (rd rs rt rs1 rs2 imm shamt offset csr : BitVec 32)

def emit_LUI : Word := emit_U imm rd 0x37#32

def emit_AUIPC : Word := emit_U imm rd 0x17#32

def emit_JAL : Word := emit_J imm rd 0x6f#32

def emit_JALR : Word := emit_I imm rs1 0x0#32 rd 0x67#32

def emit_BEQ : Word := emit_B imm rs2 rs1 0x0#32 0x63#32

def emit_BNE : Word := emit_B imm rs2 rs1 0x1#32 0x63#32

def emit_BLT : Word := emit_B imm rs2 rs1 0x4#32 0x63#32

def emit_BGE : Word := emit_B imm rs2 rs1 0x5#32 0x63#32

def emit_BLTU : Word := emit_B imm rs2 rs1 0x6#32 0x63#32

def emit_BGEU : Word := emit_B imm rs2 rs1 0x7#32 0x63#32

def emit_LB : Word := emit_I imm rs1 0x0#32 rd 0x03#32

def emit_LH : Word := emit_I imm rs1 0x1#32 rd 0x03#32

def emit_LW : Word := emit_I imm rs1 0x2#32 rd 0x03#32

def emit_LBU : Word := emit_I imm rs1 0x4#32 rd 0x03#32

def emit_LHU : Word := emit_I imm rs1 0x5#32 rd 0x03#32

def emit_SB : Word := emit_S imm rs2 rs1 0x0#32 0x23#32

def emit_SH : Word := emit_S imm rs2 rs1 0x1#32 0x23#32

def emit_SW : Word := emit_S imm rs2 rs1 0x2#32 0x23#32

def emit_ADDI : Word := emit_I imm rs1 0x0#32 rd 0x13#32

def emit_SLTI : Word := emit_I imm rs1 0x2#32 rd 0x13#32

def emit_SLTIU : Word := emit_I imm rs1 0x3#32 rd 0x13#32

def emit_XORI : Word := emit_I imm rs1 0x4#32 rd 0x13#32

def emit_ORI : Word := emit_I imm rs1 0x6#32 rd 0x13#32

def emit_ANDI : Word := emit_I imm rs1 0x7#32 rd 0x13#32

def emit_SLLI : Word := emit_R 0x00#32 shamt rs1 0x1#32 rd 0x13#32

def emit_SRLI : Word := emit_R 0x00#32 shamt rs1 0x5#32 rd 0x13#32

def emit_SRAI : Word := emit_R 0x20#32 shamt rs1 0x5#32 rd 0x13#32

def emit_ADD : Word := emit_R 0x00#32 rs2 rs1 0x0#32 rd 0x33#32

def emit_SUB : Word := emit_R 0x20#32 rs2 rs1 0x0#32 rd 0x33#32

def emit_SLL : Word := emit_R 0x00#32 rs2 rs1 0x1#32 rd 0x33#32

def emit_SLT : Word := emit_R 0x00#32 rs2 rs1 0x2#32 rd 0x33#32

def emit_SLTU : Word := emit_R 0x00#32 rs2 rs1 0x3#32 rd 0x33#32

def emit_XOR : Word := emit_R 0x00#32 rs2 rs1 0x4#32 rd 0x33#32

def emit_SRL : Word := emit_R 0x00#32 rs2 rs1 0x5#32 rd 0x33#32

def emit_SRA : Word := emit_R 0x20#32 rs2 rs1 0x5#32 rd 0x33#32

def emit_OR : Word := emit_R 0x00#32 rs2 rs1 0x6#32 rd 0x33#32

def emit_AND : Word := emit_R 0x00#32 rs2 rs1 0x7#32 rd 0x33#32

def emit_MUL : Word := emit_R 0x01#32 rs2 rs1 0x0#32 rd 0x33#32

def emit_MULH : Word := emit_R 0x01#32 rs2 rs1 0x1#32 rd 0x33#32

def emit_MULHSU : Word := emit_R 0x01#32 rs2 rs1 0x2#32 rd 0x33#32

def emit_DIV : Word := emit_R 0x01#32 rs2 rs1 0x4#32 rd 0x33#32

def emit_DIVU : Word := emit_R 0x01#32 rs2 rs1 0x5#32 rd 0x33#32

def emit_REM : Word := emit_R 0x01#32 rs2 rs1 0x6#32 rd 0x33#32

def emit_REMU : Word := emit_R 0x01#32 rs2 rs1 0x7#32 rd 0x33#32

end

end tcc.riscv32
