import Tcc.Machine.Rv64.Decode

/-! The instruction formats of RV32. Words and their fields are those of RV64; an
    immediate has 32 bits. -/

open machine.rv64

namespace machine.rv32

/-- `imm[11:0]`, sign-extended. -/
def immI (w : Word) : BitVec 32 := ((w >>> 20).setWidth 12).signExtend 32

/-- `imm[11:5]` and `imm[4:0]`, sign-extended. -/
def immS (w : Word) : BitVec 32 :=
  ((((w >>> 25) &&& 0x7f#32) <<< 5 ||| ((w >>> 7) &&& 0x1f#32)).setWidth 12).signExtend 32

/-- `imm[12|10:5]` and `imm[4:1|11]`, sign-extended. -/
def immB (w : Word) : BitVec 32 :=
  ((((w >>> 31) &&& 1#32) <<< 12 ||| ((w >>> 7) &&& 1#32) <<< 11 |||
    ((w >>> 25) &&& 0x3f#32) <<< 5 ||| ((w >>> 8) &&& 0xf#32) <<< 1).setWidth 13).signExtend 32

/-- `imm[31:12]` with twelve low zeros. -/
def immU (w : Word) : BitVec 32 := w &&& 0xfffff000#32

/-- `imm[20|10:1|11|19:12]`, sign-extended. -/
def immJ (w : Word) : BitVec 32 :=
  ((((w >>> 31) &&& 1#32) <<< 20 ||| ((w >>> 12) &&& 0xff#32) <<< 12 |||
    ((w >>> 20) &&& 1#32) <<< 11 ||| ((w >>> 21) &&& 0x3ff#32) <<< 1).setWidth 21).signExtend 32

/-- The immediates of the compressed branches and jumps. -/
def immCB (w : HalfWord) : BitVec 32 := (rv64.immCB w).setWidth 32

def immCJ (w : HalfWord) : BitVec 32 := (rv64.immCJ w).setWidth 32

inductive Format where
  | R | I | S | B | U | J
  deriving DecidableEq, Repr

/-- The fields of an instruction word of each format. -/
inductive Fields where
  | R (opcode : BitVec 7) (rd : BitVec 5) (funct3 : BitVec 3) (rs1 rs2 : BitVec 5)
      (funct7 : BitVec 7)
  | I (opcode : BitVec 7) (rd : BitVec 5) (funct3 : BitVec 3) (rs1 : BitVec 5) (imm : BitVec 32)
  | S (opcode : BitVec 7) (funct3 : BitVec 3) (rs1 rs2 : BitVec 5) (imm : BitVec 32)
  | B (opcode : BitVec 7) (funct3 : BitVec 3) (rs1 rs2 : BitVec 5) (imm : BitVec 32)
  | U (opcode : BitVec 7) (rd : BitVec 5) (imm : BitVec 32)
  | J (opcode : BitVec 7) (rd : BitVec 5) (imm : BitVec 32)
  deriving DecidableEq, Repr

/-- The fields that a word has when it is read in a format. -/
def fields (f : Format) (w : Word) : Fields :=
  match f with
  | .R => .R (opcode w) (rd w) (funct3 w) (rs1 w) (rs2 w) (funct7 w)
  | .I => .I (opcode w) (rd w) (funct3 w) (rs1 w) (immI w)
  | .S => .S (opcode w) (funct3 w) (rs1 w) (rs2 w) (immS w)
  | .B => .B (opcode w) (funct3 w) (rs1 w) (rs2 w) (immB w)
  | .U => .U (opcode w) (rd w) (immU w)
  | .J => .J (opcode w) (rd w) (immJ w)

/-- The immediates that a format can represent; for `U` the number that goes to the upper
    20 bits. -/
def Format.Represents (f : Format) (imm : BitVec 32) : Prop :=
  match f with
  | .R => False
  | .I | .S => -2 ^ 11 ≤ imm.toInt ∧ imm.toInt < 2 ^ 11
  | .B => imm.getLsbD 0 = false ∧ -2 ^ 12 ≤ imm.toInt ∧ imm.toInt < 2 ^ 12
  | .U => imm.toNat < 2 ^ 20
  | .J => imm.getLsbD 0 = false ∧ -2 ^ 20 ≤ imm.toInt ∧ imm.toInt < 2 ^ 20

/-- An immediate of 12 bits is the sign extension of its low bits. -/
theorem signExtend_low12 {imm : BitVec 32} (h : -2 ^ 11 ≤ imm.toInt ∧ imm.toInt < 2 ^ 11) :
    (imm.setWidth 12).signExtend 32 = imm :=
  (signExtend_setWidth_iff (by decide) (by decide) imm).mpr h

theorem signExtend_low21 {imm : BitVec 32} (h : -2 ^ 20 ≤ imm.toInt ∧ imm.toInt < 2 ^ 20) :
    (imm.setWidth 21).signExtend 32 = imm :=
  (signExtend_setWidth_iff (by decide) (by decide) imm).mpr h

theorem and_not_one_of_even {r : BitVec 32} (heven : r.getLsbD 0 = false) : r &&& ~~~1#32 = r := by
  apply BitVec.eq_of_getLsbD_eq
  intro i hi
  rw [BitVec.getLsbD_and]
  by_cases h0 : i = 0
  · rw [h0, heven, Bool.false_and]
  · have hmask : ∀ i : Fin 32, i.val ≠ 0 → (~~~1#32).getLsbD i = true := by decide
    rw [hmask ⟨i, hi⟩ h0, Bool.and_true]

/-- The rounded high part and the signed low part of a word add up to it. -/
theorem hi_add_lo (off : BitVec 32) :
    ((off + 0x800#32) &&& ~~~0xfff#32) + (off.setWidth 12).signExtend 32 = off := by
  have hmask : (off + 0x800#32) &&& ~~~0xfff#32 = ((off + 0x800#32) >>> 12) <<< 12 := by
    generalize off + 0x800#32 = x
    ext i hi
    interval_cases i <;> simp
  have hlt := off.isLt
  apply BitVec.eq_of_toNat_eq
  rw [hmask]
  simp only [BitVec.toNat_add, BitVec.toNat_signExtend, BitVec.toNat_setWidth,
    BitVec.toNat_shiftLeft, BitVec.toNat_ushiftRight, Nat.shiftLeft_eq, Nat.shiftRight_eq_div_pow,
    BitVec.msb_eq_decide, BitVec.toNat_ofNat]
  simp
  split <;> omega

end machine.rv32
