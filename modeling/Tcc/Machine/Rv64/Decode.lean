import Mathlib.Tactic.IntervalCases
import Tcc.Machine.Bits

namespace machine.rv64

/-- An uncompressed instruction word. -/
abbrev Word := BitVec 32

/-- A compressed instruction word. -/
abbrev HalfWord := BitVec 16

def opcode (w : Word) : BitVec 7 := w.setWidth 7

def rd (w : Word) : BitVec 5 := (w >>> 7).setWidth 5

def funct3 (w : Word) : BitVec 3 := (w >>> 12).setWidth 3

def rs1 (w : Word) : BitVec 5 := (w >>> 15).setWidth 5

def rs2 (w : Word) : BitVec 5 := (w >>> 20).setWidth 5

def funct7 (w : Word) : BitVec 7 := (w >>> 25).setWidth 7

/-- The instruction formats that carry an immediate, compressed ones included. -/
inductive Format where
  | I | S | B | U | J
  deriving DecidableEq, Repr

inductive CFormat where
  | CB | CJ
  deriving DecidableEq, Repr

/-- The bits of an instruction word that a format devotes to its immediate. -/
def Format.immMask : Format → Word
  | .I => 0xfff00000#32
  | .S => 0xfe000f80#32
  | .B => 0xfe000f80#32
  | .U => 0xfffff000#32
  | .J => 0xfffff000#32

def CFormat.immMask : CFormat → HalfWord
  | .CB => 0x1c7c#16
  | .CJ => 0x1ffc#16

/-- Two words that agree outside the immediate field of a format. -/
def Format.SameOpcode (f : Format) (before after : Word) : Prop :=
  after &&& ~~~f.immMask = before &&& ~~~f.immMask

def CFormat.SameOpcode (f : CFormat) (before after : HalfWord) : Prop :=
  after &&& ~~~f.immMask = before &&& ~~~f.immMask

/-- `imm[11:0]`, sign-extended. -/
def immI (w : Word) : BitVec 64 :=
  ((w >>> 20).setWidth 12).signExtend 64

/-- `imm[11:5]` and `imm[4:0]`, sign-extended. -/
def immS (w : Word) : BitVec 64 :=
  ((((w >>> 25) &&& 0x7f#32) <<< 5 ||| ((w >>> 7) &&& 0x1f#32)).setWidth 12).signExtend 64

/-- `imm[12|10:5]` and `imm[4:1|11]`, sign-extended. -/
def immB (w : Word) : BitVec 64 :=
  ((((w >>> 31) &&& 1#32) <<< 12 ||| ((w >>> 7) &&& 1#32) <<< 11 |||
    ((w >>> 25) &&& 0x3f#32) <<< 5 ||| ((w >>> 8) &&& 0xf#32) <<< 1).setWidth 13).signExtend 64

/-- `imm[31:12]` with twelve low zeros, sign-extended. -/
def immU (w : Word) : BitVec 64 :=
  (w &&& 0xfffff000#32).signExtend 64

/-- `imm[20|10:1|11|19:12]`, sign-extended. -/
def immJ (w : Word) : BitVec 64 :=
  ((((w >>> 31) &&& 1#32) <<< 20 ||| ((w >>> 12) &&& 0xff#32) <<< 12 |||
    ((w >>> 20) &&& 1#32) <<< 11 ||| ((w >>> 21) &&& 0x3ff#32) <<< 1).setWidth 21).signExtend 64

/-- `imm[8|4:3]` and `imm[7:6|2:1|5]` of `c.beqz`/`c.bnez`, sign-extended. -/
def immCB (w : HalfWord) : BitVec 64 :=
  ((((w >>> 12) &&& 1#16) <<< 8 ||| ((w >>> 10) &&& 3#16) <<< 3 ||| ((w >>> 5) &&& 3#16) <<< 6 |||
    ((w >>> 3) &&& 3#16) <<< 1 ||| ((w >>> 2) &&& 1#16) <<< 5).setWidth 9).signExtend 64

/-- `imm[11|4|9:8|10|6|7|3:1|5]` of `c.j`, sign-extended. -/
def immCJ (w : HalfWord) : BitVec 64 :=
  ((((w >>> 12) &&& 1#16) <<< 11 ||| ((w >>> 11) &&& 1#16) <<< 4 |||
    ((w >>> 9) &&& 3#16) <<< 8 ||| ((w >>> 8) &&& 1#16) <<< 10 ||| ((w >>> 7) &&& 1#16) <<< 6 |||
    ((w >>> 6) &&& 1#16) <<< 7 ||| ((w >>> 3) &&& 7#16) <<< 1 |||
    ((w >>> 2) &&& 1#16) <<< 5).setWidth 12).signExtend 64

/-- Clearing the low twelve bits rounds down to a multiple of 4096. -/
theorem and_not_0xfff_toNat (x : BitVec 64) :
    (x &&& ~~~0xfff#64).toNat = x.toNat / 4096 * 4096 := by
  have hmask : x &&& ~~~0xfff#64 = (x >>> 12) <<< 12 := by
    ext i hi
    interval_cases i <;> simp
  have hx := x.isLt
  rw [hmask]
  simp only [BitVec.toNat_shiftLeft, BitVec.toNat_ushiftRight, Nat.shiftLeft_eq,
    Nat.shiftRight_eq_div_pow]
  omega

/-- The rounding that makes the high part of an address agree with a signed
    low part: the two always add up to the original displacement. -/
theorem hi_add_lo (d : BitVec 64) :
    ((d + 0x800#64) &&& ~~~0xfff#64) + (d.setWidth 12).signExtend 64 = d := by
  apply BitVec.eq_of_toNat_eq
  have hd := d.isLt
  rw [BitVec.toNat_add, and_not_0xfff_toNat]
  simp only [BitVec.toNat_add, BitVec.toNat_signExtend, BitVec.toNat_setWidth,
    BitVec.msb_eq_decide, BitVec.toNat_ofNat]
  simp
  split <;> omega

/-- The high part of a rounded displacement fits in 32 bits exactly when the
    rounded displacement does. -/
theorem hi_fits_iff (x : BitVec 64) :
    ((x &&& ~~~0xfff#64).setWidth 32).signExtend 64 = x &&& ~~~0xfff#64 ↔
      -2 ^ 31 ≤ x.toInt ∧ x.toInt < 2 ^ 31 := by
  rw [signExtend_setWidth_iff (by decide) (by decide)]
  have hx := x.isLt
  simp only [BitVec.toInt_eq_toNat_cond, and_not_0xfff_toNat]
  split <;> split <;> omega

end machine.rv64
