import Tcc.Machine.Rv64.Decode

namespace machine.rv64

/-- The loads, stores, branches, upper immediates and ALU operations of RV64I. -/
inductive Mnemonic where
  | lb | lh | lw | ld | lbu | lhu | lwu
  | sb | sh | sw | sd
  | beq | bne | blt | bge | bltu | bgeu
  | lui | auipc
  | addi | slti | sltiu | xori | ori | andi | slli | srli | srai
  | addiw | slliw | srliw | sraiw
  | add | sub | sll | slt | sltu | xor | srl | sra | or | and
  | addw | subw | sllw | srlw | sraw
  deriving DecidableEq, Repr

/-- An instruction with its operands; the immediate is the number written in assembly. -/
inductive Instruction where
  | r (m : Mnemonic) (rd rs1 rs2 : BitVec 5)
  | i (m : Mnemonic) (rd rs1 : BitVec 5) (imm : Int)
  | s (m : Mnemonic) (rs1 rs2 : BitVec 5) (imm : Int)
  | b (m : Mnemonic) (rs1 rs2 : BitVec 5) (imm : Int)
  | u (m : Mnemonic) (rd : BitVec 5) (imm : Int)
  deriving DecidableEq, Repr

def funct6 (w : Word) : BitVec 6 := (w >>> 26).setWidth 6

def shamt6 (w : Word) : BitVec 6 := (w >>> 20).setWidth 6

def upper20 (w : Word) : BitVec 20 := (w >>> 12).setWidth 20

def loadOp (f3 : BitVec 3) : Option Mnemonic :=
  match f3.toNat with
  | 0 => some .lb | 1 => some .lh | 2 => some .lw | 3 => some .ld
  | 4 => some .lbu | 5 => some .lhu | 6 => some .lwu
  | _ => none

def storeOp (f3 : BitVec 3) : Option Mnemonic :=
  match f3.toNat with
  | 0 => some .sb | 1 => some .sh | 2 => some .sw | 3 => some .sd
  | _ => none

def branchOp (f3 : BitVec 3) : Option Mnemonic :=
  match f3.toNat with
  | 0 => some .beq | 1 => some .bne | 4 => some .blt | 5 => some .bge
  | 6 => some .bltu | 7 => some .bgeu
  | _ => none

def immOp (f3 : BitVec 3) : Option Mnemonic :=
  match f3.toNat with
  | 0 => some .addi | 2 => some .slti | 3 => some .sltiu | 4 => some .xori
  | 6 => some .ori | 7 => some .andi
  | _ => none

def shiftOp (f3 : BitVec 3) (f6 : BitVec 6) : Option Mnemonic :=
  match f3.toNat, f6.toNat with
  | 1, 0 => some .slli | 5, 0 => some .srli | 5, 0x10 => some .srai
  | _, _ => none

def shiftOpW (f3 : BitVec 3) (f7 : BitVec 7) : Option Mnemonic :=
  match f3.toNat, f7.toNat with
  | 1, 0 => some .slliw | 5, 0 => some .srliw | 5, 0x20 => some .sraiw
  | _, _ => none

def regOp (f3 : BitVec 3) (f7 : BitVec 7) : Option Mnemonic :=
  match f3.toNat, f7.toNat with
  | 0, 0 => some .add | 0, 0x20 => some .sub | 1, 0 => some .sll | 2, 0 => some .slt
  | 3, 0 => some .sltu | 4, 0 => some .xor | 5, 0 => some .srl | 5, 0x20 => some .sra
  | 6, 0 => some .or | 7, 0 => some .and
  | _, _ => none

def regOpW (f3 : BitVec 3) (f7 : BitVec 7) : Option Mnemonic :=
  match f3.toNat, f7.toNat with
  | 0, 0 => some .addw | 0, 0x20 => some .subw | 1, 0 => some .sllw
  | 5, 0 => some .srlw | 5, 0x20 => some .sraw
  | _, _ => none

/-- The instruction a word stands for, if it is one of these. -/
def decode (w : Word) : Option Instruction :=
  match (opcode w).toNat with
  | 0x03 => (loadOp (funct3 w)).map (.i · (rd w) (rs1 w) (immI w).toInt)
  | 0x13 =>
    match immOp (funct3 w) with
    | some m => some (.i m (rd w) (rs1 w) (immI w).toInt)
    | none => (shiftOp (funct3 w) (funct6 w)).map (.i · (rd w) (rs1 w) (shamt6 w).toNat)
  | 0x1b =>
    if funct3 w = 0#3 then some (.i .addiw (rd w) (rs1 w) (immI w).toInt)
    else (shiftOpW (funct3 w) (funct7 w)).map (.i · (rd w) (rs1 w) (rs2 w).toNat)
  | 0x23 => (storeOp (funct3 w)).map (.s · (rs1 w) (rs2 w) (immS w).toInt)
  | 0x63 => (branchOp (funct3 w)).map (.b · (rs1 w) (rs2 w) (immB w).toInt)
  | 0x33 => (regOp (funct3 w) (funct7 w)).map (.r · (rd w) (rs1 w) (rs2 w))
  | 0x3b => (regOpW (funct3 w) (funct7 w)).map (.r · (rd w) (rs1 w) (rs2 w))
  | 0x37 => some (.u .lui (rd w) (upper20 w).toNat)
  | 0x17 => some (.u .auipc (rd w) (upper20 w).toNat)
  | _ => none

/-- The operands a mnemonic takes; a shift takes an amount below its bound. -/
inductive Shape where
  | r | i | sh (bound : Nat) | s | b | u
  deriving DecidableEq, Repr

def Mnemonic.shape : Mnemonic → Shape
  | .lb | .lh | .lw | .ld | .lbu | .lhu | .lwu => .i
  | .sb | .sh | .sw | .sd => .s
  | .beq | .bne | .blt | .bge | .bltu | .bgeu => .b
  | .lui | .auipc => .u
  | .addi | .slti | .sltiu | .xori | .ori | .andi | .addiw => .i
  | .slli | .srli | .srai => .sh 64
  | .slliw | .srliw | .sraiw => .sh 32
  | _ => .r

def Mnemonic.arity (m : Mnemonic) : Nat := if m.shape = .u then 2 else 3

/-- An operand as it is written: a register, or a number of 64 bits. -/
inductive Arg where
  | reg (r : BitVec 5)
  | imm (v : BitVec 64)
  deriving DecidableEq, Repr

/-- The number fits in twelve signed bits. -/
def Fits12 (v : BitVec 64) : Prop := -2048 ≤ v.toInt ∧ v.toInt < 2048

instance (v : BitVec 64) : Decidable (Fits12 v) := inferInstanceAs (Decidable (_ ∧ _))

/-- The instruction a mnemonic means with operands that its format can represent. -/
def assemble (m : Mnemonic) (args : List Arg) : Option Instruction :=
  match m.shape, args with
  | .r, [.reg rd, .reg rs1, .reg rs2] => some (.r m rd rs1 rs2)
  | .i, [.reg rd, .reg rs1, .imm v] => if Fits12 v then some (.i m rd rs1 v.toInt) else none
  | .sh bound, [.reg rd, .reg rs1, .imm v] =>
    if v.toNat < bound then some (.i m rd rs1 v.toNat) else none
  | .s, [.reg rs1, .reg rs2, .imm v] => if Fits12 v then some (.s m rs1 rs2 v.toInt) else none
  | .b, [.reg rs1, .reg rs2, .imm v] =>
    if -4096 ≤ v.toInt ∧ v.toInt < 4096 ∧ v.toInt % 2 = 0 then some (.b m rs1 rs2 v.toInt)
    else none
  | .u, [.reg rd, .imm v] => if v.toNat < 2 ^ 20 then some (.u m rd v.toNat) else none
  | _, _ => none

end machine.rv64
