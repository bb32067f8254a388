import Tcc.Machine.Rv64.Instruction
import Tcc.Gen.Riscv64.Emit

open machine.rv64

namespace tcc.asm

/-- The register names of the assembler. -/
inductive Name where
  | x (n : Fin 32)
  | zero | ra | sp | gp | tp | t0 | t1 | t2 | fp | s1 | a0 | a1 | a2 | a3 | a4 | a5 | a6 | a7
  | s2 | s3 | s4 | s5 | s6 | s7 | s8 | s9 | s10 | s11 | t3 | t4 | t5 | t6 | s0 | pc
  deriving DecidableEq, Repr

/-- The place of a register name in the token table, counted from `TOK_ASM_x0`. -/
def Name.index : Name → Nat
  | .x n => n
  | .zero => 32 | .ra => 33 | .sp => 34 | .gp => 35 | .tp => 36 | .t0 => 37 | .t1 => 38
  | .t2 => 39 | .fp => 40 | .s1 => 41 | .a0 => 42 | .a1 => 43 | .a2 => 44 | .a3 => 45
  | .a4 => 46 | .a5 => 47 | .a6 => 48 | .a7 => 49 | .s2 => 50 | .s3 => 51 | .s4 => 52
  | .s5 => 53 | .s6 => 54 | .s7 => 55 | .s8 => 56 | .s9 => 57 | .s10 => 58 | .s11 => 59
  | .t3 => 60 | .t4 => 61 | .t5 => 62 | .t6 => 63 | .s0 => 64 | .pc => 65

/-- The instruction names of the token table that are not among those of RV64I. -/
inductive Extra where
  | slld | sllid | srld | srlid | srad | sraid | addd | addid | subd
  deriving DecidableEq, Repr

/-- The instruction names that `asm_opcode` dispatches, but for those without
    operands and those that read a counter. -/
inductive TokAsm where
  | known (m : Mnemonic)
  | extra (e : Extra)
  deriving DecidableEq, Repr

def get_tok_str : TokAsm → String
  | .known m =>
    match m with
    | .lb => "lb" | .lh => "lh" | .lw => "lw" | .ld => "ld" | .lbu => "lbu" | .lhu => "lhu"
    | .lwu => "lwu" | .sb => "sb" | .sh => "sh" | .sw => "sw" | .sd => "sd" | .beq => "beq"
    | .bne => "bne" | .blt => "blt" | .bge => "bge" | .bltu => "bltu" | .bgeu => "bgeu"
    | .lui => "lui" | .auipc => "auipc" | .addi => "addi" | .slti => "slti" | .sltiu => "sltiu"
    | .xori => "xori" | .ori => "ori" | .andi => "andi" | .slli => "slli" | .srli => "srli"
    | .srai => "srai" | .addiw => "addiw" | .slliw => "slliw" | .srliw => "srliw"
    | .sraiw => "sraiw" | .add => "add" | .sub => "sub" | .sll => "sll" | .slt => "slt"
    | .sltu => "sltu" | .xor => "xor" | .srl => "srl" | .sra => "sra" | .or => "or"
    | .and => "and" | .addw => "addw" | .subw => "subw" | .sllw => "sllw" | .srlw => "srlw"
    | .sraw => "sraw"
  | .extra e =>
    match e with
    | .slld => "slld" | .sllid => "sllid" | .srld => "srld" | .srlid => "srlid"
    | .srad => "srad" | .sraid => "sraid" | .addd => "addd" | .addid => "addid"
    | .subd => "subd"

/-- A token of an operand list. -/
inductive Token where
  | reg (name : Name)
  | comma
  | dollar
  | other (t : Nat)
  deriving DecidableEq, Repr

/-- The value of an assembler expression: a number, relative to a symbol if there is one. -/
structure ExprValue where
  v : BitVec 64
  sym : Option Nat

/-- The text of an error. -/
abbrev Error := String

inductive Operand where
  | reg (reg : Fin 32)
  | im12s (v : BitVec 64)
  | im32 (v : BitVec 64)
  deriving DecidableEq, Repr

def expect (msg : String) : Error := msg ++ " expected"

def TOK_ASM_x0 : Nat := 0

def TOK_ASM_zero : Nat := 32

def TOK_ASM_t6 : Nat := 63

def TOK_ASM_s0 : Nat := 64

def TOK_ASM_pc : Nat := 65

theorem bind_ok {ε α β : Type} {x : Except ε α} {f : α → Except ε β} {b : β} :
    (x >>= f) = .ok b ↔ ∃ a, x = .ok a ∧ f a = .ok b := by
  cases x <;> simp [bind, Except.bind]

theorem Name.index_le (name : Name) : name.index ≤ TOK_ASM_pc := by
  cases name with
  | x n => exact n.is_lt.le.trans (by decide)
  | _ => decide

/-- The number of a register name. -/
def asm_parse_regvar (name : Name) : Except Error (Fin 32) :=
  let t := name.index
  if hname : TOK_ASM_zero ≤ t ∧ t ≤ TOK_ASM_t6 then
    .ok ⟨t - TOK_ASM_zero, by simp only [TOK_ASM_zero, TOK_ASM_t6] at *; omega⟩
  else if hs0 : t = TOK_ASM_s0 then .ok 8
  else if hpc : t = TOK_ASM_pc then .error "PC register not implemented."
  else
    .ok ⟨t - TOK_ASM_x0, by
      have := name.index_le
      simp only [TOK_ASM_x0, TOK_ASM_zero, TOK_ASM_t6, TOK_ASM_s0, TOK_ASM_pc] at *
      omega⟩

/-- `(int) v >= -2048 && (int) v < 2048` -/
def isIm12s (v : BitVec 64) : Prop :=
  -2048 ≤ (v.setWidth 32).toInt ∧ (v.setWidth 32).toInt < 2048

instance (v : BitVec 64) : Decidable (isIm12s v) := inferInstanceAs (Decidable (_ ∧ _))

section

variable (asm_expr : List Token → Except Error (ExprValue × List Token))

/-- The part of `parse_operand` that reads a constant. -/
def constant_operand (s : List Token) : Except Error (Operand × List Token) := do
  let (e, s) ← asm_expr s
  match e.sym with
  | none => return (if isIm12s e.v then .im12s e.v else .im32 e.v, s)
  | some _ => throw (expect "operand")

def parse_operand : List Token → Except Error (Operand × List Token)
  | .reg name :: s => do
    let reg ← asm_parse_regvar name
    return (.reg reg, s)
  | .dollar :: s => constant_operand asm_expr s
  | s => constant_operand asm_expr s

def comma : List Token → Except Error (List Token)
  | .comma :: s => return s
  | _ => throw (expect "','")

end

def ENCODE_RS1 (reg : Fin 32) : Word := BitVec.ofNat 32 reg <<< 15

def ENCODE_RS2 (reg : Fin 32) : Word := BitVec.ofNat 32 reg <<< 20

def ENCODE_RD (reg : Fin 32) : Word := BitVec.ofNat 32 reg <<< 7

/-- `tcc_error("'%s': ...", get_tok_str(token, NULL))` -/
def tok_error (token : TokAsm) (msg : String) : Error := "'" ++ get_tok_str token ++ "': " ++ msg

def asm_emit_u (token : TokAsm) (opcode : Word) (rd rs2 : Operand) : Except Error Word :=
  match rd with
  | .reg rd =>
    match rs2 with
    | .im12s v | .im32 v =>
      if v ≥ 0x100000#64 then
        throw (tok_error token
          "Expected second source operand that is an immediate value between 0 and 0xfffff")
      else return (((opcode ||| ENCODE_RD rd).setWidth 64) ||| v <<< 12).setWidth 32
    | .reg _ =>
      throw (tok_error token "Expected second source operand that is an immediate value")
  | _ => throw (tok_error token "Expected destination operand that is a register")

def asm_emit_r (token : TokAsm) (opcode : Word) (rd rs1 rs2 : Operand) : Except Error Word :=
  match rd with
  | .reg rd =>
    match rs1 with
    | .reg rs1 =>
      match rs2 with
      | .reg rs2 => return opcode ||| ENCODE_RD rd ||| ENCODE_RS1 rs1 ||| ENCODE_RS2 rs2
      | _ =>
        throw (tok_error token "Expected second source operand that is a register or immediate")
    | _ => throw (tok_error token "Expected first source operand that is a register")
  | _ => throw (tok_error token "Expected destination operand that is a register")

def asm_emit_i (token : TokAsm) (opcode : Word) (rd rs1 rs2 : Operand) : Except Error Word :=
  match rd with
  | .reg rd =>
    match rs1 with
    | .reg rs1 =>
      match rs2 with
      | .im12s v =>
        return (((opcode ||| ENCODE_RD rd ||| ENCODE_RS1 rs1).setWidth 64) ||| v <<< 20).setWidth 32
      | _ =>
        throw (tok_error token
          "Expected second source operand that is an immediate value between 0 and 4095")
    | _ => throw (tok_error token "Expected first source operand that is a register")
  | _ => throw (tok_error token "Expected destination operand that is a register")

def asm_emit_s (token : TokAsm) (opcode : Word) (rs1 rs2 imm : Operand) : Except Error Word :=
  match rs1 with
  | .reg rs1 =>
    match rs2 with
    | .reg rs2 =>
      match imm with
      | .im12s imm =>
        let v : Word := (imm.setWidth 16).setWidth 32
        return opcode ||| ENCODE_RS1 rs1 ||| ENCODE_RS2 rs2 ||| (v &&& 0x1f#32) <<< 7 |||
          (v >>> 5) <<< 25
      | _ =>
        throw (tok_error token
          "Expected third operand that is an immediate value between 0 and 0xfff")
    | _ => throw (tok_error token "Expected second source operand that is a register")
  | _ => throw (tok_error token "Expected first source operand that is a register")

/-- The switch of `asm_binary_opcode`. -/
def binary_opcode (token : TokAsm) (o₀ o₁ : Operand) : Except Error Word :=
  match token with
  | .known .lui => asm_emit_u token ((0xD#32 <<< 2) ||| 3#32) o₀ o₁
  | .known .auipc => asm_emit_u token ((0x05#32 <<< 2) ||| 3#32) o₀ o₁
  | _ => throw (expect "binary instruction")

/-- The switch of `asm_shift_opcode`. -/
def shift_opcode (token : TokAsm) (o₀ o₁ o₂ : Operand) : Except Error Word :=
  match token with
  | .known .sll => asm_emit_r token ((0xC#32 <<< 2) ||| 3#32 ||| (1#32 <<< 12)) o₀ o₁ o₂
  | .known .slli => asm_emit_i token ((4#32 <<< 2) ||| 3#32 ||| (1#32 <<< 12)) o₀ o₁ o₂
  | .known .srl => asm_emit_r token ((0xC#32 <<< 2) ||| 3#32 ||| (4#32 <<< 12)) o₀ o₁ o₂
  | .known .srli => asm_emit_i token ((0x4#32 <<< 2) ||| 3#32 ||| (5#32 <<< 12)) o₀ o₁ o₂
  | .known .sra => asm_emit_r token ((0xC#32 <<< 2) ||| 3#32 ||| (5#32 <<< 12) ||| (32#32 <<< 25)) o₀ o₁ o₂
  | .known .srai => asm_emit_i token ((0x4#32 <<< 2) ||| 3#32 ||| (5#32 <<< 12) ||| (16#32 <<< 26)) o₀ o₁ o₂
  | .known .sllw => asm_emit_r token ((0xE#32 <<< 2) ||| 3#32 ||| (1#32 <<< 12)) o₀ o₁ o₂
  | .known .slliw => asm_emit_i token ((6#32 <<< 2) ||| 3#32 ||| (1#32 <<< 12)) o₀ o₁ o₂
  | .known .srlw => asm_emit_r token ((0xE#32 <<< 2) ||| 3#32 ||| (5#32 <<< 12)) o₀ o₁ o₂
  | .known .srliw => asm_emit_i token ((0x6#32 <<< 2) ||| 3#32 ||| (5#32 <<< 12)) o₀ o₁ o₂
  | .known .sraw => asm_emit_r token ((0xE#32 <<< 2) ||| 3#32 ||| (5#32 <<< 12)) o₀ o₁ o₂
  | .known .sraiw => asm_emit_i token ((0x6#32 <<< 2) ||| 3#32 ||| (5#32 <<< 12)) o₀ o₁ o₂
  | _ => throw (expect "shift instruction")

/-- The switch of `asm_data_processing_opcode`. -/
def data_processing_opcode (token : TokAsm) (o₀ o₁ o₂ : Operand) : Except Error Word :=
  match token with
  | .known .add => asm_emit_r token ((0xC#32 <<< 2) ||| 3#32) o₀ o₁ o₂
  | .known .addi => asm_emit_i token ((4#32 <<< 2) ||| 3#32) o₀ o₁ o₂
  | .known .sub => asm_emit_r token ((0xC#32 <<< 2) ||| 3#32 ||| (32#32 <<< 25)) o₀ o₁ o₂
  | .known .addw => asm_emit_r token ((0xE#32 <<< 2) ||| 3#32 ||| (0#32 <<< 12)) o₀ o₁ o₂
  | .known .addiw => asm_emit_i token ((0x6#32 <<< 2) ||| 3#32 ||| (0#32 <<< 12)) o₀ o₁ o₂
  | .known .subw => asm_emit_r token ((0xE#32 <<< 2) ||| 3#32 ||| (0#32 <<< 12) ||| (32#32 <<< 25)) o₀ o₁ o₂
  | .known .xor => asm_emit_r token ((0xC#32 <<< 2) ||| 3#32 ||| (4#32 <<< 12)) o₀ o₁ o₂
  | .known .xori => asm_emit_i token ((0x4#32 <<< 2) ||| 3#32 ||| (4#32 <<< 12)) o₀ o₁ o₂
  | .known .or => asm_emit_r token ((0xC#32 <<< 2) ||| 3#32 ||| (6#32 <<< 12)) o₀ o₁ o₂
  | .known .ori => asm_emit_i token ((0x4#32 <<< 2) ||| 3#32 ||| (6#32 <<< 12)) o₀ o₁ o₂
  | .known .and => asm_emit_r token ((0xC#32 <<< 2) ||| 3#32 ||| (7#32 <<< 12)) o₀ o₁ o₂
  | .known .andi => asm_emit_i token ((0x4#32 <<< 2) ||| 3#32 ||| (7#32 <<< 12)) o₀ o₁ o₂
  | .known .slt => asm_emit_r token ((0xC#32 <<< 2) ||| 3#32 ||| (2#32 <<< 12)) o₀ o₁ o₂
  | .known .slti => asm_emit_i token ((0x4#32 <<< 2) ||| 3#32 ||| (2#32 <<< 12)) o₀ o₁ o₂
  | .known .sltu => asm_emit_r token ((0xC#32 <<< 2) ||| 3#32 ||| (3#32 <<< 12)) o₀ o₁ o₂
  | .known .sltiu => asm_emit_i token ((0x4#32 <<< 2) ||| 3#32 ||| (3#32 <<< 12)) o₀ o₁ o₂
  | _ => throw (expect "known data processing instruction")

/-- The switch of `asm_data_transfer_opcode`. -/
def data_transfer_opcode (token : TokAsm) (o₀ o₁ o₂ : Operand) : Except Error Word :=
  match token with
  | .known .lb => asm_emit_i token ((0x0#32 <<< 2) ||| 3#32) o₀ o₁ o₂
  | .known .lh => asm_emit_i token ((0x0#32 <<< 2) ||| 3#32 ||| (1#32 <<< 12)) o₀ o₁ o₂
  | .known .lw => asm_emit_i token ((0x0#32 <<< 2) ||| 3#32 ||| (2#32 <<< 12)) o₀ o₁ o₂
  | .known .lbu => asm_emit_i token ((0x0#32 <<< 2) ||| 3#32 ||| (4#32 <<< 12)) o₀ o₁ o₂
  | .known .lhu => asm_emit_i token ((0x0#32 <<< 2) ||| 3#32 ||| (5#32 <<< 12)) o₀ o₁ o₂
  | .known .ld => asm_emit_i token ((0x0#32 <<< 2) ||| 3#32 ||| (3#32 <<< 12)) o₀ o₁ o₂
  | .known .lwu => asm_emit_i token ((0x0#32 <<< 2) ||| 3#32 ||| (6#32 <<< 12)) o₀ o₁ o₂
  | .known .sb => asm_emit_s token ((0x8#32 <<< 2) ||| 3#32 ||| (0#32 <<< 12)) o₀ o₁ o₂
  | .known .sh => asm_emit_s token ((0x8#32 <<< 2) ||| 3#32 ||| (1#32 <<< 12)) o₀ o₁ o₂
  | .known .sw => asm_emit_s token ((0x8#32 <<< 2) ||| 3#32 ||| (2#32 <<< 12)) o₀ o₁ o₂
  | .known .sd => asm_emit_s token ((0x8#32 <<< 2) ||| 3#32 ||| (3#32 <<< 12)) o₀ o₁ o₂
  | _ => throw (expect "known data transfer instruction")

/-- The last part of `asm_branch_opcode`, after its operands are read. -/
def branch_opcode (token : TokAsm) (rs1 rs2 : Fin 32) (o₂ : Operand) : Except Error Word := do
  match o₂ with
  | .im12s v =>
    let offset : Word := v.setWidth 32
    if offset &&& 1#32 ≠ 0#32 then
      throw (tok_error token "Expected third operand that is an even immediate value")
    else
      let opcode : Word := (0x18#32 <<< 2) ||| 3#32
      let opcode ←
        match token with
        | .known .beq => pure (opcode ||| 0#32 <<< 12)
        | .known .bne => pure (opcode ||| 1#32 <<< 12)
        | .known .blt => pure (opcode ||| 4#32 <<< 12)
        | .known .bge => pure (opcode ||| 5#32 <<< 12)
        | .known .bltu => pure (opcode ||| 6#32 <<< 12)
        | .known .bgeu => pure (opcode ||| 7#32 <<< 12)
        | _ => throw (expect "known branch instruction")
      return opcode ||| ENCODE_RS1 rs1 ||| ENCODE_RS2 rs2 ||| ((offset >>> 1) &&& 0xf#32) <<< 8 |||
        ((offset >>> 5) &&& 0x1f#32) <<< 25 ||| ((offset >>> 11) &&& 1#32) <<< 7 |||
        ((offset >>> 12) &&& 1#32) <<< 31
  | _ =>
    throw (tok_error token "Expected third operand that is an immediate value between 0 and 0xfff")

section

variable (asm_expr : List Token → Except Error (ExprValue × List Token))

def asm_binary_opcode (token : TokAsm) (s : List Token) : Except Error (Word × List Token) := do
  let (o₀, s) ← parse_operand asm_expr s
  let s ← comma s
  let (o₁, s) ← parse_operand asm_expr s
  let w ← binary_opcode token o₀ o₁
  return (w, s)

def asm_shift_opcode (token : TokAsm) (s : List Token) : Except Error (Word × List Token) := do
  let (o₀, s) ← parse_operand asm_expr s
  let s ← comma s
  let (o₁, s) ← parse_operand asm_expr s
  let s ← comma s
  let (o₂, s) ← parse_operand asm_expr s
  let w ← shift_opcode token o₀ o₁ o₂
  return (w, s)

def asm_data_processing_opcode (token : TokAsm) (s : List Token) :
    Except Error (Word × List Token) := do
  let (o₀, s) ← parse_operand asm_expr s
  let s ← comma s
  let (o₁, s) ← parse_operand asm_expr s
  let s ← comma s
  let (o₂, s) ← parse_operand asm_expr s
  let w ← data_processing_opcode token o₀ o₁ o₂
  return (w, s)

/-- `if (op.type != OP_REG) expect("register")` -/
def register : Operand → Except Error (Fin 32)
  | .reg r => return r
  | _ => throw (expect "register")

def asm_data_transfer_opcode (token : TokAsm) (s : List Token) :
    Except Error (Word × List Token) := do
  let (o₀, s) ← parse_operand asm_expr s
  let _ ← register o₀
  let s ← comma s
  let (o₁, s) ← parse_operand asm_expr s
  let _ ← register o₁
  let s ← comma s
  let (o₂, s) ← parse_operand asm_expr s
  let w ← data_transfer_opcode token o₀ o₁ o₂
  return (w, s)

def asm_branch_opcode (token : TokAsm) (s : List Token) : Except Error (Word × List Token) := do
  let (o₀, s) ← parse_operand asm_expr s
  let rs1 ← register o₀
  let s ← comma s
  let (o₁, s) ← parse_operand asm_expr s
  let rs2 ← register o₁
  let s ← comma s
  let (o₂, s) ← parse_operand asm_expr s
  let w ← branch_opcode token rs1 rs2 o₂
  return (w, s)

def asm_opcode (token : TokAsm) (s : List Token) : Except Error (Word × List Token) :=
  match token with
  | .known m =>
    match m with
    | .lui | .auipc => asm_binary_opcode asm_expr token s
    | .sll | .slli | .srl | .srli | .sra | .srai | .sllw | .slliw | .srlw | .srliw | .sraw
    | .sraiw => asm_shift_opcode asm_expr token s
    | .add | .addi | .sub | .addw | .addiw | .subw | .xor | .xori | .or | .ori | .and | .andi
    | .slt | .slti | .sltu | .sltiu => asm_data_processing_opcode asm_expr token s
    | .lb | .lh | .lw | .lbu | .lhu | .ld | .lwu | .sb | .sh | .sw | .sd =>
      asm_data_transfer_opcode asm_expr token s
    | .beq | .bne | .blt | .bge | .bltu | .bgeu => asm_branch_opcode asm_expr token s
  | .extra e =>
    match e with
    | .slld | .sllid | .srld | .srlid | .srad | .sraid => asm_shift_opcode asm_expr token s
    | .addd | .addid | .subd => asm_data_processing_opcode asm_expr token s

end

end tcc.asm
