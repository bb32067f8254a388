import Tcc.Asm.Riscv32.Encoders
import Tcc.Gen.Riscv64.Opil
import Tcc.Machine.Rv32.Exec

open machine.rv64 (Word)
open machine.rv32
open tcc.riscv64 (Result imm12)

namespace tcc.riscv32

open tcc.Op

/-- The register code of `gen_opil`. `none` is the error for operators it does not
    implement. -/
def gen_opil_reg (op : Op) (d a b : BitVec 5) : Option (List Word × Result) :=
  let rd := d.setWidth 32
  let ra := a.setWidth 32
  let rb := b.setWidth 32
  match op with
  | .add => some ([emit_ADD rd ra rb], .reg d)
  | .sub => some ([emit_SUB rd ra rb], .reg d)
  | TOK_SAR => some ([emit_SRA rd ra rb], .reg d)
  | TOK_SHR => some ([emit_SRL rd ra rb], .reg d)
  | TOK_SHL => some ([emit_SLL rd ra rb], .reg d)
  | .mul => some ([emit_MUL rd ra rb], .reg d)
  | .div => some ([emit_DIV rd ra rb], .reg d)
  | .and => some ([emit_AND rd ra rb], .reg d)
  | .xor => some ([emit_XOR rd ra rb], .reg d)
  | .or => some ([emit_OR rd ra rb], .reg d)
  | .mod => some ([emit_REM rd ra rb], .reg d)
  | TOK_UMOD => some ([emit_REMU rd ra rb], .reg d)
  | TOK_PDIV | TOK_UDIV => some ([emit_DIVU rd ra rb], .reg d)
  | TOK_LAND | TOK_LOR => none
  | TOK_ULT | TOK_UGE | TOK_EQ | TOK_NE | TOK_ULE | TOK_UGT | TOK_LT | TOK_GE | TOK_LE | TOK_GT =>
    some ([], .cmp op a b)

/-- The operators of `gen_opi_immediate` that emit an instruction of their own; `none` is
    its return value 1, after which the register code is used. -/
def gen_opi_immediate (op : Op) (fc : BitVec 32) (d a : BitVec 5) : Option (List Word × Result) :=
  let rd := d.setWidth 32
  let ra := a.setWidth 32
  let m := 31#32
  match op with
  | .sub => if fc.sle (-2048#32) then none else some ([emit_ADDI rd ra (-fc)], .reg d)
  | .add => some ([emit_ADDI rd ra fc], .reg d)
  | TOK_LE =>
    if (2047#32).sle fc then none else some ([emit_SLTI rd ra (fc + 1#32)], .cmp TOK_NE d 0)
  | TOK_LT => some ([emit_SLTI rd ra fc], .cmp TOK_NE d 0)
  | TOK_ULE =>
    if (2047#32).sle fc ∨ fc = -1#32 then none
    else some ([emit_SLTIU rd ra (fc + 1#32)], .cmp TOK_NE d 0)
  | TOK_ULT => some ([emit_SLTIU rd ra fc], .cmp TOK_NE d 0)
  | .xor => some ([emit_XORI rd ra fc], .reg d)
  | .or => some ([emit_ORI rd ra fc], .reg d)
  | .and => some ([emit_ANDI rd ra fc], .reg d)
  | TOK_SHL => some ([emit_SLLI rd ra (fc &&& m)], .reg d)
  | TOK_SHR => some ([emit_SRLI rd ra (fc &&& m)], .reg d)
  | TOK_SAR => some ([emit_SRA rd ra (1024#32 ||| fc &&& m)], .reg d)
  | _ => none

def load_large_constant (rr fc pi : BitVec 32) : List Word :=
  let pi := if fc.slt 0#32 then pi + 1#32 else pi
  [emit_LUI rr (IMM_HIGH pi), emit_ADDI rr rr (IMM_LOW pi), emit_SLLI rr rr 12#32,
    emit_ADDI rr rr (IMM_LOW fc), emit_SLLI rr rr 12#32, emit_ADDI rr rr (IMM_LOW fc),
    emit_SLLI rr rr 8#32]

/-- `load` of a constant of an integer type of at most 32 bits. -/
def load_const (rr : BitVec 32) (c : BitVec 64) : List Word :=
  let fc := c.setWidth 32
  let si := c.sshiftRight 32
  if fc.signExtend 64 ≠ c ∧ si ≠ 0#64 then
    load_large_constant rr fc (si.setWidth 32) ++
      if fc &&& 0xff#32 ≠ 0#32 then [emit_ADDI rr rr (IMM_LOW (fc &&& 0xff#32))] else []
  else if LARGE_IMM fc then [emit_LUI rr (IMM_HIGH (fc + 0x800#32)), emit_ADDI rr rr (IMM_LOW fc)]
  else [emit_ADDI rr 0#32 (IMM_LOW fc)]

/-- The register code for a constant, which is loaded into `b` first. -/
def gen_opil_loaded (op : Op) (c : BitVec 64) (d a b : BitVec 5) : Option (List Word × Result) :=
  (gen_opil_reg op d a b).map fun r => (load_const (b.setWidth 32) c ++ r.1, r.2)

/-- `fc == vtop->c.i && !(((unsigned) fc + (1 << 11)) >> 12)` -/
def IsSmall (c : BitVec 64) : Prop := (c.setWidth 32).signExtend 64 = c ∧ imm12 (c.setWidth 32)

instance (c : BitVec 64) : Decidable (IsSmall c) := inferInstanceAs (Decidable (_ ∧ _))

/-- `gen_opil` with a constant, for the operators whose immediate code does not call it
    again. -/
def gen_opil_const (op : Op) (c : BitVec 64) (d a b : BitVec 5) : Option (List Word × Result) :=
  if IsSmall c then
    match gen_opi_immediate op (c.setWidth 32) d a with
    | some r => some r
    | none => gen_opil_loaded op c d a b
  else gen_opil_loaded op c d a b

/-- `vtop->cmp_op ^= 1` -/
def invert (r : List Word × Result) : Option (List Word × Result) :=
  match r.2 with
  | .cmp op a b => some (r.1, .cmp op.xor1 a b)
  | .reg _ => none

/-- A comparison of the result register with `x0`. -/
def compare_result (op : Op) (r : List Word × Result) : Option (List Word × Result) :=
  match r.2 with
  | .reg d => some (r.1, .cmp op d 0)
  | .cmp _ _ _ => none

/-- `gen_opil` with a constant. -/
def gen_opil (op : Op) (c : BitVec 64) (d a b : BitVec 5) : Option (List Word × Result) :=
  if IsSmall c then
    match op with
    | TOK_UGE => (gen_opil_const TOK_ULT c d a b).bind invert
    | TOK_UGT => (gen_opil_const TOK_ULE c d a b).bind invert
    | TOK_GE => (gen_opil_const TOK_LT c d a b).bind invert
    | TOK_GT => (gen_opil_const TOK_LE c d a b).bind invert
    | TOK_NE | TOK_EQ =>
      if c.setWidth 32 ≠ 0#32 then (gen_opil_const .sub c d a b).bind (compare_result op)
      else some ([], .cmp op a 0)
    | _ => gen_opil_const op c d a b
  else gen_opil_loaded op c d a b

/-- `load` of a pending comparison into register `rr`. -/
def load_cmp (r : BitVec 5) (op : Op) (a b : BitVec 5) : List Word :=
  let rr := r.setWidth 32
  let slt (p q : BitVec 5) : Word := emit_SLT rr (p.setWidth 32) (q.setWidth 32)
  let sltu (p q : BitVec 5) : Word := emit_SLTU rr (p.setWidth 32) (q.setWidth 32)
  let not : Word := emit_XORI rr rr 1#32
  let sub : List Word :=
    if r ≠ a ∨ b ≠ 0#5 then [emit_SUB rr (a.setWidth 32) (b.setWidth 32)] else []
  match op with
  | TOK_ULT => [sltu a b]
  | TOK_UGE => [sltu a b, not]
  | TOK_ULE => [sltu b a, not]
  | TOK_UGT => [sltu b a]
  | TOK_LT => [slt a b]
  | TOK_GE => [slt a b, not]
  | TOK_LE => [slt b a, not]
  | TOK_GT => [slt b a]
  | TOK_NE => sub ++ [emit_SLTU rr 0#32 rr]
  | TOK_EQ => sub ++ [emit_SLTIU rr rr 1#32]
  | _ => []

/-- The code of a result and the register that then holds it, `r` for a comparison. -/
def result_code (r : BitVec 5) (res : List Word × Result) : List Word × BitVec 5 :=
  match res.2 with
  | .reg d => (res.1, d)
  | .cmp op a b => (res.1 ++ load_cmp r op a b, r)

/-- A right operand: a constant, sign-extended in the compiler or extended with zeros when
    its type is unsigned, or the value of a register. -/
inductive Right where
  | const (y : BitVec 32) (unsigned : Bool)
  | reg (y : BitVec 32)

def Right.value : Right → BitVec 32
  | .const y _ | .reg y => y

/-- The code of a binary operation of register `a` and a constant or register `b`, and the
    register of its result. -/
def opi_code (op : Op) (right : Right) (d r a b : BitVec 5) : Option (List Word × BitVec 5) :=
  match right with
  | .const y unsigned =>
    (gen_opil op (if unsigned then y.setWidth 64 else y.signExtend 64) d a b).map (result_code r)
  | .reg _ => (gen_opil_reg op d a b).map (result_code r)

/-- The result of an operator as C defines it on 32-bit integers; the signed and the
    unsigned operators have tokens of their own. The sums and products of `int` are only
    defined when they do not overflow, and then are these. -/
def c_result (op : Op) (x y : BitVec 32) : Option (BitVec 32) :=
  match op with
  | .add => some (BitVec.ofInt 32 (x.toInt + y.toInt))
  | .sub => some (BitVec.ofInt 32 (x.toInt - y.toInt))
  | .mul => some (BitVec.ofInt 32 (x.toInt * y.toInt))
  | .and => some (x &&& y)
  | .or => some (x ||| y)
  | .xor => some (x ^^^ y)
  | .div =>
    if y = 0#32 ∨ (x = BitVec.intMin 32 ∧ y = -1#32) then none
    else some (BitVec.ofInt 32 (x.toInt.tdiv y.toInt))
  | .mod =>
    if y = 0#32 ∨ (x = BitVec.intMin 32 ∧ y = -1#32) then none
    else some (BitVec.ofInt 32 (x.toInt.tmod y.toInt))
  | TOK_UDIV => if y = 0#32 then none else some (BitVec.ofNat 32 (x.toNat / y.toNat))
  | TOK_UMOD => if y = 0#32 then none else some (BitVec.ofNat 32 (x.toNat % y.toNat))
  | TOK_SHL => if y.toNat < 32 then some (BitVec.ofNat 32 (x.toNat * 2 ^ y.toNat)) else none
  | TOK_SHR => if y.toNat < 32 then some (BitVec.ofNat 32 (x.toNat / 2 ^ y.toNat)) else none
  | TOK_SAR => if y.toNat < 32 then some (BitVec.ofInt 32 (x.toInt / 2 ^ y.toNat)) else none
  | TOK_PDIV =>
    if 0 < y.toInt ∧ y.toInt ∣ x.toInt then some (BitVec.ofInt 32 (x.toInt / y.toInt)) else none
  | TOK_LAND | TOK_LOR => none
  | _ => some (if op.holds x y then 1#32 else 0#32)

end tcc.riscv32
