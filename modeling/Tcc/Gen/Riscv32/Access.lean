import Tcc.Gen.Riscv32.Arithmetic
import Tcc.Gen.Riscv32.Linked

open machine.rv64 (Word)
open machine.rv32

/-! `load` and `store` of the integer types. -/

namespace tcc.riscv32

open BType

/-- The registers with `is_ireg`: `TREG_R(0)` to `TREG_R(7)`, `TREG_RA` and `TREG_SP`. -/
inductive Treg where
  | R (x : Fin 8)
  | TREG_RA
  | TREG_SP
  deriving DecidableEq, Repr

def ireg (r : Treg) : BitVec 5 :=
  match r with
  | .TREG_RA => 1
  | .TREG_SP => 2
  | .R x => BitVec.ofNat 5 (x.val + 10)

/-- A symbol in an address: where it is in the linked program, and the addend. -/
structure SymRef where
  isStatic : Bool
  addr : BitVec 32
  c : BitVec 64
  deriving DecidableEq, Repr

/-- Where an lvalue is: `VT_LVAL` with the location of its address. -/
inductive Lvalue where
  | VT_LOCAL (c : BitVec 64)
  | VT_LLOCAL (c : BitVec 64)
  | VT_SYM (s : SymRef)
  | VT_CONST (c : BitVec 64)
  | reg (v : Treg)
  deriving DecidableEq, Repr

/-- The value `load` is given: an lvalue or, without `VT_LVAL`, a value. -/
inductive Source where
  | lval (a : Lvalue)
  | VT_CONST (c : BitVec 64)
  | VT_SYM (s : SymRef)
  | VT_LOCAL (c : BitVec 64)
  | reg (v : Treg)
  deriving DecidableEq, Repr

/-- `type_size` of a type that is no `struct` and no array. -/
def type_size (bt : BType) : Nat :=
  match bt with
  | VT_PTR => 4
  | VT_VOID | VT_FUNC => 1
  | bt => btype_size bt

/-- `load_symofs`: the code that prepares the address, its base register, the offset that is
    left and the relocation of the instruction with it. -/
def load_symofs (rd : BitVec 5) (a : Lvalue) (forstore : Bool) :
    Option (List Insn × BitVec 5 × BitVec 32 × Fixup) :=
  match a with
  | .VT_SYM s =>
    let sv_constant : BitVec 32 := s.c.setWidth 32
    if LARGE_IMM sv_constant then none
    else if s.isStatic then
      some ([⟨emit_AUIPC (rd.setWidth 32) 0#32, .R_RISCV_PCREL_HI20 (s.addr + sv_constant)⟩], rd, 0#32,
        if forstore then .R_RISCV_PCREL_LO12_S else .R_RISCV_PCREL_LO12_I)
    else
      some ([⟨emit_AUIPC (rd.setWidth 32) 0#32, .R_RISCV_PCREL_HI20 s.addr⟩,
        ⟨emit_ADDI (rd.setWidth 32) (rd.setWidth 32) 0#32, .R_RISCV_PCREL_LO12_I⟩], rd, sv_constant, .none)
  | .VT_LOCAL c | .VT_LLOCAL c =>
    let sv_constant : BitVec 32 := c.setWidth 32
    if sv_constant.signExtend 64 ≠ c then none
    else if LARGE_IMM sv_constant then
      some (plain [emit_LUI 8#32 (IMM_HIGH (sv_constant + 0x800#32)), emit_ADD 8#32 8#32 8#32], 8,
        IMM_LOW sv_constant, .none)
    else some ([], 8, sv_constant, .none)
  | _ => none

/-- The load of a type. -/
def load_insn (t : Scalar) (rd rs1 : BitVec 5) (offset : BitVec 32) : Option Word :=
  if is_float t.bt then none
  else
    match if t.bt = VT_FUNC then 4 else type_size t.bt with
    | 1 => some (emit_LB (rd.setWidth 32) (rs1.setWidth 32) offset)
    | 2 => some (emit_LH (rd.setWidth 32) (rs1.setWidth 32) offset)
    | 4 => some (emit_LW (rd.setWidth 32) (rs1.setWidth 32) offset)
    | _ => none

def load_lvalue (r : Treg) (t : Scalar) (a : Lvalue) : Option (List Insn) :=
  let dest_reg := ireg r
  match a with
  | .VT_LOCAL _ | .VT_SYM _ => do
    let (pre, rs1, lvar_offset, fixup) ← load_symofs dest_reg a false
    return pre ++ [⟨← load_insn t dest_reg rs1 lvar_offset, fixup⟩]
  | .reg v => do
    return plain [← load_insn t dest_reg (ireg v) 0#32]
  | .VT_LLOCAL _ => do
    let (pre, rs1, lvar_offset, fixup) ← load_symofs dest_reg a false
    return pre ++ [⟨emit_LW (dest_reg.setWidth 32) (rs1.setWidth 32) lvar_offset, fixup⟩,
      ⟨← load_insn t dest_reg dest_reg 0#32, .none⟩]
  | .VT_CONST c => do
    let lvar_offset : BitVec 32 := c.setWidth 32
    let si := c.sshiftRight 32
    if si ≠ 0#64 then
      return plain (load_large_constant (dest_reg.setWidth 32) lvar_offset (si.setWidth 32) ++
        [← load_insn t dest_reg dest_reg (lvar_offset &&& 0xff#32)])
    else
      return plain [emit_LUI (dest_reg.setWidth 32) (IMM_HIGH lvar_offset),
        ← load_insn t dest_reg dest_reg (IMM_LOW lvar_offset)]

/-- `load`: the code that brings a value into register `r`. -/
def load (r : Treg) (t : Scalar) (sv : Source) : Option (List Insn) :=
  let dest_reg := ireg r
  match sv with
  | .lval a => load_lvalue r t a
  | .VT_CONST c => if is_float t.bt then none else some (plain (load_const (dest_reg.setWidth 32) c))
  | .VT_SYM s =>
    if is_float t.bt then none
    else do
      let (pre, rs1, lvar_offset, fixup) ← load_symofs dest_reg (.VT_SYM s) false
      let si := s.c.sshiftRight 32
      if s.isStatic = false ∧ (s.c.setWidth 32).signExtend 64 ≠ s.c ∧ si ≠ 0#64 then
        return pre ++ plain (load_large_constant (dest_reg.setWidth 32) (s.c.setWidth 32) (si.setWidth 32) ++
          [emit_ADDI (dest_reg.setWidth 32) (dest_reg.setWidth 32)
            (IMM_LOW (s.c.setWidth 32 &&& 0xff#32))])
      else
        return pre ++ [⟨emit_ADDI (dest_reg.setWidth 32) (rs1.setWidth 32) (IMM_LOW lvar_offset), fixup⟩]
  | .VT_LOCAL c => do
    let (pre, br, lvar_offset, fixup) ← load_symofs dest_reg (.VT_LOCAL c) false
    return pre ++ [⟨emit_ADDI (dest_reg.setWidth 32) (br.setWidth 32) lvar_offset, fixup⟩]
  | .reg v => some (plain [emit_ADDI (dest_reg.setWidth 32) ((ireg v).setWidth 32) 0#32])

/-- The store of a type. -/
def store_insn (t : Scalar) (loc_reg src_reg : BitVec 5) (offset : BitVec 32) : Option Word :=
  match type_size t.bt with
  | 1 => some (emit_SB (loc_reg.setWidth 32) (src_reg.setWidth 32) offset)
  | 2 => some (emit_SH (loc_reg.setWidth 32) (src_reg.setWidth 32) offset)
  | 4 => some (emit_SW (loc_reg.setWidth 32) (src_reg.setWidth 32) offset)
  | _ => none

/-- `store` of register `r` to an lvalue. -/
def store (r : Treg) (t : Scalar) (a : Lvalue) : Option (List Insn) :=
  let src_reg := ireg r
  if is_float t.bt ∨ t.bt = VT_STRUCT then none
  else
    match a with
    | .VT_LOCAL _ | .VT_SYM _ => do
      let (pre, loc_reg, offset, fixup) ← load_symofs 5 a true
      return pre ++ [⟨← store_insn t loc_reg src_reg offset, fixup⟩]
    | .reg v => do
      return plain [← store_insn t (ireg v) src_reg 0#32]
    | .VT_CONST c => do
      let offset : BitVec 32 := c.setWidth 32
      let offset_hi := c >>> 32
      if offset_hi ≠ 0#64 then
        return plain (load_large_constant 8#32 offset (offset_hi.setWidth 32) ++
          [← store_insn t 8 src_reg (offset &&& 0xff#32)])
      else
        return plain [emit_LUI 8#32 (IMM_HIGH offset), ← store_insn t 8 src_reg (IMM_LOW offset)]
    | .VT_LLOCAL _ => none

end tcc.riscv32
