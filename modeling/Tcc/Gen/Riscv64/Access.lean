import Tcc.Machine.Rv64.Float
import Tcc.Gen.Riscv64.Load
import Tcc.Gen.Riscv64.FrameCode

open machine.rv64

/-! `load` and `store` for the registers of both kinds. -/

namespace tcc.riscv64

open BType

section

variable {opc : BitVec 7} {f3 : BitVec 3} {a b : BitVec 5} {imm : BitVec 32} {w : Word}

theorem fields_ES (h : ES opc f3 a b imm = some w) :
    opcode w = opc ∧ funct3 w = f3 ∧ rs1 w = a ∧ rs2 w = b ∧ immS w = imm.signExtend 64 := by
  rw [ES, Option.ite_none_right_eq_some, Option.some.injEq] at h
  obtain ⟨himm, h⟩ := h
  refine ⟨?_, ?_, ?_, ?_, ?_⟩
  · rw [← h]
    ext i hi
    interval_cases i <;> simp [opcode]
  · rw [← h]
    ext i hi
    interval_cases i <;> simp [funct3]
  · rw [← h]
    ext i hi
    interval_cases i <;> simp [rs1]
  · rw [← h]
    ext i hi
    interval_cases i <;> simp [rs2]
  · rw [← imm12_signExtend64 himm, immS, ← h]
    congr 1
    ext i hi
    interval_cases i <;> simp

theorem exec_store (h : ES 0x23#7 f3 a b imm = some w) (hf3 : f3.toNat < 4) (s : Hart) :
    exec w s = some { s with
      mem := storeLE s.mem (s.get a + imm.signExtend 64) (s.get b) (2 ^ f3.toNat) }.next := by
  obtain ⟨hopc, hfun, ha, hb, himm⟩ := fields_ES h
  simp [exec, hopc, hfun, ha, hb, himm, hf3]

theorem execF_store (h : ES 0x27#7 f3 a b imm = some w) (hf3 : f3 = 2#3 ∨ f3 = 3#3) (s : FHart) :
    execF w s = some (s.withHart { s.toHart with
      mem := storeLE s.mem (s.get a + imm.signExtend 64) (s.f b) (2 ^ f3.toNat) }.next) := by
  obtain ⟨hopc, hfun, ha, hb, himm⟩ := fields_ES h
  simp [execF, hopc, hfun, ha, hb, himm, hf3]

/-- A float store of a byte or a halfword is no instruction. -/
theorem execF_store_none (h : ES 0x27#7 f3 a b imm = some w) (hf3 : ¬(f3 = 2#3 ∨ f3 = 3#3)) (s : FHart) :
    execF w s = none := by
  obtain ⟨hopc, hfun, -⟩ := fields_ES h
  simp [execF, hopc, hfun, hf3]

theorem execF_load {d : BitVec 5} (hw : EI 0x07#7 f3 d a imm = some w) {s : FHart} {v : BitVec 64}
    (hv : floatValue f3 s.mem (s.get a + imm.signExtend 64) = some v) :
    execF w s = some ((s.setF d v).withHart s.next) := by
  obtain ⟨rfl, himm⟩ := immI_EI hw
  simp [execF, himm, hv]

end

namespace treg

/-- A register of the value stack: `TREG_R(0)` to `TREG_R(7)`, then `TREG_F(0)` to `TREG_F(7)`. -/
abbrev Treg := Fin 16

def is_ireg (r : Treg) : Bool := decide (r.val < 8)

def is_freg (r : Treg) : Bool := decide (8 ≤ r.val)

/-- `is_ireg(r) ? ireg(r) : freg(r)` -/
def rr (r : Treg) : BitVec 5 :=
  if is_ireg r then BitVec.ofNat 5 (r.val + 10) else BitVec.ofNat 5 (r.val - 8 + 10)

/-- The register of the machine. -/
def name (r : Treg) : RegName := if is_ireg r then .x (rr r) else .f (rr r)

/-- The value `load` is given: an lvalue or, without `VT_LVAL`, a value. -/
inductive Source where
  | lval (a : Addr)
  | VT_CONST (c : BitVec 64)
  | VT_SYM (s : SymRef)
  | VT_LOCAL (c : BitVec 64)
  | VT_LLOCAL (c : BitVec 64)
  | reg (v : Treg)
  deriving DecidableEq, Repr

/-- The types whose values fit a register. -/
def is_scalar (t : Scalar) : Bool := t.isInteger || is_float t.bt

/-- `bt == VT_FLOAT || bt == VT_DOUBLE` -/
def float_or_double (t : Scalar) : Prop := t.bt = VT_FLOAT ∨ t.bt = VT_DOUBLE

instance (t : Scalar) : Decidable (float_or_double t) := inferInstanceAs (Decidable (_ ∨ _))

/-- The register that `load_symofs` takes for the address: `t0` unless `r` is an integer register. -/
def scratch (r : Treg) : BitVec 5 := if is_ireg r then rr r else 5

/-- `load` of an lvalue. -/
def load_lval (r : Treg) (t : Scalar) (a : Addr) : Option (List Word) :=
  let opcode : BitVec 7 := if is_freg r then 0x07 else 0x03
  let func3 := load_func3 t
  if is_freg r ∧ ¬ float_or_double t then none
  else
    match a with
    | .VT_LOCAL _ | .VT_SYM _ => do
      let (pre, br, fc) ← load_symofs (scratch r) a
      return pre ++ [← EI opcode func3 (rr r) br fc]
    | .reg v => do
      return [← EI opcode func3 (rr r) (ireg v) 0#32]
    | .VT_LLOCAL _ => do
      let (pre, br, fc) ← load_symofs (scratch r) a
      return pre ++ [← EI 0x03#7 3 (rr r) br fc, ← EI opcode func3 (rr r) (rr r) 0#32]
    | .VT_CONST c => do
      let fc : BitVec 32 := c.setWidth 32
      let si : BitVec 64 := c.sshiftRight 32
      if si ≠ 0#64 then
        return (← load_large_constant (rr r) fc (si.setWidth 32)) ++
          [← EI opcode func3 (rr r) (rr r) (fc &&& 0xff#32)]
      else
        return [lui (rr r) (0x800#32 + fc), ← EI opcode func3 (rr r) (rr r) (low12 fc)]

/-- The moves between registers of different kinds; `none` is a failed assertion. -/
def cross_move (r v : Treg) (t : Scalar) : Option (List Word) :=
  let size := btype_size t.bt
  let func7 : BitVec 7 := if is_ireg r then 0x70 else 0x78
  if size = 4 ∨ size = 8 then
    some [ER 0x53#7 0 (rr r) (rr v) 0 (if size = 8 then func7 ||| 1 else func7)]
  else none

/-- `load`: the code that brings a value into register `r`. -/
def load (r : Treg) (t : Scalar) (sv : Source) : Option (List Word) :=
  match sv with
  | .lval a => load_lval r t a
  | .VT_CONST c =>
    if (¬ is_float t.bt ∧ is_ireg r) ∨ t.bt = VT_LDOUBLE then load_const (rr r) t false 0 c else none
  | .VT_SYM s =>
    if (¬ is_float t.bt ∧ is_ireg r) ∨ t.bt = VT_LDOUBLE then do
      let (pre, rb, fc) ← load_symofs (scratch r) (.VT_SYM s)
      return pre ++ (← load_const (rr r) t true rb (if s.isStatic then fc.signExtend 64 else s.c))
    else none
  | .VT_LOCAL c =>
    if is_ireg r then do
      let (pre, br, fc) ← load_symofs (scratch r) (.VT_LOCAL c)
      return pre ++ [← EI 0x13#7 0 (rr r) br fc]
    else none
  | .VT_LLOCAL _ => none
  | .reg v =>
    if is_freg r ∧ is_freg v then
      some [ER 0x53#7 0 (rr r) (rr v) (rr v) (if t.bt = VT_DOUBLE then 0x11 else 0x10)]
    else if is_ireg r ∧ is_ireg v then do
      return [← EI 0x13#7 0 (rr r) (rr v) 0#32]
    else cross_move r v t

/-- `store` of register `r` to an lvalue. -/
def store (r : Treg) (t : Scalar) (a : Addr) : Option (List Word) :=
  let size := if t.bt = VT_LDOUBLE then 8 else btype_size t.bt
  let opcode : BitVec 7 := if is_freg r then 0x27 else 0x23
  let func3 : BitVec 3 := if size = 1 then 0 else if size = 2 then 1 else if size = 4 then 2 else 3
  if is_float t.bt ∧ ¬ is_freg r ∧ t.bt ≠ VT_LDOUBLE ∨ t.bt = VT_STRUCT then none
  else
    match a with
    | .VT_LOCAL _ | .VT_SYM _ => do
      let (pre, ptrreg, fc) ← load_symofs 5 a
      return pre ++ [← ES opcode func3 ptrreg (rr r) fc]
    | .reg v => do
      return [← ES opcode func3 (ireg v) (rr r) 0#32]
    | .VT_CONST c => do
      let fc : BitVec 32 := c.setWidth 32
      let si : BitVec 64 := c.sshiftRight 32
      if si ≠ 0#64 then
        return (← load_large_constant 8 fc (si.setWidth 32)) ++
          [← ES opcode func3 8 (rr r) (fc &&& 0xff#32)]
      else return [lui 8 (0x800#32 + fc), ← ES opcode func3 8 (rr r) (low12 fc)]
    | .VT_LLOCAL _ => none

end treg
end tcc.riscv64
