import Tcc.Gen.Opic
import Tcc.Gen.Riscv64.Load

open machine.rv64

namespace tcc.riscv64

open BType tcc.Op

/-- `o`: the instructions are appended to the code. -/
def emit (s : Gen) (ws : List Word) : Gen := { s with code := s.code ++ ws }

/-- `save_reg_upstack`, over the entries from the bottom up to the top but `n`. -/
def save_reg_upstack (s : Gen) (r : Reg) (n : Nat) : Option Gen :=
  match (s.vstack.drop n).reverse.find? (·.uses r) with
  | none => some s
  | some p =>
    let bt := if p.isLval then VT_PTR else p.type.bt
    let (l, s) := get_temp_local_var s (btype_size bt) (btype_size bt)
    do
      let ws ← store_local (ireg r) bt l
      let save (p : SValue) := if p.uses r then p.saved (l.signExtend 64) else p
      return { emit s ws with vstack := s.vstack.take n ++ (s.vstack.drop n).map save }

def save_reg (s : Gen) (r : Reg) : Option Gen := save_reg_upstack s r 0

/-- `get_reg(RC_INT)`: a register no entry uses, else the register of the lowest
    entry that has one, after saving it. -/
def get_reg (s : Gen) : Option (Reg × Gen) :=
  match (List.finRange 8).find? fun r => s.vstack.all fun p => !p.uses r with
  | some r => some (r, s)
  | none =>
    match s.vstack.reverse.findSome? (·.reg?) with
    | some r => (save_reg s r).map fun s => (r, s)
    | none => none

/-- `gv(RC_INT)`: the top of the stack is brought into a register. A value that is
    there already stays, but loses the mark of a delayed cast. -/
def gv (s : Gen) : Option (Reg × Gen) :=
  match s.vstack with
  | [] => none
  | top :: rest =>
    match top.loc with
    | .reg r => some (r, { s with vstack := { top with mustcast := 0 } :: rest })
    | _ => do
      let (r, s) ← get_reg s
      match s.vstack with
      | [] => none
      | top :: rest =>
        let ws ← load (ireg r) top
        return (r, { emit s ws with vstack := ⟨top.type, .reg r, 0⟩ :: rest })

/-- `gv_dup`: the top of the stack is brought into a register and copied to another. -/
def gv_dup (s : Gen) : Option Gen := do
  let (_, s) ← gv s
  let (r, s) ← get_reg s
  match s.vstack with
  | [] => none
  | top :: rest =>
    let ws ← load (ireg r) top
    return { emit s ws with vstack := ⟨top.type, .reg r, 0⟩ :: top :: rest }

/-- A pending comparison does not stay below other values. -/
def vcheck_cmp (s : Gen) : Option Gen :=
  match s.vstack with
  | ⟨_, .VT_CMP _ _ _, _⟩ :: _ => (gv s).map (·.2)
  | _ => some s

def vswap (s : Gen) : Option Gen := do
  let s ← vcheck_cmp s
  match s.vstack with
  | a :: b :: rest => some { s with vstack := b :: a :: rest }
  | _ => none

def vpush (s : Gen) (v : SValue) : Option Gen := do
  let s ← vcheck_cmp s
  return { s with vstack := v :: s.vstack }

def vpushi (s : Gen) (c : Nat) : Option Gen :=
  vpush s ⟨.int, .VT_CONST (BitVec.ofNat 64 c), 0⟩

def vdrop (s : Gen) : Gen := { s with vstack := s.vstack.tail }

def setTop (s : Gen) (f : SValue → SValue) : Gen :=
  match s.vstack with
  | [] => s
  | top :: rest => { s with vstack := f top :: rest }

def topIsCmp (s : Gen) : Bool :=
  match s.vstack with
  | ⟨_, .VT_CMP _ _ _, _⟩ :: _ => true
  | _ => false

/-- `gv2(RC_INT, RC_INT)`: the two top values are brought into registers. Loading
    the second may have saved the register of the first, which is then reloaded. -/
def gv2 (s : Gen) : Option Gen := do
  if topIsCmp s then
    let (_, s) ← gv s
    let s ← vswap s
    let (_, s) ← gv s
    let s ← vswap s
    match s.vstack with
    | ⟨_, .reg _, _⟩ :: _ => return s
    | _ =>
      let (_, s) ← gv s
      return s
  else
    let s ← vswap s
    let (_, s) ← gv s
    let s ← vswap s
    let (_, s) ← gv s
    match s.vstack with
    | _ :: ⟨_, .reg _, _⟩ :: _ => return s
    | _ =>
      let s ← vswap s
      let (_, s) ← gv s
      vswap s

/-- The end of `gen_opil`: both operands are brought into registers and replaced
    by the result. -/
def gen_opil_regs (op : Op) (ll : Bool) (s : Gen) : Option Gen := do
  let s ← gv2 s
  match s.vstack with
  | ⟨_, .reg b, _⟩ :: ⟨t, .reg a, _⟩ :: rest =>
    let (d, s) ← get_reg { s with vstack := rest }
    let (ws, res) ← gen_opil_reg op ll (ireg d) (ireg a) (ireg b)
    match res with
    | .reg _ => return { emit s ws with vstack := ⟨t, .reg d, 0⟩ :: s.vstack }
    | .cmp op a b => return { emit s ws with vstack := ⟨t, .VT_CMP op a b, 0⟩ :: s.vstack }
  | _ => none

/-- The first operand of an immediate form is brought into a register and a
    register is found for the result. -/
def gen_opil_prep (s : Gen) : Option (Reg × Reg × Gen) := do
  let s ← vswap s
  let (a, s) ← gv s
  match s.vstack with
  | top :: rest =>
    let (d, s) ← get_reg { s with vstack := rest }
    let s ← vswap { s with vstack := top :: s.vstack }
    return (a, d, s)
  | [] => none

/-- The constant of the immediate forms: it fits in twelve signed bits. -/
def immediate (s : Gen) : Option (BitVec 32) :=
  match s.vstack with
  | ⟨_, .VT_CONST c, _⟩ :: _ =>
    let fc : BitVec 32 := c.setWidth 32
    if fc.signExtend 64 = c ∧ large fc = false then some fc else none
  | _ => none

/-- `gen_opil` for the operators whose immediate form is a single instruction. -/
def gen_opil_cop (op : Op) (ll : Bool) (s : Gen) : Option Gen :=
  match immediate s with
  | none => gen_opil_regs op ll s
  | some fc => do
    let (a, d, s) ← gen_opil_prep s
    match gen_opil_imm op ll fc with
    | .cop w f3 imm =>
      let instr ← EI (0x13#7 ||| w) f3 (ireg d) (ireg a) imm
      match s.vstack with
      | _ :: top :: rest =>
        let loc := if op.isCmp then Loc.VT_CMP TOK_NE (ireg d) 0 else Loc.reg d
        return { emit s [instr] with vstack := ⟨top.type, loc, 0⟩ :: rest }
      | _ => none
    | _ => gen_opil_regs op ll s

/-- `vtop->cmp_op ^= 1`. -/
def invertTop (s : Gen) : Gen :=
  setTop s fun v =>
    match v.loc with
    | .VT_CMP op a b => { v with loc := .VT_CMP op.xor1 a b }
    | _ => v

/-- `gen_opil`. The comparisons that have no immediate form of their own are
    inverted, or decided by a subtraction. -/
def gen_opil (op : Op) (ll : Bool) (s : Gen) : Option Gen :=
  match immediate s with
  | none => gen_opil_regs op ll s
  | some fc =>
    match gen_opil_imm op ll fc with
    | .inverted op' => do
      let (_, _, s) ← gen_opil_prep s
      return invertTop (← gen_opil_cop op' ll s)
    | .compare => do
      let (_, _, s) ← gen_opil_prep s
      let s ← (if fc = 0#32 then some (vdrop s) else gen_opil_cop .sub ll s)
      match s.vstack with
      | ⟨t, .reg a, _⟩ :: rest =>
        return { s with vstack := ⟨t, .VT_CMP op (ireg a) 0, 0⟩ :: rest }
      | _ => none
    | _ => gen_opil_cop op ll s

end tcc.riscv64
