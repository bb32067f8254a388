import Mathlib.Data.List.Find
import Tcc.Gen.Types
import Tcc.Machine.Rv64.Exec

open machine.rv64

namespace tcc

open BType

/-- The integer registers of the value stack, `TREG_R(0)` to `TREG_R(7)`. -/
abbrev Reg := Fin 8

/-- A symbol in an address. The two immediates of its address are filled in by
    the linker; `c` is the addend. -/
structure SymRef where
  isStatic : Bool
  hi : BitVec 20
  lo : BitVec 12
  c : BitVec 64
  deriving DecidableEq, Repr

/-- Where an lvalue is: `VT_LVAL` with the location of its address. -/
inductive Addr where
  | VT_LOCAL (c : BitVec 64)
  | VT_LLOCAL (c : BitVec 64)
  | VT_SYM (s : SymRef)
  | VT_CONST (c : BitVec 64)
  | reg (r : Reg)
  deriving DecidableEq, Repr

/-- Where a value is: the field `r` of an `SValue` with the data it stands for.
    A `VT_JMP` is given with the way by which control reaches it. -/
inductive Loc where
  | VT_CONST (c : BitVec 64)
  | VT_SYM (s : SymRef)
  | VT_LOCAL (c : BitVec 64)
  | reg (r : Reg)
  | lval (a : Addr)
  | VT_CMP (cmp_op : Op) (a b : BitVec 5)
  | VT_JMP (t : Bool) (jumped : Bool)
  deriving DecidableEq, Repr

/-- An entry of the value stack. `mustcast` is the delayed cast of a `char` or
    `short` value: 0 for none, 2 when the register still holds a `long long`. -/
structure SValue where
  type : Scalar
  loc : Loc
  mustcast : Nat
  deriving DecidableEq, Repr

structure TempLocalVar where
  size : Nat
  align : Nat
  location : BitVec 32
  deriving DecidableEq, Repr

/-- The state of the code generator: the value stack (its top first), the frame
    offset, the temporary variables of the frame and the code emitted so far. -/
structure Gen where
  vstack : List SValue
  loc : BitVec 32
  temps : List TempLocalVar
  code : List Word

/-- The value is a constant: `VT_CONST` without `VT_LVAL` and `VT_SYM`. -/
def SValue.const? (v : SValue) : Option (BitVec 64) :=
  match v.loc with
  | .VT_CONST c => some c
  | _ => none

def SValue.isLval (v : SValue) : Bool :=
  match v.loc with
  | .lval _ => true
  | _ => false

/-- `(p->r & VT_VALMASK) == r`: the register holds the value or its address. -/
def SValue.uses (v : SValue) (r : Reg) : Bool :=
  match v.loc with
  | .reg q => decide (q = r)
  | .lval (.reg q) => decide (q = r)
  | _ => false

/-- The register an entry occupies. -/
def SValue.reg? (v : SValue) : Option Reg :=
  match v.loc with
  | .reg q => some q
  | .lval (.reg q) => some q
  | _ => none

/-- An entry that used the saved register: a value now is in the temporary at
    `l`, the address of an lvalue is. -/
def SValue.saved (p : SValue) (l : BitVec 64) : SValue :=
  if p.isLval then { p with loc := .lval (.VT_LLOCAL l) }
  else { p with loc := .lval (.VT_LOCAL l), mustcast := 0 }

def MAX_TEMP_LOCAL_VARIABLE_NUMBER : Nat := 8

/-- The offset of a temporary variable that no entry of the stack refers to. -/
def get_temp_local_var (s : Gen) (size align : Nat) : BitVec 32 × Gen :=
  let free (t : TempLocalVar) : Bool := s.vstack.all fun p =>
    match p.loc with
    | .VT_LOCAL c | .lval (.VT_LOCAL c) | .lval (.VT_LLOCAL c) => c != t.location.signExtend 64
    | _ => true
  match s.temps.find? fun t => decide (size ≤ t.size) && t.align == align && free t with
  | some t => (t.location, s)
  | none =>
    let loc := (s.loc - BitVec.ofNat 32 size) &&& -BitVec.ofNat 32 align
    let temps :=
      if s.temps.length < MAX_TEMP_LOCAL_VARIABLE_NUMBER then s.temps ++ [⟨size, align, loc⟩]
      else s.temps
    (loc, { s with loc := loc, temps := temps })

@[simp] theorem get_temp_local_var_vstack (s : Gen) (size align : Nat) :
    (get_temp_local_var s size align).2.vstack = s.vstack := by
  unfold get_temp_local_var
  simp only
  split <;> rfl

@[simp] theorem get_temp_local_var_code (s : Gen) (size align : Nat) :
    (get_temp_local_var s size align).2.code = s.code := by
  unfold get_temp_local_var
  simp only
  split <;> rfl

end tcc
