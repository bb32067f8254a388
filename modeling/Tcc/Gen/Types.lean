import Mathlib.Tactic.Common

namespace tcc

/-- The basic types, `VT_BTYPE` of a type word. -/
inductive BType where
  | VT_VOID | VT_BYTE | VT_SHORT | VT_INT | VT_LLONG | VT_PTR | VT_FUNC | VT_STRUCT
  | VT_FLOAT | VT_DOUBLE | VT_LDOUBLE | VT_BOOL
  deriving DecidableEq, Repr

open BType

/-- The part of a type word that decides how a scalar value is computed with:
    the basic type and `VT_UNSIGNED`. -/
structure Scalar where
  bt : BType
  unsigned : Bool
  deriving DecidableEq, Repr

def is_float (bt : BType) : Bool :=
  match bt with
  | VT_FLOAT | VT_DOUBLE | VT_LDOUBLE => true
  | _ => false

/-- The size of a basic type; zero for the types without one. -/
def btype_size (bt : BType) : Nat :=
  match bt with
  | VT_BYTE | VT_BOOL => 1
  | VT_SHORT => 2
  | VT_INT | VT_FLOAT => 4
  | VT_LLONG | VT_PTR | VT_DOUBLE => 8
  | VT_LDOUBLE => 16
  | _ => 0

/-- The integer types and the pointers, whose values live in one integer register. -/
def Scalar.isInteger (t : Scalar) : Bool :=
  match t.bt with
  | VT_BYTE | VT_SHORT | VT_INT | VT_LLONG | VT_PTR | VT_BOOL => true
  | _ => false

/-- A value of the type is narrower than a register. -/
def Scalar.isNarrow (t : Scalar) : Bool := decide (btype_size t.bt ≤ 4)

/-- The four types integer operands have after the usual conversions. -/
def Scalar.int : Scalar := ⟨VT_INT, false⟩
def Scalar.uint : Scalar := ⟨VT_INT, true⟩
def Scalar.llong : Scalar := ⟨VT_LLONG, false⟩
def Scalar.ullong : Scalar := ⟨VT_LLONG, true⟩

/-- The operator tokens of integer binary operations; the first eight are the
    characters `+ - * / % & ^ |` of the source. -/
inductive Op where
  | add | sub | mul | div | mod | and | xor | or
  | TOK_SHL | TOK_SAR | TOK_SHR | TOK_UDIV | TOK_UMOD | TOK_PDIV
  | TOK_LAND | TOK_LOR
  | TOK_ULT | TOK_UGE | TOK_EQ | TOK_NE | TOK_ULE | TOK_UGT
  | TOK_LT | TOK_GE | TOK_LE | TOK_GT
  deriving DecidableEq, Repr

open Op

/-- The token's value. -/
def Op.code : Op → Nat
  | add => 0x2b | sub => 0x2d | mul => 0x2a | div => 0x2f | mod => 0x25 | and => 0x26
  | xor => 0x5e | or => 0x7c
  | TOK_SHL => 0x3c | TOK_SAR => 0x3e | TOK_SHR => 0x8b | TOK_UDIV => 0x83 | TOK_UMOD => 0x84
  | TOK_PDIV => 0x85 | TOK_LAND => 0x90 | TOK_LOR => 0x91
  | TOK_ULT => 0x92 | TOK_UGE => 0x93 | TOK_EQ => 0x94 | TOK_NE => 0x95 | TOK_ULE => 0x96
  | TOK_UGT => 0x97 | TOK_LT => 0x9c | TOK_GE => 0x9d | TOK_LE => 0x9e | TOK_GT => 0x9f

/-- `op ^ 1` on the comparison tokens: the opposite comparison. -/
def Op.xor1 : Op → Op
  | TOK_ULT => TOK_UGE | TOK_UGE => TOK_ULT | TOK_EQ => TOK_NE | TOK_NE => TOK_EQ
  | TOK_ULE => TOK_UGT | TOK_UGT => TOK_ULE | TOK_LT => TOK_GE | TOK_GE => TOK_LT
  | TOK_LE => TOK_GT | TOK_GT => TOK_LE
  | op => op

/-- `op >= TOK_ULT && op <= TOK_GT`: the comparisons. -/
def Op.isCmp (op : Op) : Bool := decide (TOK_ULT.code ≤ op.code) && decide (op.code ≤ TOK_GT.code)

theorem Op.isCmp_xor1 {op : Op} (h : op.isCmp = true) : op.xor1.isCmp = true := by
  cases op <;> first | rfl | cases h

def Op.isShift (op : Op) : Bool :=
  match op with
  | TOK_SHL | TOK_SAR | TOK_SHR => true
  | _ => false

/-- The signed operators that have an unsigned counterpart, and the counterparts. -/
def Op.signed (op : Op) : Bool :=
  match op with
  | .div | .mod | TOK_SAR | TOK_LT | TOK_GE | TOK_LE | TOK_GT => true
  | _ => false

def Op.unsigned (op : Op) : Bool :=
  match op with
  | TOK_UDIV | TOK_UMOD | TOK_SHR | TOK_ULT | TOK_UGE | TOK_ULE | TOK_UGT => true
  | _ => false

/-- The operators that code is generated for at a type: the logical operators
    are control flow, and signed and unsigned operators come at types of their
    own signedness. -/
def Op.usedAt (op : Op) (t : Scalar) : Prop :=
  op ≠ TOK_LAND ∧ op ≠ TOK_LOR ∧ (op.signed → t.unsigned = false) ∧ (op.unsigned → t.unsigned = true)

instance (op : Op) (t : Scalar) : Decidable (op.usedAt t) := inferInstanceAs (Decidable (_ ∧ _))

/-- The value of a comparison in a register. -/
def boolWord (b : Bool) : BitVec 64 := if b then 1#64 else 0#64

/-- The rewriting of `gen_op`: on unsigned types the signed operators become
    their explicit unsigned versions. -/
def gen_op_unsigned (t : Scalar) (op : Op) : Op :=
  if t.unsigned then
    match op with
    | TOK_SAR => TOK_SHR
    | div => TOK_UDIV
    | mod => TOK_UMOD
    | TOK_LT => TOK_ULT
    | TOK_GT => TOK_UGT
    | TOK_LE => TOK_ULE
    | TOK_GE => TOK_UGE
    | op => op
  else op

section

open BType

/-- `VT_BTYPE` of a type word. -/
def BType.code : BType → Nat
  | VT_VOID => 0 | VT_BYTE => 1 | VT_SHORT => 2 | VT_INT => 3 | VT_LLONG => 4 | VT_PTR => 5
  | VT_FUNC => 6 | VT_STRUCT => 7 | VT_FLOAT => 8 | VT_DOUBLE => 9 | VT_LDOUBLE => 10
  | VT_BOOL => 11

mutual

/-- A type with what its symbol holds: the element type and count of an array, the size, the
    alignment and the fields of a structure or union. -/
inductive CType where
  | basic (t : Scalar)
  | array (elem : CType) (count : Int)
  | struct (union : Bool) (size : Int) (align : Nat) (fields : FieldList)

/-- The fields of a structure with their offsets. -/
inductive FieldList where
  | nil
  | cons (offset : Nat) (type : CType) (rest : FieldList)

end

def CType.btype : CType → BType
  | .basic t => t.bt
  | .array _ _ => VT_PTR
  | .struct _ _ _ _ => VT_STRUCT

/-- `type_size`, with the size of a pointer: the size of a type and its alignment. -/
def type_size (PTR_SIZE : Nat) : CType → Int × Nat
  | .struct _ size align _ => (size, align)
  | .array elem count =>
    let (ts, a) := type_size PTR_SIZE elem
    ((if ts < 0 ∧ count < 0 then -ts else ts) * count, a)
  | .basic t =>
    match t.bt with
    | VT_PTR => (PTR_SIZE, PTR_SIZE)
    | VT_LDOUBLE => (16, 16)
    | VT_DOUBLE | VT_LLONG => (8, 8)
    | VT_INT | VT_FLOAT => (4, 4)
    | VT_SHORT => (2, 2)
    | _ => (1, 1)

end

end tcc
