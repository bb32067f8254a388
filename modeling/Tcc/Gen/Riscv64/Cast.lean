import Tcc.Gen.Riscv64.Stack

open machine.rv64

namespace tcc.riscv64

open BType tcc.Op

def commutative (op : Op) : Bool :=
  match op with
  | .add | .and | .xor | .or | .mul | TOK_EQ | TOK_NE => true
  | _ => false

/-- `(0 << x)`, `(0 >> x)` and `(-1 >> x)` are constant. -/
def constantShift (op : Op) (l1 : BitVec 64) : Bool :=
  l1 == 0#64 && op.isShift || l1 == -1#64 && op == TOK_SAR

/-- `(x & 0)`, `(x * 0)`, `(x | -1)` and `(x % 1)` are constant. -/
def constantResult (op : Op) (t2 : Scalar) (l2 : BitVec 64) : Bool :=
  l2 == 0#64 && (op == .and || op == .mul) ||
  op == .or && (l2 == -1#64 || l2 == 0xffffffff#64 && t2.bt != VT_LLONG) ||
  l2 == 1#64 && (op == .mod || op == TOK_UMOD)

/-- Operations like `x*1`, `x-0` and `x&-1` do nothing. -/
def noOperation (op : Op) (t2 : Scalar) (l2 : BitVec 64) : Bool :=
  (op == .mul || op == .div || op == TOK_UDIV || op == TOK_PDIV) && l2 == 1#64 ||
  (op == .add || op == .sub || op == .or || op == .xor || op.isShift) && l2 == 0#64 ||
  op == .and && (l2 == -1#64 || l2 == 0xffffffff#64 && t2.bt != VT_LLONG)

/-- A multiplication or unsigned division by a power of two becomes a shift. -/
def shiftFor (op : Op) (l2 : BitVec 64) : Option (Op × Nat) :=
  if l2 ≠ 0#64 ∧ l2 &&& (l2 - 1#64) = 0#64 then
    match op with
    | .mul => some (TOK_SHL, l2.toNat.log2)
    | TOK_PDIV => some (TOK_SAR, l2.toNat.log2)
    | TOK_UDIV => some (TOK_SHR, l2.toNat.log2)
    | _ => none
  else none

/-- The sum of an address and a constant, where it stays an address. -/
def addAddress (op : Op) (v1 : SValue) (l2 : BitVec 64) : Option SValue :=
  let l2 := if op = .sub then -l2 else l2
  if op = .add ∨ op = .sub then
    match v1.loc with
    | .VT_SYM s =>
      let c := l2 + s.c
      if (c.setWidth 32).signExtend 64 = c then some { v1 with loc := .VT_SYM { s with c := c } }
      else none
    | .VT_LOCAL c' =>
      let c := l2 + c'
      if (c.setWidth 32).signExtend 64 = c then some { v1 with loc := .VT_LOCAL c } else none
    | _ => none
  else none

/-- The simplifications of `gen_opic` when one operand may be a constant: `c1`
    and `c2` say which, `l1` and `l2` are the constants. -/
def gen_opic_simplify (op : Op) (ll : Bool) (t2 : Scalar) (c1 c2 : Bool) (l1 l2 : BitVec 64)
    (s : Gen) : Option Gen :=
  if c1 && constantShift op l1 then some (vdrop s)
  else if c2 && constantResult op t2 l2 then
    (vswap (if l2 = 1#64 then setTop s fun v => { v with loc := .VT_CONST 0#64 } else s)).map vdrop
  else if c2 && noOperation op t2 l2 then some (vdrop s)
  else if c2 then
    match shiftFor op l2 with
    | some (op', n) =>
      gen_opil op' ll (setTop s fun v => { v with loc := .VT_CONST (BitVec.ofNat 64 n) })
    | none =>
      match s.vstack with
      | _ :: v1 :: rest =>
        match addAddress op v1 l2 with
        | some v => some { s with vstack := v :: rest }
        | none => gen_opil op ll s
      | _ => none
  else gen_opil op ll s

/-- `gen_opic`: constants are folded, operations without effect are dropped, the
    rest goes to `gen_opl` or `gen_opi`. -/
def gen_opic (op : Op) (s : Gen) : Option Gen :=
  match s.vstack with
  | v2 :: v1 :: rest =>
    let ll := opic_ll v1.type v2.type
    match v1.const?, v2.const? with
    | some c1, some c2 =>
      match gen_opic_const op v1.type v2.type c1 c2 with
      | some l => some { s with vstack := { v1 with loc := .VT_CONST l } :: rest }
      | none => gen_opil op ll s
    | c1, c2 =>
      let l1 := opic_trunc v1.type (c1.getD 0#64)
      let l2 := opic_trunc v2.type (c2.getD 0#64)
      if c1.isSome && commutative op then do
        gen_opic_simplify op ll v2.type c1.isSome true l1 l1 (← vswap s)
      else gen_opic_simplify op ll v2.type c1.isSome c2.isSome l1 l2 s
  | _ => none

/-- The end of `gen_op`, for operands that have the type `t` of the operation. -/
def gen_op_typed (t : Scalar) (op : Op) (s : Gen) : Option Gen := do
  let s ← gen_opic (gen_op_unsigned t op) s
  let s := setTop s fun v => { v with type := if op.isCmp then .int else t }
  match s.vstack with
  | ⟨_, .lval _, _⟩ :: _ =>
    let (_, s) ← gv s
    return s
  | _ => return s

/-- `gen_cast` of a constant to an integer type. -/
def cast_const (st dt : Scalar) (c : BitVec 64) : BitVec 64 :=
  let c :=
    if st.bt = VT_LLONG ∨ st.bt = VT_PTR then c
    else if st.unsigned then (c.setWidth 32).setWidth 64
    else (c.setWidth 32).setWidth 64 ||| -(c &&& 0x80000000#64)
  if dt.bt = VT_LLONG ∨ dt.bt = VT_PTR then c
  else if dt.bt = VT_BOOL then boolWord (c != 0#64)
  else
    let m : BitVec 64 :=
      if dt.bt = VT_BYTE then 0xff#64 else if dt.bt = VT_SHORT then 0xffff#64 else 0xffffffff#64
    let c := c &&& m
    if dt.unsigned then c else c ||| -(c &&& (m >>> 1) + 1#64)

def retype (t : Scalar) (s : Gen) : Gen := setTop s fun v => { v with type := t }

/-- The end of `gen_cast`: the value is shifted left by `bits` and back, at the
    width `w`, and zero-extended by another `trunc` bits. -/
def cast_shifts (w : Scalar) (bits trunc : Nat) (s : Gen) : Option Gen := do
  let s := retype w s
  let s ← vpushi s bits
  let s ← gen_op_typed w TOK_SHL s
  let s ← vpushi s (bits - trunc)
  let s ← gen_op_typed w TOK_SAR s
  let s ← vpushi s trunc
  gen_op_typed w TOK_SHR s

/-- `gen_cast` to the type `dt`, not `_Bool`, of a value without delayed cast. -/
def gen_cast_core (dt : Scalar) (s : Gen) : Option Gen :=
  match s.vstack with
  | [] => none
  | top :: rest =>
    let st := top.type
    let ds := btype_size dt.bt
    let ss := btype_size st.bt
    if st = dt then some s
    else match top.loc with
    | .VT_CONST c =>
      some { s with vstack := { top with type := dt, loc := .VT_CONST (cast_const st dt c) } :: rest }
    | _ =>
      if ds = 0 ∨ ss = 0 then none
      else if ds = ss ∧ 4 ≤ ds then some (retype dt s)
      else
        let s := if st.bt = VT_PTR then retype .llong s else s
        if top.isLval ∧ ds ≤ ss then some (retype dt s)
        else do
          let (_, s) ← gv s
          if top.isLval ∧ ds ≤ 4 ∧ ¬(dt = ⟨VT_SHORT, true⟩ ∧ st = ⟨VT_BYTE, false⟩) then
            return retype dt s
          else if ds = 8 then
            if st.unsigned then return retype dt (← cast_shifts ⟨VT_LLONG, true⟩ 32 32 s)
            else return retype dt s
          else
            let ss := if ss = 8 then 8 else 4
            if ss ≤ ds then return retype dt s
            else
              let w : Scalar := ⟨if ss = 8 then VT_LLONG else VT_INT, dt.unsigned⟩
              return retype dt (← cast_shifts w ((ss - ds) * 8) 0 s)

/-- `force_charshort_cast` at the start of `gen_cast`. -/
def force_charshort_cast (s : Gen) : Option Gen :=
  match s.vstack with
  | top :: rest =>
    if top.mustcast = 0 then some s
    else do
      let sbt : Scalar := if top.mustcast = 2 then .llong else .int
      let dbt : Scalar := if top.type.bt = VT_BOOL then ⟨VT_BYTE, true⟩ else top.type
      let s ← gen_cast_core dbt { s with vstack := { top with type := sbt, mustcast := 0 } :: rest }
      return retype top.type s
  | [] => none

/-- `gen_cast` to a type other than `_Bool`. -/
def gen_cast_int (dt : Scalar) (s : Gen) : Option Gen := do
  gen_cast_core dt (← force_charshort_cast s)

/-- The type of a binary operation on integers, from `combine_types`. Pointers
    are compared as `size_t`. -/
def combine_types (t1 t2 : Scalar) : Scalar :=
  if t1.bt = VT_PTR ∨ t2.bt = VT_PTR then .ullong
  else if t1.bt = VT_LLONG ∨ t2.bt = VT_LLONG then ⟨VT_LLONG, t1 = .ullong ∨ t2 = .ullong⟩
  else ⟨VT_INT, t1 = .uint ∨ t2 = .uint⟩

/-- The type of a shift: that of its promoted first operand. -/
def shift_type (t1 : Scalar) : Scalar :=
  if t1.bt = VT_LLONG then t1 else if t1 = .uint then .uint else .int

/-- `gen_op` on integers, and the comparisons of pointers. -/
def gen_op (op : Op) (s : Gen) : Option Gen :=
  match s.vstack with
  | v2 :: v1 :: _ =>
    if (v1.type.bt = VT_PTR ∨ v2.type.bt = VT_PTR) ∧ op.isCmp = false then none
    else do
      let t := if op.isShift then shift_type v1.type else combine_types v1.type v2.type
      let s ← vswap s
      let s ← gen_cast_int t s
      let s ← vswap s
      let s ← gen_cast_int (if op.isShift then .int else t) s
      gen_op_typed t op s
  | _ => none

/-- `gen_test_zero(TOK_NE)`. -/
def gen_test_nonzero (s : Gen) : Option Gen := do
  if topIsCmp s then return s
  else gen_op TOK_NE (← vpushi s 0)

/-- `gen_cast` to an integer type. -/
def gen_cast (dt : Scalar) (s : Gen) : Option Gen := do
  let s ← force_charshort_cast s
  match s.vstack with
  | [] => none
  | top :: rest =>
    if dt.bt = VT_BOOL ∧ top.type ≠ dt then
      match top.loc with
      | .VT_CONST c =>
        return { s with
          vstack := { top with type := dt, loc := .VT_CONST (cast_const top.type dt c) } :: rest }
      | .VT_SYM _ => return { s with vstack := { top with type := dt, loc := .VT_CONST 1#64 } :: rest }
      | _ => return retype dt (← gen_test_nonzero s)
    else gen_cast_core dt s

def is_integer_btype (bt : BType) : Bool :=
  match bt with
  | VT_BYTE | VT_BOOL | VT_SHORT | VT_INT | VT_LLONG => true
  | _ => false

/-- `vstore` to an integer type, up to the store itself. The casts to `char` and
    `short` are delayed. -/
def vstore_value (dt : Scalar) (s : Gen) : Option Gen :=
  match s.vstack with
  | [] => none
  | top :: _ =>
    if (dt.bt = VT_BYTE ∨ dt.bt = VT_SHORT) ∧ is_integer_btype top.type.bt then do
      let s ← (if top.mustcast ≠ 0 ∧ btype_size top.type.bt < btype_size dt.bt then
        force_charshort_cast s else some s)
      let (_, s) ← gv s
      return setTop s fun v =>
        { v with type := dt, mustcast := if top.type.bt = VT_LLONG then 2 else 1 }
    else do
      let s ← gen_cast dt s
      let (_, s) ← gv s
      return s

end tcc.riscv64
