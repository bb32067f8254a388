import Tcc.Gen.Riscv64.Opil
import Tcc.Machine.Backpatch

/-! The value tests of the expression compiler: comparisons that are not yet
    materialised and the two chains of pending jumps they carry. -/

open machine.backpatch

namespace tcc.cond

open BType Op

/-- A comparison token. -/
abbrev Rel := {op : Op // op.isCmp = true}

def Rel.xor (op : Rel) (inv : Bool) : Rel :=
  ⟨if inv then op.1.xor1 else op.1, by
    cases inv
    · exact op.2
    · exact Op.isCmp_xor1 op.2⟩

def Rel.ne : Rel := ⟨TOK_NE, rfl⟩

def Rel.eq : Rel := ⟨TOK_EQ, rfl⟩

theorem Rel.holds_xor (op : Rel) (inv : Bool) (x y : BitVec 64) :
    (op.xor inv).1.holds x y = (op.1.holds x y ^^ inv) := by
  cases inv
  · exact (Bool.xor_false _).symm
  · exact (Op.holds_xor1 op.2 x y).trans (Bool.xor_true _).symm

/-- The instructions besides jumps. A register is named by the address of the
    instruction that sets it first; `none` is the zero register. -/
inductive Instr where
  /-- the code of an operand that is no constant -/
  | operand (k r : Nat)
  | li (r : Nat) (v : BitVec 64)
  | mv (d s : Nat)
  | set (op : Rel) (d a : Nat) (b : Option Nat)
  /-- skips the jump that follows unless the comparison holds -/
  | branch (op : Rel) (a : Nat) (b : Option Nat)

/-- `cmp_op`: a constant below 2, or a comparison. -/
inductive CmpOp where
  | flag (b : Bool)
  | rel (op : Rel)

/-- `cmp_op ^ inv`. -/
def CmpOp.xor (inv : Bool) : CmpOp → CmpOp
  | flag b => flag (b ^^ inv)
  | rel op => rel (op.xor inv)

/-- A value of the value stack. Constants are kept extended to 64 bits. -/
inductive SValue where
  | const (t : BType) (v : BitVec 64)
  | reg (t : BType) (r : Nat)
  | cmp (op : CmpOp) (a : Nat) (b : Option Nat) (jtrue jfalse : Chain)

def SValue.jtrue : SValue → Chain
  | cmp _ _ _ jtrue _ => jtrue
  | _ => []

def SValue.jfalse : SValue → Chain
  | cmp _ _ _ _ jfalse => jfalse
  | _ => []

def SValue.type : SValue → BType
  | const t _ | reg t _ => t
  | cmp .. => VT_INT

/-- The emitted code, and `nocode_wanted` as its count and its `CODE_OFF` bit. -/
structure Gen where
  code : List (Item Instr)
  nocode : Nat
  off : Bool

namespace Gen

/-- `!nocode_wanted`. -/
def live (g : Gen) : Bool := g.nocode == 0 && !g.off

def ind (g : Gen) : Nat := g.code.length

def o (i : Item Instr) (g : Gen) : Gen := if g.live then { g with code := g.code ++ [i] } else g

def code_off (g : Gen) : Gen := { g with off := true }

end Gen

def gsym (t : Chain) (g : Gen) : Gen :=
  if t = [] then g else { g with code := patch g.code t g.ind, off := false }

/-- The back end's `gjmp`. -/
def gjmp_jump (t : Chain) (g : Gen) : Chain × Gen :=
  if g.live then (g.ind :: t, g.o (.jump none)) else (t, g)

/-- `gjmp_acs`, which is what `gjmp` is in the expression compiler. -/
def gjmp (t : Chain) (g : Gen) : Chain × Gen :=
  let (t, g) := gjmp_jump t g
  (t, g.code_off)

def gjmp_cond (op : Rel) (a : Nat) (b : Option Nat) (t : Chain) (g : Gen) : Chain × Gen :=
  gjmp_jump t (g.o (.instr (.branch op a b)))

/-- The value `gvtst_set` makes a comparison of, before it adds to a chain: a comparison
    with zero, which is folded for a constant. -/
def SValue.test : SValue → SValue
  | const _ v => cmp (.flag (v != 0#64)) 0 none [] []
  | reg _ r => cmp (.rel .ne) r none [] []
  | v => v

def gvtst_set (inv : Bool) (t : Chain) (v : SValue) : SValue :=
  match v.test with
  | .cmp op a b jtrue jfalse =>
    if inv then .cmp op a b jtrue (jfalse ++ t) else .cmp op a b (jtrue ++ t) jfalse
  | v => v

def gvtst (inv : Bool) (t : Chain) (v : SValue) (g : Gen) : Chain × Gen :=
  match gvtst_set inv t v with
  | .cmp op a b jtrue jfalse =>
    let (t, u) := if inv then (jfalse, jtrue) else (jtrue, jfalse)
    let (t, g) :=
      match op with
      | .rel op => gjmp_cond (op.xor inv) a b t g
      | .flag op => if op != inv then gjmp t g else (t, g)
    (t, gsym u g)
  | _ => (t, g)

/-- `gen_test_zero(TOK_EQ)`: the value of `!`. -/
def gen_test_zero : SValue → SValue
  | .const _ v => .const VT_INT (boolWord (v == 0#64))
  | .reg _ r => .cmp (.rel .eq) r none [] []
  | .cmp op a b jtrue jfalse => .cmp (op.xor true) a b jfalse jtrue

/-- `load` of a `VT_JMP` value into register `r`. -/
def load_jmp (r : Nat) (t : Bool) (fc : Chain) (g : Gen) : Gen :=
  let g := g.o (.instr (.li r (boolWord t)))
  let g := g.o (.jump (some (g.ind + 2)))
  let g := gsym fc g
  g.o (.instr (.li r (boolWord !t)))

/-- `gv(RC_INT)`; a comparison goes through `vset_VT_JMP` first. -/
def gv (v : SValue) (g : Gen) : Nat × Gen :=
  match v with
  | .reg _ r => (r, g)
  | .const _ c => (g.ind, g.o (.instr (.li g.ind c)))
  | .cmp op a b jtrue jfalse =>
    if jtrue ≠ [] ∨ jfalse ≠ [] then
      let inv := match op with
        | .flag b => b
        | .rel _ => false
      let (t, g) := gvtst inv [] v g
      (g.ind, load_jmp g.ind inv t g)
    else
      match op with
      | .flag c => (g.ind, g.o (.instr (.li g.ind (boolWord c))))
      | .rel op => (g.ind, g.o (.instr (.set op g.ind a b)))

/-- `vcheck_cmp`, before another value is pushed. -/
def vcheck_cmp (v : SValue) (g : Gen) : SValue × Gen :=
  match v with
  | .cmp .. =>
    if g.live then
      let (r, g) := gv v g
      (.reg VT_INT r, g)
    else (v, g)
  | v => (v, g)

def vpop (v : SValue) (g : Gen) : Gen := gsym v.jfalse (gsym v.jtrue g)

/-- `gv2(RC_INT, RC_INT)`. -/
def gv2 (v₁ v₂ : SValue) (g : Gen) : Nat × Nat × Gen :=
  match v₂ with
  | .cmp .. =>
    let (r₂, g) := gv v₂ g
    let (r₁, g) := gv v₁ g
    (r₁, r₂, g)
  | _ =>
    let (r₁, g) := gv v₁ g
    let (r₂, g) := gv v₂ g
    (r₁, r₂, g)

/-- `gen_op` for a comparison. -/
def gen_op (op : Rel) (v₁ v₂ : SValue) (g : Gen) : SValue × Gen :=
  match v₁, v₂ with
  | .const _ c₁, .const _ c₂ => (.const VT_INT (boolWord (op.1.holds c₁ c₂)), g)
  | _, _ =>
    let (r₁, r₂, g) := gv2 v₁ v₂ g
    (.cmp (.rel op) r₁ (some r₂) [] [], g)

/-- The type of a conditional expression, for integer operands. -/
def combine_types (t₁ t₂ : BType) : BType := if t₁ = VT_LLONG ∨ t₂ = VT_LLONG then VT_LLONG else VT_INT

/-- `gen_cast` to such a type; a register holds its value extended to 64 bits. -/
def gen_cast (t : BType) (v : SValue) (g : Gen) : SValue × Gen :=
  match v with
  | .const _ c => (.const t c, g)
  | .reg _ r => (.reg t r, g)
  | .cmp .. =>
    if t = VT_INT then (v, g)
    else
      let (r, g) := gv v g
      (.reg t r, g)

def condition_3way : SValue → Option Bool
  | .const _ v => some (v != 0#64)
  | _ => none

def is_cond_bool : SValue → Bool
  | .const t v => t == VT_INT && (v == 0#64 || v == 1#64)
  | .reg .. => false
  | .cmp .. => true

end tcc.cond
