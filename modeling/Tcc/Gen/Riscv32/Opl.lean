import Tcc.Gen.Riscv32.Words
import Tcc.Gen.Simplify

open machine.rv64 (Word)
open machine.rv32
open tcc.riscv64 (Result)

/-! `gen_opl`, which makes an operation on two `long long`s out of operations on their words. -/

namespace tcc.riscv32

open tcc.Op BType

/-- The lists of jumps that `gen_opl` keeps in its variables `a` and `b`. -/
inductive Chain where
  | a | b
  deriving DecidableEq, Repr

/-- What an entry of the value stack stands for when the code runs: a constant that no code has
    loaded yet, a word, the two words of a `long long`, or a comparison of two words, with the
    jumps that decide it before. -/
inductive Held where
  | const (c : BitVec 64)
  | word (v : BitVec 32)
  | pair (lo hi : BitVec 32)
  | cmp (cmp_op : Op) (x y : BitVec 32) (jtrue jfalse : List Chain)
  deriving DecidableEq, Repr

structure Entry where
  type : Scalar
  held : Held
  deriving DecidableEq, Repr

/-- The tokens of the operations on words that are not operators of C. -/
inductive WordTok where
  | TOK_UMULL | TOK_ADDC1 | TOK_ADDC2 | TOK_SUBC1 | TOK_SUBC2
  deriving DecidableEq, Repr

/-- The calls that `gen_opl` is made of. `exchange i j` swaps `vtop[-i]` and `vtop[-j]`, `gvtst`
    puts its jump into a variable. -/
inductive Cmd where
  | vswap | vpop | lexpand | gv_dup
  | vrotb (n : Nat)
  | exchange (i j : Nat)
  | vpushv (i : Nat)
  | vpushi (v : Int)
  | save_regs (n : Nat)
  | lbuild (t : Scalar)
  | gen_op (op : Op)
  | gen_op_word (tok : WordTok)
  | vset_VT_CMP (op : Op)
  | gvtst (inv : Bool) (chain : Chain)
  | gvtst_set (inv : Bool) (chain : Chain)
  deriving DecidableEq, Repr

/-- The functions that `gen_opl` calls for what it does not do itself. -/
inductive Helper where
  | TOK___divdi3 | TOK___udivdi3 | TOK___moddi3 | TOK___umoddi3
  | TOK___ashrdi3 | TOK___lshrdi3 | TOK___ashldi3
  deriving DecidableEq, Repr

/-- What `gen_opl` does: a call of a helper, or operations on words. -/
inductive Opl where
  | call (func : Helper)
  | words (cmds : List Cmd)
  deriving DecidableEq, Repr

/-- `L1 H1 L2 H2` of two `long long`s. -/
def expand_both : List Cmd := [.vswap, .lexpand, .vrotb 3, .lexpand]

/-- The branch of `gen_opl` for `^`, `&`, `|`, `*`, `+` and `-`. -/
def gen_opl_arith (op : Op) (t : Scalar) : List Cmd :=
  expand_both ++ [.exchange 0 3, .exchange 2 3, .vswap] ++
  (match op with
  | .mul =>
    [.vpushv 1, .vpushv 1, .gen_op_word .TOK_UMULL, .lexpand, .vrotb 6, .vrotb 6, .vrotb 6, .vrotb 6,
      .exchange 0 2, .gen_op .mul, .vrotb 3, .vrotb 3, .gen_op .mul, .gen_op .add, .gen_op .add]
  | .add => [.gen_op_word .TOK_ADDC1, .vrotb 3, .vrotb 3, .gen_op_word .TOK_ADDC2]
  | .sub => [.gen_op_word .TOK_SUBC1, .vrotb 3, .vrotb 3, .gen_op_word .TOK_SUBC2]
  | op => [.gen_op op, .vrotb 3, .vrotb 3, .gen_op op]) ++
  [.lbuild t]

/-- The shift of the two words by a constant `c`, written for `TOK_SHL`. -/
def shift_words (op : Op) (c : Int) : List Cmd :=
  if 32 ≤ c then
    [.vpop] ++ (if 32 < c then [.vpushi (c - 32), .gen_op op] else []) ++
    (if op = TOK_SAR then [.gv_dup, .vpushi 31, .gen_op TOK_SAR] else [.vpushi 0]) ++ [.vswap]
  else
    [.vswap, .gv_dup, .vpushi c, .gen_op op, .vswap, .vpushi (32 - c),
      .gen_op (if op = TOK_SHL then TOK_SHR else TOK_SHL), .vrotb 3, .vpushi c,
      .gen_op (if op = TOK_SHL then TOK_SHL else TOK_SHR), .gen_op .or]

/-- The branch for a shift by a constant; the other shifts have the words swapped. -/
def gen_opl_shift (op : Op) (t : Scalar) (c : Int) : List Cmd :=
  let swap : List Cmd := if op = TOK_SHL then [] else [.vswap]
  [.vswap, .lexpand, .vrotb 3, .vpop] ++ swap ++ shift_words op c ++ swap ++ [.lbuild t]

/-- The comparison of the high words; the jump over that of the low words is an inverted one. -/
def high_op (op : Op) : Op :=
  match op with
  | TOK_LT => TOK_LE
  | TOK_GT => TOK_GE
  | TOK_ULT => TOK_ULE
  | TOK_UGT => TOK_UGE
  | op => op

/-- The comparison of the low words, always unsigned. -/
def low_op (op : Op) : Op :=
  match op with
  | TOK_LT => TOK_ULT
  | TOK_LE => TOK_ULE
  | TOK_GT => TOK_UGT
  | TOK_GE => TOK_UGE
  | op => op

/-- The branch for comparisons. -/
def gen_opl_cmp (op : Op) : List Cmd :=
  expand_both ++ [.exchange 1 2, .save_regs 4, .gen_op (high_op op)] ++
  (if op = TOK_NE then [.gvtst false .b]
  else .gvtst true .a ::
    (if op = TOK_EQ then [] else [.vpushi 0, .vset_VT_CMP TOK_NE, .gvtst false .b])) ++
  [.gen_op (low_op op), .gvtst_set true .a, .gvtst_set false .b]

/-- `gen_opl` on the operands `v1` and `v2`, the top of the stack. -/
def gen_opl (op : Op) (v1 v2 : Entry) : Opl :=
  let shift (func : Helper) : Opl :=
    match v2.held with
    | .const c => .words (gen_opl_shift op v1.type (c.setWidth 32).toInt)
    | _ => .call func
  match op with
  | .div | TOK_PDIV => .call .TOK___divdi3
  | TOK_UDIV => .call .TOK___udivdi3
  | .mod => .call .TOK___moddi3
  | TOK_UMOD => .call .TOK___umoddi3
  | .xor | .and | .or | .mul | .add | .sub => .words (gen_opl_arith op v2.type)
  | TOK_SAR => shift .TOK___ashrdi3
  | TOK_SHR => shift .TOK___lshrdi3
  | TOK_SHL => shift .TOK___ashldi3
  | op => .words (gen_opl_cmp op)

/-- `vcheck_cmp`: a pending comparison would be loaded here, but `gen_opl` has none. -/
def vcheck_cmp (vstack : List Entry) : Option (List Entry) :=
  match vstack with
  | ⟨_, .cmp _ _ _ _ _⟩ :: _ => none
  | vstack => some vstack

/-- Rotates the first `n` entries: `I1 ... In` becomes `I2 ... In I1`, the top on the right. -/
def vrotb (n : Nat) (vstack : List Entry) : Option (List Entry) := do
  let vstack ← vcheck_cmp vstack
  let tmp ← vstack[n - 1]?
  some (tmp :: vstack.eraseIdx (n - 1))

def exchange (i j : Nat) (vstack : List Entry) : Option (List Entry) := do
  let p ← vstack[i]?
  let q ← vstack[j]?
  some ((vstack.set i q).set j p)

/-- A constant is split in the compiler; the entry of its low word keeps all of its bits. -/
def lexpand (vstack : List Entry) : Option (List Entry) :=
  match vstack with
  | ⟨t, .const c⟩ :: rest =>
    some (⟨⟨VT_INT, t.unsigned⟩, .const (c >>> 32)⟩ :: ⟨⟨VT_INT, t.unsigned⟩, .const c⟩ :: rest)
  | ⟨t, .pair lo hi⟩ :: rest =>
    some (⟨⟨VT_INT, t.unsigned⟩, .word hi⟩ :: ⟨⟨VT_INT, t.unsigned⟩, .word lo⟩ :: rest)
  | _ => none

/-- The calls that only move entries. The registers of a comparison are in the bytes of `sym`,
    which are zero in a pushed constant: `vset_VT_CMP` makes it one of `x0` with itself. -/
def moves (cmd : Cmd) (vstack : List Entry) : Option (List Entry) :=
  match cmd, vstack with
  | .vswap, vstack => do
    match ← vcheck_cmp vstack with
    | q :: p :: rest => some (p :: q :: rest)
    | _ => none
  | .vpop, _ :: rest => some rest
  | .vrotb n, vstack => vrotb n vstack
  | .exchange i j, vstack => exchange i j vstack
  | .vpushv i, vstack => vstack[i]?.map (· :: vstack)
  | .vpushi v, vstack => (vcheck_cmp vstack).map (⟨.int, .const (BitVec.ofInt 64 v)⟩ :: ·)
  | .save_regs _, vstack => some vstack
  | .lexpand, vstack => lexpand vstack
  | .vset_VT_CMP op, ⟨t, .const _⟩ :: rest => some (⟨t, .cmp op 0#32 0#32 [] []⟩ :: rest)
  | .gvtst_set inv chain, ⟨t, .cmp op x y jtrue jfalse⟩ :: rest =>
    if inv then some (⟨t, .cmp op x y jtrue (jfalse ++ [chain])⟩ :: rest)
    else some (⟨t, .cmp op x y (jtrue ++ [chain]) jfalse⟩ :: rest)
  | _, _ => none

/-- The word `x` is what `gv` gets into a register. -/
def LoadsWord (v : Held) (x : BitVec 32) : Prop :=
  match v with
  | .const c => ∃ b h h', Allocatable b ∧ run (load_const (b.setWidth 32) c) h = some h' ∧ h'.get b = x
  | .word y => x = y
  | _ => False

/-- Register `a` holds the word, or is free for the constant. -/
def Held.placed (v : Held) (a : BitVec 5) (h : Hart) : Prop :=
  match v with
  | .word x => h.get a = x
  | .const _ => True
  | _ => False

/-- The code of `gen_opi` with the operands in `a` and `b`. -/
def gen_opi_code (op : Op) (v1 v2 : Held) (d a b : BitVec 5) : Option (List Word × Result) :=
  match v1, v2 with
  | .word _, .word _ => gen_opil_reg op d a b
  | .word _, .const c => gen_opil op c d a b
  | .const c, .word _ => (gen_opil_reg op d a b).map fun r => (load_const (a.setWidth 32) c ++ r.1, r.2)
  | _, _ => none

/-- The entry of a result, with what its registers hold in the end. -/
def result_held (r : Result) (h : Hart) : Held :=
  match r with
  | .reg q => .word (h.get q)
  | .cmp op p q => .cmp op (h.get p) (h.get q) [] []

/-- `gen_opi` may leave `res`, with some choice of registers and some contents of the others. -/
def Emits (op : Op) (v1 v2 : Held) (res : Held) : Prop :=
  ∃ d a b h ws r h', Allocatable d ∧ Allocatable a ∧ Allocatable b ∧
    (a = b → ∃ x y, v1 = .word x ∧ v2 = .word y) ∧ v1.placed a h ∧ v2.placed b h ∧
    gen_opi_code op v1 v2 d a b = some (ws, r) ∧ run ws h = some h' ∧ res = result_held r h'

/-- An entry as `gen_opic` looks at it; the register tells the operands apart. -/
def Entry.svalue (e : Entry) (r : Reg) : SValue where
  type := e.type
  loc := match e.held with
    | .const c => .VT_CONST c
    | _ => .reg r
  mustcast := 0

/-- The operand that `gen_opic` has kept. -/
def kept (e1 e2 : Entry) (v : SValue) : Option Held :=
  match v.loc with
  | .VT_CONST c => some (.const c)
  | .reg r => some (if r = Fin.last 7 then e1.held else e2.held)
  | _ => none

/-- What `gen_opic` may leave of an operation on words. -/
def Folds (op : Op) (e1 e2 : Entry) (res : Held) : Prop :=
  match e1.held, e2.held with
  | .const c1, .const c2 => ∃ c, gen_opic_const op e1.type e2.type c1 c2 = some c ∧ res = .const c
  | _, _ =>
    match gen_opic_one 4 false op (e1.svalue (Fin.last 7)) (e2.svalue (Fin.last 7).rev) with
    | .value v => kept e1 e2 v = some res
    | .operation op v1 v2 => ∃ x y, kept e1 e2 v1 = some x ∧ kept e1 e2 v2 = some y ∧ Emits op x y res

/-- `gen_op` on operands of one type of 32 bits, or with an `int` to shift by. -/
def GenOp (op : Op) (e1 e2 e : Entry) : Prop :=
  let op := gen_op_unsigned e1.type op
  e1.type.bt = VT_INT ∧ e2.type = (if op.isShift then .int else e1.type) ∧
    e.type = (if op.isCmp then .int else e1.type) ∧ Folds op e1 e2 e.held

/-- The jump of `gjmp_cond` is taken or not. -/
def Jumps (op : Op) (x y : BitVec 32) (taken : Bool) : Prop :=
  ∃ a b w h h', h.get a = x ∧ h.get b = y ∧ gjmp_cond op a b = some w ∧ exec w h = some h' ∧
    h'.pc = h.pc + if taken then 4#32 else 8#32

/-- The value stack, its top first, and the conditional jumps in the order of the code: the list
    of each, and whether it is taken when control gets there. -/
structure State where
  vstack : List Entry
  jumps : List (Chain × Bool)
  deriving DecidableEq, Repr

/-- A call, and the run of the code that it emits. The other words on the stack keep their values
    meanwhile, in the registers or in the frame. -/
def Step (cmd : Cmd) (s s' : State) : Prop :=
  match cmd with
  | .gen_op op => ∃ e1 e2 rest e, s.vstack = e2 :: e1 :: rest ∧ GenOp op e1 e2 e ∧
    s' = { s with vstack := e :: rest }
  -- the back end has no case for these tokens: "implement me"
  | .gen_op_word _ => False
  | .gv_dup => ∃ e rest x, s.vstack = e :: rest ∧ LoadsWord e.held x ∧
    s' = { s with vstack := ⟨e.type, .word x⟩ :: ⟨e.type, .word x⟩ :: rest }
  | .lbuild t => ∃ e1 e2 rest lo hi, s.vstack = e2 :: e1 :: rest ∧ LoadsWord e1.held lo ∧ LoadsWord e2.held hi ∧
    s' = { s with vstack := ⟨t, .pair lo hi⟩ :: rest }
  | .gvtst inv chain => ∃ t op x y rest taken, s.vstack = ⟨t, .cmp op x y [] []⟩ :: rest ∧
    Jumps (if inv then op.xor1 else op) x y taken ∧ s' = ⟨rest, s.jumps ++ [(chain, taken)]⟩
  | cmd => ∃ vstack, moves cmd s.vstack = some vstack ∧ s' = { s with vstack := vstack }

def Steps : List Cmd → State → State → Prop
  | [], s, s' => s' = s
  | cmd :: cmds, s, s' => ∃ s₁, Step cmd s s₁ ∧ Steps cmds s₁ s'

/-- Where control goes at a comparison: the first jump that is taken decides it. -/
def decided (jumps : List (Chain × Bool)) (jtrue jfalse : List Chain) (t : Bool) : Option Bool :=
  match jumps.find? (·.2) with
  | some (chain, _) =>
    if chain ∈ jtrue then some true else if chain ∈ jfalse then some false else none
  | none => some t

/-- The value of the one entry on the stack. -/
def State.value? (s : State) : Option (BitVec 64) :=
  match s.vstack with
  | [⟨_, .pair lo hi⟩] => some (hi ++ lo)
  | [⟨_, .cmp op x y jtrue jfalse⟩] => (decided s.jumps jtrue jfalse (op.holds x y)).map boolWord
  | _ => none

/-- `gen_opl` emits code for the operation, and the code always yields `v`. -/
def Yields (op : Op) (v1 v2 : Entry) (v : BitVec 64) : Prop :=
  ∃ cmds, gen_opl op v1 v2 = .words cmds ∧ (∃ s, Steps cmds ⟨[v2, v1], []⟩ s) ∧
    ∀ s, Steps cmds ⟨[v2, v1], []⟩ s → s.value? = some v

end tcc.riscv32
