import Tcc.Gen.Cond.Expr

open machine.backpatch

namespace tcc.cond

open BType

/-- What is known of a value while the code is generated: of a comparison, whether it is
    decided already and which of its chains have jumps. -/
inductive Shape where
  | const (t : BType) (v : BitVec 64)
  | reg (t : BType)
  | cmp (op : Option Bool) (t f : Bool)
  deriving DecidableEq

namespace Shape

def type : Shape → BType
  | const t _ | reg t => t
  | cmp .. => VT_INT

def test : Shape → Shape
  | const _ v => cmp (some (v != 0#64)) false false
  | reg _ => cmp none false false
  | s => s

def not : Shape → Shape
  | const _ v => const VT_INT (boolWord (v == 0#64))
  | reg _ => cmp none false false
  | cmp op t f => cmp (op.map Bool.not) f t

def compare (op : Rel) : Shape → Shape → Shape
  | const _ v₁, const _ v₂ => const VT_INT (boolWord (op.1.holds v₁ v₂))
  | _, _ => cmp none false false

def cast (t : BType) : Shape → Shape
  | const _ v => const t v
  | reg _ => reg t
  | cmp op jt jf => if t = VT_INT then cmp op jt jf else reg t

def condition_3way : Shape → Option Bool
  | const _ v => some (v != 0#64)
  | _ => none

def is_cond_bool : Shape → Bool
  | const t v => t == VT_INT && (v == 0#64 || v == 1#64)
  | reg _ => false
  | cmp .. => true

/-- The value may turn out as `b`, by a jump or, where code is on, by falling through. -/
def can (b on : Bool) (s : Shape) : Bool :=
  match s.test with
  | cmp op t f => (if b then t else f) || (on && op != some !b)
  | _ => true

/-- `gvtst_set` with a chain that has jumps or has none. -/
def set (inv t : Bool) (s : Shape) : Shape :=
  match s.test with
  | cmp op jt jf => if inv then cmp op jt (jf || t) else cmp op (jt || t) jf
  | s => s

/-- The test for not `b` ends in an unconditional jump. -/
def decided (b : Bool) (s : Shape) : Bool :=
  match s.test with
  | cmp op _ _ => op == some b
  | _ => false

end Shape

def CmpOp.flag? : CmpOp → Option Bool
  | flag b => some b
  | rel _ => none

def SValue.shape : SValue → Shape
  | .const t v => .const t v
  | .reg t _ => .reg t
  | .cmp op _ _ jtrue jfalse =>
    .cmp op.flag? (!jtrue.isEmpty) (!jfalse.isEmpty)

/-- What is known of an expression while its code is generated. -/
structure Info where
  /-- its value where no code is generated -/
  quiet : Shape
  /-- where no code is generated, it leaves the `CODE_OFF` bit set -/
  leak : Bool
  /-- it evaluates no operand -/
  silent : Bool
  /-- its value where code is generated, and whether code is on after it; none where code
      that can be reached is not generated -/
  live : Option (Shape × Bool)

def landor_quiet (i : Bool) (s : Shape) (cc f leak : Bool) : List Info → Shape × Bool
  | [] =>
    let c := if f then some i else s.condition_3way
    let cc := cc && c.isSome
    let f := f || c == some !i
    (if cc || f then .const VT_INT (boolWord (i ^^ f)) else s.set i false, leak)
  | operand :: operands =>
    let c := if f then some i else s.condition_3way
    let cc := cc && c.isSome
    let f := f || c == some !i
    let leak := leak || (c == none && s.decided !i) || operand.leak
    landor_quiet i operand.quiet cc f leak operands

def landor_silent (i : Bool) (s : Shape) : List Info → Bool
  | [] => true
  | operand :: operands =>
    if s.condition_3way = some i then operand.silent && landor_silent i operand.quiet operands
    else true

/-- `t`: an operand has jumped; `on`: code is on but for the count; `leak`: an operand
    that is left out has set the bit. -/
def landor_live (i : Bool) (s : Shape) (t cc f on leak : Bool) : List Info → Option (Shape × Bool)
  | [] =>
    let c := if f then some i else s.condition_3way
    let cc := cc && c.isSome
    let f := f || c == some !i
    if cc || f then
      if t || (on && !leak) then some (.const VT_INT (boolWord (i ^^ f)), true) else none
    else some (s.set i t, on)
  | operand :: operands =>
    let c := if f then some i else s.condition_3way
    let cc := cc && c.isSome
    let f := f || c == some !i
    let t' := t || (c == none && s.can (!i) on)
    let on := if c = none then s.can i on else on
    if f then landor_live i operand.quiet t' cc f on (leak || operand.leak) operands
    else if on then do
      let (s, on) ← operand.live
      landor_live i s t' cc f on leak operands
    else landor_live i operand.quiet t' cc f false leak operands

def cond_quiet (c a b : Info) : Shape × Bool :=
  let t := combine_types a.quiet.type b.quiet.type
  match c.quiet.condition_3way with
  | some true => (a.quiet.cast t, c.leak)
  | some false => (b.quiet.cast t, c.leak)
  | none =>
    (if b.quiet.is_cond_bool && a.quiet.is_cond_bool then (a.quiet.set false false).set true false
      else .reg t, c.leak || c.quiet.decided false)

/-- A condition that is no constant must be able to hold. -/
def cond_live (c a b : Info) : Option (Shape × Bool) := do
  let (s, on) ← c.live
  match s.condition_3way with
  | some true =>
    let (sa, _) ← a.live
    return (sa.cast (combine_types sa.type b.quiet.type), true)
  | some false =>
    let (sb, _) ← b.live
    return (sb.cast (combine_types a.quiet.type sb.type), true)
  | none =>
    if s.can true on then
      let (sa, _) ← a.live
      let (sb, onb) ← b.live
      if sb.is_cond_bool && sa.is_cond_bool then
        return ((sa.set false (sb.can true onb)).set true (sb.can false onb), true)
      else return (.reg (combine_types sa.type sb.type), true)
    else none

def cond_gnu_quiet (a b : Info) : Shape :=
  let t := combine_types a.quiet.type b.quiet.type
  match a.quiet.condition_3way with
  | some true => a.quiet.cast t
  | some false => b.quiet.cast t
  | none => .reg t

def cond_gnu_live (a b : Info) : Option (Shape × Bool) := do
  let (sa, _) ← a.live
  match sa.condition_3way with
  | some true => return (sa.cast (combine_types sa.type b.quiet.type), true)
  | some false =>
    let (sb, _) ← b.live
    return (sb.cast (combine_types sa.type sb.type), true)
  | none =>
    let (sb, _) ← b.live
    return (.reg (combine_types sa.type sb.type), true)

mutual

def Expr.info : Expr → Info
  | .const t v => ⟨.const t v, false, true, some (.const t v, true)⟩
  | .operand t _ => ⟨.reg t, false, false, some (.reg t, true)⟩
  | .not e =>
    let i := e.info
    ⟨i.quiet.not, i.leak, i.silent, i.live.map fun (s, on) => (s.not, on)⟩
  | .cmp op e₁ e₂ =>
    let i₁ := e₁.info
    let i₂ := e₂.info
    ⟨i₁.quiet.compare op i₂.quiet, i₁.leak || i₂.leak, i₁.silent && i₂.silent, do
      let (s₁, on) ← i₁.live
      if on then
        let (s₂, _) ← i₂.live
        return (s₁.compare op s₂, true)
      else if i₂.silent then return (s₁.compare op i₂.quiet, true)
      else none⟩
  | .landor land first rest =>
    let i := first.info
    let quiet := landor_quiet land i.quiet true false i.leak rest.info
    ⟨quiet.1, quiet.2, i.silent && landor_silent land i.quiet rest.info, do
      let (s, on) ← i.live
      landor_live land s false true false on false rest.info⟩
  | .cond c a b =>
    let ic := c.info
    let ia := a.info
    let ib := b.info
    let quiet := cond_quiet ic ia ib
    ⟨quiet.1, quiet.2, ic.silent && (if ic.quiet.condition_3way = some true then ia.silent else ib.silent),
      cond_live ic ia ib⟩
  | .cond_gnu a b =>
    let ia := a.info
    let ib := b.info
    ⟨cond_gnu_quiet ia ib, ia.leak, ia.silent && (ia.quiet.condition_3way == some true || ib.silent),
      cond_gnu_live ia ib⟩

def Operands.info : Operands → List Info
  | .nil => []
  | .cons e rest => e.info :: rest.info

end

end tcc.cond
