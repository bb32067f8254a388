import Tcc.Gen.Cond.Value

open machine.backpatch

namespace tcc.cond

open BType

/-- A subexpression as the expression compiler meets it: the code it emits and the
    value it leaves. -/
abbrev Action := Gen → SValue × Gen

/-- The loop of `expr_landor`, after its first operand: `i` is `op == TOK_LAND`, and
    `v` is the operand last compiled. -/
def expr_landor (i : Bool) (v : SValue) (t : Chain) (cc f : Bool) (g : Gen) :
    List Action → SValue × Gen
  | [] =>
    let c := if f then some i else condition_3way v
    let cc := cc && c.isSome
    let (f, g) := if c = some !i then (true, { g with nocode := g.nocode + 1 }) else (f, g)
    if cc || f then
      let g := gsym t (vpop v g)
      (.const VT_INT (boolWord (i ^^ f)), { g with nocode := g.nocode - f.toNat })
    else (gvtst_set i t v, g)
  | operand :: operands =>
    let c := if f then some i else condition_3way v
    let cc := cc && c.isSome
    let (f, g) := if c = some !i then (true, { g with nocode := g.nocode + 1 }) else (f, g)
    let (t, g) := if c = none then gvtst i t v g else (t, vpop v g)
    let (v, g) := operand g
    expr_landor i v t cc f g operands

/-- The two-conditions case of `expr_cond`: `sv` is the second operand and `v` the third. -/
def cond_bool (sv v : SValue) (u : Chain) (g : Gen) : SValue × Gen :=
  let (t₁, g) := gvtst false [] v g
  let (t₂, g) := gjmp [] g
  let g := gsym u g
  (gvtst_set true t₂ (gvtst_set false t₁ sv), g)

/-- The values of both operands are brought into one register. -/
def cond_merge (t : BType) (sv v : SValue) (u : Chain) (ncw_prev : Nat × Bool) (g : Gen) :
    SValue × Gen :=
  let (v, g) := gen_cast t v g
  let (r₂, g) := gv v g
  let (tt, g) := gjmp [] g
  let g := gsym u g
  let g := { g with nocode := ncw_prev.1, off := ncw_prev.2 }
  let (sv, g) := gen_cast t sv g
  let (r₁, g) := gv sv g
  let g := if r₁ = r₂ then g else g.o (.instr (.mv r₂ r₁))
  (.reg t r₂, gsym tt g)

/-- `expr_cond` after the condition `v`. -/
def expr_cond (v : SValue) (a b : Action) (g : Gen) : SValue × Gen :=
  match condition_3way v with
  | some c =>
    let g := vpop v g
    let ncw_prev := (g.nocode, g.off)
    let g := if c then g else { g with nocode := g.nocode + 1 }
    let (sv, g) := a g
    let g := { g with nocode := ncw_prev.1, off := ncw_prev.2 }
    let g := if c then { g with nocode := g.nocode + 1 } else g
    let (v, g) := b g
    let t := combine_types sv.type v.type
    let (v, g) := if c then (v, g) else gen_cast t v g
    let g := { g with nocode := ncw_prev.1, off := ncw_prev.2 }
    if c then gen_cast t sv g else (v, g)
  | none =>
    let (tt, g) := gvtst true [] v g
    let ncw_prev := (g.nocode, g.off)
    let (sv, g) := a g
    let (u, g) := gjmp [] g
    let g := gsym tt g
    let g := { g with nocode := ncw_prev.1, off := ncw_prev.2 }
    let (v, g) := b g
    if is_cond_bool v && is_cond_bool sv then
      let (v, g) := cond_bool sv v u g
      (v, { g with nocode := ncw_prev.1, off := ncw_prev.2 })
    else cond_merge (combine_types sv.type v.type) sv v u ncw_prev g

/-- `expr_cond` without a second operand: the condition is the value if it holds. -/
def expr_cond_gnu (v : SValue) (b : Action) (g : Gen) : SValue × Gen :=
  match condition_3way v with
  | some c =>
    let ncw_prev := (g.nocode, g.off)
    let g := if c then { g with nocode := g.nocode + 1 } else g
    let (v', g) := b g
    let t := combine_types v.type v'.type
    let (v', g) := if c then (v', g) else gen_cast t v' g
    let g := { g with nocode := ncw_prev.1, off := ncw_prev.2 }
    if c then gen_cast t v g else (v', g)
  | none =>
    let (r, g) := gv v g
    let d := g.ind
    let g := g.o (.instr (.mv d r))
    let (tt, g) := gvtst false [] (.reg v.type d) g
    let ncw_prev := (g.nocode, g.off)
    let sv := SValue.reg v.type r
    let (v', g) := b g
    cond_merge (combine_types sv.type v'.type) sv v' tt ncw_prev g

mutual

/-- The boolean expressions over integer operands. -/
inductive Expr where
  | const (t : BType) (v : BitVec 64)
  | operand (t : BType) (k : Nat)
  | not (e : Expr)
  | cmp (op : Rel) (e₁ e₂ : Expr)
  | landor (land : Bool) (first : Expr) (rest : Operands)
  | cond (c a b : Expr)
  | cond_gnu (a b : Expr)

inductive Operands where
  | nil
  | cons (e : Expr) (rest : Operands)

end

mutual

/-- The code generated for an expression. -/
def Expr.gen : Expr → Gen → SValue × Gen
  | .const t v, g => (.const t v, g)
  | .operand t k, g => (.reg t g.ind, g.o (.instr (.operand k g.ind)))
  | .not e, g =>
    let (v, g) := e.gen g
    (gen_test_zero v, g)
  | .cmp op e₁ e₂, g =>
    let (v₁, g) := e₁.gen g
    let (v₁, g) := vcheck_cmp v₁ g
    let (v₂, g) := e₂.gen g
    gen_op op v₁ v₂ g
  | .landor land first rest, g =>
    let (v, g) := first.gen g
    expr_landor land v [] true false g rest.gen
  | .cond c a b, g =>
    let (v, g) := c.gen g
    expr_cond v a.gen b.gen g
  | .cond_gnu a b, g =>
    let (v, g) := a.gen g
    expr_cond_gnu v b.gen g

def Operands.gen : Operands → List (Gen → SValue × Gen)
  | .nil => []
  | .cons e rest => e.gen :: rest.gen

end

/-- The meaning of a subexpression: from the values of the operands, its value and the
    operands that are evaluated, in order. -/
abbrev Meaning := (Nat → BitVec 64) → BitVec 64 × List Nat

/-- Evaluation of the operands that follow a value in a chain of `&&` or `||`. -/
def landor_eval (land : Bool) (env : Nat → BitVec 64) (v : BitVec 64) : List Meaning → BitVec 64 × List Nat
  | [] => (boolWord (v != 0#64), [])
  | m :: ms =>
    if (v != 0#64) = land then
      let (v', tr) := m env
      let (w, trs) := landor_eval land env v' ms
      (w, tr ++ trs)
    else (boolWord !land, [])

mutual

/-- The value of an expression and the operands it evaluates, in the order of their
    evaluation. -/
def Expr.eval : Expr → (Nat → BitVec 64) → BitVec 64 × List Nat
  | .const _ v, _ => (v, [])
  | .operand _ k, env => (env k, [k])
  | .not e, env =>
    let (v, tr) := e.eval env
    (boolWord (v == 0#64), tr)
  | .cmp op e₁ e₂, env =>
    let (v₁, tr₁) := e₁.eval env
    let (v₂, tr₂) := e₂.eval env
    (boolWord (op.1.holds v₁ v₂), tr₁ ++ tr₂)
  | .landor land first rest, env =>
    let (v, tr) := first.eval env
    let (w, trs) := landor_eval land env v rest.eval
    (w, tr ++ trs)
  | .cond c a b, env =>
    let (v, tr) := c.eval env
    let (w, trs) := if v ≠ 0#64 then a.eval env else b.eval env
    (w, tr ++ trs)
  | .cond_gnu a b, env =>
    let (v, tr) := a.eval env
    if v ≠ 0#64 then (v, tr)
    else
      let (w, trs) := b.eval env
      (w, tr ++ trs)

def Operands.eval : Operands → List ((Nat → BitVec 64) → BitVec 64 × List Nat)
  | .nil => []
  | .cons e rest => e.eval :: rest.eval

end

end tcc.cond
