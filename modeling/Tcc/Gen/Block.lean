import Mathlib.Logic.Relation
import Tcc.Machine.Backpatch

/-! The statements of a function, and the jumps that `block` compiles them to. -/

open machine.backpatch

namespace tcc.statement

/-- A condition: a constant, or one that is tested at run time. -/
inductive Cond where
  | const (b : Bool)
  | test (k : Nat)

/-- A statement; `seq` and `nil` make up what is between braces. Expressions are named by numbers. -/
inductive Stmt where
  | nil
  | seq (s rest : Stmt)
  | compound (body : Stmt)
  | expr (k : Nat)
  | if_ (c : Cond) (s : Stmt)
  | if_else (c : Cond) (s e : Stmt)
  | while_ (c : Cond) (s : Stmt)
  | do_ (s : Stmt) (c : Cond)
  | for_ (init : Option Nat) (c : Option Cond) (step : Option Nat) (s : Stmt)
  | break_
  | continue_
  | return_ (k : Option Nat)

/-- The code of an expression, or of a test. -/
inductive Instr where
  | act (k : Nat)
  /-- skips the jump that follows if the condition comes to `inv` -/
  | test (k : Nat) (inv : Bool)
  deriving DecidableEq

/-- The emitted code, and the `CODE_OFF` bit of `nocode_wanted`. -/
structure Gen where
  code : List (Item Instr)
  off : Bool

namespace Gen

def ind (g : Gen) : Nat := g.code.length

def o (i : Item Instr) (g : Gen) : Gen := if g.off then g else { g with code := g.code ++ [i] }

def code_off (g : Gen) : Gen := { g with off := true }

end Gen

def gind (g : Gen) : Nat × Gen := (g.ind, { g with off := false })

def gsym_addr (t : Chain) (a : Nat) (g : Gen) : Gen := { g with code := patch g.code t a }

def gsym (t : Chain) (g : Gen) : Gen := if t = [] then g else { gsym_addr t g.ind g with off := false }

/-- `gjmp_acs` -/
def gjmp (t : Chain) (g : Gen) : Chain × Gen := if g.off then (t, g) else (g.ind :: t, (g.o (.jump none)).code_off)

/-- `gjmp_addr_acs` -/
def gjmp_addr (a : Nat) (g : Gen) : Gen := (g.o (.jump (some a))).code_off

/-- `gvtst` of a condition that has been compiled by `gexpr`. -/
def gvtst (inv : Bool) (c : Cond) (t : Chain) (g : Gen) : Chain × Gen :=
  match c with
  | .const b => if b != inv then gjmp t g else (t, g)
  | .test k => if g.off then (t, g) else ((g.ind + 1) :: t, (g.o (.instr (.test k inv))).o (.jump none))

/-- The variables of `block`: `bsym` and `csym` of the scope, which may be missing, and `rsym`. -/
structure Ctx where
  g : Gen
  bsym : Option Chain
  csym : Option Chain
  rsym : Chain

/-- `lblock`, with the chains that it leaves in `bsym` and `csym`. -/
def lblock (block : Ctx → Option Ctx) (a b : Chain) (x : Ctx) : Option (Chain × Chain × Ctx) :=
  (block { x with bsym := some a, csym := some b }).map fun y =>
    (y.bsym.getD [], y.csym.getD [], { y with bsym := x.bsym, csym := x.csym })

def Stmt.isNil : Stmt → Bool
  | .nil => true
  | _ => false

/-- The condition of a `for`. -/
def for_test (c : Option Cond) (g : Gen) : Chain × Gen :=
  match c with
  | none => ([], g)
  | some c => gvtst true c [] g

/-- The head of a `for`: the condition, and the step, which stands before the body and is jumped over.
    The results are the chain of the condition and the address that `continue` goes to. -/
def for_head (c : Option Cond) (step : Option Nat) (g : Gen) : Chain × Nat × Gen :=
  let (c', g) := gind g
  let (a, g) := for_test c g
  match step with
  | none => (a, c', g)
  | some k =>
    let (e, g) := gjmp [] g
    let (d, g) := gind g
    let g := gjmp_addr c' (g.o (.instr (.act k)))
    (a, d, gsym e g)

/-- `block`; none for the errors `cannot break` and `cannot continue`. The flag is the test before the jump
    of a `return`: what follows the statement is the brace that ends the function, and `local_scope` is 1. -/
def block : Stmt → Bool → Ctx → Option Ctx
  | .nil, _, x => some x
  | .seq s rest, last, x => (block s (last && rest.isNil) x).bind (block rest last)
  | .compound body, _, x => block body false x
  | .expr k, _, x => some { x with g := x.g.o (.instr (.act k)) }
  | .if_ c s, last, x =>
    let (a, g) := gvtst true c [] x.g
    (block s last { x with g := g }).map fun x => { x with g := gsym a x.g }
  | .if_else c s e, last, x =>
    let (a, g) := gvtst true c [] x.g
    (block s false { x with g := g }).bind fun x =>
      let (d, g) := gjmp [] x.g
      (block e last { x with g := gsym a g }).map fun x => { x with g := gsym d x.g }
  | .while_ c s, last, x =>
    let (d, g) := gind x.g
    let (a, g) := gvtst true c [] g
    (lblock (block s last) a [] { x with g := g }).map fun (a, b, x) =>
      { x with g := gsym a (gsym_addr b d (gjmp_addr d x.g)) }
  | .do_ s c, _, x =>
    let (d, g) := gind x.g
    (lblock (block s false) [] [] { x with g := g }).map fun (a, b, x) =>
      let (c, g) := gvtst false c [] (gsym b x.g)
      { x with g := gsym a (gsym_addr c d g) }
  | .for_ init c step s, _, x =>
    let g := init.elim x.g fun k => x.g.o (.instr (.act k))
    let (a, d, g) := for_head c step g
    (lblock (block s false) a [] { x with g := g }).map fun (a, b, x) =>
      { x with g := gsym a (gsym_addr b d (gjmp_addr d x.g)) }
  | .break_, _, x => x.bsym.map fun b => { x with g := (gjmp b x.g).2, bsym := some (gjmp b x.g).1 }
  | .continue_, _, x => x.csym.map fun b => { x with g := (gjmp b x.g).2, csym := some (gjmp b x.g).1 }
  | .return_ k, last, x =>
    let g := k.elim x.g fun k => x.g.o (.instr (.act k))
    if last then some { x with g := g.code_off }
    else some { x with g := (gjmp x.rsym g).2.code_off, rsym := (gjmp x.rsym g).1 }

/-- The code of a function's body, up to the epilog that all returns go to. -/
def gen_function (body : Stmt) : Option (List (Item Instr)) :=
  (block body true ⟨⟨[], false⟩, none, none, []⟩).map fun x => (gsym x.rsym x.g).code

/-- What the expressions and the conditions of a function do to a state. -/
structure Meaning (σ : Type) where
  act : Nat → σ → σ
  test : Nat → σ → Bool × σ

section meaning

variable {σ : Type} (m : Meaning σ)

def Cond.eval : Cond → σ → Bool × σ
  | .const b, s => (b, s)
  | .test k, s => m.test k s

/-- An optional expression. -/
def Meaning.act? (k : Option Nat) (s : σ) : σ := k.elim s fun k => m.act k s

/-- The condition of a `for`, which holds when there is none. -/
def Meaning.holds? (c : Option Cond) (s : σ) : Bool × σ := c.elim (true, s) fun c => c.eval m s

/-- How a statement ends. -/
inductive Out where
  | normal
  | brk
  | cont
  | ret

/-- How a loop ends when its body ends like this, if it does. -/
def Out.leave : Out → Option Out
  | .brk => some .normal
  | .ret => some .ret
  | _ => none

/-- The statements of C. -/
inductive Exec : Stmt → σ → Out → σ → Prop
  | nil {s : σ} : Exec .nil s .normal s
  | seq {a b : Stmt} {s s₁ s₂ : σ} {o : Out} (h₁ : Exec a s .normal s₁) (h₂ : Exec b s₁ o s₂) :
    Exec (.seq a b) s o s₂
  | seq_out {a b : Stmt} {s s₁ : σ} {o : Out} (h : Exec a s o s₁) (ho : o ≠ .normal) : Exec (.seq a b) s o s₁
  | compound {a : Stmt} {s s₁ : σ} {o : Out} (h : Exec a s o s₁) : Exec (.compound a) s o s₁
  | expr {k : Nat} {s : σ} : Exec (.expr k) s .normal (m.act k s)
  | if_true {c : Cond} {a : Stmt} {s s₁ s₂ : σ} {o : Out} (hc : c.eval m s = (true, s₁)) (h : Exec a s₁ o s₂) :
    Exec (.if_ c a) s o s₂
  | if_false {c : Cond} {a : Stmt} {s s₁ : σ} (hc : c.eval m s = (false, s₁)) : Exec (.if_ c a) s .normal s₁
  | if_else_true {c : Cond} {a b : Stmt} {s s₁ s₂ : σ} {o : Out} (hc : c.eval m s = (true, s₁))
    (h : Exec a s₁ o s₂) : Exec (.if_else c a b) s o s₂
  | if_else_false {c : Cond} {a b : Stmt} {s s₁ s₂ : σ} {o : Out} (hc : c.eval m s = (false, s₁))
    (h : Exec b s₁ o s₂) : Exec (.if_else c a b) s o s₂
  | while_end {c : Cond} {a : Stmt} {s s₁ : σ} (hc : c.eval m s = (false, s₁)) : Exec (.while_ c a) s .normal s₁
  | while_leave {c : Cond} {a : Stmt} {s s₁ s₂ : σ} {o o' : Out} (hc : c.eval m s = (true, s₁))
    (h : Exec a s₁ o s₂) (ho : o.leave = some o') : Exec (.while_ c a) s o' s₂
  | while_next {c : Cond} {a : Stmt} {s s₁ s₂ s₃ : σ} {o o' : Out} (hc : c.eval m s = (true, s₁))
    (h : Exec a s₁ o s₂) (ho : o.leave = none) (hnext : Exec (.while_ c a) s₂ o' s₃) : Exec (.while_ c a) s o' s₃
  | do_leave {c : Cond} {a : Stmt} {s s₁ : σ} {o o' : Out} (h : Exec a s o s₁) (ho : o.leave = some o') :
    Exec (.do_ a c) s o' s₁
  | do_end {c : Cond} {a : Stmt} {s s₁ s₂ : σ} {o : Out} (h : Exec a s o s₁) (ho : o.leave = none)
    (hc : c.eval m s₁ = (false, s₂)) : Exec (.do_ a c) s .normal s₂
  | do_next {c : Cond} {a : Stmt} {s s₁ s₂ s₃ : σ} {o o' : Out} (h : Exec a s o s₁) (ho : o.leave = none)
    (hc : c.eval m s₁ = (true, s₂)) (hnext : Exec (.do_ a c) s₂ o' s₃) : Exec (.do_ a c) s o' s₃
  | for_init {k : Nat} {c : Option Cond} {e : Option Nat} {a : Stmt} {s s₁ : σ} {o : Out}
    (h : Exec (.for_ none c e a) (m.act k s) o s₁) : Exec (.for_ (some k) c e a) s o s₁
  | for_end {c : Option Cond} {e : Option Nat} {a : Stmt} {s s₁ : σ} (hc : m.holds? c s = (false, s₁)) :
    Exec (.for_ none c e a) s .normal s₁
  | for_leave {c : Option Cond} {e : Option Nat} {a : Stmt} {s s₁ s₂ : σ} {o o' : Out}
    (hc : m.holds? c s = (true, s₁)) (h : Exec a s₁ o s₂) (ho : o.leave = some o') :
    Exec (.for_ none c e a) s o' s₂
  | for_next {c : Option Cond} {e : Option Nat} {a : Stmt} {s s₁ s₂ s₃ : σ} {o o' : Out}
    (hc : m.holds? c s = (true, s₁)) (h : Exec a s₁ o s₂) (ho : o.leave = none)
    (hnext : Exec (.for_ none c e a) (m.act? e s₂) o' s₃) : Exec (.for_ none c e a) s o' s₃
  | break_ {s : σ} : Exec .break_ s .brk s
  | continue_ {s : σ} : Exec .continue_ s .cont s
  | return_ {k : Option Nat} {s : σ} : Exec (.return_ k) s .ret (m.act? k s)

/-- The state of a run of the code. -/
structure State (σ : Type) where
  pc : Nat
  s : σ

def Instr.exec (st : State σ) : Instr → State σ
  | act k => ⟨st.pc + 1, m.act k st.s⟩
  | test k inv => ⟨if (m.test k st.s).1 = inv then st.pc + 2 else st.pc + 1, (m.test k st.s).2⟩

/-- A jump without a target goes nowhere. -/
def step (C : Nat → Option (Item Instr)) (st : State σ) : Option (State σ) :=
  match C st.pc with
  | some (.instr i) => some (i.exec m st)
  | some (.jump (some a)) => some { st with pc := a }
  | _ => none

abbrev Reach (C : Nat → Option (Item Instr)) : State σ → State σ → Prop :=
  Relation.ReflTransGen fun st st' => step m C st = some st'

/-- The same in at least one step. -/
abbrev Moves (C : Nat → Option (Item Instr)) : State σ → State σ → Prop :=
  Relation.TransGen fun st st' => step m C st = some st'

end meaning

/-- The statement ends in a `return` that is compiled without a jump when nothing follows the statement. -/
def Stmt.ends_in_return : Stmt → Bool
  | .seq s rest => if rest.isNil then s.ends_in_return else rest.ends_in_return
  | .if_ _ s => s.ends_in_return
  | .if_else _ _ e => e.ends_in_return
  | .while_ _ s => s.ends_in_return
  | .return_ _ => true
  | _ => false

/-- No `while` at the end of a function has such a `return` at the end of its body. -/
def Stmt.Sound : Stmt → Prop
  | .seq s rest => if rest.isNil then s.Sound else rest.Sound
  | .if_ _ s => s.Sound
  | .if_else _ _ e => e.Sound
  | .while_ _ s => s.ends_in_return = false
  | _ => True

/-- Otherwise the code of the `return` goes on with the jump back to the loop. -/
example : gen_function (.seq (.while_ (.const true) (.if_ (.test 0) (.return_ (some 1)))) .nil) =
    some [.instr (.test 0 true), .jump (some 3), .instr (.act 1), .jump (some 0)] := rfl

end tcc.statement
