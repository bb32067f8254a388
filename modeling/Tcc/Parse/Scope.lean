import Mathlib.Logic.Function.Basic

/-! The symbols of `tccgen.c` and the scopes that they are visible in. -/

namespace tcc.scope

def SYM_STRUCT : BitVec 32 := 0x40000000#32

def SYM_FIELD : BitVec 32 := 0x20000000#32

def SYM_FIRST_ANOM : BitVec 32 := 0x10000000#32

/-- A place of the token array: `sym_struct` or `sym_identifier` of a token. -/
structure Slot where
  is_struct : Bool
  tok : BitVec 32
  deriving DecidableEq

/-- The place of a symbol; fields and anonymous symbols have none. -/
def slot (v : BitVec 32) : Option Slot :=
  if v &&& SYM_FIELD = 0#32 ∧ (v &&& ~~~SYM_STRUCT).slt SYM_FIRST_ANOM then
    some ⟨v &&& SYM_STRUCT != 0#32, v &&& ~~~SYM_STRUCT⟩
  else none

/-- A symbol. `enum_ref` is the `type.ref` of an enumeration constant. -/
structure Sym where
  v : BitVec 32
  enum_ref : Option Nat
  sym_scope : Nat
  prev_tok : Option Nat

/-- Symbols are named by their addresses; `next` is the next one that `sym_malloc` returns. The
    stacks are lists, the top first, and `scopes` is `lstk` of the scopes that are open. -/
structure State where
  syms : Nat → Sym
  next : Nat
  local_stack : List Nat
  global_stack : List Nat
  table : Slot → Option Nat
  local_scope : Nat
  scopes : List (List Nat)

def init : State := ⟨fun _ => ⟨0, none, 0, none⟩, 0, [], [], fun _ => none, 0, []⟩

namespace State

variable (st : State)

/-- `sym_scope` of a symbol, which for an enumeration constant is that of the enumeration. -/
def sym_scope (s : Nat) : Nat :=
  match (st.syms s).enum_ref with
  | some ref => (st.syms ref).sym_scope
  | none => (st.syms s).sym_scope

def malloc (sym : Sym) : State := { st with syms := Function.update st.syms st.next sym, next := st.next + 1 }

def stack_push (local_ : Bool) (s : Nat) : State :=
  if local_ then { st with local_stack := s :: st.local_stack } else { st with global_stack := s :: st.global_stack }

/-- `sym_push2`, with the fields that later code looks at. -/
def sym_push2 (local_ : Bool) (sym : Sym) : State := (st.malloc sym).stack_push local_ st.next

/-- `sym_push`; none for the redeclaration error. -/
def sym_push (v : BitVec 32) (enum_ref : Option Nat) : Option State :=
  let local_ := st.local_stack != []
  match slot v with
  | none => some (st.sym_push2 local_ ⟨v, enum_ref, 0, none⟩)
  | some k =>
    let prev_tok := st.table k
    let st' := st.sym_push2 local_ ⟨v, enum_ref, st.local_scope, prev_tok⟩
    if prev_tok.any fun s => st'.sym_scope s == st.local_scope then none
    else some { st' with table := Function.update st'.table k (some st.next) }

/-- The loop of `global_identifier_push`: from `*ps = cur` on to the last `ps`, which is the place
    in the token array, if it is none, or `prev_tok` of a symbol, and its value. -/
def last_ps : Nat → Option Nat → Option Nat → Option Nat × Option Nat
  | 0, ps, cur => (ps, cur)
  | fuel + 1, ps, cur =>
    match cur with
    | none => (ps, cur)
    | some s =>
      if (st.syms s).sym_scope ≠ 0 then last_ps fuel (some s) (st.syms s).prev_tok else (ps, cur)

/-- `global_identifier_push`, for an identifier or an anonymous symbol: then `slot` tests that `v` is
    less than `SYM_FIRST_ANOM`. -/
def global_identifier_push (v : BitVec 32) : State :=
  match slot v with
  | none => st.sym_push2 false ⟨v, none, 0, none⟩
  | some k =>
    let (ps, cur) := st.last_ps st.next none (st.table k)
    let st' := st.sym_push2 false ⟨v, none, 0, cur⟩
    match ps with
    | none => { st' with table := Function.update st'.table k (some st.next) }
    | some s => { st' with syms := Function.update st'.syms s { st'.syms s with prev_tok := some st.next } }

/-- `sym_copy` to the local stack. -/
def sym_copy (s : Nat) : State :=
  match slot (st.syms s).v with
  | none => st.sym_push2 true (st.syms s)
  | some k =>
    let st' := st.sym_push2 true { st.syms s with prev_tok := st.table k }
    { st' with table := Function.update st'.table k (some st.next) }

/-- The search of `external_sym` for a symbol of file scope. -/
def file_sym : Nat → Option Nat → Option Nat
  | 0, cur => cur
  | fuel + 1, cur =>
    match cur with
    | none => none
    | some s => if (st.syms s).sym_scope ≠ 0 then file_sym fuel (st.syms s).prev_tok else some s

/-- `external_sym`; `func` is whether the type is that of a function. -/
def external_sym (v : BitVec 32) (func : Bool) : State :=
  let found := (slot v).bind fun k => st.file_sym st.next (st.table k)
  let (s, st') :=
    match found with
    | none => (st.next, st.global_identifier_push v)
    | some s => (s, st)
  if st'.local_stack ≠ [] ∧ func = false then st'.sym_copy s else st'

/-- `external_global_sym` -/
def external_global_sym (v : BitVec 32) : State :=
  if (slot v).bind st.table = none then st.global_identifier_push v else st

/-- A turn of `sym_pop`. -/
def unlink (table : Slot → Option Nat) (s : Nat) : Slot → Option Nat :=
  match slot (st.syms s).v with
  | none => table
  | some k => Function.update table k (st.syms s).prev_tok

/-- `sym_pop` on the local stack, until its top is `b`. -/
def sym_pop (b : List Nat) (keep : Bool) : State :=
  { st with
    table := (st.local_stack.take (st.local_stack.length - b.length)).foldl st.unlink st.table
    local_stack := if keep then st.local_stack else b }

/-- `new_scope` -/
def new_scope : State :=
  { st with scopes := st.local_stack :: st.scopes, local_scope := st.local_scope + 1 }

/-- `prev_scope` of a scope inside a function's body. -/
def prev_scope (is_expr : Bool) : Option State :=
  match st.scopes with
  | lstk :: body :: params :: scopes =>
    some { st.sym_pop lstk is_expr with scopes := body :: params :: scopes, local_scope := st.local_scope - 1 }
  | _ => none

/-- The start of `gen_function`, before the parameters are pushed. -/
def enter_function : Option State :=
  if st.scopes = [] then
    some { st.sym_push2 true ⟨SYM_FIELD, none, 0, none⟩ with scopes := [[]], local_scope := 1 }
  else none

/-- The start of a function's body, after its parameters. -/
def enter_body : Option State :=
  match st.scopes with
  | [_] => some { st with local_scope := 0 }.new_scope
  | _ => none

/-- The end of a function's body, and of `gen_function`. -/
def leave_function : Option State :=
  match st.scopes with
  | [lstk, params] => some { (st.sym_pop lstk false).sym_pop params false with scopes := [], local_scope := 0 }
  | _ => none

end State

/-- What the parser does to the symbols. -/
inductive Action where
  | sym_push (v : BitVec 32) (enum_ref : Option Nat)
  | external_sym (v : BitVec 32) (func : Bool)
  | external_global_sym (v : BitVec 32)
  | enter_function
  | enter_body
  | new_scope
  | prev_scope (is_expr : Bool)
  | leave_function

def step (st : State) : Action → Option State
  | .sym_push v enum_ref => st.sym_push v enum_ref
  | .external_sym v func => some (st.external_sym v func)
  | .external_global_sym v => some (st.external_global_sym v)
  | .enter_function => st.enter_function
  | .enter_body => st.enter_body
  | .new_scope => if 2 ≤ st.scopes.length then some st.new_scope else none
  | .prev_scope is_expr => st.prev_scope is_expr
  | .leave_function => st.leave_function

/-- A declaration: the name that is declared and its symbol. -/
abbrev Decl := Slot × Nat

/-- The declarations by scope, as the language has them: those of the scopes that are open inside a
    function, the innermost first, and those of the file. -/
structure Scopes where
  inner : List (List Decl)
  file : List Decl

namespace Scopes

/-- The declarations of a name that are in scope, the innermost first. -/
def visible (A : Scopes) (k : Slot) : List Nat :=
  ((A.inner.flatten ++ A.file).filter fun d => d.1 = k).map Prod.snd

def declare (A : Scopes) (k : Slot) (s : Nat) : Scopes :=
  match A.inner with
  | [] => { A with file := (k, s) :: A.file }
  | ds :: inner => { A with inner := ((k, s) :: ds) :: inner }

/-- What an action declares, with symbols from `next` on, and which scopes it opens and closes. -/
def step (A : Scopes) (next : Nat) : Action → Scopes
  | .sym_push v _ => ((slot v).map fun k => A.declare k next).getD A
  | .external_sym v func =>
    match slot v with
    | none => A
    | some k =>
      if (A.file.any fun d => d.1 = k) = true then
        if A.inner ≠ [] ∧ func = false then A.declare k next else A
      else
        let A' := { A with file := (k, next) :: A.file }
        if A.inner ≠ [] ∧ func = false then A'.declare k (next + 1) else A'
  | .external_global_sym v =>
    match slot v with
    | none => A
    | some k => if A.visible k = [] then { A with file := (k, next) :: A.file } else A
  | .enter_function => { A with inner := [] :: A.inner }
  | .enter_body => { A with inner := [] :: A.inner }
  | .new_scope => { A with inner := [] :: A.inner }
  | .prev_scope _ => { A with inner := A.inner.tail }
  | .leave_function => { A with inner := A.inner.tail.tail }

end Scopes

end tcc.scope
