import Mathlib.Tactic.Common

/-! The definitions of macros, and the frames of them that `#pragma push_macro` saves. -/

namespace tcc.pp.macros

def SYM_FIRST_ANOM : Nat := 0x10000000

def SYM_FIELD : Nat := 0x20000000

def MACRO_OBJ : Nat := 0

/-- The token of a name. -/
abbrev Ident := Fin SYM_FIRST_ANOM

structure Param where
  v : Ident
  is_vaargs : Bool
deriving DecidableEq

/-- A symbol of the define stack. Its address is its position there, from the bottom; `ref` is an
    address, and `next` the parameters from its first one on. -/
structure Sym where
  v : Nat
  macro_type : Nat
  d : Option (List Int)
  next : List Param
  ref : Option Nat

structure State where
  define_stack : List Sym
  sym_define : Ident → Option Nat

def init : State := ⟨[], fun _ => none⟩

/-- `sym_push2` on the define stack. -/
def State.sym_push2 (st : State) (v macro_type : Nat) (d : Option (List Int)) (next : List Param) : State :=
  { st with define_stack := st.define_stack ++ [⟨v, macro_type, d, next, none⟩] }

def State.define (st : State) (v : Ident) (s : Option Nat) : State :=
  { st with sym_define := Function.update st.sym_define v s }

def State.set_ref (st : State) (s : Nat) (ref : Option Nat) : State :=
  { st with define_stack := st.define_stack.modify s fun sym => { sym with ref := ref } }

def define_find (st : State) (v : Ident) : Option Nat := st.sym_define v

def define_push (st : State) (v : Ident) (macro_type : Nat) (str : Option (List Int))
    (first_arg : List Param) : State :=
  (st.sym_push2 v macro_type str first_arg).define v (some st.define_stack.length)

/-- The parameters that `parse_define` pushes before the macro itself. -/
def push_params (st : State) : List Param → State
  | [] => st
  | param :: rest =>
    push_params (st.sym_push2 (param.v ||| SYM_FIELD) (if param.is_vaargs then 1 else 0) none rest) rest

def parse_define (st : State) (v : Ident) (macro_type : Nat) (str : List Int) (params : List Param) : State :=
  define_push (push_params st params) v macro_type (some str) params

/-- `#undef`: the name of the found symbol has no definition. -/
def parse_undef (st : State) (v : Ident) : State :=
  match define_find st v with
  | none => st
  | some s =>
    match st.define_stack[s]? with
    | none => st
    | some sym => if hident : sym.v < SYM_FIRST_ANOM then st.define ⟨sym.v, hident⟩ none else st

/-- A symbol of the name whose reference is itself: the boundary of a frame. -/
def boundary (st : State) (v : Ident) (s : Nat) : Bool :=
  match st.define_stack[s]? with
  | none => false
  | some sym => sym.v == v.val && sym.ref == some s

/-- The walk of `pop_macro` down the stack. -/
def find_boundary (st : State) (v : Ident) : Nat → Option Nat
  | 0 => none
  | s + 1 => if boundary st v s then some s else find_boundary st v s

/-- `sym_define = s->d ? s : NULL` -/
def restore (st : State) (v : Ident) (s : Nat) : State :=
  st.define v ((st.define_stack[s]?).bind fun sym => if sym.d.isSome then some s else none)

/-- The symbol of the name, with one that is pushed for a name without a definition. -/
def find_or_push (st : State) (v : Ident) : State × Nat :=
  match define_find st v with
  | some s => (st, s)
  | none => (define_push st v 0 none [], st.define_stack.length)

def pragma_push (st : State) (v : Ident) : State :=
  let found := find_or_push st v
  restore (found.1.set_ref found.2 (some found.2)) v found.2

def pragma_pop (st : State) (v : Ident) : State :=
  match find_boundary st v st.define_stack.length with
  | none => st
  | some s => restore (st.set_ref s none) v s

/-- What is done to macros; `builtin` is what `tccpp_new` does for names like `__LINE__`. -/
inductive Op where
  | builtin (v : Ident)
  | define (v : Ident) (macro_type : Nat) (str : List Int) (params : List Param)
  | undef (v : Ident)
  | push (v : Ident)
  | pop (v : Ident)
deriving DecidableEq

def Op.name : Op → Ident
  | .builtin v | .define v _ _ _ | .undef v | .push v | .pop v => v

def step (st : State) : Op → State
  | .builtin v => define_push st v MACRO_OBJ none []
  | .define v macro_type str params => parse_define st v macro_type str params
  | .undef v => parse_undef st v
  | .push v => pragma_push st v
  | .pop v => pragma_pop st v

def run (st : State) (ops : List Op) : State := ops.foldl step st

/-- A definition; a built-in macro has no tokens. -/
structure Definition where
  macro_type : Nat
  d : Option (List Int)
  params : List Param
deriving DecidableEq

def Sym.definition (sym : Sym) : Definition := ⟨sym.macro_type, sym.d, sym.next⟩

/-- The definition of a name, if it has one. -/
def definition (st : State) (v : Ident) : Option Definition :=
  (define_find st v).bind fun s => (st.define_stack[s]?).map Sym.definition

/-- What the directives are for: the definition of a name, and the stack of those that were
    saved. -/
structure Saved where
  current : Option Definition
  stack : List (Option Definition)

def Saved.step (v : Ident) (saved : Saved) : Op → Saved
  | .builtin w => if w = v then { saved with current := some ⟨MACRO_OBJ, none, []⟩ } else saved
  | .define w macro_type str params =>
    if w = v then { saved with current := some ⟨macro_type, some str, params⟩ } else saved
  | .undef w => if w = v then { saved with current := none } else saved
  | .push w => if w = v then { saved with stack := saved.current :: saved.stack } else saved
  | .pop w =>
    if w = v then
      match saved.stack with
      | [] => saved
      | top :: rest => ⟨top, rest⟩
    else saved

/-- The number of frames of the name that are open after a list of operations; no number where a
    `pop_macro` finds none of them. -/
def depth (v : Ident) : Nat → List Op → Option Nat
  | n, [] => some n
  | n, op :: ops =>
    if op = .push v then depth v (n + 1) ops
    else if op = .pop v then
      match n with
      | 0 => none
      | n + 1 => depth v n ops
    else depth v n ops

/-- A `push_macro` that finds the name undefined, or defined by tokens and not as the boundary of
    the last frame. -/
def Frames (v : Ident) (st : State) (op : Op) : Prop :=
  op = .push v → ∀ s, define_find st v = some s →
    (∃ sym, st.define_stack[s]? = some sym ∧ sym.d.isSome) ∧ boundary st v s = false

/-- Each step of a run meets the condition. -/
def AllFrames (v : Ident) : State → List Op → Prop
  | _, [] => True
  | st, op :: ops => Frames v st op ∧ AllFrames v (step st op) ops

end tcc.pp.macros
