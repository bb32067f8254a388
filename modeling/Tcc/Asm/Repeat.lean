import Tcc.Asm.LocalLabels
import Tcc.Machine.Reader

/-! The loop of the assembler over the lines of its input, and `.rept`, which runs it again on a string of
    tokens. -/

open machine.reader

namespace tcc.asm.repetition

/-- `TOK_ASMDIR_FIRST` to `TOK_ASMDIR_LAST`. -/
inductive AsmDir where
  | byte | word | align | balign | p2align | set | skip | space | string | asciz | ascii | file | globl | global
  | weak | hidden | ident | size | type | text | data | bss | previous | pushsection | popsection | fill | rept
  | endr | org | quad | code16 | code32 | code64 | short | long | int | section
  deriving DecidableEq

/-- A token with its value. `ident` is from `TOK_IDENT` on, `other` is below it. -/
inductive Tok where
  | eof
  | linefeed
  | char (c : Char)
  | ppnum (p : List Byte)
  | str (p : List Byte)
  | asmdir (d : AsmDir)
  | ident (name : List Byte)
  | other (name : String)
  deriving DecidableEq

/-- `tok == ';' || tok == TOK_LINEFEED` -/
def Tok.ends_line (tok : Tok) : Bool := tok = .linefeed || tok = .char ';'

/-- What is still to be read: `macro_stack` from the string that is read on, and then the file. `at_eof` is
    `TOK_FLAG_EOF`. -/
structure Input where
  macro_stack : List (List Tok)
  file : List Tok
  at_eof : Bool

namespace Input

def of_file (file : List Tok) : Input := ⟨[], file, false⟩

def begin_macro (i : Input) (str : List Tok) : Input := { i with macro_stack := str :: i.macro_stack }

def end_macro (i : Input) : Input := { i with macro_stack := i.macro_stack.tail }

def depth (i : Input) : Nat := i.macro_stack.length

/-- A string that is at its end is left. -/
def next_macro : List (List Tok) → Option (Tok × List (List Tok))
  | [] => none
  | [] :: stack => next_macro stack
  | (t :: ts) :: stack => some (t, ts :: stack)

/-- Line ends are tokens with `PARSE_FLAG_LINEFEED`, which adds one at the end of the file. -/
def next_file (linefeed : Bool) (i : Input) : Tok × Input :=
  match if linefeed then i.file else i.file.dropWhile (· = .linefeed) with
  | t :: ts => (t, { i with file := ts })
  | [] =>
    if linefeed ∧ ¬ i.at_eof then (.linefeed, { i with file := [], at_eof := true })
    else (.eof, { i with file := [] })

def next (linefeed : Bool) (i : Input) : Tok × Input :=
  match next_macro i.macro_stack with
  | some (t, stack) => (t, { i with macro_stack := stack })
  | none => next_file linefeed { i with macro_stack := [] }

end Input

/-- A computation that may not end. -/
abbrev Run := ExceptT Halt Option

/-- A program on the tokens of a line, from the current token on. The last token that it reads is then the
    current one. -/
def read {α : Type} (r : Reader Tok (Except Halt α)) (turns : Nat) (tok : Tok) (i : Input) :
    Run (α × Tok × Input) :=
  ExceptT.mk ((run (Input.next true) r turns [] i).map fun x =>
    x.1.map fun a => (a, x.2.1.getLastD tok, x.2.2))

/-- No `.endr` stands behind a line end. -/
def Orderly (ts : List Tok) : Prop :=
  ts.IsChain fun a b => ¬ (a.ends_line = true ∧ b = .asmdir .endr)

/-- The last of these tokens is a line end. -/
def EndsLine (ts : List Tok) : Prop := ∃ e, ts.getLast? = some e ∧ e.ends_line = true

/-- What the loop calls: the other directives, the instructions of the target, the definition of symbols and
    the expressions. They read tokens by `next` only. Some go on to read at a line end, but a line that is
    accepted never goes on to an `.endr` there. -/
structure Assembler (σ : Type) where
  get_tok_str : Tok → String
  asm_parse_directive : σ → AsmDir → Reader Tok (Except Halt σ)
  asm_opcode : σ → List Byte → Tok → Reader Tok (Except Halt σ)
  set_symbol : σ → List Byte → Reader Tok (Except Halt σ)
  asm_expr : σ → Tok → Reader Tok (Except Halt (ExprValue × σ))
  asm_new_label : σ → List Byte → Bool → Except Halt σ
  directive_orderly : ∀ {s s' d p}, Ends (asm_parse_directive s d) p (.ok s') → EndsLine p → Orderly p
  opcode_orderly : ∀ {s s' opcode tok p}, Ends (asm_opcode s opcode tok) p (.ok s') → EndsLine (tok :: p) →
    Orderly (tok :: p)
  symbol_orderly : ∀ {s s' label p}, Ends (set_symbol s label) p (.ok s') → Orderly p
  expr_orderly : ∀ {s e tok p}, Ends (asm_expr s tok) p (.ok e) → Orderly (tok :: p)

/-- `while (tok != TOK_LINEFEED) next();` behind a `#`. -/
def comment : Reader Tok (Except Halt Unit) := fun ts =>
  if ts.getLast? = some .linefeed then some (.ok ()) else none

/-- The tokens up to `.endr`. -/
def capture : Reader Tok (Except Halt (List Tok)) := fun ts =>
  match ts.getLast? with
  | some (.asmdir .endr) => some (.ok ts.dropLast)
  | some .eof => some (.error (.error "we at end of file, .endr not found"))
  | _ => none

/-- The copies of `.rept`, with the string on `macro_stack`. If it is not there any more after a copy, it was
    freed when its end was read. -/
def replay {σ : Type} (assemble : σ → Input → Run (σ × Input)) (init_str : List Tok) :
    Nat → σ → Input → Run (σ × Input)
  | 0, s, i => return (s, i)
  | repeats + 1, s, i => do
    let (s, i') ← assemble s i
    if i'.depth = i.depth then replay assemble init_str repeats s (Input.begin_macro (Input.end_macro i') init_str)
    else throw .crash

/-- `.rept` behind its `.endr`. -/
def asm_copies {σ : Type} (assemble : σ → Input → Run (σ × Input)) (repeats : BitVec 32)
    (init_str : List Tok) (s : σ) (i : Input) : Run (σ × Tok × Input) := do
  let init_str := init_str ++ [.eof]
  let (s, i) ← replay assemble init_str repeats.toInt.toNat s (i.begin_macro init_str)
  let (tok, i) := i.end_macro.next true
  return (s, tok, i)

namespace Assembler

variable {σ : Type} (A : Assembler σ)

def asm_int_expr (s : σ) (tok : Tok) : Reader Tok (Except Halt (BitVec 32 × σ)) := fun ts =>
  (A.asm_expr s tok ts).map fun e => e.bind fun x => (tcc.asm.asm_int_expr x.1).map fun n => (n, x.2)

/-- `.rept`; `assemble` is `tcc_assemble_internal`. -/
def asm_rept (assemble : σ → Input → Run (σ × Input)) (turns : Nat) (s : σ) (i : Input) :
    Run (σ × Tok × Input) := do
  let (tok, i) := i.next true
  let (x, tok, i) ← read (A.asm_int_expr s tok) turns tok i
  let (init_str, _, i) ← read capture turns tok i
  asm_copies assemble x.1 init_str x.2 i

/-- A line from `redo` on, up to the token that should end it. -/
def line (assemble : σ → Input → Run (σ × Input)) : Nat → σ → Tok → Input → Run (σ × Tok × Input)
  | 0, _, _, _ => ExceptT.mk none
  | turns + 1, s, tok, i =>
    match tok with
    | .char '#' => do
      let (_, tok, i) ← read comment turns tok i
      return (s, tok, i)
    | .asmdir .rept => A.asm_rept assemble turns s i
    | .asmdir .endr => throw (.error ("unknown assembler directive '." ++ A.get_tok_str tok ++ "'"))
    | .asmdir d => read (A.asm_parse_directive s d) turns tok i
    | .ppnum p => do
      let (n, p) := strtoul p
      if p ≠ [] then throw (.error (expect "':'"))
      else
        let s ← ExceptT.mk (some (A.asm_new_label s (asm_get_local_label_name (BitVec.ofNat 32 n)) true))
        let (tok, i) := i.next true
        if tok ≠ .char ':' then throw (.error ("':' expected (got \"" ++ A.get_tok_str tok ++ "\")"))
        else
          let (tok, i) := i.next true
          line assemble turns s tok i
    | .ident opcode => do
      let (tok, i) := i.next true
      if tok = .char ':' then
        let s ← ExceptT.mk (some (A.asm_new_label s opcode false))
        let (tok, i) := i.next true
        line assemble turns s tok i
      else if tok = .char '=' then
        let (s, tok, i) ← read (A.set_symbol s opcode) turns tok i
        line assemble turns s tok i
      else read (A.asm_opcode s opcode tok) turns tok i
    | tok => return (s, tok, i)

/-- `PARSE_FLAG_LINEFEED` is not set for the first token of a line. -/
def tcc_assemble_internal : Nat → σ → Input → Run (σ × Input)
  | 0, _, _ => ExceptT.mk none
  | turns + 1, s, i => do
    let (tok, i) := i.next false
    if tok = .eof then return (s, i)
    else
      let (s, tok, i) ← A.line (tcc_assemble_internal turns) turns s tok i
      if tok.ends_line then tcc_assemble_internal turns s i
      else throw (.error (expect "end of line"))

/-- A file is assembled with this result. -/
def Returns (s : σ) (file : List Tok) (r : Except Halt σ) : Prop :=
  ∃ turns, (A.tcc_assemble_internal turns s (.of_file file)).run.map (Except.map Prod.fst) = some r

end Assembler

end tcc.asm.repetition
