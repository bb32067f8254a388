import Tcc.Asm.LocalLabels

/-! Expressions of the assembler, which are parsed by recursive descent. -/

namespace tcc.asm.expr

inductive Op where
  | mul | div | mod | shl | sar | and | or | xor | add | sub | eq | ne | lt | ge | le | gt
  deriving DecidableEq

inductive Tok where
  | ppnum (p : List Byte)
  | cchar (i : BitVec 64) (str : String)
  | ident (name : List Byte)
  | dot
  | lparen
  | rparen
  | tilde
  | op (op : Op)
  | other (str : String)

/-- The value of an expression. With `pcrel` the place after the next four bytes is taken from it. -/
structure PcrelValue extends ExprValue where
  pcrel : Bool

/-- The place of an expression: `cur_text_section`, which is one that has an address, and `ind`. -/
structure Here where
  name : List Byte
  sh_num : Nat
  ind : BitVec 32
  regular : 0 < sh_num ∧ sh_num < 0xff00

def SHN_ABS : Nat := 0xfff1

def SHN_COMMON : Nat := 0xfff2

def text (p : List Byte) : String := String.ofList (p.map fun b => Char.ofNat b.toNat)

def Op.get_tok_str : Op → String
  | mul => "*" | div => "/" | mod => "%" | shl => "<<" | sar => ">>" | and => "&" | or => "|" | xor => "^"
  | add => "+" | sub => "-" | eq => "==" | ne => "!=" | lt => "<" | ge => ">=" | le => "<=" | gt => ">"

/-- The text of the current token. -/
def get_tok_str : List Tok → String
  | [] => "<eof>"
  | .ppnum p :: _ => text p
  | .cchar _ str :: _ => str
  | .ident name :: _ => text name
  | .dot :: _ => "."
  | .lparen :: _ => "("
  | .rparen :: _ => ")"
  | .tilde :: _ => "~"
  | .op op :: _ => op.get_tok_str
  | .other str :: _ => str

def skip_rparen : List Tok → Except Halt (List Tok)
  | .rparen :: ts => return ts
  | ts => throw (.error ("')' expected (got \"" ++ get_tok_str ts ++ "\")"))

def get_asm_sym (st : Labels) (name : List Byte) : Nat × Labels :=
  match st.asm_label_find name with
  | some sym => (sym, st)
  | none => st.asm_label_push name

/-- The name `L.` and the name of the section. -/
def section_label (c : Here) : List Byte := [76#8, 46#8] ++ c.name

def asm_section_sym (c : Here) (st : Labels) : Nat × Labels :=
  match st.asm_label_find (section_label c) with
  | some sym => (sym, st)
  | none => st.asm_new_label (section_label c) c.sh_num 0

/-- An absolute symbol stands for its value. -/
def label_value (st : Labels) (sym : Nat) : PcrelValue :=
  match st.elfsym sym with
  | some esym =>
    if esym.st_shndx = SHN_ABS then ⟨⟨esym.st_value, none⟩, false⟩ else ⟨⟨0, some sym⟩, false⟩
  | none => ⟨⟨0, some sym⟩, false⟩

def asm_number (st : Labels) (p : List Byte) : Except Halt (PcrelValue × Labels) :=
  match st.asm_number p with
  | .ok (e, st) => return (⟨e, false⟩, st)
  | .error msg => throw (.error msg)

def invalid_operation : Halt := .error "invalid operation with label"

/-- `-` and `~` before an operand. -/
def invert (f : BitVec 64 → BitVec 64) (pe : PcrelValue) : Except Halt PcrelValue :=
  if pe.sym.isSome then throw invalid_operation else return { pe with v := f pe.v }

abbrev Parse := Labels → List Tok → Except Halt (PcrelValue × Labels × List Tok)

/-- `expr` is `asm_expr`. -/
def asm_expr_unary (c : Here) (expr : Parse) (st : Labels) :
    List Tok → Except Halt (PcrelValue × Labels × List Tok)
  | .ppnum p :: ts => do
    let (pe, st) ← asm_number st p
    return (pe, st, ts)
  | .op .add :: ts => asm_expr_unary c expr st ts
  | .op .sub :: ts => do
    let (pe, st, ts) ← asm_expr_unary c expr st ts
    let pe ← invert (fun v => -v) pe
    return (pe, st, ts)
  | .tilde :: ts => do
    let (pe, st, ts) ← asm_expr_unary c expr st ts
    let pe ← invert (fun v => ~~~v) pe
    return (pe, st, ts)
  | .cchar i _ :: ts => return (⟨⟨i, none⟩, false⟩, st, ts)
  | .lparen :: ts => do
    let (pe, st, ts) ← expr st ts
    let ts ← skip_rparen ts
    return (pe, st, ts)
  | .dot :: ts =>
    let (sym, st) := asm_section_sym c st
    return (⟨⟨ulong c.ind, some sym⟩, false⟩, st, ts)
  | .ident name :: ts =>
    let (sym, st) := get_asm_sym st name
    return (label_value st sym, st, ts)
  | ts => throw (.error ("bad expression syntax [" ++ get_tok_str ts ++ "]"))

/-- The operators of a level, and what the code does with two operands. -/
structure Level where
  is_op : Op → Bool
  apply : Labels → Op → PcrelValue → PcrelValue → Except Halt PcrelValue

def binary_loop (l : Level) (operand : Parse) : Nat → PcrelValue → Parse
  | n + 1, pe, st, .op op :: ts =>
    if l.is_op op then do
      let (e2, st, ts) ← operand st ts
      let pe ← l.apply st op pe e2
      binary_loop l operand n pe st ts
    else return (pe, st, .op op :: ts)
  | _, pe, st, ts => return (pe, st, ts)

/-- Every round of the loop takes a token. -/
def binary_level (l : Level) (operand : Parse) : Parse := fun st ts => do
  let (pe, st, ts) ← operand st ts
  binary_loop l operand ts.length pe st ts

/-- The operators that do not take a label. -/
def constant_op (f : BitVec 64 → BitVec 64 → Except Halt (BitVec 64)) (pe e2 : PcrelValue) :
    Except Halt PcrelValue := do
  if pe.sym.isSome || e2.sym.isSome then throw invalid_operation
  else
    let v ← f pe.v e2.v
    return { pe with v := v }

/-- A shift by 64 or more is not defined in C; the machines use six bits of the count. -/
def prod_op (op : Op) (a b : BitVec 64) : Except Halt (BitVec 64) :=
  match op with
  | .mul => return a * b
  | .div => if b = 0 then throw (.error "division by zero") else return a / b
  | .mod => if b = 0 then throw (.error "division by zero") else return a % b
  | .shl => return a <<< (b.toNat % 64)
  | _ => return a >>> (b.toNat % 64)

def prod : Level where
  is_op op := op matches .mul | .div | .mod | .shl | .sar
  apply _ op := constant_op (prod_op op)

def asm_expr_prod (c : Here) (expr : Parse) : Parse := binary_level prod (asm_expr_unary c expr)

def logic_op (op : Op) (a b : BitVec 64) : BitVec 64 :=
  match op with
  | .and => a &&& b
  | .or => a ||| b
  | _ => a ^^^ b

def logic : Level where
  is_op op := op matches .and | .or | .xor
  apply _ op := constant_op fun a b => return logic_op op a b

def asm_expr_logic (c : Here) (expr : Parse) : Parse := binary_level logic (asm_expr_prod c expr)

def sum_add (pe e2 : PcrelValue) : Except Halt PcrelValue :=
  if pe.sym.isSome && e2.sym.isSome then throw invalid_operation
  else return { pe with v := pe.v + e2.v, sym := if pe.sym.isNone then e2.sym else pe.sym }

/-- Defined symbols in the same section. -/
def same_section (esym1 : Option LabelEsym) (esym2 : LabelEsym) : Option LabelEsym :=
  esym1.filter fun esym1 => esym1.st_shndx = esym2.st_shndx ∧ esym1.st_shndx ≠ 0

/-- The difference of two symbols. `esym2` is read where `e2` has a symbol that is not that of `pe`. -/
def sum_sub_sym (c : Here) (esym1 esym2 : Option LabelEsym) (pe : PcrelValue) : Except Halt PcrelValue :=
  match esym2 with
  | none => throw .crash
  | some esym2 =>
    match same_section esym1 esym2 with
    | some esym1 => return { pe with v := pe.v + (esym1.st_value - esym2.st_value), sym := none }
    | none =>
      if esym2.st_shndx = c.sh_num then
        return { pe with v := pe.v - (esym2.st_value - ulong c.ind - 4), pcrel := true }
      else throw invalid_operation

def sum_sub (c : Here) (st : Labels) (pe e2 : PcrelValue) : Except Halt PcrelValue :=
  match e2.sym with
  | none => return { pe with v := pe.v - e2.v }
  | some sym2 =>
    if pe.sym = some sym2 then return { pe with v := pe.v - e2.v, sym := none }
    else sum_sub_sym c (pe.sym.bind st.elfsym) (st.elfsym sym2) { pe with v := pe.v - e2.v }

def sum (c : Here) : Level where
  is_op op := op matches .add | .sub
  apply st op := if op = .add then sum_add else sum_sub c st

def asm_expr_sum (c : Here) (expr : Parse) : Parse := binary_level (sum c) (asm_expr_logic c expr)

def truth (b : Bool) : BitVec 64 := if b then 1 else 0

def cmp_truth (op : Op) (a b : BitVec 64) : BitVec 64 :=
  match op with
  | .eq => truth (a == b)
  | .ne => truth (a != b)
  | .lt => truth (a.slt b)
  | .ge => truth (b.sle a)
  | .le => truth (a.sle b)
  | .gt => truth (b.slt a)
  | _ => a

/-- The results are -1 and 0. -/
def cmp_op (op : Op) (a b : BitVec 64) : BitVec 64 := -cmp_truth op a b

def cmp : Level where
  is_op op := op matches .eq | .ne | .lt | .ge | .le | .gt
  apply _ op := constant_op fun a b => return cmp_op op a b

def asm_expr_cmp (c : Here) (expr : Parse) : Parse := binary_level cmp (asm_expr_sum c expr)

/-- `asm_expr` with at most so many parentheses inside each other. -/
def asm_expr_depth (c : Here) : Nat → Parse
  | 0 => fun _ _ => throw .crash
  | n + 1 => asm_expr_cmp c (asm_expr_depth c n)

def asm_expr (c : Here) (st : Labels) (ts : List Tok) : Except Halt (PcrelValue × Labels × List Tok) :=
  asm_expr_depth c (ts.length + 1) st ts

/-- The expressions. -/
inductive AsmExpr where
  | number (p : List Byte)
  | char (i : BitVec 64)
  | label (name : List Byte)
  | dot
  | plus (e : AsmExpr)
  | minus (e : AsmExpr)
  | tilde (e : AsmExpr)
  | binary (op : Op) (e1 e2 : AsmExpr)

def levels (c : Here) : Nat → Level
  | 0 => prod
  | 1 => logic
  | 2 => sum c
  | _ => cmp

/-- The level of an operator, the tightest first. -/
def Op.level : Op → Nat
  | mul | div | mod | shl | sar => 0
  | and | or | xor => 1
  | add | sub => 2
  | eq | ne | lt | ge | le | gt => 3

/-- What is written as an operand of the operators of a level, with its tokens. -/
inductive Derives : Nat → AsmExpr → List Tok → Prop
  | number (p) : Derives 0 (.number p) [.ppnum p]
  | char (i str) : Derives 0 (.char i) [.cchar i str]
  | label (name) : Derives 0 (.label name) [.ident name]
  | dot : Derives 0 .dot [.dot]
  | plus {e ts} : Derives 0 e ts → Derives 0 (.plus e) (.op .add :: ts)
  | minus {e ts} : Derives 0 e ts → Derives 0 (.minus e) (.op .sub :: ts)
  | tilde {e ts} : Derives 0 e ts → Derives 0 (.tilde e) (.tilde :: ts)
  | paren {e ts} : Derives 4 e ts → Derives 0 e (.lparen :: ts ++ [.rparen])
  | operand {k e ts} : Derives k e ts → Derives (k + 1) e ts
  | binary {k op e1 e2 ts1 ts2} : Derives (k + 1) e1 ts1 → Derives k e2 ts2 → Op.level op = k →
      Derives (k + 1) (.binary op e1 e2) (ts1 ++ .op op :: ts2)

/-- What the code computes for an expression. -/
def AsmExpr.eval (c : Here) : AsmExpr → Labels → Except Halt (PcrelValue × Labels)
  | number p, st => asm_number st p
  | char i, st => return (⟨⟨i, none⟩, false⟩, st)
  | label name, st =>
    let (sym, st) := get_asm_sym st name
    return (label_value st sym, st)
  | dot, st =>
    let (sym, st) := asm_section_sym c st
    return (⟨⟨ulong c.ind, some sym⟩, false⟩, st)
  | plus e, st => e.eval c st
  | minus e, st => do
    let (pe, st) ← e.eval c st
    let pe ← invert (fun v => -v) pe
    return (pe, st)
  | tilde e, st => do
    let (pe, st) ← e.eval c st
    let pe ← invert (fun v => ~~~v) pe
    return (pe, st)
  | binary op e1 e2, st => do
    let (pe, st) ← e1.eval c st
    let (e2, st) ← e2.eval c st
    let pe ← (levels c op.level).apply st op pe e2
    return (pe, st)

/-- No operator of a level below `k` comes first. -/
def Starts (k : Nat) (rest : List Tok) : Prop := ∀ op ts, rest = .op op :: ts → k ≤ op.level

section parse

variable {c : Here} {expr : Parse} {k : Nat} {e : AsmExpr} {ts rest : List Tok}

/-- The function of the source for a level. -/
def level_parse (c : Here) (expr : Parse) : Nat → Parse
  | 0 => asm_expr_unary c expr
  | k + 1 => binary_level (levels c k) (level_parse c expr k)

theorem asm_expr_cmp_eq : asm_expr_cmp c expr = level_parse c expr 4 := rfl

theorem levels_is_op (c : Here) (hk : k ≤ 3) (op : Op) : (levels c k).is_op op = true ↔ op.level = k := by
  obtain rfl | rfl | rfl | rfl : k = 0 ∨ k = 1 ∨ k = 2 ∨ k = 3 := by omega
  all_goals cases op <;> simp [levels, prod, logic, sum, cmp, Op.level]

/-- The loop ends before an operator of another level. -/
theorem binary_loop_stop {l : Level} {operand : Parse} {pe : PcrelValue} {st : Labels} (n : Nat)
    (h : ∀ op ts, rest = .op op :: ts → l.is_op op = false) :
    binary_loop l operand n pe st rest = .ok (pe, st, rest) := by
  unfold binary_loop
  split
  · rename_i op ts
    rw [if_neg (by rw [h op ts rfl]; exact Bool.false_ne_true)]
    rfl
  · rfl

/-- The rest of a level: nothing for `asm_expr_unary`, else the loop. -/
def level_rest (c : Here) (expr : Parse) (m : Nat) : Nat → PcrelValue → Parse
  | 0, pe, st, ts => return (pe, st, ts)
  | k + 1, pe, st, ts => binary_loop (levels c k) (level_parse c expr k) m pe st ts

theorem level_rest_stop {pe : PcrelValue} {st : Labels} (hk : k ≤ 4) (m : Nat) (h : Starts k rest) :
    level_rest c expr m k pe st rest = .ok (pe, st, rest) := by
  cases k with
  | zero => rfl
  | succ k =>
    refine binary_loop_stop m fun op ts hop => ?_
    have hle := h op ts hop
    have hne : ¬ op.level = k := by omega
    exact Bool.eq_false_iff.mpr fun heq => hne ((levels_is_op c (by omega) op).mp heq)

/-- The parse of an expression gives what it evaluates to, and goes on with the rest of its level. -/
def ParsesAs (c : Here) (d k : Nat) (e : AsmExpr) (ts : List Tok) : Prop :=
  ∀ st rest, (∀ op ts', rest = .op op :: ts' → k ≤ op.level + 1) →
    ∃ m, rest.length ≤ m ∧ level_parse c (asm_expr_depth c d) k st (ts ++ rest) =
      e.eval c st >>= fun r => level_rest c (asm_expr_depth c d) m k r.1 r.2 rest

theorem ParsesAs.complete {d : Nat} (h : ParsesAs c d k e ts) (hk : k ≤ 4) (st : Labels)
    (rest : List Tok) (hrest : Starts k rest) :
    level_parse c (asm_expr_depth c d) k st (ts ++ rest) =
      e.eval c st >>= fun r => .ok (r.1, r.2, rest) := by
  obtain ⟨m, -, hparse⟩ := h st rest fun op ts' heq => Nat.le_succ_of_le (hrest op ts' heq)
  rw [hparse]
  exact bind_congr fun r => level_rest_stop hk m hrest

/-- A sign before an operand. -/
theorem ParsesAs.inverted {d : Nat} (h : ParsesAs c d 0 e ts) {e' : AsmExpr} {t : Tok}
    {f : BitVec 64 → BitVec 64}
    (hparse : ∀ st ts, asm_expr_unary c (asm_expr_depth c d) st (t :: ts) =
      asm_expr_unary c (asm_expr_depth c d) st ts >>= fun r =>
        invert f r.1 >>= fun pe => .ok (pe, r.2.1, r.2.2))
    (heval : ∀ st, e'.eval c st = e.eval c st >>= fun r => invert f r.1 >>= fun pe => .ok (pe, r.2)) :
    ParsesAs c d 0 e' (t :: ts) := by
  intro st rest _
  refine ⟨rest.length, le_rfl, ?_⟩
  have hoperand := h.complete (Nat.zero_le 4) st rest fun op _ _ => Nat.zero_le op.level
  calc asm_expr_unary c (asm_expr_depth c d) st (t :: (ts ++ rest))
    _ = asm_expr_unary c (asm_expr_depth c d) st (ts ++ rest) >>= fun r =>
        invert f r.1 >>= fun pe => .ok (pe, r.2.1, r.2.2) := hparse st (ts ++ rest)
    _ = (e.eval c st >>= fun r => .ok (r.1, r.2, rest)) >>= fun r =>
        invert f r.1 >>= fun pe => .ok (pe, r.2.1, r.2.2) := congrArg (· >>= _) hoperand
    _ = e'.eval c st >>= fun r => .ok (r.1, r.2, rest) := by
      rw [heval, bind_assoc, bind_assoc]
      refine bind_congr fun r => ?_
      rw [bind_assoc]
      rfl

theorem level_parse_derives (h : Derives k e ts) :
    ∀ d, k ≤ 4 → ts.length ≤ d → ParsesAs c d k e ts := by
  induction h with
  | number p =>
    intro d _ _ st rest _
    exact ⟨_, le_rfl, rfl⟩
  | char i str =>
    intro d _ _ st rest _
    exact ⟨_, le_rfl, rfl⟩
  | label name =>
    intro d _ _ st rest _
    exact ⟨_, le_rfl, rfl⟩
  | dot =>
    intro d _ _ st rest _
    exact ⟨_, le_rfl, rfl⟩
  | plus he ih =>
    intro d hk hd st rest hrest
    rw [List.length_cons] at hd
    exact ih d hk (Nat.le_of_succ_le hd) st rest hrest
  | minus he ih =>
    intro d hk hd
    rw [List.length_cons] at hd
    exact (ih d hk (Nat.le_of_succ_le hd)).inverted (fun _ _ => rfl) fun _ => rfl
  | tilde he ih =>
    intro d hk hd
    rw [List.length_cons] at hd
    exact (ih d hk (Nat.le_of_succ_le hd)).inverted (fun _ _ => rfl) fun _ => rfl
  | @paren e ts he ih =>
    intro d hk hd st rest hrest
    rw [List.length_append, List.length_cons, List.length_singleton] at hd
    obtain ⟨d, rfl⟩ : ∃ d', d = d' + 1 := ⟨d - 1, by omega⟩
    refine ⟨_, le_rfl, ?_⟩
    have hparse := (ih d (by omega) (by omega)).complete le_rfl st (.rparen :: rest)
      fun op ts' h => (by cases h)
    have htoks : .lparen :: ts ++ [.rparen] ++ rest = .lparen :: (ts ++ .rparen :: rest) := by simp
    rw [htoks]
    calc asm_expr_unary c (asm_expr_depth c (d + 1)) st (.lparen :: (ts ++ .rparen :: rest))
      _ = level_parse c (asm_expr_depth c d) 4 st (ts ++ .rparen :: rest) >>= fun r =>
          skip_rparen r.2.2 >>= fun ts => .ok (r.1, r.2.1, ts) := rfl
      _ = (e.eval c st >>= fun r => .ok (r.1, r.2, .rparen :: rest)) >>= fun r =>
          skip_rparen r.2.2 >>= fun ts => .ok (r.1, r.2.1, ts) := congrArg (· >>= _) hparse
      _ = _ := by
        rw [bind_assoc]
        rfl
  | @operand k e ts he ih =>
    intro d hk hd st rest hrest
    refine ⟨rest.length, le_rfl, ?_⟩
    have hparse := (ih d (by omega) hd).complete (by omega) st rest fun op ts' h =>
      Nat.le_of_succ_le_succ (hrest op ts' h)
    calc level_parse c (asm_expr_depth c d) (k + 1) st (ts ++ rest)
      _ = level_parse c (asm_expr_depth c d) k st (ts ++ rest) >>= fun r =>
          binary_loop (levels c k) (level_parse c (asm_expr_depth c d) k) r.2.2.length r.1 r.2.1 r.2.2 := rfl
      _ = (e.eval c st >>= fun r => .ok (r.1, r.2, rest)) >>= fun r =>
          binary_loop (levels c k) (level_parse c (asm_expr_depth c d) k) r.2.2.length r.1 r.2.1 r.2.2 :=
          congrArg (· >>= _) hparse
      _ = _ := bind_assoc _ _ _
  | @binary k op e1 e2 ts1 ts2 he1 he2 hop ih1 ih2 =>
    intro d hk hd st rest hrest
    rw [List.length_append, List.length_cons] at hd
    obtain ⟨m, hm, hparse1⟩ := ih1 d hk (by omega) st (.op op :: (ts2 ++ rest)) fun op' ts' heq => by
      cases heq
      omega
    have hparse2 := fun st => (ih2 d (by omega) (by omega)).complete (by omega) st rest fun op ts' h =>
      Nat.le_of_succ_le_succ (hrest op ts' h)
    obtain ⟨m, rfl⟩ : ∃ m', m = m' + 1 := ⟨m - 1, by rw [List.length_cons] at hm; omega⟩
    rw [List.length_cons, List.length_append] at hm
    refine ⟨m, by omega, ?_⟩
    have hisop : (levels c k).is_op op = true := (levels_is_op c (by omega) op).mpr hop
    rw [List.append_assoc, List.cons_append, hparse1, AsmExpr.eval, bind_assoc]
    refine bind_congr fun r => ?_
    have hloop : binary_loop (levels c k) (level_parse c (asm_expr_depth c d) k) (m + 1) r.1 r.2
        (.op op :: (ts2 ++ rest)) =
          level_parse c (asm_expr_depth c d) k r.2 (ts2 ++ rest) >>= fun r2 =>
            (levels c k).apply r2.2.1 op r.1 r2.1 >>= fun pe =>
              binary_loop (levels c k) (level_parse c (asm_expr_depth c d) k) m pe r2.2.1 r2.2.2 := by
      rw [binary_loop, if_pos hisop]
    refine hloop.trans ?_
    rw [hparse2, bind_assoc, bind_assoc]
    refine bind_congr fun r2 => ?_
    rw [bind_assoc, hop]
    rfl

/-- An expression with no operator after it is read to its end. -/
theorem asm_expr_derives (h : Derives 4 e ts) (hrest : Starts 4 rest) (st : Labels) :
    asm_expr c st (ts ++ rest) = e.eval c st >>= fun r => .ok (r.1, r.2, rest) := by
  have hparse := @level_parse_derives c 4 e ts h (ts ++ rest).length le_rfl
    (by rw [List.length_append]; exact Nat.le_add_right _ _)
  exact hparse.complete le_rfl st rest hrest

end parse

end tcc.asm.expr
