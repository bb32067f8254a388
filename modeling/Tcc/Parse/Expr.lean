import Mathlib.Algebra.Order.Ring.Int
import Tcc.Parse.Parser

open parser

namespace tcc.expr

/-- The tokens of the binary operators; single characters are their own tokens. -/
def TOK_EOF : Int := -1
def TOK_LAND : Int := 0x90
def TOK_LOR : Int := 0x91
def TOK_ULT : Int := 0x92
def TOK_UGE : Int := 0x93
def TOK_EQ : Int := 0x94
def TOK_NE : Int := 0x95
def TOK_ULE : Int := 0x96
def TOK_GT : Int := 0x9f
def TOK_SHL : Int := 0x3c
def TOK_SAR : Int := 0x3e

/-- The actions of the code generator that the binary operators call for, on its
    state `σ`, and `unary`, which parses an operand. -/
structure Actions (σ : Type) where
  unary : Parser Int σ
  gen_op : Int → σ → Option σ
  condition_3way : σ → Option (Int × σ)
  save_regs : σ → Option σ
  nocode_wanted_add : Int → σ → σ
  vpop : σ → Option σ
  vpushi : Int → σ → Option σ
  gvtst : Int → Int → σ → Option (Int × σ)
  gvtst_set : Int → Int → σ → Option σ
  gsym : Int → σ → Option σ

variable {σ : Type}

abbrev tok (s : State Int σ) : Int := s.tok TOK_EOF

/-- An action that reads no token. -/
def act (f : σ → Option σ) (s : State Int σ) : Option (State Int σ) :=
  (f s.gen).map fun g => { s with gen := g }

theorem act_eq_some {f : σ → Option σ} {s s' : State Int σ} (h : act f s = some s') :
    s'.toks = s.toks := by
  obtain ⟨g, -, rfl⟩ := Option.map_eq_some_iff.mp h
  rfl

/-- The two logical operators. -/
inductive LogOp where
  | land | lor
  deriving DecidableEq

def LogOp.code : LogOp → Int
  | land => TOK_LAND
  | lor => TOK_LOR

/-- The variables of `expr_landor`. -/
structure Landor where
  t : Int
  cc : Int
  f : Int

variable (a : Actions σ)

/-- The head of the loop of `expr_landor`: the operand on the stack is tested, and
    the rest is not generated when it decides the result. -/
def landor_test (op : LogOp) (v : Landor) (g : σ) : Option (Int × Landor × σ) := do
  let i : Int := if op = .land then 1 else 0
  let (c, g) ← (if v.f ≠ 0 then some (i, g) else a.condition_3way g)
  if c < 0 then
    return (c, { v with cc := 0 }, ← a.save_regs g)
  else if c ≠ i then
    return (c, { v with f := 1 }, a.nocode_wanted_add 1 g)
  else
    return (c, v, g)

def landor_jump (op : LogOp) (c : Int) (v : Landor) (g : σ) : Option (Landor × σ) := do
  let i : Int := if op = .land then 1 else 0
  if c < 0 then
    let (t, g) ← a.gvtst i v.t g
    return ({ v with t := t }, g)
  else
    return (v, ← a.vpop g)

def landor_end (op : LogOp) (v : Landor) (g : σ) : Option σ := do
  let i : Int := if op = .land then 1 else 0
  if v.cc ≠ 0 ∨ v.f ≠ 0 then
    let g ← a.vpop g
    let g ← a.vpushi (if v.f ≠ 0 then 1 - i else i) g
    let g ← a.gsym v.t g
    return a.nocode_wanted_add (-v.f) g
  else
    a.gvtst_set i v.t g

theorem tok_ne_eof {op : LogOp} {s : State Int σ} (h : tok s = op.code) : tok s ≠ TOK_EOF := by
  rw [h]
  cases op <;> decide

/-- `expr_landor`, with `operand` for `expr_landor_next`. -/
def expr_landor_loop (op : LogOp) (operand : Parser Int σ) (v : Landor) (s : State Int σ) :
    Option (State Int σ) :=
  match landor_test a op v s.gen with
  | none => none
  | some (c, v, g) =>
    if htok : tok s = op.code then
      match landor_jump a op c v g with
      | none => none
      | some (v, g) =>
        match hrun : operand.run { s.next with gen := g } with
        | some s' => expr_landor_loop op operand v s'
        | none => none
    else act (landor_end a op v) { s with gen := g }
termination_by s.toks.length
decreasing_by
  exact (operand.le _ s' hrun).trans_lt (State.next_lt (tok_ne_eof htok))

/-- `expr_landor` puts no token back, ends before a token that is not its operator,
    and reads at least the operator it is called at. -/
theorem expr_landor_loop_spec {op : LogOp} {operand : Parser Int σ} {v : Landor}
    {s s' : State Int σ} (h : expr_landor_loop a op operand v s = some s') :
    s'.toks.length ≤ s.toks.length ∧ tok s' ≠ op.code ∧
      (tok s = op.code → s'.toks.length < s.toks.length) ∧
      ∀ P : Int → Prop, (tok s ≠ op.code → P (tok s)) →
        (∀ s₁ s₂, operand.run s₁ = some s₂ → P (tok s₂)) → P (tok s') := by
  rw [expr_landor_loop] at h
  split at h
  · cases h
  · rename_i c v₁ g htest
    split at h
    · rename_i htok
      split at h
      · cases h
      · rename_i v₂ g₂ hjump
        split at h
        · rename_i s₁ hrun
          have hlt : s₁.toks.length < s.toks.length :=
            (operand.le _ s₁ hrun).trans_lt (State.next_lt (tok_ne_eof htok))
          obtain ⟨hle, hend, -, hrest⟩ := expr_landor_loop_spec h
          refine ⟨hle.trans hlt.le, hend, fun _ => hle.trans_lt hlt, fun P _ hP => ?_⟩
          exact hrest P (fun _ => hP _ s₁ hrun) hP
        · cases h
    · rename_i htok
      have hact := act_eq_some h
      have htoks : s'.toks = s.toks := hact
      have heq : tok s' = tok s := congrArg (List.headD · TOK_EOF) htoks
      rw [heq]
      exact ⟨by rw [htoks], htok, fun hno => absurd hno htok, fun P hP _ => hP htok⟩
termination_by s.toks.length

def expr_landor (op : LogOp) (operand : Parser Int σ) : Parser Int σ where
  run := expr_landor_loop a op operand ⟨0, 1, 0⟩
  le _ _ h := (expr_landor_loop_spec a h).1

/-- One step of a binary operator: `next(); operand(); gen_op(t);` -/
def gen_binary (operand : Parser Int σ) (s : State Int σ) : Option (State Int σ) := do
  let s' ← operand.run s.next
  act (a.gen_op (tok s)) s'

theorem gen_binary_spec {operand : Parser Int σ} {s s' : State Int σ}
    (h : gen_binary a operand s = some s') :
    ∃ s₁, operand.run s.next = some s₁ ∧ s'.toks = s₁.toks := by
  obtain ⟨s₁, hrun, hact⟩ := Option.bind_eq_some_iff.mp h
  exact ⟨s₁, hrun, act_eq_some hact⟩

theorem gen_binary_lt {operand : Parser Int σ} {s s' : State Int σ}
    (h : gen_binary a operand s = some s') (htok : tok s ≠ TOK_EOF) :
    s'.toks.length < s.toks.length := by
  obtain ⟨s₁, hrun, htoks⟩ := gen_binary_spec a h
  rw [htoks]
  exact (operand.le _ s₁ hrun).trans_lt (State.next_lt htok)

/-- The operators of one level of the grammar. -/
structure Level where
  has : Int → Prop
  dec : DecidablePred has
  eof : ¬has TOK_EOF

instance (l : Level) : DecidablePred l.has := l.dec

/-- `while ((t = tok) is an operator of the level) { next(); operand(); gen_op(t); }` -/
def binary_loop (l : Level) (operand : Parser Int σ) : Parser Int σ :=
  @Body.loop _ _ (fun s => l.has (tok s)) _
    { run := fun s _ => gen_binary a operand s
      lt := fun s h s' hrun => gen_binary_lt a hrun fun heof => l.eof (heof ▸ h) }

def prod : Level := ⟨fun t => t = 0x2a ∨ t = 0x2f ∨ t = 0x25, inferInstance, by decide⟩
def sum : Level := ⟨fun t => t = 0x2b ∨ t = 0x2d, inferInstance, by decide⟩
def shift : Level := ⟨fun t => t = TOK_SHL ∨ t = TOK_SAR, inferInstance, by decide⟩
def cmp : Level :=
  ⟨fun t => (t ≥ TOK_ULE ∧ t ≤ TOK_GT) ∨ t = TOK_ULT ∨ t = TOK_UGE, inferInstance, by decide⟩
def cmpeq : Level := ⟨fun t => t = TOK_EQ ∨ t = TOK_NE, inferInstance, by decide⟩
def and : Level := ⟨fun t => t = 0x26, inferInstance, by decide⟩
def xor : Level := ⟨fun t => t = 0x5e, inferInstance, by decide⟩
def or : Level := ⟨fun t => t = 0x7c, inferInstance, by decide⟩

/-! The original top-down parser. -/

def expr_prod : Parser Int σ := a.unary.andThen (binary_loop a prod a.unary)

def expr_sum : Parser Int σ := (expr_prod a).andThen (binary_loop a sum (expr_prod a))

def expr_shift : Parser Int σ := (expr_sum a).andThen (binary_loop a shift (expr_sum a))

def expr_cmp : Parser Int σ := (expr_shift a).andThen (binary_loop a cmp (expr_shift a))

def expr_cmpeq : Parser Int σ := (expr_cmp a).andThen (binary_loop a cmpeq (expr_cmp a))

def expr_and : Parser Int σ := (expr_cmpeq a).andThen (binary_loop a and (expr_cmpeq a))

def expr_xor : Parser Int σ := (expr_and a).andThen (binary_loop a xor (expr_and a))

def expr_or : Parser Int σ := (expr_xor a).andThen (binary_loop a or (expr_xor a))

/-- `if (tok == op) expr_landor(tok);` -/
def landor_if (op : LogOp) (operand : Parser Int σ) : Parser Int σ where
  run s := if tok s = op.code then (expr_landor a op operand).run s else some s
  le s s' h := by
    split at h
    · exact (expr_landor a op operand).le s s' h
    · cases h
      exact le_refl _

def expr_land : Parser Int σ := (expr_or a).andThen (landor_if a .land (expr_or a))

def expr_lor : Parser Int σ := (expr_land a).andThen (landor_if a .lor (expr_land a))

/-! The precedence parser. -/

def precedence_of (tok : Int) : Nat :=
  if tok = TOK_LOR then 1
  else if tok = TOK_LAND then 2
  else if tok = 0x7c then 3
  else if tok = 0x5e then 4
  else if tok = 0x26 then 5
  else if tok = TOK_EQ ∨ tok = TOK_NE then 6
  else if tok = TOK_ULT ∨ tok = TOK_UGE then 7
  else if tok = TOK_SHL ∨ tok = TOK_SAR then 8
  else if tok = 0x2b ∨ tok = 0x2d then 9
  else if tok = 0x2a ∨ tok = 0x2f ∨ tok = 0x25 then 10
  else if tok ≥ TOK_ULE ∧ tok ≤ TOK_GT then 7
  else 0

/-- The table `prec`, filled by `init_prec`. -/
def prec : List Nat := (List.range 256).map fun (i : Nat) => precedence_of (i : Int)

def precedence (i : Int) : Nat := if 0 ≤ i ∧ i < 256 then prec.getD i.toNat 0 else 0

theorem precedence_eq (t : Int) : precedence t = precedence_of t := by
  unfold precedence
  split
  · rename_i h
    have hlt : t.toNat < 256 := by omega
    rw [prec, List.getD_eq_getElem?_getD, List.getElem?_map, List.getElem?_range hlt,
      Option.map_some, Option.getD_some, Int.toNat_of_nonneg h.1]
  · rename_i h
    symm
    have hne {c : Int} (hlo : 0 ≤ c) (hhi : c < 256) : t ≠ c := by
      rintro rfl
      exact h ⟨hlo, hhi⟩
    have hne2 {b c : Int} (hb : 0 ≤ b ∧ b < 256) (hc : 0 ≤ c ∧ c < 256) : ¬(t = b ∨ t = c) :=
      not_or.mpr ⟨hne hb.1 hb.2, hne hc.1 hc.2⟩
    rw [precedence_of, if_neg (hne (by decide) (by decide)), if_neg (hne (by decide) (by decide)),
      if_neg (hne (by decide) (by decide)), if_neg (hne (by decide) (by decide)),
      if_neg (hne (by decide) (by decide)), if_neg (hne2 (by decide) (by decide)),
      if_neg (hne2 (by decide) (by decide)), if_neg (hne2 (by decide) (by decide)),
      if_neg (hne2 (by decide) (by decide)),
      if_neg (not_or.mpr ⟨hne (by decide) (by decide), hne2 (by decide) (by decide)⟩), if_neg]
    rintro ⟨hlo, hhi⟩
    have h1 : (0 : Int) ≤ TOK_ULE := by decide
    have h2 : TOK_GT < 256 := by decide
    exact h ⟨h1.trans hlo, hhi.trans_lt h2⟩

theorem precedence_le (t : Int) : precedence t ≤ 10 := by
  rw [precedence_eq, precedence_of]
  split_ifs <;> omega

theorem precedence_eof : precedence TOK_EOF = 0 := by
  decide

/-- The logical operator a token stands for. -/
def logOp? (t : Int) : Option LogOp :=
  if t = TOK_LOR then some .lor else if t = TOK_LAND then some .land else none

theorem logOp?_eq_some {t : Int} {op : LogOp} (h : logOp? t = some op) : t = op.code := by
  unfold logOp? at h
  split_ifs at h with hlor hland
  · cases h
    exact hlor
  · cases h
    exact hland

/-- The body of the loop of `expr_infix`, with `inner` for `expr_infix(p2 + 1)`. -/
def infix_step (inner : Parser Int σ) (s : State Int σ) : Option (State Int σ) :=
  let p2 := precedence (tok s)
  match logOp? (tok s) with
  | some op => (expr_landor a op (a.unary.andThen inner)).run s
  | none => do
    let s₁ ← a.unary.run s.next
    let s₂ ← (if precedence (tok s₁) > p2 then inner.run s₁ else some s₁)
    act (a.gen_op (tok s)) s₂

theorem infix_step_lt {inner : Parser Int σ} {s s' : State Int σ}
    (h : infix_step a inner s = some s') (htok : tok s ≠ TOK_EOF) :
    s'.toks.length < s.toks.length := by
  unfold infix_step at h
  simp only at h
  split at h
  · rename_i op hop
    exact (expr_landor_loop_spec a h).2.2.1 (logOp?_eq_some hop)
  · simp only [Option.bind_eq_bind, Option.bind_eq_some_iff] at h
    obtain ⟨s₁, hunary, s₂, hinner, hact⟩ := h
    have h₁ := (a.unary.le _ s₁ hunary).trans_lt (State.next_lt htok)
    have h₂ : s₂.toks.length ≤ s₁.toks.length := by
      split at hinner
      · exact inner.le s₁ s₂ hinner
      · cases hinner
        exact le_refl _
    rw [act_eq_some hact]
    exact h₂.trans_lt h₁

/-- `expr_infix(p)`; it is never called with `p = 0`. -/
def expr_infix (p : Nat) : Parser Int σ :=
  @Body.loop _ _ (fun s => 0 < p ∧ p ≤ precedence (tok s)) _
    { run := fun s h => infix_step a ( expr_infix (precedence (tok s) + 1)) s
      lt := fun s h s' hrun => infix_step_lt a hrun fun heof => by
        rw [heof, precedence_eof] at h
        omega }
termination_by 11 - p
decreasing_by
  all_goals
    have := precedence_le (tok s)
    omega

/-- `# define expr_lor() unary(), expr_infix(1)` -/
def expr_lor_infix : Parser Int σ := a.unary.andThen ( expr_infix a 1)

end tcc.expr
