import Tcc.Parse.Expr

open parser

namespace tcc.expr

variable {σ : Type} (a : Actions σ)

theorem expr_infix_pos {p : Nat} (hp : 0 < p) {s : State Int σ} (h : p ≤ precedence (tok s)) :
    ( expr_infix a p).run s =
      (infix_step a ( expr_infix a (precedence (tok s) + 1)) s).bind ( expr_infix a p).run := by
  rw [ expr_infix]
  exact Body.iterate_pos _ ⟨hp, h⟩

theorem expr_infix_neg {p : Nat} {s : State Int σ} (h : precedence (tok s) < p) :
    ( expr_infix a p).run s = some s := by
  rw [ expr_infix]
  exact Body.iterate_neg _ fun hcond => absurd hcond.2 (Nat.not_le_of_lt h)

/-- `expr_infix(p)` stops before an operator that binds less tightly than `p`. -/
theorem expr_infix_exit {p : Nat} (hp : 0 < p) {s s' : State Int σ}
    (h : ( expr_infix a p).run s = some s') : precedence (tok s') < p := by
  rw [ expr_infix] at h
  have hend := (Body.iterate_spec _ h).1
  by_contra hle
  exact hend ⟨hp, Nat.le_of_not_lt hle⟩

theorem operand_exit {p : Nat} (hp : 0 < p) {s s' : State Int σ}
    (h : (a.unary.andThen ( expr_infix a p)).run s = some s') : precedence (tok s') < p := by
  obtain ⟨s₁, -, hinfix⟩ := Option.bind_eq_some_iff.mp h
  exact expr_infix_exit a hp hinfix

/-- After an operator and its second operand no operator of a tighter level follows. -/
theorem infix_step_exit {s s' : State Int σ}
    (h : infix_step a ( expr_infix a (precedence (tok s) + 1)) s = some s') :
    precedence (tok s') ≤ precedence (tok s) := by
  unfold infix_step at h
  simp only at h
  split at h
  · rename_i op hop
    refine (expr_landor_loop_spec a h).2.2.2 (fun t => precedence t ≤ precedence (tok s)) ?_ ?_
    · exact fun hne => absurd (logOp?_eq_some hop) hne
    · intro s₁ s₂ hrun
      exact Nat.lt_succ_iff.mp (operand_exit a (Nat.succ_pos _) hrun)
  · simp only [Option.bind_eq_bind, Option.bind_eq_some_iff] at h
    obtain ⟨s₁, -, s₂, hinner, hact⟩ := h
    have htok : tok s' = tok s₂ := congrArg (List.headD · TOK_EOF) (act_eq_some hact)
    rw [htok]
    split at hinner
    · exact Nat.lt_succ_iff.mp ( expr_infix_exit a (Nat.succ_pos _) hinner)
    · rename_i hle
      cases hinner
      exact Nat.le_of_not_lt hle

section

variable {p : Nat} (hp : 0 < p) {tail : Parser Int σ}
  (hlow : ∀ s, precedence (tok s) < p → tail.run s = some s)
  (hat : ∀ s, precedence (tok s) = p →
    tail.run s = (infix_step a ( expr_infix a (p + 1)) s).bind tail.run)

include hp hlow hat in
/-- A tail that takes the operators of level `p` one by one turns `expr_infix(p + 1)`
    into `expr_infix(p)`. -/
theorem expr_infix_split (s : State Int σ) :
    ( expr_infix a p).run s = (( expr_infix a (p + 1)).run s).bind tail.run := by
  induction hn : s.toks.length using Nat.strong_induction_on generalizing s with
  | _ n ih =>
    subst hn
    have hne (h : p ≤ precedence (tok s)) : tok s ≠ TOK_EOF := by
      intro heof
      rw [heof, precedence_eof] at h
      omega
    have hstep (h : p ≤ precedence (tok s)) {s' : State Int σ}
        (hs' : infix_step a ( expr_infix a (precedence (tok s) + 1)) s = some s') :
        ( expr_infix a p).run s' = (( expr_infix a (p + 1)).run s').bind tail.run :=
      ih _ (infix_step_lt a hs' (hne h)) s' rfl
    obtain hlt | heq | hgt := lt_trichotomy (precedence (tok s)) p
    · rw [ expr_infix_neg a hlt, expr_infix_neg a (Nat.lt_succ_of_lt hlt), Option.bind_some, hlow s hlt]
    · rw [ expr_infix_pos a hp heq.ge, expr_infix_neg a (heq ▸ Nat.lt_succ_self p), Option.bind_some,
        hat s heq, heq]
      cases hs' : infix_step a ( expr_infix a (p + 1)) s with
      | none => rfl
      | some s' =>
        have hs'' : infix_step a ( expr_infix a (precedence (tok s) + 1)) s = some s' := by
          rw [heq, hs']
        have hexit : precedence (tok s') < p + 1 := by
          have := infix_step_exit a hs''
          omega
        simp only [Option.bind_some]
        rw [hstep heq.ge hs'', expr_infix_neg a hexit, Option.bind_some]
    · rw [ expr_infix_pos a hp hgt.le, expr_infix_pos a (Nat.succ_pos p) hgt]
      cases hs' : infix_step a ( expr_infix a (precedence (tok s) + 1)) s with
      | none => rfl
      | some s' =>
        simp only [Option.bind_some]
        exact hstep hgt.le hs'

end

/-- One level down in the grammar. -/
theorem operand_level {p : Nat} {lower tail : Parser Int σ}
    (hlower : a.unary.andThen ( expr_infix a (p + 1)) = lower)
    (hsplit : ∀ s, ( expr_infix a p).run s = (( expr_infix a (p + 1)).run s).bind tail.run) :
    a.unary.andThen ( expr_infix a p) = lower.andThen tail := by
  subst hlower
  ext s s'
  simp only [Parser.andThen, Option.bind_assoc]
  rw [funext hsplit]

theorem logOp?_eq_none {t : Int} (h : 3 ≤ precedence t) : logOp? t = none := by
  rw [precedence_eq] at h
  unfold logOp?
  split_ifs with hlor hland
  · subst hlor
    exact absurd h (by decide)
  · subst hland
    exact absurd h (by decide)
  · rfl

/-- At an operator that is not logical, the step is that of the top-down parser. -/
theorem infix_step_binary {s : State Int σ} (h : 3 ≤ precedence (tok s)) :
    infix_step a ( expr_infix a (precedence (tok s) + 1)) s =
      gen_binary a (a.unary.andThen ( expr_infix a (precedence (tok s) + 1))) s := by
  unfold infix_step gen_binary
  simp only [logOp?_eq_none h, Parser.andThen, Option.bind_eq_bind, Option.bind_assoc]
  congr 1
  ext1 s₁
  split
  · rfl
  · rename_i hle
    rw [ expr_infix_neg a (Nat.lt_succ_of_le (Nat.le_of_not_lt hle))]

/-- A level of binary operators. -/
theorem binary_level {p : Nat} (hp : 3 ≤ p) {l : Level} (hl : ∀ t, l.has t ↔ precedence t = p)
    {lower : Parser Int σ} (hlower : a.unary.andThen ( expr_infix a (p + 1)) = lower) :
    a.unary.andThen ( expr_infix a p) = lower.andThen (binary_loop a l lower) := by
  subst hlower
  refine operand_level a rfl ( expr_infix_split a (by omega) ?_ ?_)
  · intro s hlt
    refine Body.iterate_neg _ fun hhas => ?_
    rw [(hl _).mp hhas] at hlt
    exact absurd hlt (Nat.lt_irrefl p)
  · intro s heq
    have hbinary := infix_step_binary a (s := s) (by omega)
    rw [heq] at hbinary
    rw [hbinary]
    exact Body.iterate_pos _ ((hl _).mpr heq)

/-- The level of a logical operator. -/
theorem landor_level {op : LogOp} {p : Nat} (hop : ∀ t, t = op.code ↔ precedence t = p)
    {lower : Parser Int σ} (hlower : a.unary.andThen ( expr_infix a (p + 1)) = lower) :
    a.unary.andThen ( expr_infix a p) = lower.andThen (landor_if a op lower) := by
  subst hlower
  have hlog : logOp? op.code = some op := by
    cases op <;> rfl
  have hp : 0 < p := by
    rw [← (hop op.code).mp rfl, precedence_eq]
    cases op <;> decide
  refine operand_level a rfl ( expr_infix_split a hp ?_ ?_)
  · intro s hlt
    refine if_neg fun heq => ?_
    rw [(hop _).mp heq] at hlt
    exact absurd hlt (Nat.lt_irrefl p)
  · intro s heq
    have htok : tok s = op.code := (hop _).mpr heq
    have hstep : infix_step a ( expr_infix a (p + 1)) s =
        (expr_landor a op (a.unary.andThen ( expr_infix a (p + 1)))).run s := by
      unfold infix_step
      simp only [htok, hlog]
    rw [hstep]
    refine (if_pos htok).trans ?_
    cases hs' : (expr_landor a op (a.unary.andThen ( expr_infix a (p + 1)))).run s with
    | none => rfl
    | some s' =>
      rw [Option.bind_some]
      exact (if_neg (expr_landor_loop_spec a hs').2.1).symm

/-- The level of an operator in the grammar is its precedence. -/
def LevelsAgree (t : Int) : Prop :=
  (prod.has t ↔ precedence_of t = 10) ∧ (sum.has t ↔ precedence_of t = 9) ∧
    (shift.has t ↔ precedence_of t = 8) ∧ (cmp.has t ↔ precedence_of t = 7) ∧
    (cmpeq.has t ↔ precedence_of t = 6) ∧ (and.has t ↔ precedence_of t = 5) ∧
    (xor.has t ↔ precedence_of t = 4) ∧ (or.has t ↔ precedence_of t = 3) ∧
    (t = LogOp.land.code ↔ precedence_of t = 2) ∧ (t = LogOp.lor.code ↔ precedence_of t = 1)

instance (t : Int) : Decidable (LevelsAgree t) := inferInstanceAs (Decidable (_ ∧ _))

set_option maxRecDepth 8000 in
theorem levelsAgree_of_lt : ∀ n < 256, LevelsAgree ((n : Nat) : Int) := by
  decide

theorem levelsAgree (t : Int) : LevelsAgree t := by
  by_cases h : 0 ≤ t ∧ t < 256
  · obtain ⟨n, rfl⟩ := Int.eq_ofNat_of_zero_le h.1
    exact levelsAgree_of_lt n (by omega)
  · have hzero : precedence_of t = 0 := by
      rw [← precedence_eq, precedence, if_neg h]
    rw [LevelsAgree, hzero]
    simp only [prod, sum, shift, cmp, cmpeq, and, xor, or, LogOp.code, TOK_LOR, TOK_LAND, TOK_EQ,
      TOK_NE, TOK_ULT, TOK_UGE, TOK_SHL, TOK_SAR, TOK_ULE, TOK_GT]
    omega

theorem precedence_iff (t : Int) :
    (prod.has t ↔ precedence t = 10) ∧ (sum.has t ↔ precedence t = 9) ∧
      (shift.has t ↔ precedence t = 8) ∧ (cmp.has t ↔ precedence t = 7) ∧
      (cmpeq.has t ↔ precedence t = 6) ∧ (and.has t ↔ precedence t = 5) ∧
      (xor.has t ↔ precedence t = 4) ∧ (or.has t ↔ precedence t = 3) ∧
      (t = LogOp.land.code ↔ precedence t = 2) ∧ (t = LogOp.lor.code ↔ precedence t = 1) := by
  rw [precedence_eq]
  exact levelsAgree t

theorem operand_top : a.unary.andThen ( expr_infix a 11) = a.unary := by
  ext s s'
  have hnone (s : State Int σ) : ( expr_infix a 11).run s = some s :=
    expr_infix_neg a (Nat.lt_succ_of_le (precedence_le _))
  simp only [Parser.andThen, funext hnone, Option.bind_fun_some]

/-- The precedence parser does what the top-down parser does: from every state it
    takes the same actions in the same order and leaves the same tokens, or fails
    with it. -/
theorem expr_lor_infix_eq_expr_lor : expr_lor_infix a = expr_lor a := by
  have h10 : a.unary.andThen ( expr_infix a 10) = expr_prod a :=
    binary_level a (by decide) (fun t => (precedence_iff t).1) (operand_top a)
  have h9 : a.unary.andThen ( expr_infix a 9) = expr_sum a :=
    binary_level a (by decide) (fun t => (precedence_iff t).2.1) h10
  have h8 : a.unary.andThen ( expr_infix a 8) = expr_shift a :=
    binary_level a (by decide) (fun t => (precedence_iff t).2.2.1) h9
  have h7 : a.unary.andThen ( expr_infix a 7) = expr_cmp a :=
    binary_level a (by decide) (fun t => (precedence_iff t).2.2.2.1) h8
  have h6 : a.unary.andThen ( expr_infix a 6) = expr_cmpeq a :=
    binary_level a (by decide) (fun t => (precedence_iff t).2.2.2.2.1) h7
  have h5 : a.unary.andThen ( expr_infix a 5) = expr_and a :=
    binary_level a (by decide) (fun t => (precedence_iff t).2.2.2.2.2.1) h6
  have h4 : a.unary.andThen ( expr_infix a 4) = expr_xor a :=
    binary_level a (by decide) (fun t => (precedence_iff t).2.2.2.2.2.2.1) h5
  have h3 : a.unary.andThen ( expr_infix a 3) = expr_or a :=
    binary_level a (by decide) (fun t => (precedence_iff t).2.2.2.2.2.2.2.1) h4
  have h2 : a.unary.andThen ( expr_infix a 2) = expr_land a :=
    landor_level a (fun t => (precedence_iff t).2.2.2.2.2.2.2.2.1) h3
  exact landor_level a (fun t => (precedence_iff t).2.2.2.2.2.2.2.2.2) h2

end tcc.expr
