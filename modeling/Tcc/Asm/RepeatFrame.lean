import Tcc.Asm.Repeat

/-! What a line of the assembler does depends on the tokens that it reads; what is done with a string of
    tokens does not depend on what is below the string. -/

open machine.reader

namespace tcc.asm.repetition

section runs

variable {α β : Type}

theorem bind_eq_ok {x : Run α} {f : α → Run β} {b : β} :
    (x >>= f).run = some (.ok b) ↔ ∃ a, x.run = some (.ok a) ∧ (f a).run = some (.ok b) := by
  rw [ExceptT.run_bind]
  cases hx : x.run with
  | none => simp
  | some e =>
    cases e with
    | error h => simp
    | ok a => simp

/-- What has a result with the first computation has it with the second one. -/
def Grows (x y : Run α) : Prop := ∀ r, x.run = some r → y.run = some r

theorem Grows.refl (x : Run α) : Grows x x := fun _ h => h

theorem Grows.bind {x y : Run α} {f g : α → Run β} (hx : Grows x y) (hf : ∀ a, Grows (f a) (g a)) :
    Grows (x >>= f) (y >>= g) := by
  intro r h
  rw [ExceptT.run_bind] at h ⊢
  cases hr : x.run with
  | none =>
    rw [hr] at h
    cases h
  | some e =>
    rw [hr] at h
    rw [hx e hr]
    cases e with
    | error => exact h
    | ok a => exact hf a r h

end runs

namespace Input

variable {i : Input}

theorem end_begin_macro (i : Input) (str : List Tok) : Input.end_macro (i.begin_macro str) = i := rfl

theorem depth_begin_macro (i : Input) (str : List Tok) : (i.begin_macro str).depth = i.depth + 1 := rfl

theorem length_next_macro {stack stack' : List (List Tok)} {t : Tok}
    (h : next_macro stack = some (t, stack')) :
    stack'.length ≤ stack.length := by
  induction stack with
  | nil => cases h
  | cons str stack ih =>
    cases str with
    | nil => exact (ih h).trans (Nat.le_succ _)
    | cons u ts =>
      cases h
      exact Nat.le_refl _

theorem macro_stack_next_file (linefeed : Bool) : (i.next_file linefeed).2.macro_stack = i.macro_stack := by
  unfold next_file
  split
  · rfl
  · split <;> rfl

theorem depth_next (linefeed : Bool) : (i.next linefeed).2.depth ≤ i.depth := by
  unfold next
  split
  · rename_i t stack h
    exact length_next_macro h
  · rw [depth, macro_stack_next_file]
    exact Nat.zero_le _

theorem depth_of_gives {p : List Tok} {i' : Input} (h : Gives (next true) i p i') : i'.depth ≤ i.depth := by
  induction p generalizing i with
  | nil =>
    obtain rfl : i' = i := h
    exact Nat.le_refl _
  | cons t p ih => exact (ih h.2).trans (depth_next true)

theorem next_begin_macro (linefeed : Bool) (t : Tok) (ts : List Tok) :
    (i.begin_macro (t :: ts)).next linefeed = (t, i.begin_macro ts) := rfl

theorem next_begin_macro_nil (linefeed : Bool) : (i.begin_macro []).next linefeed = i.next linefeed := rfl

/-- What a string gives, without its end, are its first tokens. -/
theorem gives_begin_macro {str p : List Tok} {i' : Input} (h : Gives (next true) (i.begin_macro str) p i')
    (hdepth : i'.depth = i.depth + 1) : ∃ str', str = p ++ str' ∧ i' = i.begin_macro str' := by
  induction p generalizing str with
  | nil => exact ⟨str, rfl, h⟩
  | cons t p ih =>
    cases str with
    | nil =>
      have hle := depth_of_gives h.2
      rw [next_begin_macro_nil] at hle
      have hnext := depth_next (i := i) true
      omega
    | cons u ts =>
      obtain ⟨rfl, hgives⟩ := h
      obtain ⟨str', rfl, hi'⟩ := ih hgives
      exact ⟨str', rfl, hi'⟩

theorem gives_string (p str : List Tok) :
    Gives (next true) (i.begin_macro (p ++ str)) p (i.begin_macro str) := by
  induction p with
  | nil => rfl
  | cons t p ih => exact ⟨rfl, ih⟩

theorem gives_file (p rest : List Tok) :
    Gives (next true) (of_file (p ++ rest)) p (of_file rest) := by
  induction p with
  | nil => rfl
  | cons t p ih => exact ⟨rfl, ih⟩

end Input

section local_runs

variable {α β : Type} {tok : Tok} {F : Input → Run (α × Tok × Input)}

/-- A computation that reads tokens from the current one on: where the same tokens come next, it does the same
    and is then behind them. -/
structure Local (tok : Tok) (F : Input → Run (α × Tok × Input)) : Prop where
  shrinks : ∀ {i a tok' i'}, (F i).run = some (.ok (a, tok', i')) → i'.depth ≤ i.depth
  reads : ∀ {i a tok' i'}, (F i).run = some (.ok (a, tok', i')) → i'.depth = i.depth →
    ∃ p, Gives (Input.next true) i p i' ∧ tok' = p.getLastD tok ∧
      ∀ {j j'}, Gives (Input.next true) j p j' → j'.depth = j.depth → (F j).run = some (.ok (a, tok', j'))

theorem local_pure (tok : Tok) (a : α) : Local tok fun i => pure (a, tok, i) where
  shrinks h := by
    cases h
    exact Nat.le_refl _
  reads h _ := by
    cases h
    refine ⟨[], rfl, rfl, fun {j j'} hj _ => ?_⟩
    obtain rfl : j' = j := hj
    rfl

theorem local_of_not_ok (h : ∀ i a, (F i).run ≠ some (.ok a)) : Local tok F where
  shrinks hok := absurd hok (h _ _)
  reads hok _ := absurd hok (h _ _)

theorem getLastD_append (p q : List Tok) (tok : Tok) :
    (p ++ q).getLastD tok = q.getLastD (p.getLastD tok) := by
  cases q with
  | nil => rw [List.append_nil, List.getLastD_nil]
  | cons t q =>
    rw [List.getLastD_eq_getLast?, List.getLastD_eq_getLast?, List.getLast?_append_of_ne_nil _
      (List.cons_ne_nil t q)]
    rw [List.getLast?_eq_some_getLast (List.cons_ne_nil t q)]
    rfl

theorem Local.bind {G : α → Tok → Input → Run (β × Tok × Input)} (hF : Local tok F)
    (hG : ∀ a tok, Local tok (G a tok)) : Local tok fun i => F i >>= fun x => G x.1 x.2.1 x.2.2 where
  shrinks h := by
    obtain ⟨⟨a, tok₁, i₁⟩, h₁, h₂⟩ := bind_eq_ok.mp h
    exact ((hG a tok₁).shrinks h₂).trans (hF.shrinks h₁)
  reads {i b tok' i'} h hdepth := by
    obtain ⟨⟨a, tok₁, i₁⟩, h₁, h₂⟩ := bind_eq_ok.mp h
    have hle₁ : i₁.depth ≤ i.depth := hF.shrinks h₁
    have hle₂ : i'.depth ≤ i₁.depth := (hG a tok₁).shrinks h₂
    obtain ⟨p, hp, htok₁, hagain₁⟩ := hF.reads h₁ (by omega)
    have hdepth₂ : i'.depth = i₁.depth := by omega
    obtain ⟨q, hq, htok', hagain₂⟩ := (hG a tok₁).reads h₂ hdepth₂
    refine ⟨p ++ q, hp.append hq, ?_, fun {j j'} hj hj' => ?_⟩
    · rw [getLastD_append, ← htok₁, htok']
    · obtain ⟨j₁, hjp, hjq⟩ := gives_append.mp hj
      have hj₁ := Input.depth_of_gives hjp
      have hj₂ := Input.depth_of_gives hjq
      have hdepth₁ : j₁.depth = j.depth := by omega
      exact bind_eq_ok.mpr ⟨_, hagain₁ hjp hdepth₁, hagain₂ hjq (hj'.trans hdepth₁.symm)⟩

theorem Local.next {G : Tok → Input → Run (α × Tok × Input)} (hG : ∀ t, Local t (G t)) :
    Local tok fun i => G (i.next true).1 (i.next true).2 where
  shrinks h := ((hG _).shrinks h).trans (Input.depth_next true)
  reads {i a tok' i'} h hdepth := by
    have hle := (hG _).shrinks h
    have hnext := Input.depth_next (i := i) true
    obtain ⟨p, hp, htok', hagain⟩ := (hG _).reads h (by omega)
    refine ⟨(i.next true).1 :: p, ⟨rfl, hp⟩, htok'.trans (List.getLastD_cons ..).symm,
      fun {j j'} hj hj' => ?_⟩
    have hj₁ := Input.depth_of_gives hj.2
    have hj₂ := Input.depth_next (i := j) true
    have hrun := hagain hj.2 (by omega)
    rwa [← hj.1] at hrun

theorem read_eq_ok {r : Reader Tok (Except Halt α)} {turns : Nat} {i i' : Input} {a : α} {tok' : Tok}
    (h : (read r turns tok i).run = some (.ok (a, tok', i'))) :
    ∃ p, Gives (Input.next true) i p i' ∧ Ends r p (.ok a) ∧ tok' = p.getLastD tok ∧ p.length < turns := by
  obtain ⟨⟨e, p, i₁⟩, hrun, he⟩ := Option.map_eq_some_iff.mp h
  obtain ⟨hgives, hends⟩ := run_ends hrun
  have hlen := length_lt_of_run hrun
  cases e with
  | error => cases he
  | ok a =>
    cases he
    refine ⟨p, hgives, hends, rfl, ?_⟩
    rwa [List.length_nil, Nat.zero_add] at hlen

theorem read_of_ends {r : Reader Tok (Except Halt α)} {turns : Nat} {i i' : Input} {a : α} {p : List Tok}
    (hgives : Gives (Input.next true) i p i') (hends : Ends r p (.ok a)) (hturns : p.length < turns) :
    (read r turns tok i).run = some (.ok (a, p.getLastD tok, i')) := by
  have hrun := run_of_ends hgives hends hturns
  exact Option.map_eq_some_iff.mpr ⟨_, hrun, rfl⟩

theorem local_read (r : Reader Tok (Except Halt α)) (turns : Nat) : Local tok (read r turns tok) where
  shrinks h := by
    obtain ⟨p, hgives, -⟩ := read_eq_ok h
    exact Input.depth_of_gives hgives
  reads h _ := by
    obtain ⟨p, hgives, hends, rfl, hturns⟩ := read_eq_ok h
    exact ⟨p, hgives, rfl, fun hj _ => read_of_ends hj hends hturns⟩

end local_runs

section frames

variable {σ : Type} {assemble : σ → Input → Run (σ × Input)}

/-- What is below a string does not matter as long as the string is not left. -/
structure Framed (assemble : σ → Input → Run (σ × Input)) : Prop where
  shrinks : ∀ {s s'} {i i' : Input}, (assemble s i).run = some (.ok (s', i')) → i'.depth ≤ i.depth
  frame : ∀ {s s' str} {i i' : Input}, (assemble s (i.begin_macro str)).run = some (.ok (s', i')) →
    i'.depth = i.depth + 1 →
    ∃ str', i' = i.begin_macro str' ∧
      ∀ j : Input, (assemble s (j.begin_macro str)).run = some (.ok (s', j.begin_macro str'))

theorem Framed.replay (h : Framed assemble) {init_str str : List Tok} {repeats : Nat} {s s' : σ}
    {i i' : Input}
    (hrun : (replay assemble init_str repeats s (i.begin_macro str)).run = some (.ok (s', i'))) :
    ∃ str', i' = i.begin_macro str' ∧
      ∀ j : Input, (replay assemble init_str repeats s (j.begin_macro str)).run =
        some (.ok (s', j.begin_macro str')) := by
  induction repeats generalizing s str with
  | zero =>
    cases hrun
    exact ⟨str, rfl, fun _ => rfl⟩
  | succ repeats ih =>
    rw [repetition.replay] at hrun
    obtain ⟨⟨s₁, i₁⟩, h₁, h₂⟩ := bind_eq_ok.mp hrun
    dsimp only at h₂
    split at h₂
    · rename_i hdepth
      obtain ⟨str₁, rfl, hframe⟩ := h.frame h₁ hdepth
      rw [Input.end_begin_macro] at h₂
      obtain ⟨str', rfl, hreplay⟩ := ih h₂
      refine ⟨str', rfl, fun j => ?_⟩
      rw [repetition.replay]
      refine bind_eq_ok.mpr ⟨_, hframe j, ?_⟩
      dsimp only
      rw [if_pos (show (j.begin_macro str₁).depth = (j.begin_macro str).depth from rfl),
        Input.end_begin_macro]
      exact hreplay j
    · cases h₂

variable {A : Assembler σ} {tok : Tok} {turns : Nat} {s : σ}

theorem local_copies (h : Framed assemble) (repeats : BitVec 32) (init_str : List Tok) :
    Local tok fun i => asm_copies assemble repeats init_str s i where
  shrinks hrun := by
    obtain ⟨⟨s', i₁⟩, hreplay, hend⟩ := bind_eq_ok.mp hrun
    obtain ⟨str', rfl, -⟩ := h.replay hreplay
    cases hend
    exact Input.depth_next true
  reads {i _ _ _} hrun _ := by
    obtain ⟨⟨s', i₁⟩, hreplay, hend⟩ := bind_eq_ok.mp hrun
    obtain ⟨str', rfl, hagain⟩ := h.replay hreplay
    cases hend
    refine ⟨[(i.next true).1], ⟨rfl, rfl⟩, rfl, fun {j j'} hj _ => ?_⟩
    obtain ⟨hnext, hj'⟩ := hj
    obtain rfl : j' = (j.next true).2 := hj'
    refine bind_eq_ok.mpr ⟨_, hagain j, ?_⟩
    dsimp only
    rw [Input.end_begin_macro, Input.end_begin_macro, hnext]
    rfl

theorem asm_rept_eq (i : Input) : A.asm_rept assemble turns s i =
    read (A.asm_int_expr s (i.next true).1) turns (i.next true).1 (i.next true).2 >>= fun x =>
      read capture turns x.2.1 x.2.2 >>= fun y => asm_copies assemble x.1.1 y.1 x.1.2 y.2.2 := rfl

theorem local_rept (h : Framed assemble) : Local tok fun i => A.asm_rept assemble turns s i := by
  have hcapture : ∀ (x : BitVec 32 × σ) tok,
      Local tok fun i => read capture turns tok i >>= fun y => asm_copies assemble x.1 y.1 x.2 y.2.2 :=
    fun x tok => Local.bind (G := fun init_str _ i => asm_copies assemble x.1 init_str x.2 i)
      (local_read capture turns) fun init_str _ => local_copies h x.1 init_str
  have hcount : ∀ tok, Local tok fun i => read (A.asm_int_expr s tok) turns tok i >>= fun x =>
      read capture turns x.2.1 x.2.2 >>= fun y => asm_copies assemble x.1.1 y.1 x.1.2 y.2.2 :=
    fun tok => Local.bind (local_read _ turns) hcapture
  rw [show (fun i => A.asm_rept assemble turns s i) = _ from funext asm_rept_eq]
  exact Local.next hcount

theorem Local.label {F : σ → Input → Run (α × Tok × Input)} (x : Except Halt σ) (h : ∀ s, Local tok (F s)) :
    Local tok fun i => ExceptT.mk (some x) >>= fun s => F s i := by
  cases x with
  | error => exact local_of_not_ok fun _ _ => nofun
  | ok s => exact h s

theorem local_line (h : Framed assemble) : Local tok fun i => A.line assemble turns s tok i := by
  induction turns generalizing s tok with
  | zero => exact local_of_not_ok fun _ _ => nofun
  | succ turns ih =>
    unfold Assembler.line
    split
    · exact Local.bind (local_read _ turns) fun _ tok => local_pure tok s
    · exact local_rept h
    · exact local_of_not_ok fun _ _ => nofun
    · exact local_read _ turns
    · dsimp only
      split
      · exact local_of_not_ok fun _ _ => nofun
      · refine Local.label _ fun s => ?_
        have hcolon : ∀ t, Local t fun i =>
            if t ≠ .char ':' then throw (.error ("':' expected (got \"" ++ A.get_tok_str t ++ "\")"))
            else A.line assemble turns s (i.next true).1 (i.next true).2 := by
          intro t
          split
          · exact local_of_not_ok fun _ _ => nofun
          · exact Local.next fun _ => ih
        exact Local.next hcolon
    · rename_i opcode
      have hident : ∀ t, Local t fun i =>
          if t = .char ':' then
            ExceptT.mk (some (A.asm_new_label s opcode false)) >>= fun s =>
              A.line assemble turns s (i.next true).1 (i.next true).2
          else if t = .char '=' then
            read (A.set_symbol s opcode) turns t i >>= fun x => A.line assemble turns x.1 x.2.1 x.2.2
          else read (A.asm_opcode s opcode t) turns t i := by
        intro t
        split
        · exact Local.label _ fun s => Local.next fun _ => ih
        · split
          · exact Local.bind (local_read _ turns) fun s _ => ih
          · exact local_read _ turns
      exact Local.next hident
    · exact local_pure _ s

theorem assemble_succ (i : Input) : A.tcc_assemble_internal (turns + 1) s i =
    if (i.next false).1 = .eof then return (s, (i.next false).2)
    else A.line (A.tcc_assemble_internal turns) turns s (i.next false).1 (i.next false).2 >>= fun x =>
      if x.2.1.ends_line then A.tcc_assemble_internal turns x.1 x.2.2
      else throw (.error (expect "end of line")) := rfl

/-- At the end of the tokens the loop ends; else there is a line with its end. -/
theorem assemble_ok {s' : σ} {i i' : Input}
    (h : (A.tcc_assemble_internal turns s i).run = some (.ok (s', i'))) :
    ∃ turns', turns = turns' + 1 ∧ (((i.next false).1 = .eof ∧ s' = s ∧ i' = (i.next false).2) ∨
      ((i.next false).1 ≠ .eof ∧ ∃ s₁ e i₁,
        (A.line (A.tcc_assemble_internal turns') turns' s (i.next false).1 (i.next false).2).run =
          some (.ok (s₁, e, i₁)) ∧
        e.ends_line = true ∧ (A.tcc_assemble_internal turns' s₁ i₁).run = some (.ok (s', i')))) := by
  cases turns with
  | zero => cases h
  | succ turns =>
    refine ⟨turns, rfl, ?_⟩
    rw [assemble_succ] at h
    split at h
    · rename_i heof
      cases h
      exact .inl ⟨heof, rfl, rfl⟩
    · rename_i heof
      obtain ⟨⟨s₁, e, i₁⟩, hline, hrest⟩ := bind_eq_ok.mp h
      dsimp only at hrest
      split at hrest
      · rename_i hends
        exact .inr ⟨heof, s₁, e, i₁, hline, hends, hrest⟩
      · cases hrest

theorem assemble_of_line {s₁ : σ} {e : Tok} {i i₁ : Input} (heof : (i.next false).1 ≠ .eof)
    (hline : (A.line (A.tcc_assemble_internal turns) turns s (i.next false).1 (i.next false).2).run =
      some (.ok (s₁, e, i₁)))
    (hends : e.ends_line = true) :
    (A.tcc_assemble_internal (turns + 1) s i).run = (A.tcc_assemble_internal turns s₁ i₁).run := by
  rw [assemble_succ, if_neg heof, ExceptT.run_bind, hline]
  dsimp only [Option.bind_eq_bind, Option.bind_some]
  rw [if_pos hends]

/-- `tcc_assemble_internal` on a string. -/
theorem framed_assemble (A : Assembler σ) (turns : Nat) : Framed (A.tcc_assemble_internal turns) := by
  induction turns with
  | zero => exact ⟨nofun, nofun⟩
  | succ turns ih =>
    constructor
    · intro s s' i i' h
      have hnext := Input.depth_next (i := i) false
      obtain ⟨_, hturns, ⟨-, -, rfl⟩ | ⟨-, s₁, e, i₁, hline, -, hrest⟩⟩ := assemble_ok h
      · exact hnext
      · cases hturns
        exact (ih.shrinks hrest).trans (((local_line ih).shrinks hline).trans hnext)
    · intro s s' str i i' h hdepth
      obtain ⟨_, hturns, ⟨heof, rfl, rfl⟩ | ⟨heof, s₁, e, i₁, hline, hends, hrest⟩⟩ := assemble_ok h
      · cases str with
        | nil =>
          rw [Input.next_begin_macro_nil] at hdepth
          have hnext := Input.depth_next (i := i) false
          omega
        | cons t ts =>
          rw [Input.next_begin_macro] at heof ⊢
          obtain rfl : t = .eof := heof
          exact ⟨ts, rfl, fun j => rfl⟩
      · cases hturns
        have hle₁ := (local_line ih).shrinks hline
        have hle₂ := ih.shrinks hrest
        cases str with
        | nil =>
          rw [Input.next_begin_macro_nil] at hle₁
          have hnext := Input.depth_next (i := i) false
          omega
        | cons t ts =>
          rw [Input.next_begin_macro] at heof hline hle₁
          have hdepth₁ : i₁.depth = (i.begin_macro ts).depth := by
            rw [Input.depth_begin_macro] at hle₁ ⊢
            omega
          obtain ⟨p, hgives, -, hagain⟩ := (local_line ih).reads hline hdepth₁
          obtain ⟨str₁, rfl, rfl⟩ := Input.gives_begin_macro hgives hdepth₁
          obtain ⟨str', rfl, hframe⟩ := ih.frame hrest hdepth
          refine ⟨str', rfl, fun j => ?_⟩
          have hlinej := hagain (Input.gives_string (i := j) p str₁) rfl
          rw [assemble_of_line (i := j.begin_macro (t :: (p ++ str₁))) heof hlinej hends]
          exact hframe j

section growth

variable {α : Type} {assemble' : σ → Input → Run (σ × Input)}

theorem grows_read {r : Reader Tok (Except Halt α)} {turns turns' : Nat} (hle : turns ≤ turns') (i : Input) :
    Grows (read r turns tok i) (read r turns' tok i) := by
  intro x h
  obtain ⟨y, hrun, rfl⟩ := Option.map_eq_some_iff.mp h
  exact Option.map_eq_some_iff.mpr ⟨y, run_mono hle hrun, rfl⟩

theorem grows_replay (h : ∀ s i, Grows (assemble s i) (assemble' s i)) (init_str : List Tok) (repeats : Nat)
    (s : σ) (i : Input) :
    Grows (replay assemble init_str repeats s i) (replay assemble' init_str repeats s i) := by
  induction repeats generalizing s i with
  | zero => exact Grows.refl _
  | succ repeats ih =>
    rw [replay, replay]
    refine Grows.bind (h s i) fun x => ?_
    dsimp only
    split
    · exact ih _ _
    · exact Grows.refl _

theorem grows_rept (h : ∀ s i, Grows (assemble s i) (assemble' s i)) {turns turns' : Nat}
    (hle : turns ≤ turns') (s : σ) (i : Input) :
    Grows (A.asm_rept assemble turns s i) (A.asm_rept assemble' turns' s i) := by
  rw [asm_rept_eq, asm_rept_eq]
  refine Grows.bind (grows_read hle _) fun x => Grows.bind (grows_read hle _) fun y => ?_
  exact Grows.bind (grows_replay h _ _ _ _) fun _ => Grows.refl _

theorem grows_line (h : ∀ s i, Grows (assemble s i) (assemble' s i)) {turns turns' : Nat}
    (hle : turns ≤ turns')
    (s : σ) (tok : Tok) (i : Input) :
    Grows (A.line assemble turns s tok i) (A.line assemble' turns' s tok i) := by
  induction turns generalizing s tok i turns' with
  | zero => exact fun _ => nofun
  | succ turns ih =>
    obtain ⟨turns', rfl⟩ := Nat.exists_eq_succ_of_ne_zero
      (Nat.ne_of_gt (Nat.lt_of_lt_of_le (Nat.succ_pos _) hle))
    have hle' := Nat.le_of_succ_le_succ hle
    unfold Assembler.line
    split
    · exact Grows.bind (grows_read hle' i) fun _ => Grows.refl _
    · exact grows_rept h hle' s i
    · exact Grows.refl _
    · exact grows_read hle' i
    · dsimp only
      split
      · exact Grows.refl _
      · refine Grows.bind (Grows.refl _) fun s => ?_
        split
        · exact Grows.refl _
        · exact ih hle' _ _ _
    · dsimp only
      split
      · exact Grows.bind (Grows.refl _) fun s => ih hle' _ _ _
      · split
        · exact Grows.bind (grows_read hle' _) fun x => ih hle' _ _ _
        · exact grows_read hle' _
    · exact Grows.refl _

theorem grows_assemble {turns turns' : Nat} (hle : turns ≤ turns') (s : σ) (i : Input) :
    Grows (A.tcc_assemble_internal turns s i) (A.tcc_assemble_internal turns' s i) := by
  induction turns generalizing s i turns' with
  | zero => exact fun _ => nofun
  | succ turns ih =>
    obtain ⟨turns', rfl⟩ := Nat.exists_eq_succ_of_ne_zero
      (Nat.ne_of_gt (Nat.lt_of_lt_of_le (Nat.succ_pos _) hle))
    have hle' := Nat.le_of_succ_le_succ hle
    rw [assemble_succ, assemble_succ]
    split
    · exact Grows.refl _
    · refine Grows.bind (grows_line (fun s i => ih hle' s i) hle' _ _ _) fun x => ?_
      split
      · exact ih hle' _ _
      · exact Grows.refl _

end growth

end frames

end tcc.asm.repetition
