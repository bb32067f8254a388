import Tcc.Asm.RepeatFrame

/-! `.rept` against copies of its body in the file. -/

open machine.reader

namespace tcc.asm.repetition

abbrev LineEnd := {e : Tok // e.ends_line = true}

def rept_block (count : List Tok) (e : LineEnd) (body : List Tok) (e' : LineEnd) : List Tok :=
  .asmdir .rept :: (count ++ e.val :: (body ++ [.asmdir .endr, e'.val]))

def copies (n : Nat) (body : List Tok) : List Tok := (List.replicate n body).flatten

/-- The number of copies that an `int` stands for. -/
def repeats (n : Nat) : Nat := (BitVec.ofNat 32 n).toInt.toNat

namespace Assembler

variable {σ : Type} (A : Assembler σ)

/-- These tokens are whole lines for the assembler, which comes from the first state to the second one. -/
inductive Assembles : σ → List Tok → σ → Prop
  | nil (s : σ) : Assembles s [] s
  | line {s s' t : σ} {tok e : Tok} {p rest : List Tok} {turns : Nat}
      (hline : ∀ more, (A.line (A.tcc_assemble_internal turns) turns s tok (.of_file (p ++ more))).run =
        some (.ok (s', e, .of_file more)))
      (hends : e.ends_line = true) (hrest : Assembles s' rest t) : Assembles s (tok :: (p ++ rest)) t

/-- So many copies of these tokens are accepted one after the other. -/
inductive Copied (body : List Tok) : Nat → σ → σ → Prop
  | zero (s : σ) : Copied body 0 s s
  | succ {n : Nat} {s s' t : σ} (hbody : A.Assembles s body s') (hrest : Copied body n s' t) :
      Copied body (n + 1) s t

/-- The count in front of a line end has this value. -/
def Counts (s : σ) (count : List Tok) (e : LineEnd) (n : Nat) : Prop :=
  ∃ tok p v, count ++ [e.val] = tok :: p ∧ Ends (A.asm_expr s tok) p (.ok (⟨v, none⟩, s)) ∧ v.toInt = n

/-- Whatever follows in the file, one text gives the same result as the other one. -/
def Same (s : σ) (l l' : List Tok) : Prop := ∀ rest r, A.Returns s (l ++ rest) r ↔ A.Returns s (l' ++ rest) r

end Assembler

section texts

variable {σ : Type} {A : Assembler σ} {s s' t : σ}

theorem next_linefeed (ts : List Tok) :
    (Input.of_file (.linefeed :: ts)).next false = (Input.of_file ts).next false := rfl

theorem next_token {tok : Tok} (htok : tok ≠ .linefeed) (ts : List Tok) :
    (Input.of_file (tok :: ts)).next false = (tok, .of_file ts) := by
  have hdrop : (tok :: ts).dropWhile (fun t => decide (t = .linefeed)) = tok :: ts := by
    rw [List.dropWhile_cons_of_neg]
    rw [decide_eq_true_eq]
    exact htok
  change Input.next_file false (.of_file (tok :: ts)) = _
  unfold Input.next_file
  rw [if_neg (show ¬ (false = true) from nofun)]
  rw [show (Input.of_file (tok :: ts)).file = tok :: ts from rfl, hdrop]
  rfl

theorem assemble_linefeed (turns : Nat) (ts : List Tok) :
    A.tcc_assemble_internal turns s (.of_file (.linefeed :: ts)) =
      A.tcc_assemble_internal turns s (.of_file ts) := by
  cases turns with
  | zero => rfl
  | succ turns => rw [assemble_succ, assemble_succ, next_linefeed]

theorem returns_linefeed {ts : List Tok} {r : Except Halt σ} :
    A.Returns s (.linefeed :: ts) r ↔ A.Returns s ts r := by
  unfold Assembler.Returns
  simp only [assemble_linefeed]

/-- A result is reached with more turns too. -/
theorem returns_of_le {ts : List Tok} {r : Except Halt σ} (h : A.Returns s ts r) :
    ∃ turns₀, ∀ turns ≥ turns₀,
      (A.tcc_assemble_internal turns s (.of_file ts)).run.map (Except.map Prod.fst) = some r := by
  obtain ⟨turns₀, hrun⟩ := h
  obtain ⟨x, hx, hr⟩ := Option.map_eq_some_iff.mp hrun
  exact ⟨turns₀, fun turns hle => Option.map_eq_some_iff.mpr ⟨x, grows_assemble hle s _ x hx, hr⟩⟩

/-- A line whose first token is `tok` is read, and the file goes on behind it. -/
theorem returns_line {tok e : Tok} {ts rest : List Tok} {turns : Nat} {r : Except Halt σ}
    (hline : (A.line (A.tcc_assemble_internal turns) turns s tok (.of_file ts)).run =
      some (.ok (s', e, .of_file rest)))
    (hends : e.ends_line = true) (htok : tok ≠ .linefeed) (heof : tok ≠ .eof) :
    A.Returns s (tok :: ts) r ↔ A.Returns s' rest r := by
  have hstep : ∀ m ≥ turns, (A.tcc_assemble_internal (m + 1) s (.of_file (tok :: ts))).run =
      (A.tcc_assemble_internal m s' (.of_file rest)).run := by
    intro m hm
    have hnext := next_token htok ts
    refine assemble_of_line (by rwa [hnext]) ?_ hends
    rw [hnext]
    exact grows_line (fun s i => grows_assemble hm s i) hm s tok _ _ hline
  constructor
  · intro h
    obtain ⟨turns₀, hrun⟩ := returns_of_le h
    refine ⟨max turns turns₀, ?_⟩
    rw [← hstep _ (le_max_left ..)]
    exact hrun _ (Nat.le_succ_of_le (le_max_right ..))
  · intro h
    obtain ⟨turns₀, hrun⟩ := returns_of_le h
    refine ⟨max turns turns₀ + 1, ?_⟩
    rw [hstep _ (le_max_left ..)]
    exact hrun _ (le_max_right ..)

/-- At the end of the tokens the loop ends. -/
theorem returns_nil (s : σ) : A.Returns s [] (.ok s) := ⟨1, rfl⟩

/-- A line that is no token but its end does nothing. -/
theorem line_end {assemble : σ → Input → Run (σ × Input)} {turns : Nat} {tok : Tok} {i : Input}
    (htok : tok.ends_line = true ∨ tok = .eof) {x : Except Halt (σ × Tok × Input)}
    (h : (A.line assemble turns s tok i).run = some x) : x = .ok (s, tok, i) := by
  cases turns with
  | zero => cases h
  | succ turns =>
    have hline : A.line assemble (turns + 1) s tok i = pure (s, tok, i) := by
      rcases htok with htok | rfl
      · rcases Bool.or_eq_true .. ▸ htok with htok | htok
        · rw [of_decide_eq_true htok]
          rfl
        · rw [of_decide_eq_true htok]
          rfl
      · rfl
    rw [hline] at h
    exact (Option.some.inj h).symm

/-- The rest of the file is assembled as it is after the lines. -/
theorem returns_of_assembles {l : List Tok} (h : A.Assembles s l t) (rest : List Tok) (r : Except Halt σ) :
    A.Returns s (l ++ rest) r ↔ A.Returns t rest r := by
  induction h with
  | nil s => exact Iff.rfl
  | @line s s' t tok e p l turns hline hends _ ih =>
    rw [← ih, List.cons_append, List.append_assoc]
    by_cases htok : tok = .linefeed
    · have hempty := line_end (.inl (by rw [htok]; rfl)) (hline (l ++ rest))
      have hsame := Prod.mk.inj (Except.ok.inj hempty)
      have hfile := congrArg Input.file (Prod.mk.inj hsame.2).2
      rw [← show l ++ rest = p ++ (l ++ rest) from hfile, hsame.1, htok]
      exact returns_linefeed
    · refine returns_line (hline (l ++ rest)) hends htok ?_
      rintro rfl
      have hempty := line_end (.inr rfl) (hline (l ++ rest))
      rw [(Prod.mk.inj (Prod.mk.inj (Except.ok.inj hempty)).2).1] at hends
      cases hends

theorem returns_of_copied {body : List Tok} {n : Nat} (h : A.Copied body n s t) (rest : List Tok)
    (r : Except Halt σ) : A.Returns s (copies n body ++ rest) r ↔ A.Returns t rest r := by
  induction h with
  | zero s => exact Iff.rfl
  | @succ n s s' t hbody _ ih =>
    rw [copies, List.replicate_succ, List.flatten_cons, List.append_assoc]
    exact (returns_of_assembles hbody _ r).trans ih

end texts

section strings

variable {σ : Type} {A : Assembler σ} {s s' t : σ}

theorem at_eof_next {i : Input} (linefeed : Bool) (h : i.at_eof = true) :
    (i.next linefeed).2.at_eof = true := by
  unfold Input.next
  split
  · exact h
  · unfold Input.next_file
    split
    · exact h
    · split
      · rfl
      · exact h

theorem at_eof_of_gives {i i' : Input} {p : List Tok} (h : Gives (Input.next true) i p i')
    (heof : i.at_eof = true) : i'.at_eof = true := by
  induction p generalizing i with
  | nil =>
    obtain rfl : i' = i := h
    exact heof
  | cons t p ih => exact ih h.2 (at_eof_next true heof)

/-- What a file gives before its end are its first tokens. -/
theorem gives_of_file {ts rest p : List Tok} (h : Gives (Input.next true) (.of_file ts) p (.of_file rest)) :
    ts = p ++ rest := by
  induction p generalizing ts with
  | nil => exact (congrArg Input.file h).symm
  | cons t p ih =>
    cases ts with
    | nil => cases at_eof_of_gives h.2 rfl
    | cons u ts =>
      obtain ⟨rfl, hgives⟩ := h
      rw [ih hgives]
      rfl

/-- A line of the file does the same in a string. -/
theorem line_of_string {tok e : Tok} {p : List Tok} {turns : Nat}
    (hline : ∀ more, (A.line (A.tcc_assemble_internal turns) turns s tok (.of_file (p ++ more))).run =
      some (.ok (s', e, .of_file more))) (str : List Tok) (i : Input) :
    (A.line (A.tcc_assemble_internal turns) turns s tok (i.begin_macro (p ++ str))).run =
      some (.ok (s', e, i.begin_macro str)) := by
  obtain ⟨q, hgives, -, hagain⟩ := (local_line (framed_assemble A turns)).reads (hline []) rfl
  have hq := gives_of_file hgives
  rw [List.append_nil, List.append_nil] at hq
  subst hq
  exact hagain (Input.gives_string p str) rfl

/-- Lines that are a string of their own are assembled as in the file. -/
theorem assemble_string {l : List Tok} (h : A.Assembles s l t) :
    ∃ turns₀, ∀ turns ≥ turns₀, ∀ i : Input,
      (A.tcc_assemble_internal turns s (i.begin_macro (l ++ [.eof]))).run =
        some (.ok (t, i.begin_macro [])) := by
  induction h with
  | nil s =>
    refine ⟨1, fun turns hturns i => ?_⟩
    obtain ⟨turns, rfl⟩ := Nat.exists_eq_succ_of_ne_zero (Nat.ne_of_gt hturns)
    rfl
  | @line s s' t tok e p l turns₁ hline hends _ ih =>
    obtain ⟨turns₂, hrest⟩ := ih
    refine ⟨max turns₁ turns₂ + 1, fun turns hturns i => ?_⟩
    obtain ⟨turns, rfl⟩ := Nat.exists_eq_succ_of_ne_zero
      (Nat.ne_of_gt (Nat.lt_of_lt_of_le (Nat.succ_pos _) hturns))
    have hmax := max_le_iff.mp (Nat.le_of_succ_le_succ hturns)
    have hstring := grows_line (fun s i => grows_assemble hmax.1 s i) hmax.1 s tok _ _
      (line_of_string hline (l ++ [.eof]) i)
    have hsplit : tok :: (p ++ l) ++ [.eof] = tok :: (p ++ (l ++ [.eof])) := by
      rw [List.cons_append, List.append_assoc]
    have heof : tok ≠ .eof := by
      rintro rfl
      have hempty := line_end (.inr rfl) (hline [])
      rw [(Prod.mk.inj (Prod.mk.inj (Except.ok.inj hempty)).2).1] at hends
      cases hends
    rw [hsplit]
    have hstep := assemble_of_line (i := i.begin_macro (tok :: (p ++ (l ++ [.eof])))) heof hstring hends
    rw [hstep]
    exact hrest turns hmax.2 i

theorem replay_copies {body : List Tok} {n : Nat} (h : A.Copied body n s t) :
    ∃ turns₀, ∀ turns ≥ turns₀, ∀ i : Input,
      (replay (A.tcc_assemble_internal turns) (body ++ [.eof]) n s (i.begin_macro (body ++ [.eof]))).run =
        some (.ok (t, i.begin_macro (body ++ [.eof]))) := by
  induction h with
  | zero s => exact ⟨0, fun _ _ _ => rfl⟩
  | @succ n s s' t hbody _ ih =>
    obtain ⟨turns₁, hstring⟩ := assemble_string hbody
    obtain ⟨turns₂, hrest⟩ := ih
    refine ⟨max turns₁ turns₂, fun turns hturns i => ?_⟩
    have hmax := max_le_iff.mp hturns
    rw [replay]
    refine bind_eq_ok.mpr ⟨_, hstring turns hmax.1 i, ?_⟩
    dsimp only
    rw [if_pos (show (i.begin_macro []).depth = (i.begin_macro (body ++ [.eof])).depth from rfl)]
    exact hrest turns hmax.2 i

end strings

section blocks

variable {σ : Type} {A : Assembler σ} {s s' t : σ}

theorem ends_capture {l : List Tok} (hendr : .asmdir .endr ∉ l) (heof : .eof ∉ l) :
    Ends capture (l ++ [.asmdir .endr]) (.ok l) where
  ends := by
    unfold capture
    rw [List.getLast?_concat, List.dropLast_concat]
  reads q u v h := by
    have hq : ∃ w, l = q ++ w := by
      rcases List.append_eq_append_iff.mp h with ⟨w, hw, htail⟩ | ⟨w, hw, -⟩
      · have hnil : w = [] := by
          have hlen := congrArg List.length htail
          simp only [List.length_append, List.length_cons, List.length_nil] at hlen
          exact List.length_eq_zero_iff.mp (by omega)
        rw [hnil, List.append_nil] at hw
        exact ⟨[], by rw [hw, List.append_nil]⟩
      · exact ⟨w, hw⟩
    obtain ⟨w, rfl⟩ := hq
    unfold capture
    split
    · rename_i hlast
      exact absurd (List.mem_append_left w (List.mem_of_getLast? hlast)) hendr
    · rename_i hlast
      exact absurd (List.mem_append_left w (List.mem_of_getLast? hlast)) heof
    · rfl

theorem capture_ends {p l : List Tok} (h : Ends capture p (.ok l)) :
    p = l ++ [.asmdir .endr] ∧ .asmdir .endr ∉ l := by
  have hends := h.ends
  unfold capture at hends
  split at hends
  · rename_i hlast
    cases hends
    obtain ⟨q, rfl⟩ := List.getLast?_eq_some_iff.mp hlast
    rw [List.dropLast_concat]
    refine ⟨rfl, fun hmem => ?_⟩
    obtain ⟨a, c, rfl⟩ := List.append_of_mem hmem
    obtain ⟨u, v, htail⟩ := List.exists_cons_of_ne_nil (List.append_ne_nil_of_right_ne_nil c
      (List.cons_ne_nil (Tok.asmdir .endr) []))
    have hreads := h.reads (a ++ [.asmdir .endr]) u v (by
      rw [← htail]
      simp only [List.append_assoc, List.cons_append, List.nil_append])
    unfold capture at hreads
    rw [List.getLast?_concat] at hreads
    cases hreads
  · cases hends
  · cases hends

theorem asm_int_expr_ends {tok : Tok} {p : List Tok} {v : BitVec 64}
    (h : Ends (A.asm_expr s tok) p (.ok (⟨v, none⟩, s))) :
    Ends (A.asm_int_expr s tok) p (.ok (v.setWidth 32, s)) where
  ends := by
    unfold Assembler.asm_int_expr
    rw [h.ends]
    rfl
  reads q u l hp := by
    unfold Assembler.asm_int_expr
    rw [h.reads q u l hp]
    rfl

theorem setWidth_count {v : BitVec 64} {n : Nat} (hv : v.toInt = n) : v.setWidth 32 = BitVec.ofNat 32 n := by
  have htoNat : v.toNat = n := by
    rw [BitVec.toInt_eq_toNat_cond] at hv
    split at hv <;> omega
  rw [← htoNat]
  rfl

theorem repeats_of_lt {n : Nat} (hn : n < 2 ^ 31) : repeats n = n := by
  rw [repeats, BitVec.toInt_eq_toNat_of_lt]
  · rw [BitVec.toNat_ofNat, Int.toNat_natCast]
    omega
  · rw [BitVec.toNat_ofNat]
    omega

theorem repeats_le (n : Nat) : repeats n ≤ n := by
  rw [repeats, BitVec.toInt_eq_toNat_cond, BitVec.toNat_ofNat]
  split <;> omega

theorem Copied.le {body : List Tok} {m n : Nat} (h : A.Copied body n s t) (hle : m ≤ n) :
    ∃ s', A.Copied body m s s' := by
  induction h generalizing m with
  | zero s =>
    obtain rfl := Nat.le_zero.mp hle
    exact ⟨s, .zero s⟩
  | @succ n s s' t hbody _ ih =>
    cases m with
    | zero => exact ⟨s, .zero s⟩
    | succ m =>
      obtain ⟨s₁, hrest⟩ := ih (Nat.le_of_succ_le_succ hle)
      exact ⟨s₁, .succ hbody hrest⟩

/-- `.rept` with a body up to the first `.endr`: the count and the body are read, and the copies follow. -/
theorem line_rept {count body : List Tok} {e : LineEnd} {n : Nat} (hcount : A.Counts s count e n)
    (hendr : .asmdir .endr ∉ body) (heof : .eof ∉ body) :
    ∃ turns₀, ∀ turns ≥ turns₀, ∀ (assemble : σ → Input → Run (σ × Input)) ts,
      A.line assemble (turns + 1) s (.asmdir .rept)
          (.of_file (count ++ e.val :: (body ++ .asmdir .endr :: ts))) =
        asm_copies assemble (BitVec.ofNat 32 n) body s (.of_file ts) := by
  obtain ⟨tok, p, v, hsplit, hends, hv⟩ := hcount
  refine ⟨p.length + body.length + 2, fun turns hturns assemble ts => ?_⟩
  have hfile : count ++ e.val :: (body ++ .asmdir .endr :: ts) =
      tok :: (p ++ ((body ++ [.asmdir .endr]) ++ ts)) := by
    rw [List.append_cons, hsplit]
    simp only [List.cons_append, List.append_assoc, List.nil_append]
  have hread : (read (A.asm_int_expr s tok) turns tok
      (.of_file (p ++ ((body ++ [.asmdir .endr]) ++ ts)))).run = _ :=
    read_of_ends (Input.gives_file p _) (asm_int_expr_ends hends) (by omega)
  have hcapture : (read capture turns (p.getLastD tok)
      (.of_file ((body ++ [.asmdir .endr]) ++ ts))).run = _ :=
    read_of_ends (Input.gives_file _ ts) (ends_capture hendr heof) (by
      rw [List.length_append, List.length_singleton]
      omega)
  have hrept : A.line assemble (turns + 1) s (.asmdir .rept)
      (.of_file (tok :: (p ++ ((body ++ [.asmdir .endr]) ++ ts)))) =
      read (A.asm_int_expr s tok) turns tok (.of_file (p ++ ((body ++ [.asmdir .endr]) ++ ts))) >>= fun x =>
        read capture turns x.2.1 x.2.2 >>= fun y => asm_copies assemble x.1.1 y.1 x.1.2 y.2.2 := rfl
  rw [hfile, hrept]
  apply ExceptT.ext
  rw [ExceptT.run_bind, hread, ← setWidth_count hv]
  dsimp only [Option.bind_eq_bind, Option.bind_some]
  rw [ExceptT.run_bind, hcapture]
  rfl

/-- `.rept` with a body that has no `.endr` is a line for the assembler, which makes the copies. -/
theorem assembles_rept {count body : List Tok} {e e' : LineEnd} {n : Nat} (hcount : A.Counts s count e n)
    (hendr : .asmdir .endr ∉ body) (heof : .eof ∉ body) (hcopies : A.Copied body (repeats n) s t) :
    A.Assembles s (rept_block count e body e') t := by
  obtain ⟨turns₁, hline⟩ := line_rept hcount hendr heof
  obtain ⟨turns₂, hreplay⟩ := replay_copies hcopies
  have hrept : ∀ more, (A.line (A.tcc_assemble_internal (max turns₁ turns₂ + 1)) (max turns₁ turns₂ + 1) s
      (.asmdir .rept) (.of_file ((count ++ e.val :: (body ++ [.asmdir .endr, e'.val])) ++ more))).run =
        some (.ok (t, e'.val, .of_file more)) := by
    intro more
    have htext : (count ++ e.val :: (body ++ [.asmdir .endr, e'.val])) ++ more =
        count ++ e.val :: (body ++ .asmdir .endr :: e'.val :: more) := by
      simp only [List.cons_append, List.append_assoc, List.nil_append]
    rw [htext, hline _ (le_max_left ..)]
    exact bind_eq_ok.mpr ⟨_, hreplay _ (Nat.le_succ_of_le (le_max_right ..)) _, rfl⟩
  have hblock := Assembler.Assembles.line hrept e'.2 (.nil t)
  rwa [List.append_nil] at hblock

end blocks

end tcc.asm.repetition
