import Tcc.Asm.RepeatCopies
import Tcc.Asm.Emission

/-! Blocks of `.rept` in the body of `.rept`. The body is taken up to the first `.endr`, so that an `.endr`
    too many is left behind it. -/

open machine.reader

namespace tcc.asm.repetition

/-- A token of a line that is no `.rept` or `.endr`. A file has no `#` tokens, which begin comments, except
    on targets where they are for constants. -/
def Tok.plain (t : Tok) : Bool := t ∉ [.eof, .char '#', .asmdir .rept, .asmdir .endr]

abbrev PlainTok := {t : Tok // t.plain = true}

/-- The text of a body: lines, and blocks of `.rept` with their bodies. -/
inductive Body where
  | nil
  | line (l : List PlainTok) (e : LineEnd) (rest : Body)
  | block (labels count : List PlainTok) (e : LineEnd) (inner : Body) (e' : LineEnd) (rest : Body)

def Body.tokens : Body → List Tok
  | nil => []
  | line l e rest => l.map Subtype.val ++ e.val :: rest.tokens
  | block labels count e inner e' rest =>
    labels.map Subtype.val ++ (rept_block (count.map Subtype.val) e inner.tokens e' ++ rest.tokens)

/-- There is no block in the body. -/
def Body.flat : Body → Bool
  | nil => true
  | line _ _ rest => rest.flat
  | block .. => false

section surplus

variable {σ : Type} {A : Assembler σ} {s s' t : σ} {k : Nat} {tok : Tok} {ts l l' p : List Tok}

/-- Every `.endr` but a first one stands behind a line end. -/
def Marked (l : List Tok) : Prop := l.IsChain fun a b => b = .asmdir .endr → a.ends_line = true

/-- There are more than `k` `.endr` for which there is no `.rept`. -/
structure Surplus (k : Nat) (l : List Tok) : Prop where
  marked : Marked l
  more : l.count (.asmdir .rept) + k < l.count (.asmdir .endr)
  plain : .char '#' ∉ l ∧ .eof ∉ l

theorem Surplus.tail {k' : Nat} (h : Surplus k (tok :: l))
    (hmore : l.count (.asmdir .rept) + k' < l.count (.asmdir .endr)) : Surplus k' l where
  marked := List.IsChain.tail h.marked
  more := hmore
  plain := ⟨fun hmem => h.plain.1 (List.mem_cons_of_mem tok hmem),
    fun hmem => h.plain.2 (List.mem_cons_of_mem tok hmem)⟩

theorem Surplus.drop (h : Surplus k (tok :: l)) (htok : tok ≠ .asmdir .endr) : Surplus k l := by
  have hmore := h.more
  rw [List.count_cons, List.count_cons_of_ne htok] at hmore
  exact h.tail (by omega)

theorem Surplus.drop_rept (h : Surplus k (.asmdir .rept :: l)) : Surplus (k + 1) l := by
  have hmore := h.more
  rw [List.count_cons_self, List.count_cons_of_ne (by decide)] at hmore
  exact h.tail (by omega)

theorem Surplus.drop_endr (h : Surplus (k + 1) (.asmdir .endr :: l)) : Surplus k l := by
  have hmore := h.more
  rw [List.count_cons_self, List.count_cons_of_ne (by decide)] at hmore
  exact h.tail (by omega)

theorem Surplus.ne_nil (h : Surplus k l) : l ≠ [] := by
  rintro rfl
  exact Nat.not_lt_zero _ h.more

/-- A rest of the file, with no string on the stack. -/
def file_input (ts : List Tok) (at_eof : Bool) : Input := ⟨[], ts, at_eof⟩

/-- Reading on in the file up to an `.endr` or less far keeps the surplus. -/
theorem Surplus.gives {b : Bool} {i' : Input} (h : Surplus k (tok :: ts))
    (hgives : Gives (Input.next true) (file_input ts b) p i') (hp : .asmdir .endr ∉ (tok :: p).dropLast) :
    ∃ ts', i' = file_input ts' b ∧ Surplus k (p.getLastD tok :: ts') := by
  induction p generalizing tok ts with
  | nil =>
    obtain rfl : i' = file_input ts b := hgives
    exact ⟨ts, rfl, h⟩
  | cons u p ih =>
    rw [List.dropLast_cons_of_ne_nil (List.cons_ne_nil u p), List.mem_cons, not_or] at hp
    have hrest := h.drop (Ne.symm hp.1)
    cases ts with
    | nil => exact absurd rfl hrest.ne_nil
    | cons v ts =>
      obtain ⟨rfl, hgives⟩ := hgives
      obtain ⟨ts', hi', hsurplus⟩ := ih hrest hgives hp.2
      refine ⟨ts', hi', ?_⟩
      rw [List.getLastD_cons]
      exact hsurplus

/-- Tokens that are read in an orderly way are no `.endr`. -/
theorem Surplus.orderly {b : Bool} {i' : Input} (h : Surplus k (tok :: ts)) (htok : tok ≠ .asmdir .endr)
    (hgives : Gives (Input.next true) (file_input ts b) p i') (horderly : Orderly (tok :: p)) :
    .asmdir .endr ∉ tok :: p := by
  induction p generalizing tok ts with
  | nil => exact fun hmem => htok (List.mem_singleton.mp hmem).symm
  | cons u p ih =>
    have hrest := h.drop htok
    cases ts with
    | nil => exact absurd rfl hrest.ne_nil
    | cons v ts =>
      obtain ⟨rfl, hgives⟩ := hgives
      have hu : v ≠ .asmdir .endr := fun hv =>
        (List.isChain_cons_cons.mp horderly).1 ⟨(List.isChain_cons_cons.mp h.marked).1 hv, hv⟩
      rw [List.mem_cons, not_or]
      exact ⟨Ne.symm htok, ih hrest hu hgives (List.isChain_cons_cons.mp horderly).2⟩

theorem Surplus.read {α : Type} {r : Reader Tok (Except Halt α)} {turns : Nat} {b : Bool} {a : α} {e : Tok}
    {i' : Input} (h : Surplus k (tok :: ts)) (htok : tok ≠ .asmdir .endr)
    (hread : (repetition.read r turns tok (file_input ts b)).run = some (.ok (a, e, i')))
    (horderly : ∀ p, Ends r p (.ok a) → e = p.getLastD tok → Orderly (tok :: p)) :
    ∃ ts', i' = file_input ts' b ∧ Surplus k (e :: ts') ∧ e ≠ .asmdir .endr := by
  obtain ⟨p, hgives, hends, he, -⟩ := read_eq_ok hread
  have hnone := h.orderly htok hgives (horderly p hends he)
  obtain ⟨ts', hi', hsurplus⟩ := h.gives hgives fun hmem => hnone (List.dropLast_subset _ hmem)
  rw [← he] at hsurplus
  refine ⟨ts', hi', hsurplus, ?_⟩
  intro heq
  exact hnone (heq ▸ he ▸ List.getLastD_mem_cons)

theorem Surplus.next (h : Surplus k l) (b : Bool) :
    ∃ u ts, l = u :: ts ∧ (file_input l b).next true = (u, file_input ts b) := by
  cases l with
  | nil => exact absurd rfl h.ne_nil
  | cons u ts => exact ⟨u, ts, rfl, rfl⟩

theorem orderly_cons (htok : tok.ends_line = false) (h : Orderly p) : Orderly (tok :: p) := by
  cases p with
  | nil => exact List.isChain_singleton tok
  | cons u p =>
    refine List.isChain_cons_cons.mpr ⟨?_, h⟩
    rw [htok]
    exact fun hboth => Bool.false_ne_true hboth.1

theorem endsLine_getLastD {e : Tok} (he : e = p.getLastD tok) (hends : e.ends_line = true) :
    EndsLine (tok :: p) :=
  ⟨e, by rw [List.getLast?_cons, he, List.getLastD_eq_getLast?], hends⟩

theorem EndsLine.tail (h : EndsLine (tok :: p)) (htok : tok.ends_line = false) : EndsLine p := by
  cases p with
  | nil =>
    obtain ⟨e, he, hends⟩ := h
    obtain rfl : tok = e := Option.some.inj he
    rw [htok] at hends
    cases hends
  | cons u p =>
    obtain ⟨e, he, hends⟩ := h
    rw [List.getLast?_cons_cons] at he
    exact ⟨e, he, hends⟩

theorem asm_expr_ends {x : BitVec 32 × σ} (h : Ends (A.asm_int_expr s tok) p (.ok x)) :
    ∃ e, Ends (A.asm_expr s tok) p (.ok e) := by
  obtain ⟨e, he, hx⟩ := Option.map_eq_some_iff.mp h.ends
  cases e with
  | error => cases hx
  | ok e => exact ⟨e, he, fun q t l hp => Option.map_eq_none_iff.mp (h.reads q t l hp)⟩

/-- `.rept` reads one `.endr`, and itself. -/
theorem Surplus.rept {assemble : σ → Input → Run (σ × Input)} (hframed : Framed assemble) {turns : Nat}
    {b : Bool} {e : Tok} {i' : Input} (h : Surplus 0 (.asmdir .rept :: ts))
    (hrun : (A.asm_rept assemble turns s (file_input ts b)).run = some (.ok (s', e, i'))) :
    ∃ ts', i' = file_input ts' b ∧ Surplus 0 (e :: ts') := by
  have hcount := h.drop_rept
  obtain ⟨u, ts, rfl, hnext⟩ := hcount.next b
  have hu : u ≠ .asmdir .endr := fun hu => Bool.false_ne_true ((List.isChain_cons_cons.mp h.marked).1 hu)
  rw [asm_rept_eq, hnext] at hrun
  obtain ⟨⟨x, e₁, i₁⟩, hread, hrun⟩ := bind_eq_ok.mp hrun
  obtain ⟨ts₁, rfl, hbody, he₁⟩ := hcount.read hu hread fun p hends _ => by
    obtain ⟨_, hexpr⟩ := asm_expr_ends hends
    exact A.expr_orderly hexpr
  obtain ⟨⟨c, e₂, i₂⟩, hcapture, hrun⟩ := bind_eq_ok.mp hrun
  obtain ⟨p, hgives, hends, rfl, -⟩ := read_eq_ok hcapture
  obtain ⟨rfl, hc⟩ := capture_ends hends
  obtain ⟨ts₂, rfl, hendr⟩ := hbody.gives hgives (by
    rw [← List.cons_append, List.dropLast_concat, List.mem_cons, not_or]
    exact ⟨Ne.symm he₁, hc⟩)
  rw [List.getLastD_concat] at hendr
  obtain ⟨⟨s₃, i₃⟩, hreplay, hlast⟩ := bind_eq_ok.mp hrun
  obtain ⟨str', rfl, -⟩ := hframed.replay hreplay
  have hrest := hendr.drop_endr
  obtain ⟨v, ts₃, rfl, hnext⟩ := hrest.next b
  dsimp only at hlast
  rw [Input.end_begin_macro, hnext] at hlast
  cases hlast
  exact ⟨ts₃, rfl, hrest⟩

/-- A line leaves a surplus as it was. -/
theorem Surplus.line {assemble : σ → Input → Run (σ × Input)} (hframed : Framed assemble) {turns : Nat}
    {b : Bool} {e : Tok} {i' : Input} (h : Surplus 0 (tok :: ts))
    (hline : (A.line assemble turns s tok (file_input ts b)).run = some (.ok (s', e, i')))
    (hends : e.ends_line = true) : ∃ ts', i' = file_input ts' b ∧ Surplus 0 (e :: ts') := by
  induction turns generalizing s tok ts with
  | zero => cases hline
  | succ turns ih =>
    unfold Assembler.line at hline
    split at hline
    · exact absurd List.mem_cons_self h.plain.1
    · exact h.rept hframed hline
    · cases hline
    · rename_i d _ hendr
      obtain ⟨ts', hi', hsurplus, -⟩ := h.read (fun heq => hendr (Tok.asmdir.inj heq)) hline fun p hp he =>
        orderly_cons rfl (A.directive_orderly hp ((endsLine_getLastD he hends).tail rfl))
      exact ⟨ts', hi', hsurplus⟩
    · dsimp only at hline
      split at hline
      · cases hline
      · obtain ⟨s₁, -, hline⟩ := bind_eq_ok.mp hline
        have hcolon := h.drop nofun
        obtain ⟨u, ts, rfl, hnext⟩ := hcolon.next b
        rw [hnext] at hline
        dsimp only at hline
        split at hline
        · cases hline
        · rename_i hu
          rw [not_not] at hu
          have hrest := hcolon.drop (by rw [hu]; nofun)
          obtain ⟨v, ts, rfl, hnext⟩ := hrest.next b
          rw [hnext] at hline
          exact ih hrest hline
    · have hident := h.drop nofun
      obtain ⟨u, ts, rfl, hnext⟩ := hident.next b
      rw [hnext] at hline
      dsimp only at hline
      have hu : u ≠ .asmdir .endr := fun hu =>
        Bool.false_ne_true ((List.isChain_cons_cons.mp h.marked).1 hu)
      split at hline
      · obtain ⟨s₁, -, hline⟩ := bind_eq_ok.mp hline
        have hrest := hident.drop hu
        obtain ⟨v, ts, rfl, hnext⟩ := hrest.next b
        rw [hnext] at hline
        exact ih hrest hline
      · split at hline
        · rename_i heq
          obtain ⟨⟨s₁, e₁, i₁⟩, hread, hline⟩ := bind_eq_ok.mp hline
          obtain ⟨ts₁, rfl, hrest, -⟩ := hident.read hu hread fun p hp _ =>
            orderly_cons (by rw [heq]; rfl) (A.symbol_orderly hp)
          exact ih hrest hline
        · obtain ⟨ts', hi', hsurplus, -⟩ := hident.read hu hline fun p hp he =>
            A.opcode_orderly hp (endsLine_getLastD he hends)
          exact ⟨ts', hi', hsurplus⟩
    · cases hline
      exact ⟨ts, rfl, h⟩

theorem Surplus.dropWhile (h : Surplus k ts) : Surplus k (ts.dropWhile (· = .linefeed)) := by
  induction ts with
  | nil => exact h
  | cons t ts ih =>
    rw [List.dropWhile_cons]
    split
    · rename_i ht
      exact ih (h.drop (by rw [of_decide_eq_true ht]; nofun))
    · exact h

/-- A file with an `.endr` too many is not accepted. -/
theorem Surplus.not_ok {turns : Nat} {b : Bool} {i' : Input} (h : Surplus 0 ts) :
    (A.tcc_assemble_internal turns s (file_input ts b)).run ≠ some (.ok (s', i')) := by
  induction turns generalizing s ts with
  | zero => exact nofun
  | succ turns ih =>
    intro hrun
    have hskip := h.dropWhile
    obtain ⟨u, ts', hu, -⟩ := hskip.next b
    rw [hu] at hskip
    have hnext : (file_input ts b).next false = (u, file_input ts' b) := by
      change Input.next_file false (file_input ts b) = _
      unfold Input.next_file
      rw [if_neg (show ¬ (false = true) from nofun)]
      rw [show (file_input ts b).file = ts from rfl, hu]
      rfl
    obtain ⟨_, hturns, hcases⟩ := assemble_ok hrun
    cases hturns
    rw [hnext] at hcases
    rcases hcases with ⟨rfl, -, -⟩ | ⟨-, s₁, e, i₁, hline, hends, hrest⟩
    · exact hskip.plain.2 List.mem_cons_self
    · obtain ⟨ts₁, rfl, hsurplus⟩ := hskip.line (framed_assemble A turns) hline hends
      exact ih (hsurplus.drop (by rintro rfl; cases hends)) hrest

end surplus

section bodies

variable {k : Nat} {l l' : List Tok}

theorem count_plain (u : AsmDir) (hu : u = .rept ∨ u = .endr) (l : List PlainTok) :
    (l.map Subtype.val).count (.asmdir u) = 0 := by
  refine List.count_eq_zero.mpr fun hmem => ?_
  obtain ⟨⟨t, ht⟩, -, rfl⟩ := List.mem_map.mp hmem
  rcases hu with rfl | rfl
  · exact Bool.false_ne_true ht
  · exact Bool.false_ne_true ht

theorem LineEnd.ne_asmdir (e : LineEnd) (u : AsmDir) : e.val ≠ .asmdir u := by
  intro he
  have hends := e.2
  rw [he] at hends
  exact Bool.false_ne_true hends

theorem LineEnd.count (e : LineEnd) (u : AsmDir) : [e.val].count (.asmdir u) = 0 :=
  List.count_eq_zero.mpr fun hmem => e.ne_asmdir u (List.mem_singleton.mp hmem).symm

/-- No rest of the tokens has more `.rept` than `.endr`. -/
def Balanced (l : List Tok) : Prop := ∀ c, c <:+ l → c.count (.asmdir .rept) ≤ c.count (.asmdir .endr)

theorem balanced_of_count (h : l.count (.asmdir .rept) = 0) : Balanced l := by
  intro c hc
  have hle := hc.sublist.count_le (.asmdir .rept)
  omega

theorem Balanced.append (h : Balanced l) (h' : Balanced l') : Balanced (l ++ l') := by
  rintro c ⟨d, hd⟩
  rcases List.append_eq_append_iff.mp hd with ⟨w, hw, rfl⟩ | ⟨w, -, hw⟩
  · have hleft := h w ⟨d, hw.symm⟩
    have hright := h' l' List.suffix_rfl
    rw [List.count_append, List.count_append]
    omega
  · exact h' c ⟨w, hw.symm⟩

attribute [local simp] rept_block in
theorem count_rept_block {count : List PlainTok} {e e' : LineEnd} {u : AsmDir} (hu : u = .rept ∨ u = .endr) :
    (rept_block (count.map Subtype.val) e l e').count (.asmdir u) = l.count (.asmdir u) + 1 := by
  have hsplit : rept_block (count.map Subtype.val) e l e' = [.asmdir .rept] ++ (count.map Subtype.val ++
      ([e.val] ++ (l ++ ([.asmdir .endr] ++ [e'.val])))) := rfl
  have hends : [Tok.asmdir .rept].count (.asmdir u) + [Tok.asmdir .endr].count (.asmdir u) = 1 := by
    rcases hu with rfl | rfl <;> rfl
  rw [hsplit]
  simp only [List.count_append, count_plain u hu, LineEnd.count]
  omega

theorem balanced_block {count : List PlainTok} {e e' : LineEnd} (h : Balanced l) :
    Balanced (rept_block (count.map Subtype.val) e l e') := by
  have hrest : Balanced (count.map Subtype.val ++ e.val :: (l ++ [.asmdir .endr, e'.val])) := by
    refine (balanced_of_count (count_plain _ (.inl rfl) count)).append ?_
    rw [← List.singleton_append]
    refine (balanced_of_count (e.count _)).append (h.append (balanced_of_count ?_))
    rw [List.count_cons_of_ne (by decide), e'.count]
  intro c hc
  rcases List.suffix_cons_iff.mp hc with rfl | hc
  · have hl := h l List.suffix_rfl
    have hrept := @count_rept_block l count e e' .rept (.inl rfl)
    have hendr := @count_rept_block l count e e' .endr (.inr rfl)
    rw [rept_block] at hrept hendr
    omega
  · exact hrest c hc

attribute [local simp] Body.tokens in
theorem Body.balanced (b : Body) : Balanced b.tokens := by
  induction b with
  | nil => exact balanced_of_count rfl
  | line l e rest ih =>
    refine (balanced_of_count (count_plain _ (.inl rfl) l)).append ?_
    rw [← List.singleton_append]
    exact (balanced_of_count (e.count _)).append ih
  | block labels count e inner e' rest ihinner ihrest =>
    exact (balanced_of_count (count_plain _ (.inl rfl) labels)).append
      ((balanced_block ihinner).append ihrest)

theorem marked_plain {y x : Tok} {z : List Tok} (ps : List PlainTok) (hy : y ≠ .asmdir .endr)
    (h : Marked (y :: z)) : Marked (x :: (ps.map Subtype.val ++ y :: z)) := by
  induction ps generalizing x with
  | nil => exact List.isChain_cons_cons.mpr ⟨fun heq => absurd heq hy, h⟩
  | cons t ps ih =>
    refine List.isChain_cons_cons.mpr ⟨fun heq => ?_, ih⟩
    have hplain := t.2
    rw [heq] at hplain
    exact absurd hplain Bool.false_ne_true

/-- In a text every `.endr` is at the start of a line. -/
theorem Body.marked (b : Body) {r : List Tok} (hr : ∀ e : LineEnd, Marked (e.val :: r)) (e₀ : LineEnd) :
    Marked (e₀.val :: (b.tokens ++ r)) := by
  induction b generalizing e₀ r with
  | nil => exact hr e₀
  | line l e rest ih =>
    rw [tokens, List.append_assoc]
    exact marked_plain l (e.ne_asmdir _) (ih hr e)
  | block labels count e inner e' rest ihinner ihrest =>
    have htokens : (block labels count e inner e' rest).tokens ++ r = labels.map Subtype.val ++
        .asmdir .rept :: (count.map Subtype.val ++
          e.val :: (inner.tokens ++ .asmdir .endr :: e'.val :: (rest.tokens ++ r))) := by
      simp only [tokens, rept_block, List.append_assoc, List.cons_append, List.nil_append]
    rw [htokens]
    refine marked_plain labels (by decide) (marked_plain count (e.ne_asmdir _) (ihinner (fun x => ?_) e))
    refine List.isChain_cons_cons.mpr ⟨fun _ => x.2, List.isChain_cons_cons.mpr ⟨fun he' => ?_, ihrest hr e'⟩⟩
    exact absurd he' (e'.ne_asmdir _)

theorem not_mem_plain {u : Tok} (hu : u = .eof ∨ u = .char '#') (l : List PlainTok) :
    u ∉ l.map Subtype.val := by
  intro hmem
  obtain ⟨⟨t, ht⟩, -, rfl⟩ := List.mem_map.mp hmem
  rcases hu with rfl | rfl
  · exact Bool.false_ne_true ht
  · exact Bool.false_ne_true ht

theorem LineEnd.ne {u : Tok} (hu : u = .eof ∨ u = .char '#') (e : LineEnd) : u ≠ e.val := by
  rintro rfl
  have hends := e.2
  rcases hu with hu | hu
  · rw [hu] at hends
    exact Bool.false_ne_true hends
  · rw [hu] at hends
    exact absurd hends (by decide)

theorem Body.not_mem {u : Tok} (hu : u = .eof ∨ u = .char '#') (b : Body) : u ∉ b.tokens := by
  have hdir : ∀ d, u ≠ .asmdir d := by
    rcases hu with rfl | rfl
    · exact fun _ => nofun
    · exact fun _ => nofun
  induction b with
  | nil => exact List.not_mem_nil
  | line l e rest ih =>
    rw [tokens, List.mem_append, List.mem_cons]
    rintro (h | h | h)
    · exact not_mem_plain hu l h
    · exact e.ne hu h
    · exact ih h
  | block labels count e inner e' rest ihinner ihrest =>
    simp only [tokens, rept_block, List.mem_append, List.mem_cons, List.not_mem_nil, or_false]
    rintro (h | (h | h | h | h | h | h) | h)
    · exact not_mem_plain hu labels h
    · exact hdir _ h
    · exact not_mem_plain hu count h
    · exact e.ne hu h
    · exact ihinner h
    · exact hdir _ h
    · exact e'.ne hu h
    · exact ihrest h

theorem Body.flat_iff (b : Body) : b.flat = true ↔ .asmdir .endr ∉ b.tokens := by
  induction b with
  | nil => exact ⟨fun _ => List.not_mem_nil, fun _ => rfl⟩
  | line l e rest ih =>
    rw [flat, ih, tokens, List.mem_append, List.mem_cons, not_or, not_or]
    have hl := List.count_eq_zero.mp (count_plain .endr (.inr rfl) l)
    exact ⟨fun h => ⟨hl, (e.ne_asmdir _).symm, h⟩, fun h => h.2.2⟩
  | block labels count e inner e' rest =>
    refine ⟨fun h => absurd h Bool.false_ne_true, fun h => absurd ?_ h⟩
    simp only [tokens, rept_block, List.mem_append, List.mem_cons, true_or, or_true]

end bodies

section results

variable {σ : Type} {A : Assembler σ} {s s' t : σ} {count : List Tok} {e e' : LineEnd} {n : Nat} {b : Body}

/-- What is left behind the first `.endr` of a body has an `.endr` too many. -/
theorem surplus_rest {b₁ b₂ : List Tok} (hsplit : b.tokens = b₁ ++ .asmdir .endr :: b₂) (e' : LineEnd) :
    Surplus 0 (b₂ ++ [.asmdir .endr, e'.val]) where
  marked := by
    have hlast : ∀ e : LineEnd, Marked (e.val :: [.asmdir .endr, e'.val]) := fun e =>
      List.isChain_cons_cons.mpr ⟨fun _ => e.2, List.isChain_pair.mpr fun h => absurd h (e'.ne_asmdir _)⟩
    have hall := b.marked hlast e'
    rw [hsplit, List.append_assoc, ← List.cons_append] at hall
    exact List.IsChain.tail (List.IsChain.right_of_append hall)
  more := by
    have hle := b.balanced b₂ ⟨b₁ ++ [.asmdir .endr], by
      rw [hsplit, List.append_assoc, List.singleton_append]⟩
    have he' := e'.ne_asmdir
    rw [List.count_append, List.count_append, List.count_cons_of_ne (by decide), List.count_cons_self]
    rw [e'.count, e'.count]
    omega
  plain := by
    have hnot : ∀ u, (u = .eof ∨ u = .char '#') → u ∉ b₂ ++ [.asmdir .endr, e'.val] := by
      intro u hu hmem
      rcases List.mem_append.mp hmem with hmem | hmem
      · exact b.not_mem hu (hsplit ▸ List.mem_append_right _ (List.mem_cons_of_mem _ hmem))
      · rcases List.mem_cons.mp hmem with hmem | hmem
        · rcases hu with rfl | rfl
          · cases hmem
          · cases hmem
        · exact e'.ne hu (List.mem_singleton.mp hmem)
    exact ⟨hnot _ (.inr rfl), hnot _ (.inl rfl)⟩

/-- With a block in its body, `.rept` is never accepted at the end of a file. -/
theorem nested_not_ok (hcount : A.Counts s count e n) (hflat : b.flat = false) :
    ¬ A.Returns s (rept_block count e b.tokens e') (.ok t) := by
  intro hreturns
  have hmem : .asmdir .endr ∈ b.tokens := by
    by_contra hnot
    rw [b.flat_iff.mpr hnot] at hflat
    cases hflat
  obtain ⟨b₁, b₂, hsplit, hb₁⟩ := List.eq_append_cons_of_mem hmem
  have heof : .eof ∉ b₁ := fun h => b.not_mem (.inl rfl) (hsplit ▸ List.mem_append_left _ h)
  obtain ⟨turns₁, hline⟩ := line_rept hcount hb₁ heof
  obtain ⟨turns₂, hrun⟩ := returns_of_le hreturns
  obtain ⟨x, hx, hmap⟩ := Option.map_eq_some_iff.mp (hrun (max turns₁ turns₂ + 2)
    ((le_max_right turns₁ turns₂).trans (Nat.le_add_right _ 2)))
  cases x with
  | error => cases hmap
  | ok x =>
    obtain ⟨s', i'⟩ := x
    have htext : rept_block count e b.tokens e' =
        .asmdir .rept :: (count ++ e.val :: (b₁ ++ .asmdir .endr :: (b₂ ++ [.asmdir .endr, e'.val]))) := by
      rw [rept_block, hsplit, List.append_assoc, List.cons_append]
    rw [htext] at hx
    have hfirst : Tok.asmdir .rept ≠ .linefeed := nofun
    obtain ⟨_, hturns, ⟨heof, -, -⟩ | ⟨-, s₁, e₁, i₁, hrept, hends, hrest⟩⟩ := assemble_ok hx
    · rw [next_token hfirst] at heof
      cases heof
    · cases hturns
      rw [next_token hfirst, hline _ (le_max_left ..)] at hrept
      obtain ⟨⟨s₂, i₂⟩, hreplay, hlast⟩ := bind_eq_ok.mp hrept
      obtain ⟨str', rfl, -⟩ := (framed_assemble A _).replay hreplay
      have hsurplus := surplus_rest hsplit e'
      obtain ⟨u, ts, hu, hnext⟩ := hsurplus.next false
      dsimp only at hlast
      rw [Input.end_begin_macro] at hlast
      rw [show (Input.of_file (b₂ ++ [.asmdir .endr, e'.val])).next true =
        (u, file_input ts false) from hnext]
        at hlast
      cases hlast
      rw [hu] at hsurplus
      exact (hsurplus.drop (by rintro rfl; cases hends)).not_ok hrest

theorem not_mem_of_flat (hflat : b.flat = true) : .asmdir .endr ∉ b.tokens ∧ .eof ∉ b.tokens :=
  ⟨b.flat_iff.mp hflat, b.not_mem (.inl rfl)⟩

/-- `.rept` is the same as copies of its body, if the body is accepted so often: just if there is no block in
    the body, and the copies that do not count in an `int` do nothing. -/
theorem rept_iff (hcount : A.Counts s count e n) (hcopies : A.Copied b.tokens n s t) :
    A.Same s (rept_block count e b.tokens e') (copies n b.tokens) ↔
      b.flat = true ∧ (n < 2 ^ 31 ∨ A.Same s (copies (repeats n) b.tokens) (copies n b.tokens)) := by
  have hrepeats : b.flat = true →
      A.Same s (rept_block count e b.tokens e') (copies (repeats n) b.tokens) := by
    intro hflat rest r
    obtain ⟨s', hfew⟩ := Copied.le hcopies (repeats_le n)
    obtain ⟨hendr, heof⟩ := not_mem_of_flat hflat
    rw [returns_of_assembles (assembles_rept hcount hendr heof hfew), returns_of_copied hfew]
  constructor
  · intro hsame
    have hflat : b.flat = true := by
      by_contra hnot
      have hcopied := (returns_of_copied hcopies [] (.ok t)).mpr (returns_nil t)
      have hrept := (hsame [] (.ok t)).mpr hcopied
      rw [List.append_nil] at hrept
      exact nested_not_ok hcount (Bool.eq_false_of_not_eq_true hnot) hrept
    refine ⟨hflat, .inr fun rest r => ?_⟩
    rw [← hsame rest r, hrepeats hflat rest r]
  · rintro ⟨hflat, hn | hsame⟩
    · have hall := hrepeats hflat
      rwa [repeats_of_lt hn] at hall
    · intro rest r
      rw [hrepeats hflat rest r, hsame rest r]

end results

/-- An assembler that knows `.byte` with a number. -/
def byte_number (s : AsmState) : Reader Tok (Except Halt AsmState)
  | [] => none
  | [.ppnum _] => none
  | [.ppnum p, _] => some ((Directive.byte [⟨BitVec.ofNat 64 (strtoull p).1, none⟩]).step s)
  | _ => some (.error (.error "bad expression syntax"))

def number (s : AsmState) (tok : Tok) : Reader Tok (Except Halt (ExprValue × AsmState))
  | [] => match tok with
    | .ppnum _ => none
    | _ => some (.error (.error "bad expression syntax"))
  | _ => match tok with
    | .ppnum p => some (.ok (⟨BitVec.ofNat 64 (strtoull p).1, none⟩, s))
    | _ => none

theorem orderly_pair {a c : Tok} (ha : a.ends_line = false) : Orderly [a, c] :=
  orderly_cons ha (List.isChain_singleton c)

attribute [local simp] byte_number in
theorem byte_number_ok {s s' : AsmState} {p : List Tok} (h : Ends (byte_number s) p (.ok s')) :
    ∃ q c, p = [.ppnum q, c] := by
  have hends := h.ends
  unfold byte_number at hends
  split at hends
  · cases hends
  · cases hends
  · exact ⟨_, _, rfl⟩
  · cases hends

theorem number_ok {s : AsmState} {e : ExprValue × AsmState} {tok : Tok} {p : List Tok}
    (h : Ends (number s tok) p (.ok e)) : ∃ q c, tok = .ppnum q ∧ p = [c] := by
  have hends := h.ends
  cases p with
  | nil => cases tok with | _ => cases hends
  | cons c p =>
    cases tok with
    | ppnum q =>
      cases p with
      | nil => exact ⟨q, c, rfl, rfl⟩
      | cons d p => cases h.reads [c] d p rfl
    | _ => cases hends

/-- A small assembler, for numbers as bytes. -/
def byte_assembler : Assembler AsmState where
  get_tok_str _ := ""
  asm_parse_directive s d := match d with
    | .byte => byte_number s
    | _ => fun _ => some (.error (.error "unknown assembler directive"))
  asm_opcode _ _ _ _ := some (.error (.error "unknown opcode"))
  set_symbol _ _ _ := some (.error (.error "bad expression syntax"))
  asm_expr := number
  asm_new_label _ _ _ := .error (.error "no labels")
  directive_orderly {s s' d p} h _ := by
    cases d with
    | byte =>
      obtain ⟨q, c, rfl⟩ := byte_number_ok h
      exact orderly_pair rfl
    | _ => cases h.ends
  opcode_orderly h _ := nomatch h.ends
  symbol_orderly h := nomatch h.ends
  expr_orderly h := by
    obtain ⟨q, c, rfl, rfl⟩ := number_ok h
    exact orderly_pair rfl

def newline : LineEnd := ⟨.linefeed, rfl⟩

/-- `.byte 1` -/
def byte_line : List PlainTok := [⟨.asmdir .byte, rfl⟩, ⟨.ppnum [49#8], rfl⟩]

def one_byte : Body := .line byte_line newline .nil

def nested_byte : Body := .block [] [⟨.ppnum [49#8], rfl⟩] newline one_byte newline .nil

theorem strtoull_digit : (BitVec.ofNat 64 (strtoull [49#8]).1) = 1#64 := by decide

theorem assembles_one_byte {s s' : AsmState} (hs : (Directive.byte [⟨1#64, none⟩]).step s = .ok s') :
    byte_assembler.Assembles s one_byte.tokens s' := by
  have hends : Ends (byte_number s) [.ppnum [49#8], .linefeed] (.ok s') := by
    refine ⟨?_, fun q t l h => ?_⟩
    · rw [byte_number, strtoull_digit, hs]
    · rcases q with _ | ⟨a, _ | ⟨c, q⟩⟩
      · rfl
      · obtain ⟨rfl, -⟩ := List.cons.inj h
        rfl
      · have hlen := congrArg List.length h
        simp only [List.cons_append, List.length_cons, List.length_append, List.length_nil] at hlen
        omega
  have hline : ∀ more, (byte_assembler.line (byte_assembler.tcc_assemble_internal 4) 4 s (.asmdir .byte)
      (.of_file ([.ppnum [49#8], .linefeed] ++ more))).run = some (.ok (s', .linefeed, .of_file more)) :=
    fun more => read_of_ends (Input.gives_file _ more) hends (by decide)
  exact @Assembler.Assembles.line _ byte_assembler _ _ _ _ _ _ [] _ hline rfl (.nil s')

theorem counts_digit {s : AsmState} {c : Byte} {n : Nat} (hc : (BitVec.ofNat 64 (strtoull [c]).1).toInt = n) :
    byte_assembler.Counts s [.ppnum [c]] newline n := by
  refine ⟨.ppnum [c], [.linefeed], _, rfl, ⟨rfl, fun q t l h => ?_⟩, hc⟩
  cases q with
  | nil => rfl
  | cons a q =>
    have hlen := congrArg List.length h
    simp only [List.cons_append, List.length_cons, List.length_append, List.length_nil] at hlen
    omega

/-- `.rept 3` with a line in it. -/
theorem same_three : byte_assembler.Same empty_unit
    (rept_block [.ppnum [51#8]] newline one_byte.tokens newline) (copies 3 one_byte.tokens) :=
  (rept_iff (counts_digit (by decide)) (.succ (assembles_one_byte rfl) (.succ (assembles_one_byte rfl)
    (.succ (assembles_one_byte rfl) (.zero _))))).mpr ⟨rfl, .inl (by decide)⟩

/-- A block in the body: one copy of the body is accepted, and `.rept 1` with it is not. -/
theorem nested_differs : ∃ t, byte_assembler.Counts empty_unit [.ppnum [49#8]] newline 1 ∧
    byte_assembler.Copied nested_byte.tokens 1 empty_unit t ∧
    ¬ byte_assembler.Same empty_unit (rept_block [.ppnum [49#8]] newline nested_byte.tokens newline)
      (copies 1 nested_byte.tokens) := by
  have hcount : byte_assembler.Counts empty_unit [.ppnum [49#8]] newline 1 := counts_digit (by decide)
  obtain ⟨t, hcopied⟩ : ∃ t, byte_assembler.Copied nested_byte.tokens 1 empty_unit t := by
    obtain ⟨hendr, heof⟩ := @not_mem_of_flat one_byte rfl
    have hblock := @assembles_rept _ byte_assembler _ _ _ _ newline newline 1 hcount hendr heof
      (.succ (assembles_one_byte rfl) (.zero _))
    rw [← List.append_nil (rept_block _ _ _ _)] at hblock
    exact ⟨_, .succ hblock (.zero _)⟩
  refine ⟨t, hcount, hcopied, fun hsame => ?_⟩
  have hcopies := (returns_of_copied hcopied [] (.ok t)).mpr (returns_nil t)
  have hrept := (hsame [] (.ok t)).mpr hcopies
  rw [List.append_nil] at hrept
  exact nested_not_ok hcount rfl hrept

end tcc.asm.repetition
