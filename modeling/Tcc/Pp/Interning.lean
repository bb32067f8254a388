import Tcc.Pp.Identifier

/-! The tokens of identifiers over a whole run. -/

open machine.interner

namespace tcc.pp

/-- A text that starts with an identifier. -/
def Identifier (fl : Flags) : List Byte → Prop
  | [] => False
  | c :: p =>
    c = 36 ∧ fl.is_id 36 = true ∧ fl.asm_file = false ∨
      c = 76 ∧ (unsplice p).head? ≠ some 39 ∧ (unsplice p).head? ≠ some 34 ∨
      c ≠ 76 ∧ (isid c ∨ 128 ≤ c.toNat) ∨
      c = 46 ∧ fl.is_id 46 = true ∧ ∃ d, (unsplice p).head? = some d ∧ fl.is_idnum d = true ∧ ¬ isnum d

/-- No stray backslash that is an error ends the identifier, and the string can hold it. -/
structure Lexable (fl : Flags) (text : List Byte) : Prop where
  stray : fl.accept_strays = true ∨ ((unsplice text.tail).dropWhile fl.is_idnum).head? ≠ some 92
  short : (spelling fl text).length ≤ 2 ^ 30

section lexer

variable (mem : Realloc TokenSym) (smem : Realloc Byte) {fl : Flags}

theorem peekc_isSome {file : BufferedFile} {p : List Byte} (htext : file.text = p)
    (hstray : fl.accept_strays = true ∨ ((unsplice p).dropWhile fl.is_idnum).head? ≠ some 92) :
    ∃ g, g.At (skip_splices p) ∧ file.peekc fl.accept_strays = some ((skip_splices p).head?, g) := by
  obtain ⟨g, hg, hresult⟩ := file.peekc_spec fl.accept_strays
  rw [htext] at hg hresult
  refine ⟨g, hg, ?_⟩
  rw [hresult]
  refine if_neg ?_
  rintro ⟨hreject, hhead⟩
  obtain ⟨q, hskip⟩ := List.head?_eq_some_iff.mp hhead
  rcases hstray with haccept | hstray
  · rw [hreject] at haccept
    cases haccept
  · rw [unsplice_of_skip_splices hskip, List.dropWhile_cons_of_neg (by rw [fl.is_idnum_backslash]; decide)] at hstray
    exact hstray rfl

theorem cstr_append_size {cstr grown : CString} {bytes : List Byte} (happend : cstr_append smem cstr bytes = some grown) :
    grown.size = cstr.size + bytes.length := by
  have hcontent := congrArg List.length ((cstr_append_spec smem cstr bytes).2 grown happend)
  rwa [grown.length_content, List.length_append, cstr.length_content] at hcontent

theorem slow_loop_isSome {turns : Nat} {file : BufferedFile} {tokcstr : CString} {p : List Byte}
    (hat : file.At p) (hspliced : skip_splices p = p) (hturns : p.length < turns)
    (hstray : fl.accept_strays = true ∨ ((unsplice p).dropWhile fl.is_idnum).head? ≠ some 92)
    (hsize : tokcstr.size + ((unsplice p).takeWhile fl.is_idnum).length ≤ 2 ^ 30) :
    ∃ r, slow_loop smem fl turns p.head? file tokcstr = some r := by
  induction turns generalizing file tokcstr p with
  | zero => omega
  | succ turns ih =>
    rcases p with _ | ⟨c, q⟩
    · exact ⟨_, rfl⟩
    · rw [unsplice_of_skip_splices hspliced] at hstray hsize
      rw [List.head?_cons, slow_loop]
      by_cases hc : fl.is_idnum c = true
      · rw [List.dropWhile_cons_of_pos hc] at hstray
        rw [List.takeWhile_cons_of_pos hc, List.length_cons] at hsize
        obtain ⟨grown, hccat⟩ := (cstr_append_spec smem tokcstr [c]).1 (by rw [List.length_singleton]; omega)
        have hgrown := cstr_append_size smem hccat
        rw [List.length_singleton] at hgrown
        obtain ⟨-, -, hstep⟩ := hat.buf_eq
        obtain ⟨g, hg, hpeekc⟩ := peekc_isSome hstep hstray
        have hlength := length_skip_splices_le q
        rw [List.length_cons] at hturns
        obtain ⟨r, hloop⟩ := @ih g grown (skip_splices q) hg (skip_splices_idem q) (by omega)
          (by rw [unsplice_skip_splices]; exact hstray) (by rw [unsplice_skip_splices]; omega)
        refine ⟨r, ?_⟩
        rw [if_pos hc, cstr_ccat, hccat, Option.bind_eq_bind, Option.bind_some, hpeekc]
        exact hloop
      · rw [if_neg hc]
        exact ⟨_, rfl⟩

theorem parse_ident_slow_isSome {lexer : Lexer} {p : List Byte} (hat : lexer.file.At p)
    (hspliced : skip_splices p = p) (hst : lexer.idents.WF) (hfull : lexer.idents.tok_ident < SYM_FIRST_ANOM)
    (hstray : fl.accept_strays = true ∨ ((unsplice p).dropWhile fl.is_idnum).head? ≠ some 92)
    (hsize : lexer.tokcstr.size + ((unsplice p).takeWhile fl.is_idnum).length ≤ 2 ^ 30) :
    ∃ r, parse_ident_slow mem smem fl lexer p.head? = some r := by
  obtain ⟨⟨file, tokcstr⟩, hloop⟩ := slow_loop_isSome smem hat hspliced (Nat.lt_succ_self _) hstray hsize
  obtain ⟨ts, idents, halloc⟩ := @tok_alloc_isSome mem _ tokcstr.content hst (.inr hfull)
  rw [← congrArg List.length hat.text_eq] at hloop
  exact ⟨_, Option.bind_eq_some_iff.mpr ⟨_, hloop, Option.bind_eq_some_iff.mpr ⟨_, halloc, rfl⟩⟩⟩

theorem parse_ident_fast_isSome {lexer : Lexer} {c : Byte} {p : List Byte} (hat : lexer.file.At (c :: p))
    (hst : lexer.idents.WF) (hfull : lexer.idents.tok_ident < SYM_FIRST_ANOM) (hlexable : Lexable fl (c :: p)) :
    ∃ r, parse_ident_fast mem smem fl lexer = some r := by
  obtain ⟨hstray, hshort⟩ := hlexable
  obtain ⟨⟨buf, blocks⟩, idents, tokcstr⟩ := lexer
  obtain ⟨buf, rfl, hp⟩ := hat.buf_eq
  obtain ⟨taken, rest, rfl, hloop, htaken, hrest⟩ := fast_loop_spec (TOK_HASH_FUNC TOK_HASH_INIT c) buf
  obtain ⟨left, hleft⟩ : ∃ left, BufferedFile.text ⟨rest, blocks⟩ = left := ⟨_, rfl⟩
  have hsplit : p = taken ++ left := by
    rw [← hp, ← hleft]
    exact List.append_assoc _ _ _
  have hstr : (c :: (taken ++ rest)).take (taken.length + 1) = c :: taken := by
    rw [List.take_succ_cons, List.take_left]
  rw [List.tail_cons, hsplit, unsplice_append htaken, List.dropWhile_append_of_pos htaken] at hstray
  rw [spelling, hsplit, unsplice_append htaken, List.takeWhile_append_of_pos htaken, List.length_cons,
    List.length_append] at hshort
  unfold parse_ident_fast
  simp only [hloop, hstr]
  by_cases hmark : BufferedFile.peek ⟨rest, blocks⟩ = 92
  · rw [if_neg (fun h => h hmark)]
    have hreset : (cstr_reset tokcstr).size = 0 := rfl
    obtain ⟨grown, hcat⟩ := (cstr_append_spec smem (cstr_reset tokcstr) (c :: taken)).1 (by
      rw [List.length_cons]
      omega)
    have hgrown := cstr_append_size smem hcat
    rw [List.length_cons, hreset] at hgrown
    obtain ⟨g, hg, hpeekc⟩ := peekc_isSome hleft hstray
    obtain ⟨r, hslow⟩ := @parse_ident_slow_isSome mem smem fl ⟨g, idents, grown⟩ _ hg (skip_splices_idem left)
      hst hfull (by rw [unsplice_skip_splices]; exact hstray)
      (by rw [unsplice_skip_splices]; dsimp only; omega)
    exact ⟨r, Option.bind_eq_some_iff.mpr ⟨_, hcat, Option.bind_eq_some_iff.mpr ⟨_, hpeekc, hslow⟩⟩⟩
  · rw [if_pos hmark]
    obtain ⟨ts, next, halloc⟩ := @tok_alloc_isSome mem _ (c :: taken) hst (.inr hfull)
    exact ⟨_, Option.bind_eq_some_iff.mpr ⟨_, halloc, rfl⟩⟩

/-- An identifier gets a token, until the largest one is used. -/
theorem next_ident_isSome {lexer : Lexer} (hbuf : lexer.file.buf ≠ []) (hident : Identifier fl lexer.file.text)
    (hlexable : Lexable fl lexer.file.text) (hst : lexer.idents.WF)
    (hfull : lexer.idents.tok_ident < SYM_FIRST_ANOM) :
    ∃ r, next_ident mem smem fl lexer = some r := by
  obtain ⟨⟨buf, blocks⟩, idents, tokcstr⟩ := lexer
  cases buf with
  | nil => exact absurd rfl hbuf
  | cons c buf =>
    obtain ⟨p, hp⟩ : ∃ p, BufferedFile.text ⟨c :: buf, blocks⟩ = c :: p := ⟨_, rfl⟩
    have hat : BufferedFile.At ⟨c :: buf, blocks⟩ (c :: p) := ⟨hp, rfl⟩
    obtain ⟨-, -, hstep⟩ := hat.buf_eq
    rw [hp] at hident hlexable
    have hfast := @parse_ident_fast_isSome mem smem fl ⟨⟨c :: buf, blocks⟩, idents, tokcstr⟩ c p hat hst hfull hlexable
    unfold next_ident
    dsimp only
    rcases hident with ⟨rfl, hid, hasm⟩ | ⟨rfl, hquote, hdquote⟩ | ⟨hne, hletter⟩ | ⟨rfl, hid, d, hd, hnum, hnot⟩
    · rw [if_pos rfl, if_neg (by rw [hid, hasm]; simp)]
      exact hfast
    · rw [if_neg (by decide), if_pos rfl]
      split
      · exact hfast
      · obtain ⟨g, hg, hpeekc⟩ := peekc_isSome hstep hlexable.stray
        have hshort := hlexable.short
        rw [spelling, List.length_cons] at hshort
        have hreset : (cstr_reset tokcstr).size = 0 := rfl
        obtain ⟨grown, hccat⟩ := (cstr_append_spec smem (cstr_reset tokcstr) [76]).1 (by
          rw [List.length_singleton]
          omega)
        have hgrown := cstr_append_size smem hccat
        rw [List.length_singleton, hreset] at hgrown
        obtain ⟨r, hslow⟩ := @parse_ident_slow_isSome mem smem fl ⟨g, idents, grown⟩ _ hg (skip_splices_idem p)
          hst hfull (by rw [unsplice_skip_splices]; exact hlexable.stray)
          (by rw [unsplice_skip_splices]; dsimp only; omega)
        refine ⟨r, Option.bind_eq_some_iff.mpr ⟨_, hpeekc, ?_⟩⟩
        dsimp only
        rw [head?_skip_splices, if_neg (by rintro (h | h); exacts [hquote h, hdquote h]), ← head?_skip_splices]
        exact Option.bind_eq_some_iff.mpr ⟨_, hccat, hslow⟩
    · have hdollar : c ≠ 36 := by
        rintro rfl
        exact absurd hletter (by decide)
      rw [if_neg hdollar, if_neg hne, if_pos hletter]
      exact hfast
    · rw [if_neg (by decide), if_neg (by decide), if_neg (by decide), if_pos rfl]
      obtain ⟨g, hg, hpeekc⟩ := peekc_isSome hstep hlexable.stray
      have hlexable' : Lexable fl (46 :: skip_splices p) := by
        obtain ⟨hstray, hshort⟩ := hlexable
        refine ⟨?_, ?_⟩
        · rw [List.tail_cons, unsplice_skip_splices]
          exact hstray
        · rw [spelling, unsplice_skip_splices]
          exact hshort
      obtain ⟨r, hr⟩ := @parse_ident_fast_isSome mem smem fl ⟨g.unget 46, idents, tokcstr⟩ _ _ (hg.unget 46) hst
        hfull hlexable'
      refine ⟨r, Option.bind_eq_some_iff.mpr ⟨_, hpeekc, ?_⟩⟩
      dsimp only
      rw [head?_skip_splices, hd, if_pos ⟨hid, hnum, by simpa using hnot⟩]
      exact hr

end lexer

/-- An identifier in a source file, where the lexer has come to it, or a string that is given to
    `tok_alloc`. -/
inductive Occurrence where
  | lexed (fl : Flags) (file : BufferedFile) (tokcstr : CString)
  | interned (str : List Byte)

namespace Occurrence

/-- The characters, without line splices. -/
def spelling : Occurrence → List Byte
  | lexed fl file _ => pp.spelling fl file.text
  | interned str => str

/-- There is an identifier that can be lexed. -/
def Valid : Occurrence → Prop
  | lexed fl file _ => file.buf ≠ [] ∧ Identifier fl file.text ∧ Lexable fl file.text
  | interned _ => True

def token (mem : Realloc TokenSym) (smem : Realloc Byte) (st : Idents) : Occurrence → Option (Nat × Idents)
  | lexed fl file tokcstr =>
    (next_ident mem smem fl ⟨file, st, tokcstr⟩).map fun (tok, lexer) => (tok, lexer.idents)
  | interned str => (tok_alloc mem st str).map fun (ts, st) => (ts.tok, st)

end Occurrence

section run

variable (mem : Realloc TokenSym) (smem : Realloc Byte)

/-- The tokens of identifiers one after the other. -/
def tokens (st : Idents) : List Occurrence → Option (List Nat × Idents)
  | [] => some ([], st)
  | o :: os =>
    (o.token mem smem st).bind fun (tok, st) => (tokens st os).map fun (toks, st) => (tok :: toks, st)

variable {mem smem} {st st' : Idents} {o : Occurrence} {os : List Occurrence}

/-- One occurrence: its name is numbered, and the token is its number. -/
theorem token_spec {tok : Nat} (hst : st.WF) (htoken : o.token mem smem st = some (tok, st')) :
    st'.WF ∧ st'.names = intern st.names o.spelling ∧ tok = TOK_IDENT + st'.names.idxOf o.spelling := by
  cases o with
  | lexed fl file tokcstr =>
    obtain ⟨⟨tok, lexer⟩, hident, heq⟩ := Option.map_eq_some_iff.mp htoken
    cases heq
    obtain ⟨ts, halloc, rfl⟩ := next_ident_spec hident
    exact tok_alloc_spec mem hst halloc
  | interned str =>
    obtain ⟨⟨ts, st⟩, halloc, heq⟩ := Option.map_eq_some_iff.mp htoken
    cases heq
    exact tok_alloc_spec mem hst halloc

/-- A whole run: every token is the number of its name in the end. -/
theorem tokens_spec {toks : List Nat} (hst : st.WF) (htokens : tokens mem smem st os = some (toks, st')) :
    st'.WF ∧ st.names <+: st'.names ∧
      List.Forall₂ (fun o tok => o.spelling ∈ st'.names ∧ tok = TOK_IDENT + st'.names.idxOf o.spelling) os toks := by
  induction os generalizing st toks with
  | nil =>
    cases htokens
    exact ⟨hst, List.prefix_refl _, .nil⟩
  | cons o os ih =>
    obtain ⟨⟨tok, next⟩, htoken, htokens⟩ := Option.bind_eq_some_iff.mp htokens
    obtain ⟨⟨rest, last⟩, hrest, heq⟩ := Option.map_eq_some_iff.mp htokens
    cases heq
    obtain ⟨hnext, hnames, htok⟩ := token_spec hst htoken
    obtain ⟨hlast, hgrown, hall⟩ := ih hnext hrest
    have hmem : o.spelling ∈ next.names := by
      rw [hnames]
      exact mem_intern
    have hold : st.names <+: next.names := by
      rw [hnames]
      exact prefix_intern
    refine ⟨hlast, hold.trans hgrown, .cons ⟨hgrown.subset hmem, ?_⟩ hall⟩
    rw [htok, idxOf_of_prefix hgrown hmem]

theorem token_isSome (hvalid : o.Valid) (hst : st.WF) (hfull : st.tok_ident < SYM_FIRST_ANOM) :
    ∃ r, o.token mem smem st = some r := by
  cases o with
  | lexed fl file tokcstr =>
    obtain ⟨hbuf, hident, hlexable⟩ := hvalid
    obtain ⟨r, hr⟩ := @next_ident_isSome mem smem fl ⟨file, st, tokcstr⟩ hbuf hident hlexable hst hfull
    exact ⟨_, Option.map_eq_some_iff.mpr ⟨r, hr, rfl⟩⟩
  | interned str =>
    obtain ⟨ts, next, halloc⟩ := @tok_alloc_isSome mem _ str hst (.inr hfull)
    exact ⟨_, Option.map_eq_some_iff.mpr ⟨_, halloc, rfl⟩⟩

theorem tok_ident_eq (hst : st.WF) : st.tok_ident = TOK_IDENT + st.names.length := by
  obtain ⟨hident, hallocated, -, -, -⟩ := hst
  obtain ⟨n, hn⟩ : ∃ n, st.tok_ident - TOK_IDENT = n := ⟨_, rfl⟩
  rw [hn, TOK_ALLOC_INCR] at hallocated
  rw [Idents.names, List.length_map, Idents.syms, List.length_take, hn]
  omega

theorem length_intern_le {κ : Type} [DecidableEq κ] (names : List κ) (k : κ) :
    (intern names k).length ≤ names.length + 1 := by
  rw [intern]
  split
  · omega
  · rw [List.length_append, List.length_singleton]

/-- A run goes on as long as there are numbers. -/
theorem tokens_isSome (hvalid : ∀ o ∈ os, o.Valid) (hst : st.WF)
    (hroom : st.tok_ident + os.length ≤ SYM_FIRST_ANOM) : ∃ r, tokens mem smem st os = some r := by
  induction os generalizing st with
  | nil => exact ⟨_, rfl⟩
  | cons o os ih =>
    rw [List.length_cons] at hroom
    obtain ⟨⟨tok, next⟩, htoken⟩ := @token_isSome mem smem st o (hvalid o List.mem_cons_self) hst (by omega)
    obtain ⟨hnext, hnames, -⟩ := token_spec hst htoken
    have hcount := length_intern_le st.names o.spelling
    rw [← hnames] at hcount
    have hbefore := tok_ident_eq hst
    have hafter := tok_ident_eq hnext
    obtain ⟨r, hrest⟩ := ih (fun o ho => hvalid o (List.mem_cons_of_mem _ ho)) hnext (by omega)
    exact ⟨_, Option.bind_eq_some_iff.mpr ⟨_, htoken, Option.map_eq_some_iff.mpr ⟨r, hrest, rfl⟩⟩⟩

end run

/-- Identifiers that are lexed or interned one after the other get their tokens, and two of them
    get the same token exactly when they have the same characters. -/
theorem same_token_iff (mem : Realloc TokenSym) (smem : Realloc Byte) (os : List Occurrence) :
    ((∀ o ∈ os, o.Valid) ∧ os.length ≤ SYM_FIRST_ANOM - TOK_IDENT →
        ∃ r, tokens mem smem idents_new os = some r) ∧
      ∀ toks st, tokens mem smem idents_new os = some (toks, st) → toks.length = os.length ∧
        ∀ a ∈ os.zip toks, ∀ b ∈ os.zip toks, a.2 = b.2 ↔ a.1.spelling = b.1.spelling := by
  constructor
  · rintro ⟨hvalid, hroom⟩
    refine tokens_isSome hvalid idents_new_wf ?_
    have hident : TOK_IDENT ≤ SYM_FIRST_ANOM := Nat.le_of_ble_eq_true rfl
    change TOK_IDENT + os.length ≤ SYM_FIRST_ANOM
    omega
  · intro toks st htokens
    obtain ⟨-, -, hall⟩ := tokens_spec idents_new_wf htokens
    refine ⟨hall.length_eq.symm, ?_⟩
    intro a ha b hb
    obtain ⟨hmem, htok⟩ := (List.forall₂_iff_zip.mp hall).2 ha
    obtain ⟨-, htok'⟩ := (List.forall₂_iff_zip.mp hall).2 hb
    rw [htok, htok', Nat.add_left_cancel_iff]
    exact idxOf_eq_iff hmem

/-- `ab` in one line and over two lines. -/
theorem same_token_across_splice :
    ∃ n st, tokens (filled ⟨0, []⟩) (filled 0) idents_new
      [.lexed ⟨false, true, false, false⟩ ⟨[97, 98, 32], []⟩ cstr_new,
        .lexed ⟨false, true, false, false⟩ ⟨[97, 92], [⟨[10, 98, 32], nofun⟩]⟩ cstr_new] = some ([n, n], st) := by
  obtain ⟨htotal, hsame⟩ := same_token_iff (filled ⟨0, []⟩) (filled 0)
    [.lexed ⟨false, true, false, false⟩ ⟨[97, 98, 32], []⟩ cstr_new,
      .lexed ⟨false, true, false, false⟩ ⟨[97, 92], [⟨[10, 98, 32], nofun⟩]⟩ cstr_new]
  obtain ⟨⟨toks, st⟩, htokens⟩ := htotal ⟨by
    intro o ho
    rcases List.mem_pair.mp ho with rfl | rfl
    · exact ⟨nofun, .inr (.inr (.inl ⟨by decide, .inl (by decide)⟩)), .inr (by decide), by decide⟩
    · exact ⟨nofun, .inr (.inr (.inl ⟨by decide, .inl (by decide)⟩)), .inr (by decide), by decide⟩,
    Nat.le_of_ble_eq_true rfl⟩
  obtain ⟨hlength, hiff⟩ := hsame toks st htokens
  obtain ⟨m, n, rfl⟩ := List.length_eq_two.mp hlength
  have hspelling : spelling ⟨false, true, false, false⟩ [97, 98, 32] =
      spelling ⟨false, true, false, false⟩ [97, 92, 10, 98, 32] := by decide
  have heq := (hiff _ List.mem_cons_self _ (List.mem_cons_of_mem _ List.mem_cons_self)).mpr hspelling
  dsimp only at heq
  subst heq
  exact ⟨_, _, htokens⟩

end tcc.pp
