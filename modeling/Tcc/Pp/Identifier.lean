import Tcc.Pp.Input
import Tcc.Pp.Intern

/-! How the identifiers of a file get their tokens: the fast path over the buffer, and the path by
    a string where there is a backslash or the end of the buffer. -/

open machine.interner

namespace tcc.pp

def IS_SPC : Byte := 1
def IS_ID : Byte := 2
def IS_NUM : Byte := 4

def is_space (c : Byte) : Prop := c = 32 ∨ c = 9 ∨ c = 11 ∨ c = 12 ∨ c = 13

def isid (c : Byte) : Prop :=
  97 ≤ c.toNat ∧ c.toNat ≤ 122 ∨ 65 ≤ c.toNat ∧ c.toNat ≤ 90 ∨ c.toNat = 95

def isnum (c : Byte) : Prop := 48 ≤ c.toNat ∧ c.toNat ≤ 57

instance (c : Byte) : Decidable (is_space c) :=
  inferInstanceAs (Decidable (c = 32 ∨ c = 9 ∨ c = 11 ∨ c = 12 ∨ c = 13))

instance (c : Byte) : Decidable (isid c) := inferInstanceAs (Decidable (_ ∨ _))

instance (c : Byte) : Decidable (isnum c) := inferInstanceAs (Decidable (_ ∧ _))

/-- What the characters are read with: whether `set_idnum` has made '.' and '$' characters of
    identifiers, and two of the `parse_flags`. -/
structure Flags where
  dot : Bool
  dollar : Bool
  accept_strays : Bool
  asm_file : Bool

namespace Flags

variable (fl : Flags)

def isidnum_table (c : Byte) : Byte :=
  if c = 46 then if fl.dot then IS_ID else 0
  else if c = 36 then if fl.dollar then IS_ID else 0
  else if 128 ≤ c.toNat then IS_ID
  else if is_space c then IS_SPC
  else if isid c then IS_ID
  else if isnum c then IS_NUM
  else 0

def is_id (c : Byte) : Bool := fl.isidnum_table c &&& IS_ID ≠ 0

def is_idnum (c : Byte) : Bool := fl.isidnum_table c &&& (IS_ID ||| IS_NUM) ≠ 0

theorem is_idnum_backslash : fl.is_idnum 92 = false := by
  have htable : fl.isidnum_table 92 = 0 := by
    rw [isidnum_table, if_neg (by decide), if_neg (by decide), if_neg (by decide), if_neg (by decide),
      if_neg (by decide), if_neg (by decide)]
  rw [is_idnum, htable]
  rfl

end Flags

/-- What the lexer works on. -/
structure Lexer where
  file : BufferedFile
  idents : Idents
  tokcstr : CString

section lexer

variable (mem : Realloc TokenSym) (smem : Realloc Byte) (fl : Flags)

/-- The loop of the fast path: the hash value, the number of characters and what is left. -/
def fast_loop (h : BitVec 32) : List Byte → BitVec 32 × Nat × List Byte
  | [] => (h, 0, [])
  | c :: p =>
    if fl.is_idnum c then
      let (h, n, p) := fast_loop (TOK_HASH_FUNC h c) p
      (h, n + 1, p)
    else (h, 0, c :: p)

/-- The loop at `parse_ident_slow`; `none` is the end of the file. -/
def slow_loop : Nat → Option Byte → BufferedFile → CString → Option (BufferedFile × CString)
  | 0, _, _, _ => none
  | _ + 1, none, file, tokcstr => some (file, tokcstr)
  | turns + 1, some c, file, tokcstr =>
    if fl.is_idnum c then do
      let tokcstr ← cstr_ccat smem tokcstr c
      let (c, file) ← file.step.peekc fl.accept_strays
      slow_loop turns c file tokcstr
    else some (file, tokcstr)

def parse_ident_slow (lexer : Lexer) (c : Option Byte) : Option (Nat × Lexer) := do
  let (file, tokcstr) ← slow_loop smem fl (lexer.file.text.length + 1) c lexer.file lexer.tokcstr
  let (ts, idents) ← tok_alloc mem lexer.idents tokcstr.content
  some (ts.tok, ⟨file, idents, tokcstr⟩)

def parse_ident_fast (lexer : Lexer) : Option (Nat × Lexer) :=
  match lexer.file.buf with
  | [] => none
  | c :: p =>
    let (h, n, rest) := fast_loop fl (TOK_HASH_FUNC TOK_HASH_INIT c) p
    let file := { lexer.file with buf := rest }
    let str := (c :: p).take (n + 1)
    if file.peek ≠ 92 then do
      let (ts, idents) ← find_or_new mem lexer.idents (bucket h) str
      some (ts.tok, { lexer with file := file, idents := idents })
    else do
      let tokcstr ← cstr_cat smem (cstr_reset lexer.tokcstr) str
      let (c, file) ← file.peekc fl.accept_strays
      parse_ident_slow mem smem fl { lexer with file := file, tokcstr := tokcstr } c

/-- The cases of `next_nomacro1` that lex an identifier, at a character in the buffer. There is no
    result for the other tokens. -/
def next_ident (lexer : Lexer) : Option (Nat × Lexer) :=
  match lexer.file.buf with
  | [] => none
  | c :: _ =>
    if c = 36 then
      if fl.is_id 36 = false ∨ fl.asm_file then none else parse_ident_fast mem smem fl lexer
    else if c = 76 then
      let t := lexer.file.step.peek
      if t ≠ 92 ∧ t ≠ 39 ∧ t ≠ 34 then parse_ident_fast mem smem fl lexer
      else do
        let (c, file) ← lexer.file.step.peekc fl.accept_strays
        if c = some 39 ∨ c = some 34 then none
        else do
          let tokcstr ← cstr_ccat smem (cstr_reset lexer.tokcstr) 76
          parse_ident_slow mem smem fl { lexer with file := file, tokcstr := tokcstr } c
    else if isid c ∨ 128 ≤ c.toNat then parse_ident_fast mem smem fl lexer
    else if c = 46 then do
      let (c, file) ← lexer.file.step.peekc fl.accept_strays
      if fl.is_id 46 ∧ c.any fl.is_idnum ∧ ¬ c.any (fun c => isnum c) then
        parse_ident_fast mem smem fl { lexer with file := file.unget 46 }
      else none
    else none

end lexer

/-- The characters of the identifier at the start of a text. -/
def spelling (fl : Flags) : List Byte → List Byte
  | [] => []
  | c :: p => c :: (unsplice p).takeWhile fl.is_idnum

section spelling

variable {fl : Flags}

theorem ne_backslash {c : Byte} (hc : fl.is_idnum c = true) : c ≠ 92 := by
  rintro rfl
  rw [fl.is_idnum_backslash] at hc
  cases hc

/-- The fast loop takes the characters of identifiers, and hashes them. -/
theorem fast_loop_spec (h : BitVec 32) (buf : List Byte) :
    ∃ taken rest, buf = taken ++ rest ∧ fast_loop fl h buf = (taken.foldl TOK_HASH_FUNC h, taken.length, rest) ∧
      (∀ c ∈ taken, fl.is_idnum c = true) ∧ ∀ c ∈ rest.head?, fl.is_idnum c = false := by
  induction buf generalizing h with
  | nil => exact ⟨[], [], rfl, rfl, by simp, by simp⟩
  | cons c buf ih =>
    by_cases hc : fl.is_idnum c = true
    · obtain ⟨taken, rest, hbuf, hloop, htaken, hrest⟩ := ih (TOK_HASH_FUNC h c)
      refine ⟨c :: taken, rest, by rw [hbuf, List.cons_append], ?_, ?_, hrest⟩
      · rw [fast_loop, if_pos hc, hloop]
        rfl
      · intro d hd
        rcases List.mem_cons.mp hd with rfl | hd
        · exact hc
        · exact htaken d hd
    · refine ⟨[], c :: buf, rfl, ?_, by simp, ?_⟩
      · rw [fast_loop, if_neg hc]
        rfl
      · intro d hd
        cases hd
        simpa using hc

/-- Characters of identifiers are no splices. -/
theorem unsplice_append {taken : List Byte} (htaken : ∀ c ∈ taken, fl.is_idnum c = true) (p : List Byte) :
    unsplice (taken ++ p) = taken ++ unsplice p := by
  induction taken with
  | nil => rfl
  | cons c taken ih =>
    have hc := ne_backslash (htaken c List.mem_cons_self)
    rw [List.cons_append, unsplice_cons_of_ne hc, ih fun d hd => htaken d (List.mem_cons_of_mem c hd),
      List.cons_append]

end spelling

section lexer

variable {mem : Realloc TokenSym} {smem : Realloc Byte} {fl : Flags}

/-- The loop of the slow path adds the characters of the identifier that are left. -/
theorem slow_loop_spec {turns : Nat} {file file' : BufferedFile} {tokcstr tokcstr' : CString} {p : List Byte}
    (hat : file.At p) (hspliced : skip_splices p = p) (hturns : p.length < turns)
    (hloop : slow_loop smem fl turns p.head? file tokcstr = some (file', tokcstr')) :
    tokcstr'.content = tokcstr.content ++ (unsplice p).takeWhile fl.is_idnum := by
  induction turns generalizing file tokcstr p with
  | zero => omega
  | succ turns ih =>
    rcases p with _ | ⟨c, q⟩
    · cases hloop
      rw [unsplice, List.takeWhile_nil, List.append_nil]
    · rw [unsplice_of_skip_splices hspliced]
      rw [List.head?_cons, slow_loop] at hloop
      by_cases hc : fl.is_idnum c = true
      · rw [if_pos hc] at hloop
        obtain ⟨grown, hccat, hloop⟩ := Option.bind_eq_some_iff.mp hloop
        obtain ⟨⟨d, next⟩, hpeekc, hloop⟩ := Option.bind_eq_some_iff.mp hloop
        obtain ⟨-, -, hstep⟩ := hat.buf_eq
        obtain ⟨g, hg, hresult⟩ := file.step.peekc_spec fl.accept_strays
        rw [hstep] at hg hresult
        rw [hresult] at hpeekc
        split at hpeekc
        · cases hpeekc
        · cases hpeekc
          have hlength := length_skip_splices_le q
          rw [List.length_cons] at hturns
          have hrest := ih hg (skip_splices_idem q) (by omega) hloop
          rw [hrest, (cstr_append_spec smem tokcstr [c]).2 grown hccat, unsplice_skip_splices,
            List.takeWhile_cons_of_pos hc, List.append_assoc, List.singleton_append]
      · rw [if_neg hc] at hloop
        cases hloop
        rw [List.takeWhile_cons_of_neg hc, List.append_nil]

/-- The slow path gives the token of what it has and of the characters that are left. -/
theorem parse_ident_slow_spec {lexer : Lexer} {p : List Byte} {r : Nat × Lexer} (hat : lexer.file.At p)
    (hspliced : skip_splices p = p) (hslow : parse_ident_slow mem smem fl lexer p.head? = some r) :
    ∃ ts, tok_alloc mem lexer.idents (lexer.tokcstr.content ++ (unsplice p).takeWhile fl.is_idnum) =
      some (ts, r.2.idents) ∧ r.1 = ts.tok := by
  obtain ⟨⟨file, tokcstr⟩, hloop, hslow⟩ := Option.bind_eq_some_iff.mp hslow
  obtain ⟨⟨ts, idents⟩, halloc, hslow⟩ := Option.bind_eq_some_iff.mp hslow
  cases hslow
  have hcontent := slow_loop_spec hat hspliced (by rw [hat.text_eq]; exact Nat.lt_succ_self _) hloop
  rw [← hcontent]
  exact ⟨ts, halloc, rfl⟩

/-- The fast path gives the token of the whole identifier, wherever it leaves the buffer. -/
theorem parse_ident_fast_spec {lexer : Lexer} {c : Byte} {p : List Byte} {r : Nat × Lexer}
    (hat : lexer.file.At (c :: p)) (hfast : parse_ident_fast mem smem fl lexer = some r) :
    ∃ ts, tok_alloc mem lexer.idents (spelling fl (c :: p)) = some (ts, r.2.idents) ∧ r.1 = ts.tok := by
  obtain ⟨⟨buf, blocks⟩, idents, tokcstr⟩ := lexer
  obtain ⟨buf, rfl, hp⟩ := hat.buf_eq
  obtain ⟨taken, rest, rfl, hloop, htaken, hrest⟩ := fast_loop_spec (TOK_HASH_FUNC TOK_HASH_INIT c) buf
  obtain ⟨left, hleft⟩ : ∃ left, BufferedFile.text ⟨rest, blocks⟩ = left := ⟨_, rfl⟩
  have hsplit : p = taken ++ left := by
    rw [← hp, ← hleft]
    exact List.append_assoc _ _ _
  have hspelling : spelling fl (c :: p) = c :: taken ++ (unsplice left).takeWhile fl.is_idnum := by
    rw [spelling, hsplit, unsplice_append htaken, List.takeWhile_append_of_pos htaken, List.cons_append]
  have hstr : (c :: (taken ++ rest)).take (taken.length + 1) = c :: taken := by
    rw [List.take_succ_cons, List.take_left]
  unfold parse_ident_fast at hfast
  simp only [hloop, hstr] at hfast
  by_cases hmark : BufferedFile.peek ⟨rest, blocks⟩ = 92
  · rw [if_neg (fun h => h hmark)] at hfast
    obtain ⟨grown, hcat, hfast⟩ := Option.bind_eq_some_iff.mp hfast
    obtain ⟨⟨d, file⟩, hpeekc, hfast⟩ := Option.bind_eq_some_iff.mp hfast
    obtain ⟨g, hg, hresult⟩ := @BufferedFile.peekc_spec ⟨rest, blocks⟩ fl.accept_strays
    rw [hleft] at hg hresult
    rw [hresult] at hpeekc
    split at hpeekc
    · cases hpeekc
    · cases hpeekc
      have hcontent := (cstr_append_spec smem (cstr_reset tokcstr) (c :: taken)).2 grown hcat
      obtain ⟨ts, halloc, htok⟩ := parse_ident_slow_spec hg (skip_splices_idem left) hfast
      rw [hcontent, unsplice_skip_splices] at halloc
      rw [hspelling]
      exact ⟨ts, halloc, htok⟩
  · rw [if_pos hmark] at hfast
    obtain ⟨⟨ts, idents'⟩, halloc, hfast⟩ := Option.bind_eq_some_iff.mp hfast
    cases hfast
    obtain ⟨d, rest, rfl⟩ : ∃ d tail, rest = d :: tail := by
      cases rest with
      | nil => exact absurd rfl hmark
      | cons d tail => exact ⟨d, tail, rfl⟩
    have hne : d ≠ 92 := hmark
    have hd : ¬ fl.is_idnum d = true := by simp [hrest d rfl]
    have hnone : (unsplice left).takeWhile fl.is_idnum = [] := by
      rw [← hleft, BufferedFile.text, List.cons_append, unsplice_cons_of_ne hne, List.takeWhile_cons_of_neg hd]
    rw [hspelling, hnone, List.append_nil]
    exact ⟨ts, halloc, rfl⟩

/-- An identifier gets the token of its spelling, on every path. -/
theorem next_ident_spec {lexer : Lexer} {r : Nat × Lexer} (hident : next_ident mem smem fl lexer = some r) :
    ∃ ts, tok_alloc mem lexer.idents (spelling fl lexer.file.text) = some (ts, r.2.idents) ∧ r.1 = ts.tok := by
  obtain ⟨⟨buf, blocks⟩, idents, tokcstr⟩ := lexer
  cases buf with
  | nil => cases hident
  | cons c buf =>
    obtain ⟨p, hp⟩ : ∃ p, BufferedFile.text ⟨c :: buf, blocks⟩ = c :: p := ⟨_, rfl⟩
    have hat : BufferedFile.At ⟨c :: buf, blocks⟩ (c :: p) := ⟨hp, rfl⟩
    obtain ⟨-, -, hstep⟩ := hat.buf_eq
    have hfast : ∀ {r}, parse_ident_fast mem smem fl ⟨⟨c :: buf, blocks⟩, idents, tokcstr⟩ = some r →
        ∃ ts, tok_alloc mem idents (spelling fl (c :: p)) = some (ts, r.2.idents) ∧ r.1 = ts.tok :=
      fun h => @parse_ident_fast_spec mem smem fl ⟨⟨c :: buf, blocks⟩, idents, tokcstr⟩ _ _ _ hat h
    obtain ⟨g, hg, hresult⟩ :=
      @BufferedFile.peekc_spec (BufferedFile.step ⟨c :: buf, blocks⟩) fl.accept_strays
    rw [hstep] at hg hresult
    rw [hp]
    unfold next_ident at hident
    dsimp only at hident
    by_cases hdollar : c = 36
    · rw [if_pos hdollar] at hident
      split at hident
      · cases hident
      · exact hfast hident
    · rw [if_neg hdollar] at hident
      by_cases hwide : c = 76
      · rw [if_pos hwide] at hident
        split at hident
        · exact hfast hident
        · obtain ⟨⟨d, file⟩, hpeekc, hident⟩ := Option.bind_eq_some_iff.mp hident
          rw [hresult] at hpeekc
          split at hpeekc
          · cases hpeekc
          cases hpeekc
          dsimp only at hident
          split at hident
          · cases hident
          obtain ⟨grown, hccat, hident⟩ := Option.bind_eq_some_iff.mp hident
          have hcontent := (cstr_append_spec smem (cstr_reset tokcstr) [76]).2 grown hccat
          obtain ⟨ts, halloc, htok⟩ := parse_ident_slow_spec hg (skip_splices_idem p) hident
          rw [hcontent, unsplice_skip_splices] at halloc
          rw [spelling, hwide]
          exact ⟨ts, halloc, htok⟩
      · rw [if_neg hwide] at hident
        split at hident
        · exact hfast hident
        · by_cases hdot : c = 46
          · rw [if_pos hdot] at hident
            obtain ⟨⟨d, file⟩, hpeekc, hident⟩ := Option.bind_eq_some_iff.mp hident
            rw [hresult] at hpeekc
            split at hpeekc
            · cases hpeekc
            cases hpeekc
            dsimp only at hident
            split at hident
            · obtain ⟨ts, halloc, htok⟩ := parse_ident_fast_spec (hg.unget 46) hident
              rw [spelling, unsplice_skip_splices] at halloc
              rw [spelling, hdot]
              exact ⟨ts, halloc, htok⟩
            · cases hident
          · rw [if_neg hdot] at hident
            cases hident

end lexer

end tcc.pp
