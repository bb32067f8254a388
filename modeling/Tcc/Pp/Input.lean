import Tcc.Pp.Cstr

/-! The characters of the files that are read: the buffer of a file is filled again at its end, and
    a backslash hides the line end behind it. -/

namespace tcc.pp

/-- The line splices at a position. -/
def skip_splices : List Byte → List Byte
  | 92 :: 10 :: p => skip_splices p
  | 92 :: 13 :: 10 :: p => skip_splices p
  | p => p

/-- A text without its line splices. -/
def unsplice : List Byte → List Byte
  | 92 :: 10 :: p => unsplice p
  | 92 :: 13 :: 10 :: p => unsplice p
  | c :: p => c :: unsplice p
  | [] => []

/-- The byte behind the end of a buffer. -/
def CH_EOB : Byte := 92

/-- A file from `buf_ptr` on: the rest of the buffer, and what the calls of `read` will give. -/
structure BufferedFile where
  buf : List Byte
  blocks : List {block : List Byte // block ≠ []}

namespace BufferedFile

/-- What is still to be read. -/
def text (file : BufferedFile) : List Byte := file.buf ++ (file.blocks.map Subtype.val).flatten

/-- `*buf_ptr`. -/
def peek (file : BufferedFile) : Byte := file.buf.headD CH_EOB

/-- `++buf_ptr`. -/
def step (file : BufferedFile) : BufferedFile := { file with buf := file.buf.tail }

/-- `*--buf_ptr = c`. -/
def unget (file : BufferedFile) (c : Byte) : BufferedFile := { file with buf := c :: file.buf }

/-- `CH_EOF` is `none`. -/
def handle_eob (file : BufferedFile) : Option Byte × BufferedFile :=
  match file.buf, file.blocks with
  | [], block :: blocks => (block.val.head?, ⟨block.val, blocks⟩)
  | _, _ => (file.buf.head?, file)

/-- What `next_c` does at the character that it has moved to. -/
def cur_c (file : BufferedFile) : Option Byte × BufferedFile :=
  if file.peek = CH_EOB ∧ file.buf = [] then file.handle_eob else (some file.peek, file)

def next_c (file : BufferedFile) : Option Byte × BufferedFile := file.step.cur_c

/-- `handle_stray_noerror` from the character that its first `next_c` moves to. A stray backslash
    that is an error has no result. -/
def handle_stray_noerror (err : Bool) : Nat → BufferedFile → Option (Option Byte × BufferedFile)
  | 0, _ => none
  | turns + 1, file =>
    let (ch, file) := file.cur_c
    if ch ≠ some 92 then some (ch, file)
    else
      let (ch, file) := file.next_c
      if ch = some 10 then handle_stray_noerror err turns file.step
      else if ch = some 13 then
        let (ch, file) := file.next_c
        if ch = some 10 then handle_stray_noerror err turns file.step
        else if err then none else some (some 92, (file.unget 13).unget 92)
      else if err then none else some (some 92, file.unget 92)

/-- `handle_stray`; a splice takes at least one character. -/
def handle_stray (accept : Bool) (file : BufferedFile) : Option (Option Byte × BufferedFile) :=
  file.handle_stray_noerror (!accept) (file.text.length + 1)

/-- `PEEKC` behind its increment. -/
def peekc (accept : Bool) (file : BufferedFile) : Option (Option Byte × BufferedFile) :=
  if file.peek = 92 then file.handle_stray accept else some (some file.peek, file)

end BufferedFile

/-- The first byte is no line end. -/
def NoLine (p : List Byte) : Prop := p.head? ≠ some 10 ∧ p.head? ≠ some 13

attribute [local simp] skip_splices in
theorem skip_splices_of_ne {b : Byte} {p : List Byte} (hb : b ≠ 92) : skip_splices (b :: p) = b :: p := by
  unfold skip_splices
  split
  · rename_i heq
    cases heq
    exact absurd rfl hb
  · rename_i heq
    cases heq
    exact absurd rfl hb
  · rfl

theorem skip_splices_of_noLine {p : List Byte} (hp : NoLine p) : skip_splices (92 :: p) = 92 :: p := by
  unfold skip_splices
  split
  · rename_i heq
    cases heq
    exact absurd rfl hp.1
  · rename_i heq
    cases heq
    exact absurd rfl hp.2
  · rfl


attribute [local simp] unsplice in
theorem unsplice_cons_of_ne {b : Byte} {p : List Byte} (hb : b ≠ 92) : unsplice (b :: p) = b :: unsplice p := by
  rw [unsplice]
  · intro q hq
    cases hq
    exact absurd rfl hb
  · intro q hq
    cases hq
    exact absurd rfl hb

/-- The first character behind the splices is the first one of the text without splices. -/
theorem unsplice_of_skip_splices {p q : List Byte} {c : Byte} (hskip : skip_splices p = c :: q) :
    unsplice p = c :: unsplice q := by
  induction p using skip_splices.induct with
  | case1 p ih => exact ih hskip
  | case2 p ih => exact ih hskip
  | case3 p hlf hcr =>
    rw [skip_splices] at hskip
    · subst hskip
      rw [unsplice]
      · exact fun r hc hr => hlf r (by rw [hc, hr])
      · exact fun r hc hr => hcr r (by rw [hc, hr])
    · exact hlf
    · exact hcr

theorem unsplice_skip_splices (p : List Byte) : unsplice (skip_splices p) = unsplice p := by
  induction p using skip_splices.induct with
  | case1 p ih => exact ih
  | case2 p ih => exact ih
  | case3 p hlf hcr =>
    rw [skip_splices]
    · exact hlf
    · exact hcr

theorem head?_skip_splices (p : List Byte) : (skip_splices p).head? = (unsplice p).head? := by
  rcases hskip : skip_splices p with _ | ⟨c, q⟩
  · rw [← unsplice_skip_splices, hskip]
    rfl
  · rw [unsplice_of_skip_splices hskip]
    rfl

theorem skip_splices_idem (p : List Byte) : skip_splices (skip_splices p) = skip_splices p := by
  induction p using skip_splices.induct with
  | case1 p ih => exact ih
  | case2 p ih => exact ih
  | case3 p hlf hcr =>
    have hsame : skip_splices p = p := by
      rw [skip_splices]
      · exact hlf
      · exact hcr
    rw [hsame, hsame]

theorem length_skip_splices_le (p : List Byte) : (skip_splices p).length ≤ p.length := by
  induction p using skip_splices.induct with
  | case1 p ih => exact ih.trans (Nat.le_add_right _ 2)
  | case2 p ih => exact ih.trans (Nat.le_add_right _ 3)
  | case3 p hlf hcr =>
    rw [skip_splices]
    · exact hlf
    · exact hcr

/-- The file is at a text, whose first character is in the buffer. -/
structure BufferedFile.At (file : BufferedFile) (p : List Byte) : Prop where
  text_eq : file.text = p
  head_eq : file.buf.head? = p.head?

namespace BufferedFile

variable {file : BufferedFile} {c : Byte} {p : List Byte}

theorem At.unget (hat : file.At p) (c : Byte) : (file.unget c).At (c :: p) := by
  refine ⟨?_, rfl⟩
  rw [← hat.text_eq]
  rfl

theorem At.buf_eq (hat : file.At (c :: p)) : ∃ buf, file.buf = c :: buf ∧ file.step.text = p := by
  obtain ⟨htext, hhead⟩ := hat
  obtain ⟨buf, hbuf⟩ := List.head?_eq_some_iff.mp hhead
  refine ⟨buf, hbuf, ?_⟩
  rw [text, hbuf] at htext
  rw [text, step, hbuf]
  exact (List.cons.inj htext).2

/-- The buffer is filled where it is empty and something is left to be read. -/
theorem cur_c_spec (file : BufferedFile) : ∃ g, file.cur_c = (file.text.head?, g) ∧ g.At file.text := by
  obtain ⟨buf, blocks⟩ := file
  unfold cur_c
  cases buf with
  | cons c buf => exact ⟨⟨c :: buf, blocks⟩, if_neg (fun h => by cases h.2), rfl, rfl⟩
  | nil =>
    rw [if_pos ⟨rfl, rfl⟩]
    cases blocks with
    | nil => exact ⟨⟨[], []⟩, rfl, rfl, rfl⟩
    | cons block blocks =>
      obtain ⟨block, hne⟩ := block
      obtain ⟨c, buf, rfl⟩ := List.exists_cons_of_ne_nil hne
      exact ⟨⟨c :: buf, blocks⟩, rfl, rfl, rfl⟩

theorem next_c_spec (hat : file.At (c :: p)) : ∃ g, file.next_c = (p.head?, g) ∧ g.At p := by
  obtain ⟨buf, -, htext⟩ := hat.buf_eq
  obtain ⟨g, hcur, hg⟩ := file.step.cur_c_spec
  rw [htext] at hcur hg
  exact ⟨g, hcur, hg⟩

/-- A backslash behind the splices is an error, or it is put back. -/
theorem stray_result {err : Bool} {g : BufferedFile} {q : List Byte} (hstray : skip_splices (92 :: q) = 92 :: q)
    (hg : g.At (92 :: q)) :
    ∃ f : BufferedFile, f.At (skip_splices (92 :: q)) ∧ (if err = true then none else some (some 92, g)) =
      if err = true ∧ (skip_splices (92 :: q)).head? = some 92 then none
      else some ((skip_splices (92 :: q)).head?, f) := by
  refine ⟨g, by rw [hstray]; exact hg, ?_⟩
  rw [hstray]
  cases err <;> rfl

/-- The splices are passed over; a backslash behind them is an error, or it is put back. -/
theorem handle_stray_noerror_spec (err : Bool) {turns : Nat} (hturns : file.text.length < turns) :
    ∃ g : BufferedFile, g.At (skip_splices file.text) ∧ file.handle_stray_noerror err turns =
      if err = true ∧ (skip_splices file.text).head? = some 92 then none
      else some ((skip_splices file.text).head?, g) := by
  induction turns generalizing file with
  | zero => omega
  | succ turns ih =>
    obtain ⟨g, hcur, hg⟩ := file.cur_c_spec
    obtain ⟨p, hp⟩ : ∃ p, file.text = p := ⟨_, rfl⟩
    rw [handle_stray_noerror, hcur]
    rw [hp] at hg hturns ⊢
    dsimp only
    by_cases hfirst : p.head? = some 92
    · obtain ⟨q, rfl⟩ := List.head?_eq_some_iff.mp hfirst
      obtain ⟨g₁, hnext, hg₁⟩ := next_c_spec hg
      rw [if_neg (fun h => h hfirst), hnext]
      dsimp only
      rcases q with _ | ⟨c, r⟩
      · rw [List.head?_nil, if_neg nofun, if_neg nofun]
        exact stray_result rfl (hg₁.unget 92)
      · rw [List.length_cons, List.length_cons] at hturns
        by_cases hlf : c = 10
        · subst hlf
          obtain ⟨-, -, hstep⟩ := hg₁.buf_eq
          have hrest := @ih g₁.step (by rw [hstep]; omega)
          rw [hstep] at hrest
          rw [List.head?_cons, if_pos rfl]
          exact hrest
        · rw [List.head?_cons, if_neg (fun h => hlf (Option.some.inj h))]
          by_cases hcr : c = 13
          · subst hcr
            obtain ⟨g₂, hnext₂, hg₂⟩ := next_c_spec hg₁
            rw [if_pos rfl, hnext₂]
            dsimp only
            by_cases hline : r.head? = some 10
            · obtain ⟨r, rfl⟩ := List.head?_eq_some_iff.mp hline
              rw [List.length_cons] at hturns
              obtain ⟨-, -, hstep⟩ := hg₂.buf_eq
              have hrest := @ih g₂.step (by rw [hstep]; omega)
              rw [hstep] at hrest
              rw [if_pos hline]
              exact hrest
            · rw [if_neg hline]
              refine stray_result ?_ ((hg₂.unget 13).unget 92)
              unfold skip_splices
              split
              · rename_i heq
                cases heq
              · rename_i heq
                cases heq
                exact absurd rfl hline
              · rfl
          · rw [if_neg (fun h => hcr (Option.some.inj h))]
            refine stray_result ?_ (hg₁.unget 92)
            exact skip_splices_of_noLine ⟨fun h => hlf (Option.some.inj h), fun h => hcr (Option.some.inj h)⟩
    · have hsame : skip_splices p = p := by
        cases p with
        | nil => rfl
        | cons c p => exact skip_splices_of_ne fun h => hfirst (by rw [h]; rfl)
      rw [if_pos hfirst, hsame]
      exact ⟨g, hg, (if_neg fun h => hfirst h.2).symm⟩

/-- The character behind the splices at `p`. -/
theorem peekc_spec (accept : Bool) :
    ∃ g : BufferedFile, g.At (skip_splices file.text) ∧ file.peekc accept =
      if accept = false ∧ (skip_splices file.text).head? = some 92 then none
      else some ((skip_splices file.text).head?, g) := by
  unfold peekc
  by_cases hmark : file.peek = 92
  · obtain ⟨g, hg, hstray⟩ := @handle_stray_noerror_spec file (!accept) _ (Nat.lt_succ_self _)
    have hflag : (!accept) = true ↔ accept = false := by cases accept <;> decide
    rw [if_pos hmark, handle_stray, hstray]
    simp only [hflag]
    exact ⟨g, hg, rfl⟩
  · rw [if_neg hmark]
    obtain ⟨buf, blocks⟩ := file
    cases buf with
    | nil => exact absurd rfl hmark
    | cons c buf =>
      have hc : c ≠ 92 := hmark
      have hsame : skip_splices (text ⟨c :: buf, blocks⟩) = text ⟨c :: buf, blocks⟩ := skip_splices_of_ne hc
      refine ⟨⟨c :: buf, blocks⟩, ⟨hsame.symm, by rw [hsame]; rfl⟩, ?_⟩
      rw [hsame]
      exact (if_neg fun h => hc (Option.some.inj h.2)).symm

end BufferedFile

end tcc.pp
