import Tcc.Machine.Interner
import Tcc.Pp.Cstr

/-! The table of the identifiers. `hash_next` links the symbols of a bucket; a chain is the list of
    what is linked. -/

open machine.interner

namespace tcc.pp

def TOK_IDENT : Nat := 256
def SYM_FIRST_ANOM : Nat := 0x10000000
def TOK_ALLOC_INCR : Nat := 512
def TOK_HASH_SIZE : BitVec 32 := 16384
def TOK_HASH_INIT : BitVec 32 := 1

/-- A symbol; `len` is the length of `str`. -/
structure TokenSym where
  tok : Nat
  str : List Byte
deriving DecidableEq

/-- `table_ident` is what is allocated; the symbols are those before `tok_ident`. -/
structure Idents where
  hash_ident : BitVec 32 → List TokenSym
  table_ident : List TokenSym
  tok_ident : Nat

def TOK_HASH_FUNC (h : BitVec 32) (c : Byte) : BitVec 32 := h + (h <<< 5) + (h >>> 27) + c.setWidth 32

/-- The mask of the hash table. -/
def bucket (h : BitVec 32) : BitVec 32 := h &&& (TOK_HASH_SIZE - 1)

/-- The loop over a chain. -/
def find_sym (str : List Byte) : List TokenSym → Option TokenSym
  | [] => none
  | ts :: hash_next =>
    if ts.str.length = str.length ∧ ts.str.take str.length = str then some ts else find_sym str hash_next

/-- The state that `tccpp_new` starts from. -/
def idents_new : Idents := ⟨fun _ => [], [], TOK_IDENT⟩

section

variable (mem : Realloc TokenSym)

/-- `tok_alloc_new` at the end of the chain of `h`. A store behind the table has no result. -/
def tok_alloc_new (st : Idents) (h : BitVec 32) (str : List Byte) : Option (TokenSym × Idents) :=
  if SYM_FIRST_ANOM ≤ st.tok_ident then none
  else
    let i := st.tok_ident - TOK_IDENT
    let table_ident := if i % TOK_ALLOC_INCR = 0 then mem.realloc st.table_ident (i + TOK_ALLOC_INCR)
      else st.table_ident
    let ts : TokenSym := ⟨st.tok_ident, str⟩
    if i < table_ident.length then
      some (ts, {
        hash_ident := Function.update st.hash_ident h (st.hash_ident h ++ [ts])
        table_ident := table_ident.set i ts
        tok_ident := st.tok_ident + 1 })
    else none

/-- The symbol that the chain of `h` has for a string, or a new one. -/
def find_or_new (st : Idents) (h : BitVec 32) (str : List Byte) : Option (TokenSym × Idents) :=
  match find_sym str (st.hash_ident h) with
  | some ts => some (ts, st)
  | none => tok_alloc_new mem st h str

def tok_alloc (st : Idents) (str : List Byte) : Option (TokenSym × Idents) :=
  find_or_new mem st (bucket (str.foldl TOK_HASH_FUNC TOK_HASH_INIT)) str

end

/-- The symbols that were allocated. -/
def Idents.syms (st : Idents) : List TokenSym := st.table_ident.take (st.tok_ident - TOK_IDENT)

/-- Their names. -/
def Idents.names (st : Idents) : List (List Byte) := st.syms.map TokenSym.str

/-- The bucket of a name. -/
def hash_of (str : List Byte) : BitVec 32 := bucket (str.foldl TOK_HASH_FUNC TOK_HASH_INIT)

/-- What holds of the identifiers at any time. -/
structure Idents.WF (st : Idents) : Prop where
  ident_le : TOK_IDENT ≤ st.tok_ident
  allocated : st.table_ident.length = (st.tok_ident - TOK_IDENT + 511) / TOK_ALLOC_INCR * TOK_ALLOC_INCR
  chained : Chained hash_of TokenSym.str st.hash_ident st.syms
  nodup : st.names.Nodup
  numbered : ∀ ts ∈ st.syms, ts.tok = TOK_IDENT + st.names.idxOf ts.str

theorem idents_new_wf : idents_new.WF where
  ident_le := le_refl _
  allocated := rfl
  chained := fun _ => rfl
  nodup := List.nodup_nil
  numbered := fun ts hts => by cases hts

theorem find_sym_eq (str : List Byte) (chain : List TokenSym) :
    find_sym str chain = chain.find? fun ts => ts.str = str := by
  induction chain with
  | nil => rfl
  | cons ts chain ih =>
    have hsame : (ts.str.length = str.length ∧ ts.str.take str.length = str) ↔ ts.str = str := by
      constructor
      · rintro ⟨hlength, htake⟩
        rw [← hlength, List.take_length] at htake
        exact htake
      · rintro rfl
        exact ⟨rfl, List.take_length⟩
    rw [find_sym, List.find?_cons]
    by_cases heq : ts.str = str
    · rw [if_pos (hsame.mpr heq), decide_eq_true heq]
    · rw [if_neg (fun h => heq (hsame.mp h)), decide_eq_false heq, ih]

section

variable (mem : Realloc TokenSym) {st st' : Idents} {ts : TokenSym} {str : List Byte}

/-- What is found is the symbol of that name. -/
theorem Idents.WF.find_sym_iff (hst : st.WF) :
    find_sym str (st.hash_ident (hash_of str)) = some ts ↔ ts ∈ st.syms ∧ ts.str = str := by
  rw [find_sym_eq, hst.chained.find?]
  constructor
  · intro hfind
    exact ⟨List.mem_of_find?_eq_some hfind, by simpa using List.find?_some hfind⟩
  · rintro ⟨hmem, rfl⟩
    obtain ⟨found, hfind⟩ : ∃ found, st.syms.find? (fun e => e.str = ts.str) = some found := by
      rw [← Option.isSome_iff_exists, List.find?_isSome]
      exact ⟨ts, hmem, by simp⟩
    have hstr : found.str = ts.str := by simpa using List.find?_some hfind
    have hsame := List.inj_on_of_nodup_map hst.nodup (List.mem_of_find?_eq_some hfind) hmem hstr
    rw [hfind, hsame]

theorem Idents.WF.find_sym_none (hst : st.WF) :
    find_sym str (st.hash_ident (hash_of str)) = none ↔ str ∉ st.names := by
  rw [find_sym_eq, hst.chained.find?, List.find?_eq_none, Idents.names, List.mem_map]
  simp

/-- A new symbol goes to the end of the table, which has room for it. -/
theorem tok_alloc_new_spec (hst : st.WF) (hnew : str ∉ st.names) (hfull : st.tok_ident < SYM_FIRST_ANOM) :
    ∃ st', tok_alloc_new mem st (hash_of str) str = some (⟨st.tok_ident, str⟩, st') ∧ st'.WF ∧
      st'.syms = st.syms ++ [⟨st.tok_ident, str⟩] := by
  obtain ⟨hident, hallocated, hchained, hnodup, hnumbered⟩ := hst
  obtain ⟨n, hn⟩ : ∃ n, st.tok_ident - TOK_IDENT = n := ⟨_, rfl⟩
  obtain ⟨table, htable⟩ : ∃ table, (if n % TOK_ALLOC_INCR = 0 then
    mem.realloc st.table_ident (n + TOK_ALLOC_INCR) else st.table_ident) = table := ⟨_, rfl⟩
  have hsyms : st.syms = st.table_ident.take n := by rw [Idents.syms, hn]
  rw [hn, TOK_ALLOC_INCR] at hallocated
  have hlength : st.syms.length = n := by
    rw [hsyms, List.length_take]
    omega
  have hgrown : table.length = (n + 1 + 511) / 512 * 512 ∧ table.take n = st.syms := by
    rw [← htable, TOK_ALLOC_INCR, hsyms]
    by_cases hblock : n % 512 = 0
    · have hsame : st.table_ident.length = n := by omega
      have htake := mem.take_realloc st.table_ident (n + 512) (by omega)
      rw [hsame] at htake
      rw [if_pos hblock, mem.length_realloc, htake, ← hsame, List.take_length]
      exact ⟨by omega, rfl⟩
    · have hsame : (n + 1 + 511) / 512 = (n + 511) / 512 := by omega
      rw [if_neg hblock, hallocated, hsame]
      exact ⟨rfl, rfl⟩
  obtain ⟨hsize, htake⟩ := hgrown
  have hroom : n < table.length := by omega
  have hnext : st.tok_ident + 1 - TOK_IDENT = n + 1 := by omega
  have hsyms' : (table.set n ⟨st.tok_ident, str⟩).take (n + 1) = st.syms ++ [⟨st.tok_ident, str⟩] := by
    rw [List.take_succ_eq_append_getElem (by rw [List.length_set]; exact hroom), List.getElem_set_self,
      List.take_set_of_le (le_refl n), htake]
  have hnames {st' : Idents} (h : st'.syms = st.syms ++ [⟨st.tok_ident, str⟩]) : st'.names = st.names ++ [str] := by
    rw [Idents.names, h, List.map_append]
    rfl
  have hcount : st.names.length = n := by rw [Idents.names, List.length_map, hlength]
  refine ⟨⟨Function.update st.hash_ident (hash_of str) (st.hash_ident (hash_of str) ++ [⟨st.tok_ident, str⟩]),
    table.set n ⟨st.tok_ident, str⟩, st.tok_ident + 1⟩, ?_, ?_, ?_⟩
  · unfold tok_alloc_new
    rw [if_neg (Nat.not_le_of_lt hfull)]
    simp only [hn, htable]
    rw [if_pos hroom]
  · have hall : Idents.syms ⟨Function.update st.hash_ident (hash_of str)
        (st.hash_ident (hash_of str) ++ [⟨st.tok_ident, str⟩]), table.set n ⟨st.tok_ident, str⟩,
          st.tok_ident + 1⟩ = st.syms ++ [⟨st.tok_ident, str⟩] := by
      rw [Idents.syms, hnext]
      exact hsyms'
    refine ⟨Nat.le_succ_of_le hident, ?_, ?_, ?_, ?_⟩
    · rw [hnext, List.length_set]
      exact hsize
    · rw [hall]
      exact hchained.append ⟨st.tok_ident, str⟩
    · rw [hnames hall]
      have hintern := nodup_intern (k := str) hnodup
      rwa [intern, if_neg hnew] at hintern
    · rw [hall, hnames hall]
      intro ts hts
      rcases List.mem_append.mp hts with hold | hlast
      · have hmem : ts.str ∈ st.names := List.mem_map_of_mem hold
        rw [hnumbered ts hold, List.idxOf_append_of_mem hmem]
      · rw [List.mem_singleton.mp hlast, List.idxOf_append_of_notMem hnew, List.idxOf_cons_self, hcount]
        change st.tok_ident = _
        omega
  · rw [Idents.syms, hnext]
    exact hsyms'

/-- `tok_alloc` numbers the names: its symbol is where the name stands among them. -/
theorem tok_alloc_spec (hst : st.WF) (halloc : tok_alloc mem st str = some (ts, st')) :
    st'.WF ∧ st'.names = intern st.names str ∧ ts.tok = TOK_IDENT + st'.names.idxOf str := by
  change find_or_new mem st (hash_of str) str = _ at halloc
  unfold find_or_new at halloc
  by_cases hknown : str ∈ st.names
  · obtain ⟨found, hfound, hstr⟩ := List.mem_map.mp hknown
    rw [hst.find_sym_iff.mpr ⟨hfound, hstr⟩] at halloc
    cases halloc
    refine ⟨hst, by rw [intern, if_pos hknown], ?_⟩
    rw [hst.numbered _ hfound, hstr]
  · have hroom : st.tok_ident < SYM_FIRST_ANOM := by
      by_contra hfull
      rw [hst.find_sym_none.mpr hknown] at halloc
      dsimp only at halloc
      rw [tok_alloc_new, if_pos (Nat.le_of_not_lt hfull)] at halloc
      cases halloc
    obtain ⟨next, hnew, hwf, hsyms⟩ := tok_alloc_new_spec mem hst hknown hroom
    rw [hst.find_sym_none.mpr hknown] at halloc
    dsimp only at halloc
    rw [hnew] at halloc
    cases halloc
    have hnames : st'.names = st.names ++ [str] := by
      rw [Idents.names, hsyms, List.map_append]
      rfl
    refine ⟨hwf, by rw [intern, if_neg hknown, hnames], ?_⟩
    have hlast : (⟨st.tok_ident, str⟩ : TokenSym) ∈ st'.syms := by
      rw [hsyms]
      exact List.mem_append_right _ List.mem_cons_self
    exact hwf.numbered _ hlast

/-- A symbol is there for every name, up to the largest number. -/
theorem tok_alloc_isSome (hst : st.WF) (hfull : str ∈ st.names ∨ st.tok_ident < SYM_FIRST_ANOM) :
    ∃ ts st', tok_alloc mem st str = some (ts, st') := by
  change ∃ ts st', find_or_new mem st (hash_of str) str = some (ts, st')
  unfold find_or_new
  by_cases hknown : str ∈ st.names
  · obtain ⟨found, hfound, hstr⟩ := List.mem_map.mp hknown
    rw [hst.find_sym_iff.mpr ⟨hfound, hstr⟩]
    exact ⟨found, st, rfl⟩
  · obtain ⟨next, hnew, -, -⟩ := tok_alloc_new_spec mem hst hknown (hfull.resolve_left hknown)
    rw [hst.find_sym_none.mpr hknown]
    exact ⟨_, next, hnew⟩

end

end tcc.pp
