import Mathlib.Data.List.TakeWhile
import Tcc.Pp.Identifier
import Tcc.Pp.Stringize

/-! The pasting of tokens. A token string is the list of its tokens, as `TOK_GET` gives them, where
    numbers and strings are those of the preprocessor; a spelling has no line breaks, so that no
    lines are spliced in it. -/

namespace tcc.pp.paste

inductive Token where
  | ident (str : List Byte)
  | ppnum (data : List Byte)
  | ppstr (data : List Byte)
  | op (v : Nat)
  deriving DecidableEq

def TOK_LAND : Nat := 0x90
def TOK_LOR : Nat := 0x91
def TOK_EQ : Nat := 0x94
def TOK_NE : Nat := 0x95
def TOK_LT : Nat := 0x9c
def TOK_GE : Nat := 0x9d
def TOK_LE : Nat := 0x9e
def TOK_GT : Nat := 0x9f
def TOK_DEC : Nat := 0x80
def TOK_INC : Nat := 0x82
def TOK_SHL : Nat := 60
def TOK_SAR : Nat := 62
def TOK_ARROW : Nat := 0xa0
def TOK_DOTS : Nat := 0xa1
def TOK_TWODOTS : Nat := 0xa2
def TOK_TWOSHARPS : Nat := 0xa3
def TOK_A_ADD : Nat := 0xb0
def TOK_A_SUB : Nat := 0xb1
def TOK_A_MUL : Nat := 0xb2
def TOK_A_DIV : Nat := 0xb3
def TOK_A_MOD : Nat := 0xb4
def TOK_A_AND : Nat := 0xb5
def TOK_A_OR : Nat := 0xb6
def TOK_A_XOR : Nat := 0xb7
def TOK_A_SHL : Nat := 0xb8
def TOK_A_SAR : Nat := 0xb9

def TOK_PLCHLDR : Token := .op 0xa4
def TOK_NOSUBST : Token := .op 0xa5
def TOK_PPJOIN : Token := .op 0xa6

def tok_two_chars : List (Byte × Byte × Nat) :=
  [(60, 61, TOK_LE), (62, 61, TOK_GE), (33, 61, TOK_NE), (38, 38, TOK_LAND), (124, 124, TOK_LOR),
    (43, 43, TOK_INC),
    (45, 45, TOK_DEC), (61, 61, TOK_EQ), (60, 60, TOK_SHL), (62, 62, TOK_SAR), (43, 61, TOK_A_ADD),
    (45, 61, TOK_A_SUB), (42, 61, TOK_A_MUL), (47, 61, TOK_A_DIV), (37, 61, TOK_A_MOD), (38, 61, TOK_A_AND),
    (94, 61, TOK_A_XOR), (124, 61, TOK_A_OR), (45, 62, TOK_ARROW), (46, 46, TOK_TWODOTS),
    (35, 35, TOK_TWOSHARPS),
    (35, 35, 0xa6)]

def hex_digit (n : Nat) : Byte := BitVec.ofNat 8 (if n < 10 then 48 + n else 87 + n)

def get_tok_str : Token → List Byte
  | .ident str => str
  | .ppnum data => data
  | .ppstr data => data
  | .op v =>
    if v = TOK_LT then [60]
    else if v = TOK_GT then [62]
    else if v = TOK_DOTS then [46, 46, 46]
    else if v = TOK_A_SHL then [60, 60, 61]
    else if v = TOK_A_SAR then [62, 62, 61]
    else
      match tok_two_chars.find? (·.2.2 = v) with
      | some (c, d, _) => [c, d]
      | none => if 127 ≤ v then [60, hex_digit (v / 16), hex_digit (v % 16), 62] else [BitVec.ofNat 8 v]

section lexer

variable (fl : Flags)

def num_char (data : List Byte) (t c : Byte) : Prop :=
  fl.is_idnum c = true ∨ c = 46 ∨ (c = 43 ∨ c = 45) ∧
    ((t = 101 ∨ t = 69) ∧ ¬(fl.asm_file = true ∧ data.getD 0 0 = 48 ∧
    (data.getD 1 0 = 120 ∨ data.getD 1 0 = 88)) ∨
      t = 112 ∨ t = 80)

instance (data : List Byte) (t c : Byte) : Decidable (num_char fl data t c) := inferInstanceAs
    (Decidable (_ ∨ _))

/-- The loop over the characters of a number, where `t` is the last one that was added. -/
def parse_num (data : List Byte) (t : Byte) : List Byte → List Byte × List Byte
  | [] => (data, [])
  | c :: p => if num_char fl data t c then parse_num (data ++ [c]) c p else (data, c :: p)

def parse_ident (c : Byte) (p : List Byte) : Token × List Byte :=
  (.ident (c :: p.takeWhile fl.is_idnum), p.dropWhile fl.is_idnum)

def str_const (start : List Byte) (sep : Byte) (p : List Byte) : Option (Token × List Byte) :=
  (parse_pp_string sep (p.length + 1) p).map fun (str, rest) => (.ppstr (start ++ sep :: str ++ [sep]), rest)

/-- The characters that an identifier can begin with, besides a dot. -/
def ident_start (c : Byte) : Prop :=
  isid c ∨ 128 ≤ c.toNat ∨ c = 36 ∧ fl.dollar = true ∧ fl.asm_file = false

instance (c : Byte) : Decidable (ident_start fl c) := inferInstanceAs (Decidable (_ ∨ _))

/-- A token of one character, or of two where the second one is in a list. -/
def PARSE2 (tok : Nat) (alts : List (Byte × Nat)) : List Byte → Token × List Byte
  | [] => (.op tok, [])
  | c :: p =>
    match alts.find? (·.1 = c) with
    | some (_, tok2) => (.op tok2, p)
    | none => (.op tok, c :: p)

def dot (p : List Byte) : Token × List Byte :=
  match p with
  | [] => (.op 46, [])
  | c :: q =>
    if isnum c then
      let (data, rest) := parse_num fl [46, c] c q
      (.ppnum data, rest)
    else if fl.is_id 46 ∧ fl.is_idnum c then parse_ident fl 46 p
    else if c = 46 then
      match q with
      | d :: rest => if d = 46 then (.op TOK_DOTS, rest) else (.op 46, p)
      | [] => (.op 46, p)
    else (.op 46, p)

/-- An operator. A comment and a character that no token begins with give no token. -/
def operator (c : Byte) (p : List Byte) : Option (Token × List Byte) :=
  match c.toNat with
  | 60 =>
    if p.head? = some 60 then some (PARSE2 TOK_SHL [(61, TOK_A_SHL)] p.tail)
    else some (PARSE2 TOK_LT [(61, TOK_LE)] p)
  | 62 =>
    if p.head? = some 62 then some (PARSE2 TOK_SAR [(61, TOK_A_SAR)] p.tail)
    else some (PARSE2 TOK_GT [(61, TOK_GE)] p)
  | 38 => some (PARSE2 38 [(38, TOK_LAND), (61, TOK_A_AND)] p)
  | 124 => some (PARSE2 124 [(124, TOK_LOR), (61, TOK_A_OR)] p)
  | 43 => some (PARSE2 43 [(43, TOK_INC), (61, TOK_A_ADD)] p)
  | 45 => some (PARSE2 45 [(45, TOK_DEC), (61, TOK_A_SUB), (62, TOK_ARROW)] p)
  | 33 => some (PARSE2 33 [(61, TOK_NE)] p)
  | 61 => some (PARSE2 61 [(61, TOK_EQ)] p)
  | 42 => some (PARSE2 42 [(61, TOK_A_MUL)] p)
  | 37 => some (PARSE2 37 [(61, TOK_A_MOD)] p)
  | 94 => some (PARSE2 94 [(61, TOK_A_XOR)] p)
  | 47 => if p.head? = some 42 ∨ p.head? = some 47 then none else some (PARSE2 47 [(61, TOK_A_DIV)] p)
  | 35 =>
    if p.head? = some 35 then some (.op TOK_TWOSHARPS, p.tail)
    else if fl.asm_file then none
    else some (.op 35, p)
  | c =>
    if c ∈ [36, 40, 41, 91, 93, 123, 125, 44, 59, 58, 63, 126, 64] ∨ fl.asm_file then some
      (.op c, p) else none

/-- `next_nomacro1` where `tok_flags` is 0; `spaces` is `PARSE_FLAG_SPACES`. -/
def next_nomacro1 (spaces : Bool) (buf_ptr : List Byte) : Option (Token × List Byte) :=
  match buf_ptr.dropWhile (fun c => decide (is_space c) && (!spaces || (c != 32 && c != 9))) with
  | [] => none
  | c :: p =>
    if c = 32 ∨ c = 9 then some (.op c.toNat, p)
    else if c = 76 ∧ (p.head? = some 39 ∨ p.head? = some 34) then str_const [76] (p.headD 0) p.tail
    else if ident_start fl c then some (parse_ident fl c p)
    else if isnum c then
      let (data, rest) := parse_num fl [c] c p
      some (.ppnum data, rest)
    else if c = 46 then some (dot fl p)
    else if c = 39 ∨ c = 34 then str_const [] c p
    else operator fl c p

end lexer

section paste

variable (fl : Flags) (spaces : Bool)

/-- What a token adds to the text that is read again. -/
def spelling (t : Token) : List Byte := if t = TOK_PLCHLDR then [] else get_tok_str t

def is_space_tok : Token → Bool
  | .op v => v = 32 || v = 9 || v = 11 || v = 12 || v = 13
  | _ => false

/-- The loop of `paste_tokens`: whether one token was read up to the NUL, and the last token. -/
def paste_loop : Nat → List Byte → Option (Bool × Token)
  | 0, _ => none
  | fuel + 1, buf_ptr =>
    match next_nomacro1 fl spaces buf_ptr with
    | none => none
    | some (tok, rest) =>
      if rest.headD 0 = 0 then some (true, tok)
      else if is_space_tok tok then paste_loop fuel rest
      else some (false, tok)

def paste_tokens (t1 t2 : Token) : Option (Bool × Token) :=
  let cstr := spelling t1 ++ spelling t2 ++ [0]
  paste_loop fl spaces cstr.length cstr

/-- `while (*ptr == TOK_PPJOIN)`: the token before, the tokens from `ptr` on and `macro_str1`. -/
def joins (start_of_nosubsts : Option Nat) : Nat → Token → List Token → List Token →
    Option (Token × List Token × List Token)
  | 0, _, _, _ => none
  | fuel + 1, t, ptr, macro_str1 =>
    match ptr with
    | [] => some (t, [], macro_str1)
    | t0 :: ptr =>
      if t0 = TOK_PPJOIN then
        -- given 'a##b', remove nosubsts preceding 'a'
        let macro_str1 := match start_of_nosubsts with
          | some len => macro_str1.take len
          | none => macro_str1
        -- given 'a##b', remove nosubsts preceding 'b'
        match ptr.dropWhile (· = TOK_NOSUBST) with
        | [] => some (t, [], macro_str1)
        | t1 :: ptr =>
          if t1 = TOK_PPJOIN then joins start_of_nosubsts fuel t (t1 :: ptr) macro_str1
          else if t ≠ TOK_PLCHLDR ∨ t1 ≠ TOK_PLCHLDR then
            match paste_tokens fl spaces t t1 with
            | none => none
            | some (true, tok) => joins start_of_nosubsts fuel tok ptr macro_str1
            | some (false, _) => joins start_of_nosubsts fuel t1 ptr (macro_str1 ++ [t])
          else joins start_of_nosubsts fuel t ptr macro_str1
      else some (t, t0 :: ptr, macro_str1)

def twosharps : Nat → Option Nat → List Token → List Token → Option (List Token)
  | 0, _, _, _ => none
  | fuel + 1, start_of_nosubsts, ptr, macro_str1 =>
    match ptr with
    | [] => some macro_str1
    | t :: ptr =>
      if t = TOK_PPJOIN then twosharps fuel start_of_nosubsts ptr macro_str1
      else
        match joins fl spaces start_of_nosubsts (fuel + 1) t ptr macro_str1 with
        | none => none
        | some (t, ptr, macro_str1) =>
          let start_of_nosubsts :=
            if t = TOK_NOSUBST then start_of_nosubsts.or (some macro_str1.length) else none
          twosharps fuel start_of_nosubsts ptr (macro_str1 ++ [t])

/-- `macro_twosharps`; the inner `none` is the NULL for a string without a `##`. -/
def macro_twosharps (ptr0 : List Token) : Option (Option (List Token)) :=
  if TOK_PPJOIN ∈ ptr0 then (twosharps fl spaces (ptr0.length + 1) none ptr0 []).map some else some none

end paste

section grammar

variable (fl : Flags)

/-- The rest of a preprocessing number. -/
def num_tail (data : List Byte) (t : Byte) : List Byte → Prop
  | [] => True
  | c :: cs => num_char fl data t c ∧ num_tail (data ++ [c]) c cs

/-- The characters between two quotes. -/
inductive Quoted (sep : Byte) : List Byte → Prop where
  | nil : Quoted sep []
  | plain {c : Byte} {cs : List Byte} (hc : c ∉ [0, 10, 13, 92]) (hsep : c ≠ sep) (hcs : Quoted sep cs) :
    Quoted sep (c :: cs)
  | escaped {c : Byte} {cs : List Byte} (hc : c ∉ [0, 10, 13]) (hcs : Quoted sep cs) :
    Quoted sep (92 :: c :: cs)

/-- The punctuators, without those of dots and `#`. -/
def puncts : List (List Byte × Nat) :=
  [([91], 91), ([93], 93), ([40], 40), ([41], 41), ([123], 123), ([125], 125), ([45, 62], TOK_ARROW),
    ([43, 43], TOK_INC), ([45, 45], TOK_DEC), ([38], 38), ([42], 42), ([43], 43), ([45], 45), ([126], 126),
    ([33], 33),
    ([47], 47), ([37], 37), ([60, 60], TOK_SHL), ([62, 62], TOK_SAR), ([60], TOK_LT), ([62], TOK_GT),
    ([60, 61], TOK_LE), ([62, 61], TOK_GE), ([61, 61], TOK_EQ), ([33, 61], TOK_NE), ([94], 94), ([124], 124),
    ([38, 38], TOK_LAND), ([124, 124], TOK_LOR), ([63], 63), ([58], 58), ([59], 59), ([61], 61),
    ([42, 61], TOK_A_MUL),
    ([47, 61], TOK_A_DIV), ([37, 61], TOK_A_MOD), ([43, 61], TOK_A_ADD), ([45, 61], TOK_A_SUB),
    ([60, 60, 61], TOK_A_SHL), ([62, 62, 61], TOK_A_SAR), ([38, 61], TOK_A_AND), ([94, 61], TOK_A_XOR),
    ([124, 61], TOK_A_OR), ([44], 44), ([35, 35], TOK_TWOSHARPS), ([64], 64)]

/-- A text that is one preprocessing token, and the token. -/
inductive PpToken : List Byte → Token → Prop where
  | ident {c : Byte} {cs : List Byte} (hc : ident_start fl c) (hcs : ∀ d ∈ cs, fl.is_idnum d = true) :
    PpToken (c :: cs) (.ident (c :: cs))
  | dot_ident {c : Byte} {cs : List Byte} (hdot : fl.is_id 46 = true) (hc : ¬isnum c)
      (hcs : ∀ d ∈ c :: cs, fl.is_idnum d = true) : PpToken (46 :: c :: cs) (.ident (46 :: c :: cs))
  | num {c : Byte} {cs : List Byte} (hc : isnum c) (hcs : num_tail fl [c] c cs) :
    PpToken (c :: cs) (.ppnum (c :: cs))
  | dot_num {c : Byte} {cs : List Byte} (hc : isnum c) (hcs : num_tail fl [46, c] c cs) :
    PpToken (46 :: c :: cs) (.ppnum (46 :: c :: cs))
  | str {sep : Byte} {cs : List Byte} (hsep : sep = 39 ∨ sep = 34) (hcs : Quoted sep cs) :
    PpToken (sep :: cs ++ [sep]) (.ppstr (sep :: cs ++ [sep]))
  | wide {sep : Byte} {cs : List Byte} (hsep : sep = 39 ∨ sep = 34) (hcs : Quoted sep cs) :
    PpToken (76 :: sep :: cs ++ [sep]) (.ppstr (76 :: sep :: cs ++ [sep]))
  | punct {text : List Byte} {v : Nat} (h : (text, v) ∈ puncts) : PpToken text (.op v)
  | dot : PpToken [46] (.op 46)
  | dots (hdot : fl.is_id 46 = false) : PpToken [46, 46, 46] (.op TOK_DOTS)
  | hash (hasm : fl.asm_file = false) : PpToken [35] (.op 35)

end grammar

section read

variable {fl : Flags} {spaces : Bool}

theorem is_idnum_false {c : Byte} (hdot : c ≠ 46) (hdollar : c ≠ 36) (hlt : c.toNat < 128) (hid : ¬isid c)
    (hnum : ¬isnum c) : fl.is_idnum c = false := by
  have hor (b : Byte) (hb : b = IS_SPC ∨ b = 0) : decide (b &&& (IS_ID ||| IS_NUM) ≠ 0) = false := by
    rcases hb with rfl | rfl <;> rfl
  have htable : fl.isidnum_table c = IS_SPC ∨ fl.isidnum_table c = 0 := by
    rw [Flags.isidnum_table, if_neg hdot, if_neg hdollar, if_neg (by omega), if_neg hid, if_neg hnum]
    split
    · exact Or.inl rfl
    · exact Or.inr rfl
  exact hor _ htable

theorem is_idnum_nul : fl.is_idnum 0 = false := is_idnum_false (by decide) (by decide) (by decide)
    (by decide) (by decide)

theorem next_nomacro1_cons {c : Byte} {p : List Byte} (hc : ¬is_space c) : next_nomacro1 fl spaces (c :: p) =
    if c = 32 ∨ c = 9 then some (.op c.toNat, p)
    else if c = 76 ∧ (p.head? = some 39 ∨ p.head? = some 34) then str_const [76] (p.headD 0) p.tail
    else if ident_start fl c then some (parse_ident fl c p)
    else if isnum c then some (.ppnum (parse_num fl [c] c p).1, (parse_num fl [c] c p).2)
    else if c = 46 then some (dot fl p)
    else if c = 39 ∨ c = 34 then str_const [] c p
    else operator fl c p := by
  have hdrop : (c :: p).dropWhile
    (fun c => decide (is_space c) && (!spaces || (c != 32 && c != 9))) = c :: p := by
    rw [List.dropWhile_cons_of_neg]
    simp [hc]
  rw [next_nomacro1, hdrop]

theorem not_is_space_of {c : Byte} (h : c.toNat ≠ 32) (hlow : c.toNat < 9 ∨ 13 < c.toNat) : ¬is_space c := by
  rw [is_space]
  rintro (rfl | rfl | rfl | rfl | rfl)
  · exact h rfl
  all_goals simp at hlow

theorem ident_start_range {c : Byte} (h : ident_start fl c) :
    c.toNat = 36 ∨ 65 ≤ c.toNat ∧ c.toNat ≤ 90 ∨ c.toNat = 95 ∨ 97 ≤ c.toNat := by
  rcases h with h | h | ⟨rfl, -⟩
  · rcases h with h | h | h <;> omega
  · omega
  · exact Or.inl rfl

theorem ne_of_toNat {c d : Byte} (h : c.toNat ≠ d.toNat) : c ≠ d := fun heq => h (congrArg BitVec.toNat heq)

theorem takeWhile_idnum {cs : List Byte} (hcs : ∀ d ∈ cs, fl.is_idnum d = true) :
    (cs ++ [0]).takeWhile fl.is_idnum = cs ∧ (cs ++ [0]).dropWhile fl.is_idnum = [0] := by
  have hnul : ([0] : List Byte).takeWhile fl.is_idnum = [] ∧
    ([0] : List Byte).dropWhile fl.is_idnum = [0] := by
    constructor
    · exact List.takeWhile_cons_of_neg (by rw [is_idnum_nul]; decide)
    · exact List.dropWhile_cons_of_neg (by rw [is_idnum_nul]; decide)
  rw [List.takeWhile_append_of_pos hcs, List.dropWhile_append_of_pos hcs, hnul.1, hnul.2, List.append_nil]
  exact ⟨rfl, rfl⟩

theorem head?_idnum {cs : List Byte} (hcs : ∀ d ∈ cs, fl.is_idnum d = true) :
    ¬((cs ++ [0]).head? = some 39 ∨ (cs ++ [0]).head? = some 34) := by
  have hquote : fl.is_idnum 39 = false ∧ fl.is_idnum 34 = false :=
    ⟨is_idnum_false (by decide) (by decide) (by decide) (by decide) (by decide),
      is_idnum_false (by decide) (by decide) (by decide) (by decide) (by decide)⟩
  cases cs with
  | nil => decide
  | cons d cs =>
    have hd := hcs d List.mem_cons_self
    rintro (h | h)
    · obtain rfl := Option.some.inj h
      rw [hquote.1] at hd
      cases hd
    · obtain rfl := Option.some.inj h
      rw [hquote.2] at hd
      cases hd

theorem not_num_char_nul (data : List Byte) (t : Byte) : ¬num_char fl data t 0 := by
  rintro (h | h | ⟨h | h, -⟩)
  · rw [is_idnum_nul] at h
    cases h
  · cases h
  · cases h
  · cases h

theorem parse_num_tail {data : List Byte} {t : Byte} {cs : List Byte} (h : num_tail fl data t cs) :
    parse_num fl data t (cs ++ [0]) = (data ++ cs, [0]) := by
  induction cs generalizing data t with
  | nil =>
    rw [List.nil_append, parse_num, if_neg (not_num_char_nul data t), List.append_nil]
  | cons c cs ih =>
    rw [List.cons_append, parse_num, if_pos h.1, ih h.2, List.append_assoc, List.singleton_append]

theorem Quoted.noLine {sep : Byte} {cs : List Byte} (h : Quoted sep cs) (hsep : sep = 39 ∨ sep = 34)
    (rest : List Byte) :
    NoLine (cs ++ sep :: rest) := by
  cases h with
  | nil => rcases hsep with rfl | rfl <;> exact ⟨by simp, by simp⟩
  | plain hc _ _ =>
    simp only [List.mem_cons, not_or] at hc
    exact ⟨fun heq => hc.2.1 (Option.some.inj heq), fun heq => hc.2.2.1 (Option.some.inj heq)⟩
  | escaped _ _ => exact ⟨by simp, by simp⟩

theorem parse_pp_string_quoted {sep : Byte} {cs : List Byte} (h : Quoted sep cs) (hsep : sep = 39 ∨ sep = 34)
    {turns : Nat} (hturns : cs.length < turns) (rest : List Byte) :
    parse_pp_string sep turns (cs ++ sep :: rest) = some (cs, rest) := by
  have hnot : sep ≠ 92 := by rcases hsep with rfl | rfl <;> decide
  induction h generalizing turns with
  | nil =>
    obtain ⟨turns, rfl⟩ : ∃ n, turns = n + 1 := ⟨turns - 1, by simp at hturns; omega⟩
    rw [List.nil_append, parse_pp_string, skip_splices_of_ne hnot]
    simp only [if_pos]
  | @plain c cs hc hne hcs ih =>
    rw [List.length_cons] at hturns
    obtain ⟨turns, rfl⟩ : ∃ n, turns = n + 1 := ⟨turns - 1, by omega⟩
    simp only [List.mem_cons, List.not_mem_nil, or_false, not_or] at hc
    rw [List.cons_append, parse_pp_string_plain hc.2.2.2 hne hc.2.1 hc.2.2.1, ih (by omega), Option.map_some]
  | @escaped c cs hc hcs ih =>
    rw [List.length_cons, List.length_cons] at hturns
    obtain ⟨turns, rfl⟩ : ∃ n, turns = n + 1 := ⟨turns - 1, by omega⟩
    simp only [List.mem_cons, List.not_mem_nil, or_false, not_or] at hc
    have hline : NoLine (c :: (cs ++ sep :: rest)) :=
      ⟨fun heq => hc.2.1 (Option.some.inj heq), fun heq => hc.2.2 (Option.some.inj heq)⟩
    have hsplice : skip_splices (c :: (cs ++ sep :: rest)) = c :: (cs ++ sep :: rest) := by
      by_cases hback : c = 92
      · rw [hback]
        exact skip_splices_of_noLine (hcs.noLine hsep rest)
      · exact skip_splices_of_ne hback
    rw [List.cons_append, List.cons_append, parse_pp_string_escaped hnot hline hsplice, ih (by omega),
      Option.map_some]

theorem str_const_quoted {sep : Byte} {cs : List Byte} (h : Quoted sep cs) (hsep : sep = 39 ∨ sep = 34)
    (start : List Byte) : str_const start sep (cs ++ [sep] ++ [0]) = some
    (.ppstr (start ++ sep :: cs ++ [sep]), [0]) := by
  rw [str_const, List.append_assoc, List.singleton_append,
    parse_pp_string_quoted h hsep (by rw [List.length_append]; omega), Option.map_some]

theorem dot_cons (c : Byte) (q : List Byte) : dot fl (c :: q) =
    if isnum c then (.ppnum (parse_num fl [46, c] c q).1, (parse_num fl [46, c] c q).2)
    else if fl.is_id 46 ∧ fl.is_idnum c then parse_ident fl 46 (c :: q)
    else if c = 46 then
      match q with
      | d :: rest => if d = 46 then (.op TOK_DOTS, rest) else (.op 46, c :: q)
      | [] => (.op 46, c :: q)
    else (.op 46, c :: q) := rfl

/-- What begins with a dot. -/
theorem next_nomacro1_dot (p : List Byte) : next_nomacro1 fl spaces (46 :: p) = some (dot fl p) := by
  have hstart : ¬ident_start fl 46 := fun hstart => by simpa using ident_start_range hstart
  rw [next_nomacro1_cons (by decide), if_neg (by decide), if_neg (fun h => absurd h.1 (by decide)),
    if_neg hstart,
    if_neg (by decide), if_pos rfl]

theorem next_nomacro1_punct {text : List Byte} {v : Nat} (h : (text, v) ∈ puncts) :
    next_nomacro1 fl spaces (text ++ [0]) = some (.op v, [0]) := by
  have hall : ∀ x ∈ puncts, next_nomacro1 fl spaces (x.1 ++ [0]) = some (.op x.2, [0]) := by
    simp only [puncts, List.forall_mem_cons]
    refine ⟨?_, ?_, ?_, ?_, ?_, ?_, ?_, ?_, ?_, ?_, ?_, ?_, ?_, ?_, ?_, ?_, ?_, ?_, ?_, ?_, ?_, ?_, ?_, ?_,
      ?_, ?_, ?_,
      ?_, ?_, ?_, ?_, ?_, ?_, ?_, ?_, ?_, ?_, ?_, ?_, ?_, ?_, ?_, ?_, ?_, ?_, ?_, List.forall_mem_nil _⟩
    all_goals rfl
  exact hall (text, v) h

/-- A text that is one token is read as that token. -/
theorem next_nomacro1_of_ppToken {text : List Byte} {tok : Token} (h : PpToken fl text tok) :
    next_nomacro1 fl spaces (text ++ [0]) = some (tok, [0]) := by
  cases h with
  | @ident c cs hc hcs =>
    have hrange := ident_start_range hc
    have hspace : ¬(c = 32 ∨ c = 9) := by
      rintro (rfl | rfl) <;> simp at hrange
    obtain ⟨htake, hdrop⟩ := takeWhile_idnum hcs
    rw [List.cons_append, next_nomacro1_cons (not_is_space_of (by omega) (by omega)), if_neg hspace,
      if_neg (fun hwide => head?_idnum hcs hwide.2), if_pos hc, parse_ident, htake, hdrop]
  | @dot_ident c cs hdot hc hcs =>
    obtain ⟨htake, hdrop⟩ := takeWhile_idnum hcs
    rw [List.cons_append, next_nomacro1_dot, List.cons_append, dot_cons, if_neg hc,
      if_pos ⟨hdot, hcs c List.mem_cons_self⟩, parse_ident, ← List.cons_append, htake, hdrop]
  | @num c cs hc hcs =>
    have hstart : ¬ident_start fl c := fun hstart => by
      have := ident_start_range hstart
      rw [isnum] at hc
      omega
    have hdigit := hc
    rw [isnum] at hdigit
    rw [List.cons_append, next_nomacro1_cons (not_is_space_of (by omega) (by omega)),
      if_neg (fun h => h.elim (fun h => by rw [h] at hdigit; simp at hdigit)
        (fun h => by rw [h] at hdigit; simp at hdigit)),
      if_neg (fun h => by rw [h.1] at hdigit; simp at hdigit), if_neg hstart, if_pos hc, parse_num_tail hcs]
    rfl
  | @dot_num c cs hc hcs =>
    rw [List.cons_append, next_nomacro1_dot, List.cons_append, dot_cons, if_pos hc, parse_num_tail hcs]
    rfl
  | @str sep cs hsep hcs =>
    have hstart : ¬ident_start fl sep := fun hstart => by
      have := ident_start_range hstart
      rcases hsep with rfl | rfl <;> simp at this
    have hquoted := str_const_quoted hcs hsep []
    rw [List.nil_append] at hquoted
    rw [List.cons_append, List.cons_append]
    rcases hsep with rfl | rfl
    · rw [next_nomacro1_cons (by decide), if_neg (by decide), if_neg (fun h => absurd h.1 (by decide)),
        if_neg hstart,
        if_neg (by decide), if_neg (by decide), if_pos (by decide)]
      exact hquoted
    · rw [next_nomacro1_cons (by decide), if_neg (by decide), if_neg (fun h => absurd h.1 (by decide)),
        if_neg hstart,
        if_neg (by decide), if_neg (by decide), if_pos (by decide)]
      exact hquoted
  | @wide sep cs hsep hcs =>
    have hquoted := str_const_quoted hcs hsep [76]
    have hhead : (sep :: cs ++ [sep] ++ [0]).head? = some 39 ∨
      (sep :: cs ++ [sep] ++ [0]).head? = some 34 := by
      rcases hsep with rfl | rfl
      · exact Or.inl rfl
      · exact Or.inr rfl
    rw [List.cons_append, List.cons_append, next_nomacro1_cons (by decide), if_neg (by decide),
      if_pos ⟨rfl, hhead⟩]
    exact hquoted
  | punct h => exact next_nomacro1_punct h
  | dot =>
    rw [List.singleton_append, next_nomacro1_dot, dot_cons, if_neg (by decide),
      if_neg (fun h => by rw [is_idnum_nul] at h; exact absurd h.2 (by decide)), if_neg (by decide)]
  | dots hdot =>
    rw [List.cons_append, next_nomacro1_dot, List.cons_append, dot_cons, if_neg (by decide),
      if_neg (fun h => by rw [hdot] at h; exact absurd h.1 (by decide)), if_pos rfl]
    rfl
  | hash hasm =>
    have hstart : ¬ident_start fl 35 := fun hstart => by simpa using ident_start_range hstart
    rw [List.cons_append, next_nomacro1_cons (by decide), if_neg (by decide), if_neg (by decide),
      if_neg hstart,
      if_neg (by decide), if_neg (by decide), if_neg (by decide), operator]
    simp [hasm]

theorem get_tok_str_punct {text : List Byte} {v : Nat} (h : (text, v) ∈ puncts) :
    get_tok_str (.op v) = text ∧ Token.op v ∉ [TOK_PLCHLDR, TOK_NOSUBST, TOK_PPJOIN] := by
  have hall : ∀ x ∈ puncts, get_tok_str (.op x.2) = x.1 ∧
    Token.op x.2 ∉ [TOK_PLCHLDR, TOK_NOSUBST, TOK_PPJOIN] := by
    decide
  exact hall (text, v) h

/-- The token has the text for its spelling, and is none of the marks of a token string. -/
theorem PpToken.spelled {text : List Byte} {tok : Token} (h : PpToken fl text tok) :
    get_tok_str tok = text ∧ tok ∉ [TOK_PLCHLDR, TOK_NOSUBST, TOK_PPJOIN] := by
  cases h with
  | punct h => exact get_tok_str_punct h
  | dot => exact ⟨rfl, by decide⟩
  | dots _ => exact ⟨rfl, by decide⟩
  | hash _ => exact ⟨rfl, by decide⟩
  | _ => exact ⟨rfl, by simp [TOK_PLCHLDR, TOK_NOSUBST, TOK_PPJOIN]⟩

theorem PpToken.spelling_eq {text : List Byte} {tok : Token} (h : PpToken fl text tok) :
    spelling tok = text := by
  obtain ⟨hstr, hmarks⟩ := h.spelled
  simp only [List.mem_cons, not_or] at hmarks
  rw [spelling, if_neg hmarks.1, hstr]

theorem paste_tokens_eq {t1 t2 tok : Token} (h : PpToken fl (spelling t1 ++ spelling t2) tok) :
    paste_tokens fl spaces t1 t2 = some (true, tok) := by
  rw [paste_tokens, List.length_append, List.length_singleton, paste_loop, next_nomacro1_of_ppToken h]
  rfl

end read

/-- An operand of a `##`, with the marks before it. -/
structure Operand where
  nosubsts : Nat
  tok : Token
  ne_nosubst : tok ≠ TOK_NOSUBST
  ne_ppjoin : tok ≠ TOK_PPJOIN

def Operand.tokens (o : Operand) : List Token := List.replicate o.nosubsts TOK_NOSUBST ++ [o.tok]

/-- A token of a replacement list with all that is joined to it, each with the number of `##`
    before it, less one. -/
structure Group where
  head : Operand
  tail : List (Nat × Operand)

def tail_tokens (tail : List (Nat × Operand)) : List Token :=
  tail.flatMap fun (n, o) => List.replicate (n + 1) TOK_PPJOIN ++ o.tokens

theorem tail_tokens_cons (n : Nat) (o : Operand) (tail : List (Nat × Operand)) :
    tail_tokens ((n, o) :: tail) =
    TOK_PPJOIN :: (List.replicate n TOK_PPJOIN ++ (o.tokens ++ tail_tokens tail)) := by
  simp only [tail_tokens, List.flatMap_cons, List.replicate_succ, List.cons_append, List.append_assoc]

def Group.tokens (g : Group) : List Token := g.head.tokens ++ tail_tokens g.tail

/-- The operands that are joined to the first one. -/
def operands (tail : List (Nat × Operand)) : List Token := tail.map fun (_, o) => o.tok

/-- From left to right, each pair of spellings is one preprocessing token; two empty operands
    are an empty one. -/
inductive Joins (fl : Flags) : Token → List Token → Token → Prop where
  | nil (t : Token) : Joins fl t [] t
  | empty {ops : List Token} {t' : Token} (h : Joins fl TOK_PLCHLDR ops t') :
    Joins fl TOK_PLCHLDR (TOK_PLCHLDR :: ops) t'
  | pair {t t1 tok t' : Token} {ops : List Token} (hne : t ≠ TOK_PLCHLDR ∨ t1 ≠ TOK_PLCHLDR)
    (htok : PpToken fl (spelling t ++ spelling t1) tok) (h : Joins fl tok ops t') : Joins fl t (t1 :: ops) t'

/-- What a group is replaced by, where `t` is what its operands are joined to. -/
def Group.result (g : Group) (t : Token) : List Token := if g.tail = [] then g.head.tokens else [t]

section joins

variable {fl : Flags} {spaces : Bool} {start : Option Nat} {fuel : Nat} {t t' :
  Token} {ptr rest macro_str1 : List Token}

theorem Joins.spelling_eq {ops : List Token} (h : Joins fl t ops t') :
    spelling t' = spelling t ++ ops.flatMap spelling := by
  induction h with
  | nil t => rw [List.flatMap_nil, List.append_nil]
  | empty _ ih =>
    rw [ih, List.flatMap_cons]
    rfl
  | pair _ htok _ ih => rw [ih, htok.spelling_eq, List.flatMap_cons, List.append_assoc]

theorem Joins.cons_cases {t1 : Token} {ops : List Token} (h : Joins fl t (t1 :: ops) t') :
    (t = TOK_PLCHLDR ∧ t1 = TOK_PLCHLDR ∧ Joins fl TOK_PLCHLDR ops t') ∨
      ((t ≠ TOK_PLCHLDR ∨ t1 ≠ TOK_PLCHLDR) ∧ ∃ tok, PpToken fl (spelling t ++ spelling t1) tok ∧
        Joins fl tok ops t') := by
  cases h with
  | empty h => exact Or.inl ⟨rfl, rfl, h⟩
  | pair hne htok h => exact Or.inr ⟨hne, _, htok, h⟩

theorem Joins.not_mark {ops : List Token} (h : Joins fl t ops t') (hnosubst : t ≠ TOK_NOSUBST)
    (hppjoin : t ≠ TOK_PPJOIN) :
    t' ≠ TOK_NOSUBST ∧ t' ≠ TOK_PPJOIN := by
  induction h with
  | nil t => exact ⟨hnosubst, hppjoin⟩
  | empty _ ih => exact ih hnosubst hppjoin
  | pair _ htok _ ih =>
    have hmarks := htok.spelled.2
    simp only [List.mem_cons, List.not_mem_nil, or_false, not_or] at hmarks
    exact ih hmarks.2.1 hmarks.2.2

/-- `macro_str1` without the marks from `start_of_nosubsts` on. -/
def truncate (start : Option Nat) (macro_str1 : List Token) : List Token :=
  match start with
  | some len => macro_str1.take len
  | none => macro_str1

theorem truncate_truncate (start : Option Nat) (macro_str1 : List Token) :
    truncate start (truncate start macro_str1) = truncate start macro_str1 := by
  cases start with
  | none => rfl
  | some len => exact (List.take_take).trans (by rw [Nat.min_self]; rfl)

theorem joins_cons (t0 : Token) : paste.joins fl spaces start (fuel + 1) t (t0 :: ptr) macro_str1 =
    if t0 = TOK_PPJOIN then
      match ptr.dropWhile (· = TOK_NOSUBST) with
      | [] => some (t, [], truncate start macro_str1)
      | t1 :: ptr =>
        if t1 = TOK_PPJOIN then paste.joins fl spaces start fuel t (t1 :: ptr) (truncate start macro_str1)
        else if t ≠ TOK_PLCHLDR ∨ t1 ≠ TOK_PLCHLDR then
          match paste_tokens fl spaces t t1 with
          | none => none
          | some (true, tok) => paste.joins fl spaces start fuel tok ptr (truncate start macro_str1)
          | some (false, _) => paste.joins fl spaces start fuel t1 ptr (truncate start macro_str1 ++ [t])
        else paste.joins fl spaces start fuel t ptr (truncate start macro_str1)
    else some (t, t0 :: ptr, macro_str1) := rfl

theorem joins_end (hrest : rest.head? ≠ some TOK_PPJOIN) :
    paste.joins fl spaces start (fuel + 1) t rest macro_str1 = some (t, rest, macro_str1) := by
  cases rest with
  | nil => rfl
  | cons t0 rest =>
    have hne : t0 ≠ TOK_PPJOIN := fun heq => hrest (congrArg some heq)
    rw [joins_cons, if_neg hne]

/-- The first `##` of a run only removes marks. -/
theorem joins_ppjoin_ppjoin : paste.joins fl spaces start (fuel + 1) t
    (TOK_PPJOIN :: TOK_PPJOIN :: ptr) macro_str1 =
    paste.joins fl spaces start fuel t (TOK_PPJOIN :: ptr) (truncate start macro_str1) := by
  have hdrop : (TOK_PPJOIN :: ptr).dropWhile (fun t => decide (t = TOK_NOSUBST)) = TOK_PPJOIN :: ptr :=
    List.dropWhile_cons_of_neg (by decide)
  rw [joins_cons, if_pos rfl, hdrop]
  rfl

theorem joins_truncate : paste.joins fl spaces start (fuel + 1) t (TOK_PPJOIN :: ptr)
    (truncate start macro_str1) =
    paste.joins fl spaces start (fuel + 1) t (TOK_PPJOIN :: ptr) macro_str1 := by
  rw [joins_cons, joins_cons, truncate_truncate]
  rfl

theorem joins_run (n : Nat) : paste.joins fl spaces start (fuel + 1 + n) t
    (List.replicate (n + 1) TOK_PPJOIN ++ ptr) macro_str1 =
      paste.joins fl spaces start (fuel + 1) t (TOK_PPJOIN :: ptr) macro_str1 := by
  induction n generalizing macro_str1 with
  | zero => rfl
  | succ n ih =>
    have hcons : List.replicate (n + 1 + 1) TOK_PPJOIN ++ ptr =
        TOK_PPJOIN :: TOK_PPJOIN :: (List.replicate n TOK_PPJOIN ++ ptr) := rfl
    rw [hcons, ← Nat.add_assoc, joins_ppjoin_ppjoin]
    exact ih.trans joins_truncate

theorem dropWhile_nosubsts (o : Operand) (rest : List Token) :
    (o.tokens ++ rest).dropWhile (fun t => decide (t = TOK_NOSUBST)) = o.tok :: rest := by
  rw [Operand.tokens, List.append_assoc, List.dropWhile_append_of_pos
    (fun t ht => decide_eq_true (List.eq_of_mem_replicate ht)), List.singleton_append,
    List.dropWhile_cons_of_neg (by simpa using o.ne_nosubst)]

/-- A `##` before an operand. -/
theorem joins_operand (o : Operand) : paste.joins fl spaces start (fuel + 1) t
    (TOK_PPJOIN :: (o.tokens ++ rest)) macro_str1 =
      if t ≠ TOK_PLCHLDR ∨ o.tok ≠ TOK_PLCHLDR then
        match paste_tokens fl spaces t o.tok with
        | none => none
        | some (true, tok) => paste.joins fl spaces start fuel tok rest (truncate start macro_str1)
        | some (false, _) => paste.joins fl spaces start fuel o.tok rest (truncate start macro_str1 ++ [t])
      else paste.joins fl spaces start fuel t rest (truncate start macro_str1) := by
  rw [joins_cons, if_pos rfl, dropWhile_nosubsts]
  simp only [if_neg o.ne_ppjoin]

/-- The whole of a group after its first operand. -/
theorem joins_tail {tail : List (Nat × Operand)} (h : Joins fl t (operands tail) t')
    (hrest : rest.head? ≠ some TOK_PPJOIN) (hfuel : (tail_tokens tail).length < fuel) :
    paste.joins fl spaces start fuel t (tail_tokens tail ++ rest) macro_str1 =
      some (t', rest, if tail = [] then macro_str1 else truncate start macro_str1) := by
  induction tail generalizing t fuel macro_str1 with
  | nil =>
    obtain ⟨fuel, rfl⟩ : ∃ n, fuel = n + 1 := ⟨fuel - 1, by omega⟩
    cases h
    exact joins_end hrest
  | cons x tail ih =>
    obtain ⟨n, o⟩ := x
    have hlen : (tail_tokens ((n, o) :: tail)).length = n + 1 + (o.nosubsts + 1) +
      (tail_tokens tail).length := by
      simp only [tail_tokens, Operand.tokens, List.flatMap_cons, List.length_append, List.length_replicate,
        List.length_singleton]
    obtain ⟨fuel, rfl⟩ : ∃ m, fuel = m + 1 + n := ⟨fuel - 1 - n, by omega⟩
    have hcons : tail_tokens ((n, o) :: tail) ++ rest =
        List.replicate (n + 1) TOK_PPJOIN ++ (o.tokens ++ (tail_tokens tail ++ rest)) := by
      simp only [tail_tokens, List.flatMap_cons, List.append_assoc]
    have hsame : (if tail = [] then truncate start macro_str1 else truncate start
      (truncate start macro_str1)) =
        truncate start macro_str1 := by
      rw [truncate_truncate, ite_self]
    rw [hcons, joins_run, joins_operand, if_neg (List.cons_ne_nil _ _)]
    obtain ⟨rfl, hempty, h⟩ | ⟨hne, tok, htok, h⟩ := h.cons_cases
    · rw [if_neg (not_or.mpr ⟨not_not.mpr rfl, not_not.mpr hempty⟩), ih h (by omega), hsame]
    · rw [if_pos hne, paste_tokens_eq htok]
      simp only
      rw [ih h (by omega), hsame]

theorem twosharps_cons {t0 : Token} (h : t0 ≠ TOK_PPJOIN) :
    twosharps fl spaces (fuel + 1) start (t0 :: ptr) macro_str1 =
      match paste.joins fl spaces start (fuel + 1) t0 ptr macro_str1 with
      | none => none
      | some (t, ptr, macro_str1) =>
        twosharps fl spaces fuel (if t = TOK_NOSUBST then start.or (some macro_str1.length) else none) ptr
          (macro_str1 ++ [t]) := by
  rw [twosharps]
  simp only
  rw [if_neg h]

/-- The marks before a token are copied, and where they begin is kept. -/
theorem twosharps_nosubsts (n : Nat) (hrest : rest.head? ≠ some TOK_PPJOIN) :
    twosharps fl spaces (fuel + n) start (List.replicate n TOK_NOSUBST ++ rest) macro_str1 =
      twosharps fl spaces fuel (if n = 0 then start else start.or (some macro_str1.length)) rest
        (macro_str1 ++ List.replicate n TOK_NOSUBST) := by
  induction n generalizing start macro_str1 with
  | zero => simp
  | succ n ih =>
    have hhead : (List.replicate n TOK_NOSUBST ++ rest).head? ≠ some TOK_PPJOIN := by
      cases n with
      | zero => exact hrest
      | succ n => exact fun h => absurd (Option.some.inj h) (by decide)
    have hstart : (if n = 0 then start.or (some macro_str1.length)
        else (start.or (some macro_str1.length)).or (some (macro_str1 ++ [TOK_NOSUBST]).length)) =
          start.or (some macro_str1.length) := by
      split
      · rfl
      · cases start <;> rfl
    have happend : macro_str1 ++ [TOK_NOSUBST] ++ List.replicate n TOK_NOSUBST =
        macro_str1 ++ List.replicate (n + 1) TOK_NOSUBST := by
      rw [List.append_assoc, List.replicate_succ, List.singleton_append]
    rw [List.replicate_succ, List.cons_append, ← Nat.add_assoc, twosharps_cons (by decide), joins_end hhead]
    simp only [if_true]
    rw [ih, hstart, happend, if_neg (Nat.succ_ne_zero n), List.replicate_succ]

theorem head?_operand (o : Operand) (rest : List Token) : (o.tokens ++ rest).head? ≠ some TOK_PPJOIN := by
  rw [Operand.tokens]
  cases o.nosubsts with
  | zero => exact fun h => o.ne_ppjoin (Option.some.inj h)
  | succ n => exact fun h => absurd (Option.some.inj h) (by decide)

/-- A group, from a state without marks that are open. -/
theorem twosharps_group {g : Group} (h : Joins fl g.head.tok (operands g.tail) t')
    (hrest : rest.head? ≠ some TOK_PPJOIN) (hfuel : (tail_tokens g.tail).length < fuel + 1) :
    twosharps fl spaces (fuel + 1 + g.head.nosubsts) none (g.tokens ++ rest) macro_str1 =
      twosharps fl spaces fuel none rest (macro_str1 ++ g.result t') := by
  obtain ⟨⟨n, tok, hnosubst, hppjoin⟩, tail⟩ := g
  have hmarks := h.not_mark hnosubst hppjoin
  have htokens : (⟨⟨n, tok, hnosubst, hppjoin⟩, tail⟩ : Group).tokens ++ rest =
      List.replicate n TOK_NOSUBST ++ (tok :: (tail_tokens tail ++ rest)) := by
    simp only [Group.tokens, Operand.tokens, List.append_assoc, List.cons_append, List.nil_append]
  have hhead : (tok :: (tail_tokens tail ++ rest)).head? ≠ some TOK_PPJOIN := fun heq => hppjoin
    (Option.some.inj heq)
  have htruncate : truncate (if n = 0 then none else (none : Option Nat).or (some macro_str1.length))
      (macro_str1 ++ List.replicate n TOK_NOSUBST) = macro_str1 := by
    split
    · rename_i hzero
      rw [hzero]
      exact List.append_nil _
    · exact List.take_left
  rw [htokens, twosharps_nosubsts n hhead, twosharps_cons hppjoin, joins_tail h hrest hfuel]
  simp only
  rw [if_neg hmarks.1, htruncate, Group.result]
  split
  · rename_i hnil
    have hsame : t' = tok := by
      rw [hnil] at h
      cases h
      rfl
    rw [hsame, Operand.tokens, List.append_assoc]
  · rfl

theorem head?_groups (gs : List Group) : (gs.flatMap Group.tokens).head? ≠ some TOK_PPJOIN := by
  cases gs with
  | nil => exact nofun
  | cons g gs =>
    rw [List.flatMap_cons, Group.tokens, List.append_assoc]
    exact head?_operand g.head _

theorem twosharps_groups (gs : List Group) (res : Group → Token)
    (h : ∀ g ∈ gs, Joins fl g.head.tok (operands g.tail) (res g))
    (hfuel : (gs.flatMap Group.tokens).length < fuel) :
    twosharps fl spaces fuel none (gs.flatMap Group.tokens) macro_str1 =
      some (macro_str1 ++ gs.flatMap fun g => g.result (res g)) := by
  induction gs generalizing fuel macro_str1 with
  | nil =>
    obtain ⟨fuel, rfl⟩ : ∃ n, fuel = n + 1 := ⟨fuel - 1, by omega⟩
    rw [List.flatMap_nil, List.flatMap_nil, List.append_nil]
    rfl
  | cons g gs ih =>
    have hlen : ((g :: gs).flatMap Group.tokens).length =
        g.head.nosubsts + 1 + (tail_tokens g.tail).length + (gs.flatMap Group.tokens).length := by
      simp only [List.flatMap_cons, Group.tokens, Operand.tokens, List.length_append, List.length_replicate,
        List.length_singleton]
    obtain ⟨fuel, rfl⟩ : ∃ n, fuel = n + 1 + g.head.nosubsts := ⟨fuel - 1 - g.head.nosubsts, by omega⟩
    rw [List.flatMap_cons, twosharps_group (h g List.mem_cons_self) (head?_groups gs) (by omega),
      ih (fun g' hg => h g' (List.mem_cons_of_mem g hg)) (by omega), List.flatMap_cons, List.append_assoc]

theorem ppjoin_mem_tokens {g : Group} : TOK_PPJOIN ∈ g.tokens ↔ g.tail ≠ [] := by
  have hoperand (o : Operand) : TOK_PPJOIN ∉ o.tokens := by
    rw [Operand.tokens, List.mem_append, List.mem_singleton]
    rintro (hmem | heq)
    · exact absurd (List.eq_of_mem_replicate hmem) (by decide)
    · exact o.ne_ppjoin heq.symm
  rw [Group.tokens, List.mem_append, or_iff_right (hoperand g.head)]
  cases g.tail with
  | nil => exact ⟨fun hmem => absurd hmem List.not_mem_nil, fun hne => absurd rfl hne⟩
  | cons x tail =>
    refine ⟨fun _ => List.cons_ne_nil _ _, fun _ => ?_⟩
    rw [tail_tokens, List.flatMap_cons]
    exact List.mem_append_left _ (List.mem_append_left _ (List.mem_replicate.mpr ⟨Nat.succ_ne_zero _, rfl⟩))

theorem ppjoin_notMem_result {g : Group} (h : Joins fl g.head.tok (operands g.tail) t') :
    TOK_PPJOIN ∉ g.result t' := by
  rw [Group.result]
  split
  · rw [Operand.tokens, List.mem_append, List.mem_singleton]
    rintro (hmem | heq)
    · exact absurd (List.eq_of_mem_replicate hmem) (by decide)
    · exact g.head.ne_ppjoin heq.symm
  · intro hmem
    exact (h.not_mark g.head.ne_nosubst g.head.ne_ppjoin).2 (List.mem_singleton.mp hmem).symm

end joins

/-- A `##` has an operand on its right side, and a mark is before an operand. -/
def Proper : List Token → Prop
  | [] => True
  | [t] => t ≠ TOK_PPJOIN ∧ t ≠ TOK_NOSUBST
  | t :: u :: ptr => (t = TOK_NOSUBST → u ≠ TOK_PPJOIN) ∧ Proper (u :: ptr)

theorem Proper.tail {t : Token} {ptr : List Token} (h : Proper (t :: ptr)) : Proper ptr := by
  cases ptr with
  | nil => trivial
  | cons u ptr => exact h.2

/-- A rest of a list begins with groups, or with a run of `##` and the rest of a group. -/
theorem exists_rest {ptr : List Token} (h : Proper ptr) :
    (ptr.head? ≠ some TOK_PPJOIN ∧ ∃ gs : List Group, gs.flatMap Group.tokens = ptr) ∨
      ∃ tail, ∃ gs : List Group, tail ≠ [] ∧ tail_tokens tail ++ gs.flatMap Group.tokens = ptr := by
  induction ptr with
  | nil => exact Or.inl ⟨nofun, [], rfl⟩
  | cons t ptr ih =>
    by_cases hppjoin : t = TOK_PPJOIN
    · subst hppjoin
      right
      cases ptr with
      | nil => exact absurd rfl h.1
      | cons u ptr =>
        obtain ⟨-, gs, hgs⟩ | ⟨tail, gs, hne, htail⟩ := ih h.tail
        · cases gs with
          | nil => cases hgs
          | cons g gs =>
            refine ⟨(0, g.head) :: g.tail, gs, List.cons_ne_nil _ _, ?_⟩
            rw [← hgs, tail_tokens_cons, List.flatMap_cons, Group.tokens]
            rfl
        · obtain ⟨⟨n, o⟩, tail, rfl⟩ := List.exists_cons_of_ne_nil hne
          refine ⟨(n + 1, o) :: tail, gs, List.cons_ne_nil _ _, ?_⟩
          rw [← htail, tail_tokens_cons, tail_tokens_cons, List.replicate_succ]
          rfl
    · left
      refine ⟨fun heq => hppjoin (Option.some.inj heq), ?_⟩
      by_cases hnosubst : t = TOK_NOSUBST
      · subst hnosubst
        cases ptr with
        | nil => exact absurd rfl h.2
        | cons u ptr =>
          have hu : u ≠ TOK_PPJOIN := h.1 rfl
          obtain ⟨-, gs, hgs⟩ | ⟨tail, gs, hne, htail⟩ := ih h.tail
          · cases gs with
            | nil => cases hgs
            | cons g gs =>
              refine ⟨⟨⟨g.head.nosubsts + 1, g.head.tok, g.head.ne_nosubst, g.head.ne_ppjoin⟩,
                g.tail⟩ :: gs, ?_⟩
              rw [← hgs, List.flatMap_cons, List.flatMap_cons]
              simp only [Group.tokens, Operand.tokens, List.replicate_succ, List.cons_append]
          · obtain ⟨⟨n, o⟩, tail, rfl⟩ := List.exists_cons_of_ne_nil hne
            rw [tail_tokens_cons] at htail
            exact absurd (List.cons.inj htail).1.symm hu
      · obtain ⟨-, gs, hgs⟩ | ⟨tail, gs, -, htail⟩ := ih h.tail
        · exact ⟨⟨⟨0, t, hnosubst, hppjoin⟩, []⟩ :: gs, by rw [← hgs]; rfl⟩
        · exact ⟨⟨⟨0, t, hnosubst, hppjoin⟩, tail⟩ :: gs, by rw [← htail]; rfl⟩

/-- The groups of a list in which every `##` is between two operands. -/
theorem exists_groups {ptr0 : List Token} (h : Proper ptr0) (hhead : ptr0.head? ≠ some TOK_PPJOIN) :
    ∃ gs : List Group, gs.flatMap Group.tokens = ptr0 := by
  obtain ⟨-, hgs⟩ | ⟨tail, gs, hne, htail⟩ := exists_rest h
  · exact hgs
  · obtain ⟨⟨n, o⟩, tail, rfl⟩ := List.exists_cons_of_ne_nil hne
    rw [← htail, tail_tokens_cons] at hhead
    exact absurd rfl hhead

/-- A replacement list with a `##` becomes the list in which every group is one token, without
    marks, that is spelled like its operands one after the other; what is not an operand of a
    `##` stays. -/
theorem macro_twosharps_groups (fl : Flags) (spaces : Bool) (gs : List Group) (res : Group → Token)
    (h : ∀ g ∈ gs, Joins fl g.head.tok (operands g.tail) (res g)) :
    macro_twosharps fl spaces (gs.flatMap Group.tokens) =
        some (if ∀ g ∈ gs, g.tail = [] then none else some (gs.flatMap fun g => g.result (res g))) ∧
      TOK_PPJOIN ∉ gs.flatMap (fun g => g.result (res g)) ∧
        ∀ g ∈ gs, spelling (res g) = spelling g.head.tok ++ (operands g.tail).flatMap spelling ∧
          res g ≠ TOK_NOSUBST ∧ (g.tail = [] → g.result (res g) = g.tokens) ∧
            (g.tail ≠ [] → g.result (res g) = [res g]) := by
  have hmem : TOK_PPJOIN ∈ gs.flatMap Group.tokens ↔ ¬∀ g ∈ gs, g.tail = [] := by
    rw [List.mem_flatMap]
    push Not
    exact exists_congr fun g => and_congr_right fun _ => ppjoin_mem_tokens
  refine ⟨?_, ?_, fun g hg => ⟨(h g hg).spelling_eq, ((h g hg).not_mark g.head.ne_nosubst g.head.ne_ppjoin).1,
    fun hnil => ?_, fun hne => if_neg hne⟩⟩
  · rw [macro_twosharps]
    split
    · rename_i hppjoin
      rw [twosharps_groups gs res h (Nat.lt_succ_self _), if_neg (hmem.mp hppjoin), Option.map_some,
        List.nil_append]
    · rename_i hppjoin
      rw [hmem, not_not] at hppjoin
      rw [if_pos hppjoin]
  · intro hin
    obtain ⟨g, hg, hin⟩ := List.mem_flatMap.mp hin
    exact ppjoin_notMem_result (h g hg) hin
  · rw [Group.result, if_pos hnil, Group.tokens, hnil]
    exact (List.append_nil _).symm

/-- The list of `a##b## ##` with an empty last operand, and a `c` that is not to be expanded. -/
theorem macro_twosharps_chain :
    macro_twosharps ⟨false, true, false, false⟩ false [TOK_NOSUBST, .ident [97], TOK_PPJOIN, .ident [98],
      TOK_PPJOIN,
        TOK_PPJOIN, TOK_PLCHLDR, TOK_NOSUBST, .ident [99]] =
      some (some [.ident [97, 98], TOK_NOSUBST, .ident [99]]) :=
  (macro_twosharps_groups ⟨false, true, false, false⟩ false
    [⟨⟨1, .ident [97], by decide, by decide⟩, [(0, ⟨0, .ident [98], by decide, by decide⟩),
      (1, ⟨0, TOK_PLCHLDR, by decide, by decide⟩)]⟩, ⟨⟨1, .ident [99], by decide, by decide⟩, []⟩]
    (fun g => if g.tail = [] then g.head.tok else .ident [97, 98])
    (fun g hg => by
      simp only [List.mem_cons, List.not_mem_nil, or_false] at hg
      obtain rfl | rfl := hg
      · have hident : PpToken ⟨false, true, false, false⟩ [97, 98] (.ident [97, 98]) := .ident (by decide)
          (by decide)
        exact .pair (by decide) hident (.pair (by decide) hident (.nil _))
      · exact .nil _)).1

end tcc.pp.paste
