import Mathlib.Data.List.TakeWhile
import Tcc.Pp.Escape
import Tcc.Pp.Input

/-! Spellings of string literals and character constants, and how they are read again. -/

namespace tcc.pp

/-- An octal digit of an int. -/
def octal_digit (c : BitVec 32) (k : Nat) : Byte := (48 + (c.sshiftRight k &&& 7)).setWidth 8

def add_char (c : BitVec 32) : List Byte :=
  (if c = 39 ∨ c = 34 ∨ c = 92 then [92] else []) ++
    if 32 ≤ c.toInt ∧ c.toInt ≤ 126 then [c.setWidth 8]
    else 92 :: if c = 10 then [110] else [octal_digit c 6, octal_digit c 3, octal_digit c 0]

/-- The content of an ordinary string literal, or of a character constant, which is not empty. -/
inductive Literal where
  | str (bs : List Byte)
  | chr (b : Byte) (bs : List Byte)

def Literal.content : Literal → List Byte
  | .str bs => bs
  | .chr b bs => b :: bs

/-- The value that `parse_string` gives a character constant; a char is signed. -/
def chr_value (bs : List Byte) : BitVec 32 := bs.foldl (fun c b => c <<< 8 ||| b.signExtend 32) 0

/-- `get_tok_str` for the two kinds of tokens, without the NUL. -/
def get_tok_str : Literal → List Byte
  | .str bs => 34 :: bs.flatMap (fun b => add_char (b.setWidth 32)) ++ [34]
  | .chr b bs => 39 :: add_char (chr_value (b :: bs)) ++ [39]

/-- What the `#` operator makes of an argument that is a `TOK_PPSTR`; a spelling is read up to a
    NUL. -/
def stringize (spelling : List Byte) : List Byte :=
  34 :: (spelling.takeWhile (· ≠ 0)).flatMap
    (fun b => if b ≠ 39 then add_char (b.signExtend 32) else [b]) ++ [34]

/-- `parse_pp_string` from behind the opening quote: the body and what follows the closing quote.
    There is no result where the quote is missing. -/
def parse_pp_string (sep : Byte) : Nat → List Byte → Option (List Byte × List Byte)
  | 0, _ => none
  | turns + 1, p =>
    match skip_splices p with
    | [] => none
    | c :: p =>
      if c = sep then some ([], p)
      else if c = 92 then
        match skip_splices p with
        | [] => none
        | d :: p => (parse_pp_string sep turns p).map fun (str, rest) => (c :: d :: str, rest)
      else if c = 10 then none
      else if c = 13 then
        match skip_splices p with
        | [] => none
        | d :: p =>
          if d = 10 then none
          else (parse_pp_string sep turns (d :: p)).map fun (str, rest) => (c :: str, rest)
      else (parse_pp_string sep turns p).map fun (str, rest) => (c :: str, rest)

/-- A source text that is one literal, and its content. -/
def lex_literal (gnu_ext : Bool) (text : List Byte) : Option (List Byte) :=
  match text with
  | [] => none
  | sep :: p =>
    match parse_pp_string sep (p.length + 1) p with
    | some (str, []) =>
      match parse_narrow gnu_ext (str.length + 1) (str ++ [0]) with
      | .ok bs => some bs.dropLast
      | .error _ => none
    | _ => none

/-- The bytes that stand for one byte between the quotes. -/
inductive Spells (sep : Byte) : List Byte → Byte → Prop where
  | plain {b : Byte} (hnul : b ≠ 0) (hbackslash : b ≠ 92) (hsep : b ≠ sep) (hlf : b ≠ 10) (hcr : b ≠ 13) :
      Spells sep [b] b
  | quoted {b : Byte} (hquote : b = 39 ∨ b = 34 ∨ b = 92) : Spells sep [92, b] b
  | newline : Spells sep [92, 110] 10
  | octal {b b₁ b₂ : Byte} (hoct : isoct b.toNat) (hoct₁ : isoct b₁.toNat) (hoct₂ : isoct b₂.toNat) :
      Spells sep [92, b, b₁, b₂]
        (BitVec.ofNat 8 (((b.toNat - 48) * 8 + (b₁.toNat - 48)) * 8 + (b₂.toNat - 48)))

theorem Spells.length_pos {sep b : Byte} {chunk : List Byte} (hspells : Spells sep chunk b) :
    0 < chunk.length := by
  cases hspells <;> exact Nat.succ_pos _

theorem isoct_ne_of {b : Byte} (hoct : isoct b.toNat) {n : Nat} (hn : n < 48) (hlt : n < 256) :
    b ≠ BitVec.ofNat 8 n := by
  rintro rfl
  rw [BitVec.toNat_ofNat, Nat.mod_eq_of_lt hlt, isoct] at hoct
  omega

theorem Spells.noLine {sep b : Byte} {chunk : List Byte} (hspells : Spells sep chunk b) (q : List Byte) :
    NoLine (chunk ++ q) := by
  cases hspells with
  | plain _ _ _ hlf hcr => exact ⟨fun h => hlf (Option.some.inj h), fun h => hcr (Option.some.inj h)⟩
  | quoted _ => exact ⟨by simp, by simp⟩
  | newline => exact ⟨by simp, by simp⟩
  | octal _ _ _ => exact ⟨by simp, by simp⟩

section read

variable {sep b : Byte} {chunk : List Byte}

theorem parse_pp_string_plain {p : List Byte} (hbackslash : b ≠ 92) (hsep : b ≠ sep) (hlf : b ≠ 10)
    (hcr : b ≠ 13) (turns : Nat) :
    parse_pp_string sep (turns + 1) (b :: p) =
      (parse_pp_string sep turns p).map fun (str, rest) => (b :: str, rest) := by
  rw [parse_pp_string, skip_splices_of_ne hbackslash]
  simp only [if_neg hsep, if_neg hbackslash, if_neg hlf, if_neg hcr]

theorem parse_pp_string_escaped {d : Byte} {p q : List Byte} (hsep : sep ≠ 92) (hd : NoLine (d :: p))
    (hsplice : skip_splices (d :: p) = d :: q) (turns : Nat) :
    parse_pp_string sep (turns + 1) (92 :: d :: p) =
      (parse_pp_string sep turns q).map fun (str, rest) => (92 :: d :: str, rest) := by
  rw [parse_pp_string, skip_splices_of_noLine hd]
  simp only [if_neg hsep.symm, hsplice]
  rfl

/-- What stands for a byte is scanned as a whole: no quote in it ends the literal. -/
theorem Spells.parse_pp_string (hspells : Spells sep chunk b) (hsep : sep = 34 ∨ sep = 39) {q : List Byte}
    (hq : NoLine q) :
    ∃ k ≤ chunk.length, ∀ turns, pp.parse_pp_string sep (turns + k) (chunk ++ q) =
      (pp.parse_pp_string sep turns q).map fun (str, rest) => (chunk ++ str, rest) := by
  have hnot : sep ≠ 92 := by
    rcases hsep with rfl | rfl <;> decide
  cases hspells with
  | plain _ hbackslash hne hlf hcr =>
    exact ⟨1, le_refl _, fun turns => parse_pp_string_plain hbackslash hne hlf hcr turns⟩
  | quoted hquote =>
    refine ⟨1, by simp, fun turns => parse_pp_string_escaped hnot ?_ ?_ turns⟩
    · rcases hquote with rfl | rfl | rfl <;> exact ⟨by simp, by simp⟩
    · rcases hquote with rfl | rfl | rfl
      · exact skip_splices_of_ne (by decide)
      · exact skip_splices_of_ne (by decide)
      · exact skip_splices_of_noLine hq
  | newline =>
    exact ⟨1, by simp, fun turns => parse_pp_string_escaped hnot ⟨by simp, by simp⟩
      (skip_splices_of_ne (by decide)) turns⟩
  | @octal b b₁ b₂ hoct hoct₁ hoct₂ =>
    have hdigit : ∀ {d : Byte}, isoct d.toNat → d ≠ 92 ∧ d ≠ sep ∧ d ≠ 10 ∧ d ≠ 13 := by
      intro d hd
      refine ⟨?_, ?_, isoct_ne_of hd (by decide) (by decide), isoct_ne_of hd (by decide) (by decide)⟩
      · rintro rfl
        exact absurd hd (by decide)
      · rcases hsep with rfl | rfl
        · exact isoct_ne_of hd (by decide) (by decide)
        · exact isoct_ne_of hd (by decide) (by decide)
    obtain ⟨h92, -, hlf, hcr⟩ := hdigit hoct
    obtain ⟨h92₁, hsep₁, hlf₁, hcr₁⟩ := hdigit hoct₁
    obtain ⟨h92₂, hsep₂, hlf₂, hcr₂⟩ := hdigit hoct₂
    refine ⟨3, by simp, fun turns => ?_⟩
    change pp.parse_pp_string sep (turns + 2 + 1) (92 :: b :: (b₁ :: b₂ :: q)) = _
    rw [parse_pp_string_escaped hnot ⟨fun h => hlf (Option.some.inj h), fun h => hcr (Option.some.inj h)⟩
      (skip_splices_of_ne h92), parse_pp_string_plain h92₁ hsep₁ hlf₁ hcr₁ (turns + 1),
      parse_pp_string_plain h92₂ hsep₂ hlf₂ hcr₂ turns]
    cases pp.parse_pp_string sep turns q with
    | none => rfl
    | some read => rfl

/-- What stands for a byte is read as it, whatever follows. -/
theorem Spells.parse_narrow (hspells : Spells sep chunk b) (gnu_ext : Bool) (turns : Nat) (q : List Byte) :
    pp.parse_narrow gnu_ext (turns + 1) (chunk ++ q) =
      (pp.parse_narrow gnu_ext turns q).map fun bs => b :: bs := by
  have hput : ∀ {n : Nat}, turn false gnu_ext (chunk ++ q) = .put n q → BitVec.ofNat 8 n = b →
      pp.parse_narrow gnu_ext (turns + 1) (chunk ++ q) =
        (pp.parse_narrow gnu_ext turns q).map fun bs => b :: bs := by
    intro n hturn hn
    rw [pp.parse_narrow, hturn]
    simp only [hn]
  cases hspells with
  | plain hnul hbackslash _ _ _ =>
    have hnot : b.toNat ≠ 0 := fun h => hnul (BitVec.eq_of_toNat_eq h)
    have hnot' : b.toNat ≠ 92 := fun h => hbackslash (BitVec.eq_of_toNat_eq h)
    apply hput (n := b.toNat)
    · rw [List.singleton_append, turn, if_neg hnot, if_neg hnot', if_neg (by simp)]
    · rw [BitVec.ofNat_toNat, BitVec.setWidth_eq]
  | quoted hquote =>
    apply hput (n := b.toNat)
    · rcases hquote with rfl | rfl | rfl <;> rfl
    · rw [BitVec.ofNat_toNat, BitVec.setWidth_eq]
  | newline => exact hput (n := 10) rfl rfl
  | @octal b b₁ b₂ hoct hoct₁ hoct₂ =>
    refine hput ?_ rfl
    change escape false gnu_ext (b :: b₁ :: b₂ :: q) = _
    rw [escape, if_pos hoct, octal_escape, if_pos hoct₁]
    exact if_pos hoct₂

end read

theorem toNat_octal_digit (c : BitVec 32) {k : Nat} (hk : k ≤ 6) :
    (octal_digit c k).toNat = 48 + c.toNat / 2 ^ k % 8 := by
  have hbits : c.sshiftRight k &&& 7 = c >>> k &&& 7 := by
    apply BitVec.eq_of_getLsbD_eq
    intro i hi
    simp only [BitVec.getLsbD_and, BitVec.getLsbD_sshiftRight, BitVec.getLsbD_ushiftRight]
    by_cases hlow : i < 3
    · have hwithin : k + i < 32 := by omega
      simp [hwithin, show ¬ 32 ≤ i by omega]
    · have hmask : (7 : BitVec 32).getLsbD i = false := by
        have hdec : ∀ j < 32, ¬ j < 3 → (7 : BitVec 32).getLsbD j = false := by decide
        exact hdec i hi hlow
      rw [hmask, Bool.and_false, Bool.and_false]
  have hand : (c >>> k &&& 7).toNat = c.toNat / 2 ^ k % 8 := by
    rw [BitVec.toNat_and, BitVec.toNat_ushiftRight, Nat.shiftRight_eq_div_pow]
    exact Nat.and_two_pow_sub_one_eq_mod _ 3
  have hlt : c.toNat / 2 ^ k % 8 < 8 := Nat.mod_lt _ (by decide)
  rw [octal_digit, hbits, BitVec.toNat_setWidth, BitVec.toNat_add, hand]
  change (48 + c.toNat / 2 ^ k % 8) % 2 ^ 32 % 2 ^ 8 = _
  omega

/-- What is written for an int is read as its low byte. -/
theorem add_char_spells (sep : Byte) (hsep : sep = 34 ∨ sep = 39) (c : BitVec 32) :
    Spells sep (add_char c) (c.setWidth 8) := by
  rw [add_char]
  by_cases hquote : c = 39 ∨ c = 34 ∨ c = 92
  · have hbyte : c.setWidth 8 = 39 ∨ c.setWidth 8 = 34 ∨ c.setWidth 8 = (92 : Byte) := by
      rcases hquote with rfl | rfl | rfl <;> decide
    have hprint : 32 ≤ c.toInt ∧ c.toInt ≤ 126 := by
      rcases hquote with rfl | rfl | rfl <;> decide
    rw [if_pos hquote, if_pos hprint]
    exact .quoted hbyte
  rw [if_neg hquote, List.nil_append]
  by_cases hprint : 32 ≤ c.toInt ∧ c.toInt ≤ 126
  · rw [if_pos hprint]
    have hnat : c.toInt = c.toNat := by
      rw [BitVec.toInt_eq_toNat_cond] at hprint ⊢
      split at hprint <;> omega
    have hbyte : (c.setWidth 8).toNat = c.toNat := by
      rw [BitVec.toNat_setWidth]
      omega
    have hne : ∀ n : Nat, n < 32 ∨ c.toNat ≠ n → n < 256 → c.setWidth 8 ≠ BitVec.ofNat 8 n := by
      intro n hn hlt heq
      have := congrArg BitVec.toNat heq
      rw [hbyte, BitVec.toNat_ofNat, Nat.mod_eq_of_lt hlt] at this
      omega
    have hother : ∀ n : Nat, n < 256 → c ≠ BitVec.ofNat 32 n → c.toNat ≠ n := by
      intro n hn hc heq
      apply hc
      apply BitVec.eq_of_toNat_eq
      rw [BitVec.toNat_ofNat, Nat.mod_eq_of_lt (by omega), heq]
    have h39 := hother 39 (by decide) fun h => hquote (.inl h)
    have h34 := hother 34 (by decide) fun h => hquote (.inr (.inl h))
    have h92 := hother 92 (by decide) fun h => hquote (.inr (.inr h))
    apply Spells.plain
    · exact hne 0 (.inl (by decide)) (by decide)
    · exact hne 92 (.inr h92) (by decide)
    · rcases hsep with rfl | rfl
      · exact hne 34 (.inr h34) (by decide)
      · exact hne 39 (.inr h39) (by decide)
    · exact hne 10 (.inl (by decide)) (by decide)
    · exact hne 13 (.inl (by decide)) (by decide)
  rw [if_neg hprint]
  by_cases hlf : c = 10
  · rw [if_pos hlf, hlf]
    exact .newline
  · rw [if_neg hlf]
    have h6 := toNat_octal_digit c (k := 6) (by decide)
    have h3 := toNat_octal_digit c (k := 3) (by decide)
    have h0 := toNat_octal_digit c (k := 0) (by decide)
    norm_num at h6 h3 h0
    have hvalue : c.setWidth 8 = BitVec.ofNat 8 ((((octal_digit c 6).toNat - 48) * 8 +
        ((octal_digit c 3).toNat - 48)) * 8 + ((octal_digit c 0).toNat - 48)) := by
      apply BitVec.eq_of_toNat_eq
      rw [BitVec.toNat_setWidth, BitVec.toNat_ofNat, h6, h3, h0]
      omega
    rw [hvalue]
    apply Spells.octal
    · rw [isoct, h6]
      omega
    · rw [isoct, h3]
      omega
    · rw [isoct, h0]
      omega

/-- Bytes that are spelled one behind the other between quotes are read again as they were. -/
theorem lex_literal_of_spells {sep : Byte} (hsep : sep = 34 ∨ sep = 39) (gnu_ext : Bool) {α : Type}
    (spell : α → List Byte) (byte : α → Byte) (cs : List α)
    (hspells : ∀ c ∈ cs, Spells sep (spell c) (byte c)) :
    lex_literal gnu_ext (sep :: cs.flatMap spell ++ [sep]) = some (cs.map byte) := by
  have hnot : sep ≠ 92 := by
    rcases hsep with rfl | rfl <;> decide
  have hline : NoLine [sep] := by
    rcases hsep with rfl | rfl <;> exact ⟨by decide, by decide⟩
  have hscan : ∀ turns, (cs.flatMap spell).length < turns →
      parse_pp_string sep turns (cs.flatMap spell ++ [sep]) = some (cs.flatMap spell, []) ∧
        NoLine (cs.flatMap spell ++ [sep]) := by
    induction cs with
    | nil =>
      intro turns hturns
      obtain ⟨turns, rfl⟩ := Nat.exists_eq_succ_of_ne_zero (by omega : turns ≠ 0)
      refine ⟨?_, hline⟩
      rw [List.flatMap_nil, List.nil_append, parse_pp_string, skip_splices_of_ne hnot]
      exact if_pos rfl
    | cons c cs ih =>
      intro turns hturns
      have hc := hspells c List.mem_cons_self
      have htail := ih fun c' hc' => hspells c' (List.mem_cons_of_mem _ hc')
      rw [List.flatMap_cons, List.length_append] at hturns
      obtain ⟨k, hk, hread⟩ := hc.parse_pp_string hsep (q := cs.flatMap spell ++ [sep])
        (htail ((cs.flatMap spell).length + 1) (Nat.lt_succ_self _)).2
      have hrest := (htail (turns - k) (by omega)).1
      have hsum : turns = turns - k + k := by omega
      rw [List.flatMap_cons, List.append_assoc]
      refine ⟨?_, hc.noLine _⟩
      rw [hsum, hread, hrest]
      rfl
  have hnarrow : ∀ turns, cs.length < turns →
      parse_narrow gnu_ext turns (cs.flatMap spell ++ [0]) = .ok (cs.map byte ++ [0]) := by
    clear hscan
    induction cs with
    | nil =>
      intro turns hturns
      obtain ⟨turns, rfl⟩ := Nat.exists_eq_succ_of_ne_zero (by omega : turns ≠ 0)
      rfl
    | cons c cs ih =>
      intro turns hturns
      obtain ⟨turns, rfl⟩ := Nat.exists_eq_succ_of_ne_zero (by omega : turns ≠ 0)
      rw [List.length_cons] at hturns
      have hrest := ih (fun c' hc' => hspells c' (List.mem_cons_of_mem _ hc')) turns (by omega)
      rw [List.flatMap_cons, List.append_assoc, (hspells c List.mem_cons_self).parse_narrow, hrest]
      rfl
  have hlength : cs.length ≤ (cs.flatMap spell).length := by
    clear hscan hnarrow
    induction cs with
    | nil => exact le_refl _
    | cons c cs ih =>
      have hc := (hspells c List.mem_cons_self).length_pos
      have := ih fun c' hc' => hspells c' (List.mem_cons_of_mem _ hc')
      rw [List.flatMap_cons, List.length_append, List.length_cons]
      omega
  have hread := (hscan ((cs.flatMap spell ++ [sep]).length + 1) (by rw [List.length_append]; omega)).1
  unfold lex_literal
  simp only [List.cons_append, hread, hnarrow ((cs.flatMap spell).length + 1) (by omega)]
  rw [List.dropLast_concat]

/-- A string literal, or a character constant with one character. -/
def Literal.Single : Literal → Prop
  | .str _ => True
  | .chr _ bs => bs = []

theorem setWidth_signExtend_byte (b : Byte) : (b.signExtend 32).setWidth 8 = b := by
  apply BitVec.eq_of_getLsbD_eq
  intro i hi
  simp [BitVec.getLsbD_signExtend, hi]
  omega

/-- The last character is the low byte of the value. -/
theorem setWidth_chr_value (bs : List Byte) (b : Byte) : (chr_value (bs ++ [b])).setWidth 8 = b := by
  rw [chr_value, List.foldl_append, List.foldl_cons, List.foldl_nil]
  apply BitVec.eq_of_getLsbD_eq
  intro i hi
  rw [BitVec.getLsbD_setWidth, BitVec.getLsbD_or, BitVec.getLsbD_shiftLeft, BitVec.getLsbD_signExtend]
  simp [hi]
  omega

/-- The spelling of a token is read again as the token's content exactly if it is no character
    constant with several characters. What `#` makes of a spelling is read again as it exactly if no
    NUL is in it. -/
theorem respelled_iff (gnu_ext : Bool) :
    (∀ l : Literal, lex_literal gnu_ext (get_tok_str l) = some l.content ↔ l.Single) ∧
      ∀ spelling : List Byte, lex_literal gnu_ext (stringize spelling) = some spelling ↔ 0 ∉ spelling := by
  constructor
  · intro l
    cases l with
    | str bs =>
      have hread := lex_literal_of_spells (.inl rfl) gnu_ext
        (fun b => add_char (b.setWidth 32)) id bs (fun b _ => by
          have hspells := add_char_spells 34 (.inl rfl) (b.setWidth 32)
          have hbyte : (b.setWidth 32).setWidth 8 = b := by
            rw [BitVec.setWidth_setWidth_of_le _ (by decide), BitVec.setWidth_eq]
          rw [hbyte] at hspells
          exact hspells)
      rw [List.map_id] at hread
      exact ⟨fun _ => trivial, fun _ => hread⟩
    | chr b bs =>
      have hread := lex_literal_of_spells (.inr rfl) gnu_ext add_char (fun c => c.setWidth 8)
        [chr_value (b :: bs)] (fun c _ => add_char_spells 39 (.inr rfl) c)
      rw [List.flatMap_singleton, List.map_singleton] at hread
      change lex_literal gnu_ext (39 :: add_char (chr_value (b :: bs)) ++ [39]) = some (b :: bs) ↔ bs = []
      rw [hread, Option.some.injEq]
      constructor
      · intro heq
        exact (List.cons.inj heq).2.symm
      · rintro rfl
        have hlast := setWidth_chr_value [] b
        rw [List.nil_append] at hlast
        rw [hlast]
  · intro spelling
    have hread := @lex_literal_of_spells 34 (.inl rfl) gnu_ext Byte
      (fun b => if b ≠ 39 then add_char (b.signExtend 32) else [b]) id (spelling.takeWhile (· ≠ 0))
      (fun b _ => by
        by_cases hquote : b ≠ 39
        · rw [if_pos hquote]
          have hspells := add_char_spells 34 (.inl rfl) (b.signExtend 32)
          rw [setWidth_signExtend_byte] at hspells
          exact hspells
        · rw [if_neg hquote]
          rw [not_not] at hquote
          rw [hquote]
          exact .plain (by decide) (by decide) (by decide) (by decide) (by decide))
    rw [List.map_id] at hread
    rw [stringize, hread, Option.some.injEq, List.takeWhile_eq_self_iff]
    simp only [decide_eq_true_eq]
    exact ⟨fun h hmem => h 0 hmem rfl, fun h b hmem hb => h (hb ▸ hmem)⟩

/-- The content of a character constant with two characters is not kept. -/
theorem two_characters_are_lost :
    (Literal.chr 97 [98]).content = [97, 98] ∧
      lex_literal true (get_tok_str (.chr 97 [98])) = some [98] := by
  decide

end tcc.pp
