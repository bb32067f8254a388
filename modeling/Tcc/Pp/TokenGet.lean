import Mathlib.Tactic.FinCases
import Mathlib.Tactic.IntervalCases
import Tcc.Pp.TokenString

/-! Tokens are read back from a token string as they were added. -/

open machine.wordbytes

namespace tcc.pp

theorem le_double_len {size : Nat} (hsize : 0 < size) (turns new_size : Nat) (hturns : new_size ≤ turns + size) :
    new_size ≤ double_len turns size new_size ∧ size ≤ double_len turns size new_size := by
  induction turns generalizing size with
  | zero => exact ⟨by rw [double_len]; omega, le_refl _⟩
  | succ turns ih =>
    rw [double_len]
    by_cases hlt : size < new_size
    · rw [if_pos hlt]
      obtain ⟨hnew, hle⟩ := @ih (size * 2) (by omega) (by omega)
      exact ⟨hnew, by omega⟩
    · rw [if_neg hlt]
      exact ⟨by omega, le_refl _⟩

/-- The words that were added. -/
def TokenString.content (s : TokenString) : List Word := s.str.take s.len

def TokenString.WF (s : TokenString) : Prop := s.len ≤ s.allocated_len

section encoder

variable (mem : Realloc Word) {s : TokenString}

theorem tok_str_realloc_spec (hs : s.WF) (new_size : Nat) :
    new_size ≤ (tok_str_realloc mem s new_size).allocated_len ∧
      (tok_str_realloc mem s new_size).content = s.content ∧
      (tok_str_realloc mem s new_size).len = s.len := by
  have hstart : 0 < if s.allocated_len < 16 then 16 else s.allocated_len := by
    split <;> omega
  obtain ⟨hnew, hle⟩ := le_double_len hstart new_size new_size (by omega)
  rw [tok_str_realloc]
  by_cases hgrow : s.allocated_len < double_len new_size
      (if s.allocated_len < 16 then 16 else s.allocated_len) new_size
  · simp only [if_pos hgrow]
    refine ⟨?_, ?_, trivial⟩
    · rw [TokenString.allocated_len, mem.length_realloc]
      exact hnew
    · have htake := mem.take_realloc s.str _ hgrow.le
      rw [TokenString.content, TokenString.content]
      conv_rhs => rw [← htake]
      have hmin : min s.len s.str.length = s.len := Nat.min_eq_left hs
      rw [List.take_take, hmin]
  · simp only [if_neg hgrow]
    exact ⟨by omega, trivial, trivial⟩

/-- The room that is made for some more words. -/
theorem reserve_spec (hs : s.WF) (k : Nat) :
    ∃ r, (if s.allocated_len ≤ s.len + k then tok_str_realloc mem s (s.len + k + 1) else s) = r ∧
      r.content = s.content ∧ s.len + k + 1 ≤ r.allocated_len ∧ r.len = s.len := by
  refine ⟨_, rfl, ?_⟩
  by_cases hfull : s.allocated_len ≤ s.len + k
  · rw [if_pos hfull]
    obtain ⟨hroom, hcontent, hlen⟩ := tok_str_realloc_spec mem hs (s.len + k + 1)
    exact ⟨hcontent, hroom, hlen⟩
  · rw [if_neg hfull]
    exact ⟨rfl, by omega, rfl⟩

end encoder

section encoder

variable (s : TokenString)

theorem put_spec (ws : List Word) (hroom : s.len + ws.length ≤ s.allocated_len) :
    ∃ r, s.put ws = some r ∧ r.content = s.content ++ ws ∧ r.len = s.len + ws.length ∧
      r.allocated_len = s.allocated_len := by
  refine ⟨_, if_pos hroom, ?_, rfl, ?_⟩
  · have hlength : (s.str.take s.len ++ ws).length = s.len + ws.length := by
      rw [TokenString.allocated_len] at hroom
      rw [List.length_append, List.length_take, Nat.min_eq_left (by omega)]
    exact List.take_left' hlength
  · rw [TokenString.allocated_len] at hroom ⊢
    simp only [TokenString.allocated_len, List.length_append, List.length_take, List.length_drop]
    omega

theorem le_words_for (size : Nat) : size ≤ 4 * words_for size := by
  rw [words_for]
  omega

theorem memcpy_spec (data : List Byte) (hroom : s.len + words_for data.length ≤ s.allocated_len) :
    ∃ r ws, s.memcpy data = some r ∧ Packs data ws ∧ r.content = s.content ++ ws ∧
      r.len = s.len + ws.length ∧ r.allocated_len = s.allocated_len := by
  have hold : ((s.str.drop s.len).take (words_for data.length)).length = words_for data.length := by
    rw [TokenString.allocated_len] at hroom
    rw [List.length_take, List.length_drop]
    omega
  have hle := le_words_for data.length
  have hlength : (data ++ (bytes_of ((s.str.drop s.len).take (words_for data.length))).drop data.length).length =
      4 * words_for data.length := by
    rw [List.length_append, List.length_drop, length_bytes_of, hold]
    omega
  obtain ⟨hbytes, hcount⟩ := bytes_of_words_of hlength
  obtain ⟨r, hput, hcontent, hlen, hallocated⟩ := put_spec s (words_of (data ++
    (bytes_of ((s.str.drop s.len).take (words_for data.length))).drop data.length)) (by rw [hcount]; exact hroom)
  refine ⟨r, _, hput, ⟨hcount, ?_⟩, hcontent, hlen, hallocated⟩
  rw [hbytes, List.take_left]

end encoder

/-- A token is stored with its value behind what is there. -/
theorem tok_str_add2_spec (mem : Realloc Word) (target : Target) {s : TokenString} (hs : s.WF) (t : Word)
    (cv : CValue) :
    ∃ r ws, tok_str_add2 mem target s t cv = some r ∧ Payload target t cv ws ∧
      r.content = s.content ++ t :: ws ∧ r.WF := by
  let s₀ : TokenString := { s with lastlen := s.len }
  obtain ⟨s₁, hreserve, hcontent₁, hroom₁, hlen₁⟩ := @reserve_spec mem s₀ hs TOK_MAX_SIZE
  have hmax : s₀.len + 5 ≤ s₁.allocated_len := hroom₁
  obtain ⟨s₂, hput₂, hcontent₂, hlen₂, halloc₂⟩ := put_spec s₁ [t]
    (by rw [List.length_singleton]; omega)
  rw [List.length_singleton] at hlen₂
  -- the values of the other kinds fit into what was reserved
  have hfits : ∀ ws : List Word, ws.length ≤ 4 → ∃ r, s₂.put ws = some r ∧
      r.content = s.content ++ t :: ws ∧ r.WF := by
    intro ws hws
    obtain ⟨r, hput, hcontent, hlen, halloc⟩ := put_spec s₂ ws (by omega)
    refine ⟨r, hput, ?_, ?_⟩
    · rw [hcontent, hcontent₂, hcontent₁, List.append_assoc]
      rfl
    · rw [TokenString.WF]
      omega
  have hstep : tok_str_add2 mem target s t cv =
      if t ∈ [TOK_CINT, TOK_CUINT, TOK_CCHAR, TOK_LCHAR, TOK_CFLOAT, TOK_LINENUM] ∨
          target.LONG_SIZE = 4 ∧ t ∈ [TOK_CLONG, TOK_CULONG] then
        s₂.put [cv.tab 0]
      else if t ∈ [TOK_PPNUM, TOK_PPSTR, TOK_STR, TOK_LSTR] then
        ((if s₂.allocated_len ≤ s₂.len + (1 + words_for cv.str.length) then
          tok_str_realloc mem s₂ (s₂.len + (1 + words_for cv.str.length) + 1) else s₂).put
            [BitVec.ofNat 32 cv.str.length]).bind fun s => s.memcpy cv.str
      else if t ∈ [TOK_CDOUBLE, TOK_CLLONG, TOK_CULLONG] ∨
          target.LONG_SIZE = 8 ∧ t ∈ [TOK_CLONG, TOK_CULONG] ∨ target.LDOUBLE_SIZE = 8 ∧ t = TOK_CLDOUBLE then
        s₂.put [cv.tab 0, cv.tab 1]
      else if target.LDOUBLE_SIZE = 12 ∧ t = TOK_CLDOUBLE then s₂.put [cv.tab 0, cv.tab 1, cv.tab 2]
      else if target.LDOUBLE_SIZE = 16 ∧ t = TOK_CLDOUBLE then
        s₂.put [cv.tab 0, cv.tab 1, cv.tab 2, cv.tab 3]
      else some s₂ := by
    change (TokenString.put (if s₀.allocated_len ≤ s₀.len + TOK_MAX_SIZE then
      tok_str_realloc mem s₀ (s₀.len + TOK_MAX_SIZE + 1) else s₀) [t]).bind _ = _
    rw [hreserve, hput₂]
    rfl
  rw [hstep]
  unfold Payload
  by_cases hone : t ∈ [TOK_CINT, TOK_CUINT, TOK_CCHAR, TOK_LCHAR, TOK_CFLOAT, TOK_LINENUM] ∨
      target.LONG_SIZE = 4 ∧ t ∈ [TOK_CLONG, TOK_CULONG]
  · simp only [if_pos hone]
    obtain ⟨r, hput, hcontent, hwf⟩ := hfits [cv.tab 0] (by simp)
    exact ⟨r, _, hput, rfl, hcontent, hwf⟩
  simp only [if_neg hone]
  by_cases hstr : t ∈ [TOK_PPNUM, TOK_PPSTR, TOK_STR, TOK_LSTR]
  · simp only [if_pos hstr]
    have hwf₂ : s₂.WF := by
      rw [TokenString.WF]
      omega
    obtain ⟨s₃, hreserve₃, hcontent₃, hroom₃, hlen₃⟩ :=
      reserve_spec mem hwf₂ (1 + words_for cv.str.length)
    obtain ⟨s₄, hput₄, hcontent₄, hlen₄, halloc₄⟩ := put_spec s₃
      [BitVec.ofNat 32 cv.str.length] (by rw [List.length_singleton]; omega)
    rw [List.length_singleton] at hlen₄
    obtain ⟨r, data, hmemcpy, hpacks, hcontent, hlen, halloc⟩ := memcpy_spec s₄ cv.str (by omega)
    refine ⟨r, _, ?_, ⟨data, rfl, hpacks⟩, ?_, ?_⟩
    · rw [hreserve₃, hput₄]
      exact hmemcpy
    · rw [hcontent, hcontent₄, hcontent₃, hcontent₂, hcontent₁]
      simp only [List.append_assoc, List.cons_append, List.nil_append]
      rfl
    · have hcount := hpacks.1
      rw [TokenString.WF]
      omega
  simp only [if_neg hstr]
  by_cases htwo : t ∈ [TOK_CDOUBLE, TOK_CLLONG, TOK_CULLONG] ∨
      target.LONG_SIZE = 8 ∧ t ∈ [TOK_CLONG, TOK_CULONG] ∨ target.LDOUBLE_SIZE = 8 ∧ t = TOK_CLDOUBLE
  · simp only [if_pos htwo]
    obtain ⟨r, hput, hcontent, hwf⟩ := hfits [cv.tab 0, cv.tab 1] (by simp)
    exact ⟨r, _, hput, rfl, hcontent, hwf⟩
  simp only [if_neg htwo]
  by_cases hldouble : t = TOK_CLDOUBLE
  · simp only [if_pos hldouble]
    rcases target.ldouble_size with h8 | h12 | h16
    · exact absurd (.inr (.inr ⟨h8, hldouble⟩)) htwo
    · rw [if_pos ⟨h12, hldouble⟩, h12]
      obtain ⟨r, hput, hcontent, hwf⟩ := hfits [cv.tab 0, cv.tab 1, cv.tab 2] (by simp)
      exact ⟨r, _, hput, rfl, hcontent, hwf⟩
    · rw [if_neg (by omega), if_pos ⟨h16, hldouble⟩, h16]
      obtain ⟨r, hput, hcontent, hwf⟩ := hfits [cv.tab 0, cv.tab 1, cv.tab 2, cv.tab 3] (by simp)
      exact ⟨r, _, hput, rfl, hcontent, hwf⟩
  · rw [if_neg (fun h => hldouble h.2), if_neg (fun h => hldouble h.2)]
    simp only [if_neg hldouble]
    refine ⟨s₂, [], rfl, rfl, ?_, ?_⟩
    · rw [hcontent₂, hcontent₁]
      rfl
    · rw [TokenString.WF]
      omega

theorem has_value_cases {t : Word} (hvalue : TOK_HAS_VALUE t) :
    t ∈ [TOK_CINT, TOK_CCHAR, TOK_LCHAR, TOK_LINENUM] ∨ t = TOK_CUINT ∨ t = TOK_CLONG ∨ t = TOK_CULONG ∨
      t = TOK_CFLOAT ∨ t ∈ [TOK_STR, TOK_LSTR, TOK_PPNUM, TOK_PPSTR] ∨
      t ∈ [TOK_CLLONG, TOK_CULLONG] ∨ t = TOK_CDOUBLE ∨ t = TOK_CLDOUBLE := by
  obtain ⟨hlo, hhi⟩ := hvalue
  have hnat : t.toNat = t.toInt.toNat := by
    rw [BitVec.toInt_eq_toNat_cond] at hlo ⊢
    split at hlo <;> omega
  have hbounds : 0xc0 ≤ t.toNat ∧ t.toNat ≤ 0xcf := by omega
  have ht : t = BitVec.ofNat 32 t.toNat := by rw [BitVec.ofNat_toNat, BitVec.setWidth_eq]
  generalize t.toNat = n at *
  obtain ⟨hfirst, hlast⟩ := hbounds
  subst ht
  interval_cases n <;> decide

theorem CValue.i_set_i (cv : CValue) (x : BitVec 64) : (cv.set_i x).i = x := by
  have hlo : (cv.set_i x).tab 0 = x.setWidth 32 := by simp [set_i, set]
  have hhi : (cv.set_i x).tab 1 = (x >>> 32).setWidth 32 := by simp [set_i, set]
  rw [i, hlo, hhi]
  apply BitVec.eq_of_getLsbD_eq
  intro k hk
  simp only [BitVec.getLsbD_append, BitVec.getLsbD_setWidth, BitVec.getLsbD_ushiftRight]
  grind

section values

variable (target : Target) {t : Word} (cv : CValue)

theorem value_int (ht : t ∈ [TOK_CCHAR, TOK_LCHAR, TOK_CINT, TOK_CUINT, TOK_CLLONG, TOK_CULLONG,
    TOK_CLONG, TOK_CULONG, TOK_LINENUM]) : value target t cv = .int cv.i :=
  if_pos ht

theorem value_str (ht : t ∈ [TOK_STR, TOK_LSTR, TOK_PPNUM, TOK_PPSTR]) :
    value target t cv = .str cv.str := by
  fin_cases ht <;> rfl

end values

section get

variable {target : Target} {t : Word} (cv : CValue)

theorem TOK_GET_signed {w : Word} (rest : List Word)
    (ht : t ∈ [TOK_CINT, TOK_CCHAR, TOK_LCHAR, TOK_LINENUM] ∨ target.LONG_SIZE = 4 ∧ t = TOK_CLONG) :
    TOK_GET target (t :: w :: rest) cv = some (t, cv.set_i (w.signExtend 64), rest) := by
  have hvalue : TOK_HAS_VALUE t := by
    rcases ht with ht | ⟨-, rfl⟩
    · fin_cases ht <;> decide
    · decide
  rw [TOK_GET, if_pos hvalue, tok_get, if_pos ht.symm]

theorem TOK_GET_unsigned {w : Word} (rest : List Word)
    (ht : t = TOK_CUINT ∨ target.LONG_SIZE = 4 ∧ t = TOK_CULONG) :
    TOK_GET target (t :: w :: rest) cv = some (t, cv.set_i (w.setWidth 64), rest) := by
  have hvalue : TOK_HAS_VALUE t := by
    rcases ht with rfl | ⟨-, rfl⟩ <;> decide
  have hother : ¬ (target.LONG_SIZE = 4 ∧ t = TOK_CLONG ∨
      t ∈ [TOK_CINT, TOK_CCHAR, TOK_LCHAR, TOK_LINENUM]) := by
    rcases ht with rfl | ⟨-, rfl⟩ <;> simp +decide
  rw [TOK_GET, if_pos hvalue, tok_get, if_neg hother, if_pos ht.symm]

theorem TOK_GET_float {w : Word} (rest : List Word) :
    TOK_GET target (TOK_CFLOAT :: w :: rest) cv = some (TOK_CFLOAT, cv.set 0 w, rest) := by
  rw [TOK_GET, if_pos (by decide), tok_get, if_neg (by simp +decide), if_neg (by simp +decide), if_pos rfl]

/-- A string is read back from the words that hold its bytes. -/
theorem TOK_GET_str {data : List Byte} {ws : List Word} (rest : List Word)
    (ht : t ∈ [TOK_STR, TOK_LSTR, TOK_PPNUM, TOK_PPSTR]) (hsize : data.length < 2 ^ 31)
    (hpacks : Packs data ws) :
    TOK_GET target (t :: BitVec.ofNat 32 data.length :: (ws ++ rest)) cv =
      some (t, ⟨cv.tab, data, hsize⟩, rest) := by
  have hvalue : TOK_HAS_VALUE t := by
    fin_cases ht <;> decide
  have hsigned : ¬ (target.LONG_SIZE = 4 ∧ t = TOK_CLONG ∨
      t ∈ [TOK_CINT, TOK_CCHAR, TOK_LCHAR, TOK_LINENUM]) := by
    fin_cases ht <;> simp +decide
  have hunsigned : ¬ (target.LONG_SIZE = 4 ∧ t = TOK_CULONG ∨ t = TOK_CUINT) := by
    fin_cases ht <;> simp +decide
  have hfloat : t ≠ TOK_CFLOAT := by
    fin_cases ht <;> decide
  have hnat : (BitVec.ofNat 32 data.length).toNat = data.length :=
    Nat.mod_eq_of_lt (hsize.trans (by decide))
  obtain ⟨hcount, hbytes⟩ := hpacks
  have htake : (ws ++ rest).take (words_for data.length) = ws := by
    rw [← hcount, List.take_left]
  have hdrop : (ws ++ rest).drop (words_for data.length) = rest := by
    rw [← hcount, List.drop_left]
  rw [TOK_GET, if_pos hvalue, tok_get, if_neg hsigned, if_neg hunsigned, if_neg hfloat, if_pos ht]
  simp only [hnat, htake, hdrop, hbytes]
  rw [dif_pos ⟨trivial, hsize⟩]

theorem TOK_GET_two {a b : Word} (rest : List Word)
    (ht : t ∈ [TOK_CDOUBLE, TOK_CLLONG, TOK_CULLONG] ∨ target.LONG_SIZE = 8 ∧ t ∈ [TOK_CLONG, TOK_CULONG]) :
    TOK_GET target (t :: a :: b :: rest) cv = some (t, (cv.set 0 a).set 1 b, rest) := by
  have hvalue : TOK_HAS_VALUE t := by
    rcases ht with ht | ⟨-, ht⟩ <;> fin_cases ht <;> decide
  have hsigned : ¬ (target.LONG_SIZE = 4 ∧ t = TOK_CLONG ∨
      t ∈ [TOK_CINT, TOK_CCHAR, TOK_LCHAR, TOK_LINENUM]) := by
    rcases ht with ht | ⟨hlong, ht⟩ <;> fin_cases ht <;> simp +decide [*]
  have hunsigned : ¬ (target.LONG_SIZE = 4 ∧ t = TOK_CULONG ∨ t = TOK_CUINT) := by
    rcases ht with ht | ⟨hlong, ht⟩ <;> fin_cases ht <;> simp +decide [*]
  have hfloat : t ≠ TOK_CFLOAT := by
    rcases ht with ht | ⟨-, ht⟩ <;> fin_cases ht <;> decide
  have hstr : t ∉ [TOK_STR, TOK_LSTR, TOK_PPNUM, TOK_PPSTR] := by
    rcases ht with ht | ⟨-, ht⟩ <;> fin_cases ht <;> decide
  rw [TOK_GET, if_pos hvalue, tok_get, if_neg hsigned, if_neg hunsigned, if_neg hfloat, if_neg hstr, if_pos ht]
  rfl

theorem TOK_GET_ldouble (p : List Word) :
    TOK_GET target (TOK_CLDOUBLE :: p) cv =
      (copy_words cv 0 (target.LDOUBLE_SIZE / 4) p).map fun got => (TOK_CLDOUBLE, got) := by
  have hsigned : ¬ (target.LONG_SIZE = 4 ∧ TOK_CLDOUBLE = TOK_CLONG ∨
      TOK_CLDOUBLE ∈ [TOK_CINT, TOK_CCHAR, TOK_LCHAR, TOK_LINENUM]) := by simp +decide
  have hunsigned : ¬ (target.LONG_SIZE = 4 ∧ TOK_CLDOUBLE = TOK_CULONG ∨ TOK_CLDOUBLE = TOK_CUINT) := by
    simp +decide
  have htwo : ¬ (TOK_CLDOUBLE ∈ [TOK_CDOUBLE, TOK_CLLONG, TOK_CULLONG] ∨
      target.LONG_SIZE = 8 ∧ TOK_CLDOUBLE ∈ [TOK_CLONG, TOK_CULONG]) := by simp +decide
  rw [TOK_GET, if_pos (by decide)]
  unfold tok_get
  simp only [if_neg hsigned, if_neg hunsigned, if_neg htwo]
  rw [if_neg (by decide), if_neg (by decide), if_pos trivial]
  rcases target.ldouble_size with h | h | h <;> rw [h] <;> rfl

theorem TOK_GET_plain (rest : List Word) (ht : ¬ TOK_HAS_VALUE t) :
    TOK_GET target (t :: rest) cv = some (t, cv, rest) := by
  rw [TOK_GET, if_neg ht]

end get

/-- What is stored for a token is read back with the same value. -/
theorem TOK_GET_of_payload {target : Target} {t : Word} {cv : CValue} {ws : List Word}
    (hpayload : Payload target t cv ws) (hrange : InRange target t cv) (rest : List Word) (cv₀ : CValue) :
    ∃ got, TOK_GET target (t :: (ws ++ rest)) cv₀ = some (t, got, rest) ∧
      value target t got = value target t cv := by
  obtain ⟨hsigned, hunsigned⟩ := hrange
  unfold Payload at hpayload
  have hpair : ∀ a : CValue, ((a.set 0 (cv.tab 0)).set 1 (cv.tab 1)).i = cv.i := fun a => by
    simp [CValue.i, CValue.set]
  by_cases hvalue : TOK_HAS_VALUE t
  · rcases has_value_cases hvalue with ht | rfl | rfl | rfl | rfl | ht | ht | rfl | rfl
    · rw [if_pos (.inl (by fin_cases ht <;> decide))] at hpayload
      have hint : ∀ a, value target t a = .int a.i := fun a =>
        value_int target a (by fin_cases ht <;> decide)
      subst hpayload
      refine ⟨_, TOK_GET_signed cv₀ rest (.inl ht), ?_⟩
      rw [hint, hint, CValue.i_set_i, hsigned (.inl ht)]
    · rw [if_pos (.inl (by decide))] at hpayload
      subst hpayload
      refine ⟨_, TOK_GET_unsigned cv₀ rest (.inl rfl), ?_⟩
      rw [value_int _ _ (by decide), value_int _ _ (by decide), CValue.i_set_i, hunsigned (.inl rfl)]
    · rcases target.long_size with h4 | h8
      · rw [if_pos (.inr ⟨h4, by decide⟩)] at hpayload
        subst hpayload
        refine ⟨_, TOK_GET_signed cv₀ rest (.inr ⟨h4, rfl⟩), ?_⟩
        rw [value_int _ _ (by decide), value_int _ _ (by decide), CValue.i_set_i, hsigned (.inr ⟨h4, rfl⟩)]
      · rw [if_neg (by simp +decide [h8]), if_neg (by decide), if_pos (.inr (.inl ⟨h8, by decide⟩))] at hpayload
        subst hpayload
        refine ⟨_, TOK_GET_two cv₀ rest (.inr ⟨h8, by decide⟩), ?_⟩
        rw [value_int _ _ (by decide), value_int _ _ (by decide), hpair]
    · rcases target.long_size with h4 | h8
      · rw [if_pos (.inr ⟨h4, by decide⟩)] at hpayload
        subst hpayload
        refine ⟨_, TOK_GET_unsigned cv₀ rest (.inr ⟨h4, rfl⟩), ?_⟩
        rw [value_int _ _ (by decide), value_int _ _ (by decide), CValue.i_set_i, hunsigned (.inr ⟨h4, rfl⟩)]
      · rw [if_neg (by simp +decide [h8]), if_neg (by decide), if_pos (.inr (.inl ⟨h8, by decide⟩))] at hpayload
        subst hpayload
        refine ⟨_, TOK_GET_two cv₀ rest (.inr ⟨h8, by decide⟩), ?_⟩
        rw [value_int _ _ (by decide), value_int _ _ (by decide), hpair]
    · rw [if_pos (.inl (by decide))] at hpayload
      subst hpayload
      refine ⟨_, TOK_GET_float cv₀ rest, ?_⟩
      simp +decide [value, CValue.set]
    · rw [if_neg (by fin_cases ht <;> simp +decide), if_pos (by fin_cases ht <;> decide)] at hpayload
      obtain ⟨data, rfl, hpacks⟩ := hpayload
      refine ⟨_, TOK_GET_str cv₀ rest ht cv.size_lt hpacks, ?_⟩
      rw [value_str _ _ ht, value_str _ _ ht]
    · rw [if_neg (by fin_cases ht <;> simp +decide), if_neg (by fin_cases ht <;> decide),
        if_pos (.inl (by fin_cases ht <;> decide))] at hpayload
      have hint : ∀ a, value target t a = .int a.i := fun a =>
        value_int target a (by fin_cases ht <;> decide)
      subst hpayload
      refine ⟨_, TOK_GET_two cv₀ rest (.inl (by fin_cases ht <;> decide)), ?_⟩
      rw [hint, hint, hpair]
    · rw [if_neg (by simp +decide), if_neg (by decide), if_pos (.inl (by decide))] at hpayload
      subst hpayload
      refine ⟨_, TOK_GET_two cv₀ rest (.inl (by decide)), ?_⟩
      simp +decide [value, CValue.set]
    · have hone : ¬ (TOK_CLDOUBLE ∈ [TOK_CINT, TOK_CUINT, TOK_CCHAR, TOK_LCHAR, TOK_CFLOAT, TOK_LINENUM] ∨
          target.LONG_SIZE = 4 ∧ TOK_CLDOUBLE ∈ [TOK_CLONG, TOK_CULONG]) := by simp +decide
      have hws : ws = (List.range (target.LDOUBLE_SIZE / 4)).map cv.tab := by
        rw [if_neg hone, if_neg (by decide)] at hpayload
        rcases target.ldouble_size with h | h | h
        · rw [if_pos (.inr (.inr ⟨h, rfl⟩))] at hpayload
          rw [hpayload, h]
          rfl
        · rw [if_neg (by simp +decide [h]), if_pos rfl] at hpayload
          exact hpayload
        · rw [if_neg (by simp +decide [h]), if_pos rfl] at hpayload
          exact hpayload
      have hread : ∀ a, value target TOK_CLDOUBLE a =
          .words ((List.range (target.LDOUBLE_SIZE / 4)).map a.tab) := fun a => by
        simp +decide [value]
      rw [hws, TOK_GET_ldouble]
      simp only [hread]
      rcases target.ldouble_size with h | h | h <;> rw [h]
      · exact ⟨(cv₀.set 0 (cv.tab 0)).set 1 (cv.tab 1), rfl, by simp [List.range_succ, CValue.set]⟩
      · exact ⟨((cv₀.set 0 (cv.tab 0)).set 1 (cv.tab 1)).set 2 (cv.tab 2), rfl,
          by simp [List.range_succ, CValue.set]⟩
      · exact ⟨(((cv₀.set 0 (cv.tab 0)).set 1 (cv.tab 1)).set 2 (cv.tab 2)).set 3 (cv.tab 3), rfl,
          by simp [List.range_succ, CValue.set]⟩
  · have hldouble : t ≠ TOK_CLDOUBLE := by
      rintro rfl
      exact hvalue (by decide)
    have hlong : t ∉ [TOK_CLONG, TOK_CULONG] :=
      fun ht => hvalue (by fin_cases ht <;> decide)
    have hone : t ∉ [TOK_CINT, TOK_CUINT, TOK_CCHAR, TOK_LCHAR, TOK_CFLOAT, TOK_LINENUM] :=
      fun ht => hvalue (by fin_cases ht <;> decide)
    have hpp : t ∉ [TOK_PPNUM, TOK_PPSTR, TOK_STR, TOK_LSTR] :=
      fun ht => hvalue (by fin_cases ht <;> decide)
    have htwo : t ∉ [TOK_CDOUBLE, TOK_CLLONG, TOK_CULLONG] :=
      fun ht => hvalue (by fin_cases ht <;> decide)
    have hints : t ∉ [TOK_CCHAR, TOK_LCHAR, TOK_CINT, TOK_CUINT, TOK_CLLONG, TOK_CULLONG, TOK_CLONG,
      TOK_CULONG, TOK_LINENUM] :=
      fun ht => hvalue (by fin_cases ht <;> decide)
    have hstr : t ∉ [TOK_STR, TOK_LSTR, TOK_PPNUM, TOK_PPSTR] :=
      fun ht => hvalue (by fin_cases ht <;> decide)
    have hfloat : t ≠ TOK_CFLOAT := by
      rintro rfl
      exact hvalue (by decide)
    have hdouble : t ≠ TOK_CDOUBLE := by
      rintro rfl
      exact hvalue (by decide)
    have hread : ∀ a, value target t a = .none := fun a => by
      rw [value, if_neg hints, if_neg hfloat, if_neg hdouble, if_neg hldouble, if_neg hstr]
    rw [if_neg (not_or.mpr ⟨hone, fun h => hlong h.2⟩), if_neg hpp,
      if_neg (not_or.mpr ⟨htwo, not_or.mpr ⟨fun h => hlong h.2, fun h => hldouble h.2⟩⟩),
      if_neg hldouble] at hpayload
    rw [hpayload]
    exact ⟨cv₀, TOK_GET_plain cv₀ rest hvalue, by rw [hread, hread]⟩

/-- The words of tokens one behind the other. -/
inductive Stored (target : Target) : List (Word × CValue) → List Word → Prop where
  | nil : Stored target [] []
  | cons {t : Word} {cv : CValue} {ws p : List Word} {tokens : List (Word × CValue)}
      (hpayload : Payload target t cv ws) (hrest : Stored target tokens p) :
      Stored target ((t, cv) :: tokens) (t :: (ws ++ p))

/-- A string that gets tokens and the 0 holds their words behind what it held. -/
theorem add_tokens_spec (mem : Realloc Word) (target : Target) (tokens : List (Word × CValue))
    {s : TokenString} (hs : s.WF) :
    ∃ r p, add_tokens mem target s tokens = some r ∧ Stored target tokens p ∧
      r.content = s.content ++ p ++ [0] := by
  induction tokens generalizing s with
  | nil =>
    obtain ⟨r, hreserve, hcontent, hroom, hlen⟩ := reserve_spec mem hs 0
    obtain ⟨r', hput, hcontent', -, -⟩ := put_spec r [0] (by
      rw [List.length_singleton]
      omega)
    refine ⟨r', [], ?_, .nil, ?_⟩
    · rw [Nat.add_zero] at hreserve
      rw [add_tokens, tok_str_add, hreserve, hput]
    · rw [hcontent', hcontent, List.append_nil]
  | cons token tokens ih =>
    obtain ⟨r, ws, hadd, hpayload, hcontent, hwf⟩ :=
      tok_str_add2_spec mem target hs token.1 token.2
    obtain ⟨r', p, hadds, hstored, hcontent'⟩ := ih hwf
    refine ⟨r', token.1 :: (ws ++ p), ?_, .cons hpayload hstored, ?_⟩
    · rw [add_tokens, hadd, Option.bind_some, hadds]
    · rw [hcontent', hcontent]
      simp only [List.append_assoc, List.cons_append]

/-- The tokens with what they are worth. -/
def values (target : Target) (tokens : List (Word × CValue)) : List (Word × Value) :=
  tokens.map fun token => (token.1, value target token.1 token.2)

/-- Words of tokens and a 0 behind them are read as the tokens. -/
theorem get_tokens_of_stored {target : Target} {tokens : List (Word × CValue)} {p : List Word}
    (hstored : Stored target tokens p)
    (htokens : ∀ token ∈ tokens, token.1 ≠ 0 ∧ InRange target token.1 token.2) (rest : List Word)
    (cv₀ : CValue) :
    ∃ got, get_tokens target (tokens.length + 1) (p ++ 0 :: rest) cv₀ = some got ∧
      values target got = values target tokens := by
  induction hstored generalizing cv₀ with
  | nil =>
    refine ⟨[], ?_, rfl⟩
    have hget : TOK_GET target (0 :: rest) cv₀ = some (0, cv₀, rest) :=
      TOK_GET_plain cv₀ rest (by decide)
    rw [List.length_nil, List.nil_append, get_tokens, hget]
    exact if_pos rfl
  | @cons t cv ws p tokens hpayload hrest ih =>
    obtain ⟨hne, hrange⟩ := htokens (t, cv) List.mem_cons_self
    obtain ⟨got, hget, hvalue⟩ := TOK_GET_of_payload hpayload hrange (p ++ 0 :: rest) cv₀
    obtain ⟨tail, htail, hvalues⟩ := ih (fun token hmem => htokens token (List.mem_cons_of_mem _ hmem)) got
    refine ⟨(t, got) :: tail, ?_, ?_⟩
    · rw [List.cons_append, List.append_assoc, List.length_cons, get_tokens, hget]
      simp only [if_neg hne, htail, Option.map_some]
    · rw [values, List.map_cons, hvalue]
      exact congrArg _ hvalues

/-- Tokens that are added to an empty string, whatever its array holds and wherever the array is
    allocated again, are what `TOK_GET` reads from its start up to the 0. -/
theorem get_tokens_add_tokens (mem : Realloc Word) (target : Target) {s : TokenString} (hempty : s.len = 0)
    {tokens : List (Word × CValue)}
    (htokens : ∀ token ∈ tokens, token.1 ≠ 0 ∧ InRange target token.1 token.2) (cv₀ : CValue) :
    ∃ r got, add_tokens mem target s tokens = some r ∧
      get_tokens target (tokens.length + 1) r.str cv₀ = some got ∧
      values target got = values target tokens := by
  have hs : s.WF := by
    rw [TokenString.WF, hempty]
    exact Nat.zero_le _
  obtain ⟨r, p, hadd, hstored, hcontent⟩ := add_tokens_spec mem target tokens hs
  have hstr : r.str = p ++ 0 :: r.str.drop r.len := by
    have hsplit := List.take_append_drop r.len r.str
    have hnone : s.content = [] := by rw [TokenString.content, hempty, List.take_zero]
    rw [TokenString.content, hnone, List.nil_append] at hcontent
    rw [hcontent, List.append_assoc] at hsplit
    exact hsplit.symm
  obtain ⟨got, hget, hvalues⟩ := get_tokens_of_stored hstored htokens (r.str.drop r.len) cv₀
  rw [← hstr] at hget
  exact ⟨r, got, hadd, hget, hvalues⟩

theorem get_tokens_add_string :
    ∃ r got, add_tokens (filled 0) ⟨8, 16, .inr rfl, .inr (.inr rfl)⟩ tok_str_new
        [(43, ⟨fun _ => 0, [], by decide⟩), (TOK_CINT, ⟨Function.update (fun _ => 0) 0 7, [], by decide⟩),
          (TOK_STR, ⟨fun _ => 0, [97, 0, 98, 99, 0], by decide⟩)] = some r ∧
      get_tokens ⟨8, 16, .inr rfl, .inr (.inr rfl)⟩ 4 r.str ⟨fun _ => 0, [], by decide⟩ = some got ∧
      values ⟨8, 16, .inr rfl, .inr (.inr rfl)⟩ got =
        [(43, .none), (TOK_CINT, .int 7), (TOK_STR, .str [97, 0, 98, 99, 0])] :=
  get_tokens_add_tokens (filled 0) ⟨8, 16, .inr rfl, .inr (.inr rfl)⟩ rfl (by
    intro token htoken
    fin_cases htoken <;> refine ⟨by decide, ?_⟩ <;> simp +decide [InRange]) _

end tcc.pp
