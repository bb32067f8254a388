import Tcc.Lib.QuadWiden

/-! `__trunctfsf2` and `__trunctfdf2` of `lib/lib-arm64.c`, and what they undo. -/

namespace tcc.lib.quad

open machine.ieee machine.jam machine.double_word

/-- The last steps for a single number: the exponent field and the fraction with two more bits. -/
def f3_single_round (exp : Int) (x : BitVec 32) : BitVec 32 :=
  let s := if exp < 0 then (0, x >>> (-exp).toNat ||| (word (x <<< (32 + exp).toNat != 0)).setWidth 32) else (exp, x)
  let y := if s.2 &&& 3#32 = 3#32 ∨ s.2 &&& 7#32 = 6#32 then s.2 + 4#32 else s.2
  y >>> 2 + BitVec.ofInt 32 s.1 <<< 23

def trunctfsf2 (f : U128) : BitVec 32 :=
  let u := f3_unpack f
  let sgn := (word u.sgn).setWidth 32 <<< 31
  if u.exp = 32767 ∧ u.mnt.x0 ||| u.mnt.x1 <<< 16 ≠ 0 then
    0x7fc00000#32 ||| sgn ||| (u.mnt.x1 >>> 25 &&& 0x7fffff#64).setWidth 32
  else if 16510 < u.exp then 0x7f800000#32 ||| sgn
  else if u.exp < 16233 then sgn
  else f3_single_round (u.exp - 16257)
    ((u.mnt.x1 >>> 23 ||| word (u.mnt.x0 ||| u.mnt.x1 <<< 41 != 0)).setWidth 32) ||| sgn

/-- The last steps for a double number. -/
def f3_double_round (exp : Int) (x : BitVec 64) : BitVec 64 :=
  let s := if exp < 0 then (0, x >>> (-exp).toNat ||| word (x <<< (64 + exp).toNat != 0)) else (exp, x)
  let y := if s.2 &&& 3#64 = 3#64 ∨ s.2 &&& 7#64 = 6#64 then s.2 + 4#64 else s.2
  y >>> 2 + BitVec.ofInt 64 s.1 <<< 52

def trunctfdf2 (f : U128) : BitVec 64 :=
  let u := f3_unpack f
  let sgn := word u.sgn <<< 63
  if u.exp = 32767 ∧ u.mnt.x0 ||| u.mnt.x1 <<< 16 ≠ 0 then
    0x7ff8000000000000#64 ||| sgn ||| u.mnt.x1 <<< 16 >>> 12 ||| u.mnt.x0 >>> 60
  else if 17406 < u.exp then 0x7ff0000000000000#64 ||| sgn
  else if u.exp < 15308 then sgn
  else f3_double_round (u.exp - 15361)
    (u.mnt.x1 <<< 6 ||| u.mnt.x0 >>> 58 ||| word (u.mnt.x0 <<< 6 != 0)) ||| sgn

section rounds

variable {g : Format} {u : Unpacked} {p : Pattern} {E sh s : Nat} {off : Int}

/-- A fraction that is shifted to the bits of a shorter format and rounded there. -/
theorem narrow_rounds (h : u.Represents p) (hs : s + g.fraction_bits + 2 = 112) (hoff : off + g.bias = 16383)
    (hE : 1 ≤ E) (hsh : s ≤ sh) (hexp : (E - sh : Int) = u.exp - off - s)
    (hcase : E = 1 ∨ 2 ^ 112 ≤ u.mnt.toNat ∧ sh = s) :
    g.Rounds (binary128.magnitude_value p.magnitude)
      (min g.infinity ((E - 1) * 2 ^ g.fraction_bits + round_quarter (jam_shift sh u.mnt.toNat))) := by
  have hjam := (Jam.of_eq u.mnt.toNat).shift sh
  have hpos : (0 : ℚ) < 2 ^ sh := by positivity
  have hsplit : (2 : ℚ) ^ 112 = 2 ^ s * 2 ^ g.fraction_bits * 4 := by
    rw [← hs, pow_add, pow_add]
    norm_num
  have hscale : binary128.magnitude_value p.magnitude = u.mnt.toNat / 2 ^ sh / 4 * 2 ^ (E - 1) * g.least := by
    have hsum : u.exp - 16495 = -(sh : Int) + (-2) + ((E - 1 : Nat) : Int) + (1 - g.bias - g.fraction_bits) := by
      omega
    have hquarter : (2 : ℚ) ^ (-2 : Int) = 1 / 4 := by norm_num
    rw [h.magnitude_value, Format.least_zpow, hsum, zpow_add₀ (by norm_num), zpow_add₀ (by norm_num),
      zpow_add₀ (by norm_num), zpow_neg, zpow_natCast, zpow_natCast, hquarter]
    ring
  rw [hscale]
  refine Format.rounds_of_scaled hjam.nearest hE ?_ ?_
  · refine hcase.imp_right fun ⟨hlo, hsh⟩ => ?_
    have hlo' : (2 : ℚ) ^ 112 ≤ u.mnt.toNat := by exact_mod_cast hlo
    rw [hsplit] at hlo'
    rw [hsh, div_div, le_div_iff₀ (by positivity)]
    linarith
  · have hhi : (u.mnt.toNat : ℚ) < 2 ^ 112 * 2 := by exact_mod_cast h.high
    have hpow : (2 : ℚ) ^ s ≤ 2 ^ sh := pow_le_pow_right₀ (by norm_num) hsh
    have hmul := mul_le_mul_of_nonneg_right hpow (show (0 : ℚ) ≤ 2 ^ g.fraction_bits * 4 * 2 by positivity)
    rw [hsplit] at hhi
    rw [div_div, div_lt_iff₀ (by positivity)]
    linarith

/-- A number whose exponent is too small for half of the least number is rounded to zero. -/
theorem narrow_underflow (h : u.Represents p) (hexp : u.exp + 113 - 16495 ≤ -(g.bias : Int) - g.fraction_bits) :
    g.Rounds (binary128.magnitude_value p.magnitude) 0 := by
  have hleast := g.least_pos
  have hvalue : binary128.magnitude_value p.magnitude =
      binary128.magnitude_value p.magnitude / g.least * 2 ^ (1 - 1) * g.least := by
    rw [Nat.sub_self, pow_zero, mul_one, div_mul_cancel₀ _ hleast.ne']
  have hlt : binary128.magnitude_value p.magnitude < g.least * (1 / 2) := by
    have hhigh : (u.mnt.toNat : ℚ) < 2 ^ (113 : Int) := by exact_mod_cast h.high
    have hpow : (0 : ℚ) < 2 ^ (u.exp - 16495) := zpow_pos (by norm_num) _
    have hhalf : (1 / 2 : ℚ) = 2 ^ (-1 : Int) := by norm_num
    have hsum : (113 : Int) + (u.exp - 16495) ≤ 1 - g.bias - g.fraction_bits + -1 := by omega
    rw [h.magnitude_value, Format.least_zpow, hhalf, ← zpow_add₀ (by norm_num)]
    calc u.mnt.toNat * (2 : ℚ) ^ (u.exp - 16495) < 2 ^ (113 : Int) * 2 ^ (u.exp - 16495) :=
        mul_lt_mul_of_pos_right hhigh hpow
      _ = 2 ^ ((113 : Int) + (u.exp - 16495)) := (zpow_add₀ (by norm_num) _ _).symm
      _ ≤ 2 ^ (1 - g.bias - g.fraction_bits + -1 : Int) := zpow_le_zpow_right₀ (by norm_num) hsum
  have hnonneg : 0 ≤ binary128.magnitude_value p.magnitude :=
    mul_nonneg (Nat.cast_nonneg _) binary128.least_pos.le
  have hhalf : binary128.magnitude_value p.magnitude / g.least < 1 / 2 := by
    rw [div_lt_iff₀ hleast, mul_comm]
    exact hlt
  have hnear : NearestEven (binary128.magnitude_value p.magnitude / g.least) 0 := by
    refine ⟨?_, fun _ => Nat.dvd_zero 2⟩
    rw [Nat.cast_zero, sub_zero, abs_of_nonneg (div_nonneg hnonneg hleast.le)]
    exact hhalf.le
  have hbound : (1 : ℚ) / 2 < 2 * 2 ^ g.fraction_bits := by
    have hone : (1 : ℚ) ≤ 2 ^ g.fraction_bits := one_le_pow₀ (by norm_num)
    linarith
  have hrounds := Format.rounds_of_scaled (f := g) hnear (le_refl 1) (.inl rfl) (lt_trans hhalf hbound)
  rw [← hvalue, Nat.sub_self, Nat.zero_mul, Nat.zero_add, min_eq_right (Nat.zero_le _)] at hrounds
  exact hrounds

/-- A number whose exponent is greater than all of the format is rounded to infinity. -/
theorem narrow_overflow (h : u.Represents p) (hexp : (g.bias : Int) + 16384 ≤ u.exp) :
    g.Rounds (binary128.magnitude_value p.magnitude) g.infinity := by
  have hlow : (2 : ℚ) ^ (112 : Int) ≤ u.mnt.toNat := by
    exact_mod_cast h.low.resolve_left (by omega)
  have hpow : (0 : ℚ) < 2 ^ (u.exp - 16495) := zpow_pos (by norm_num) _
  have hover : g.overflow ≤ binary128.magnitude_value p.magnitude := by
    have hfraction : (0 : ℚ) < 1 / 2 ^ (g.fraction_bits + 1) := by positivity
    have hbias : (0 : ℚ) < 2 ^ g.bias := by positivity
    rw [h.magnitude_value, Format.overflow]
    calc (2 - 1 / 2 ^ (g.fraction_bits + 1) : ℚ) * 2 ^ g.bias ≤ 2 * 2 ^ g.bias :=
        mul_le_mul_of_nonneg_right (by linarith) hbias.le
      _ = 2 ^ (1 + g.bias : Int) := by rw [zpow_add₀ (by norm_num), zpow_one, zpow_natCast]
      _ ≤ 2 ^ ((112 : Int) + (u.exp - 16495)) := zpow_le_zpow_right₀ (by norm_num) (by omega)
      _ = 2 ^ (112 : Int) * 2 ^ (u.exp - 16495) := zpow_add₀ (by norm_num) _ _
      _ ≤ u.mnt.toNat * 2 ^ (u.exp - 16495) := mul_le_mul_of_nonneg_right hlow hpow.le
  rw [Format.Rounds, if_pos hover]

end rounds

section words

theorem toNat_jam {w n : Nat} {x b : BitVec w} (hn : n ≤ w) (hb : b.toNat = if x <<< (w - n) = 0 then 0 else 1) :
    (x >>> n ||| b).toNat = jam_shift n x.toNat := by
  rw [BitVec.toNat_or, toNat_shr, hb, jam_shift]
  simp only [shl_eq_zero_iff x hn]

theorem toNat_word_ne {w : Nat} (x : BitVec w) : (word (x != 0)).toNat = if x = 0 then 0 else 1 := by
  rw [toNat_word]
  by_cases hx : x = 0
  · rw [if_pos hx, if_neg (by rw [bne_iff_ne]; exact not_not.mpr hx)]
  · rw [if_neg hx, if_pos (bne_iff_ne.mpr hx)]

/-- Adding to the last bits before they are cut off. -/
theorem toNat_rounded {w : Nat} (x c3 c7 c6 c4 : BitVec w) (h3 : c3.toNat = 3) (h7 : c7.toNat = 7) (h6 : c6.toNat = 6)
    (h4 : c4.toNat = 4) (hx : x.toNat + 4 < 2 ^ w) :
    ((if x &&& c3 = c3 ∨ x &&& c7 = c6 then x + c4 else x) >>> 2).toNat = round_quarter x.toNat := by
  have hmask3 : (x &&& c3).toNat = x.toNat % 4 := by
    rw [BitVec.toNat_and, h3]
    exact Nat.and_two_pow_sub_one_eq_mod _ 2
  have hmask7 : (x &&& c7).toNat = x.toNat % 8 := by
    rw [BitVec.toNat_and, h7]
    exact Nat.and_two_pow_sub_one_eq_mod _ 3
  have hcond : (x &&& c3 = c3 ∨ x &&& c7 = c6) ↔ (x.toNat % 4 = 3 ∨ x.toNat % 4 = 2 ∧ x.toNat / 4 % 2 = 1) := by
    rw [← BitVec.toNat_inj, ← BitVec.toNat_inj, hmask3, hmask7, h3, h6]
    omega
  unfold round_quarter
  by_cases hround : x.toNat % 4 = 3 ∨ x.toNat % 4 = 2 ∧ x.toNat / 4 % 2 = 1
  · rw [if_pos (hcond.mpr hround), if_pos hround, toNat_shr, BitVec.toNat_add, h4, Nat.mod_eq_of_lt hx]
    omega
  · rw [if_neg (mt hcond.mp hround), if_neg hround, toNat_shr]
    omega

/-- A sign before the other bits. -/
theorem word_pattern_or_sign {w : Nat} {y s : BitVec (w + 1)} {sgn : Bool} (hs : s.toNat = (if sgn then 1 else 0) * 2 ^ w)
    (hy : y.toNat < 2 ^ w) : word_pattern (y ||| s) = ⟨sgn, y.toNat⟩ := by
  have hor : (y ||| s).toNat = (if sgn then 1 else 0) * 2 ^ w + y.toNat := by
    rw [BitVec.or_comm, toNat_or (by rw [hs]; exact Dvd.intro_left _ rfl) hy, hs]
  rw [word_pattern, Pattern.mk.injEq, Nat.add_sub_cancel, hor, Nat.mul_add_mod_of_lt hy, BitVec.msb_eq_decide, hor]
  refine ⟨?_, rfl⟩
  cases sgn
  · simpa using hy
  · simp

theorem round_quarter_le (x : Nat) : round_quarter x ≤ x / 4 + 1 := by
  unfold round_quarter
  split <;> omega

end words

section single

variable {exp : Int} {x : BitVec 32}

theorem f3_single_round_spec (hlo : -32 ≤ exp) (hhi : exp ≤ 253) (hx : x.toNat < 2 ^ 26) :
    (f3_single_round exp x).toNat = exp.toNat * 2 ^ 23 + round_quarter (jam_shift (-exp).toNat x.toNat) := by
  obtain ⟨y, hy, hs⟩ : ∃ y : BitVec 32, y.toNat = jam_shift (-exp).toNat x.toNat ∧
      (if exp < 0 then (0, x >>> (-exp).toNat ||| (word (x <<< (32 + exp).toNat != 0)).setWidth 32) else (exp, x)) =
        ((exp.toNat : Int), y) := by
    split
    · rename_i hneg
      obtain ⟨n, hn⟩ : ∃ n, (-exp).toNat = n := ⟨_, rfl⟩
      have hzero : exp.toNat = 0 := by omega
      have hsub : (32 + exp).toNat = 32 - n := by omega
      rw [hn, hsub, hzero]
      refine ⟨_, toNat_jam (by omega) ?_, rfl⟩
      rw [BitVec.toNat_setWidth, toNat_word_ne]
      split <;> rfl
    · rename_i hnonneg
      have hzero : (-exp).toNat = 0 := by omega
      rw [hzero, jam_shift_zero, Int.toNat_of_nonneg (by omega)]
      exact ⟨x, rfl, rfl⟩
  have hle := jam_shift_le (-exp).toNat x.toNat
  have hdiv := Nat.div_le_self x.toNat (2 ^ (-exp).toNat)
  have hround := toNat_rounded y 3#32 7#32 6#32 4#32 rfl rfl rfl rfl (by omega)
  have hexp : (BitVec.ofInt 32 (exp.toNat : Int) <<< 23).toNat = exp.toNat * 2 ^ 23 := by
    rw [BitVec.ofInt_natCast, toNat_shl, BitVec.toNat_ofNat]
    omega
  have hquarter := round_quarter_le y.toNat
  unfold f3_single_round
  simp only [hs]
  rw [BitVec.toNat_add, hround, hexp, ← hy]
  omega

theorem trunctfsf2_converts (f : U128) : binary128.Converts binary32 f.pattern (word_pattern (trunctfsf2 f)) := by
  have h := f3_unpack_represents f
  have hinf : binary32.infinity = 255 * 2 ^ 23 := rfl
  have hbits : binary32.fraction_bits = 23 := rfl
  have hbias : binary32.bias = 127 := rfl
  have hs : ((word (f3_unpack f).sgn).setWidth 32 <<< 31).toNat = (if (f3_unpack f).sgn then 1 else 0) * 2 ^ 31 := by
    rw [h.sgn]
    cases f.pattern.neg <;> rfl
  unfold trunctfsf2
  dsimp only
  split
  · rename_i hnan
    refine .of_nan (h.isNan_iff.mpr hnan) ?_
    have hquiet : (0x7fc00000#32).toNat = 0x7fc00000 := rfl
    have hle : 0x7fc00000 ≤ (word_pattern (0x7fc00000#32 ||| (word (f3_unpack f).sgn).setWidth 32 <<< 31 |||
        ((f3_unpack f).mnt.x1 >>> 25 &&& 0x7fffff#64).setWidth 32)).magnitude := by
      rw [word_pattern, BitVec.toNat_or, BitVec.toNat_or, Nat.or_mod_two_pow, Nat.or_mod_two_pow, hquiet]
      exact le_trans Nat.left_le_or Nat.left_le_or
    rw [Format.IsNan, hinf]
    omega
  rename_i hnan
  rw [← h.isNan_iff] at hnan
  split
  · rename_i hlarge
    have hpattern := word_pattern_or_sign (y := 0x7f800000#32) hs (by decide)
    have hinf' : (0x7f800000#32).toNat = binary32.infinity := rfl
    rw [hpattern, hinf', h.sgn]
    by_cases hexp : (f3_unpack f).exp = 32767
    · exact .of_infinite ((h.isInfinite_of_exp hnan).mpr hexp) rfl rfl
    · refine .of_finite (h.isFinite_iff.mpr hexp) rfl (narrow_overflow h ?_)
      rw [hbias]
      push_cast
      omega
  rename_i hexp
  have hfinite := h.isFinite_iff.mpr (show (f3_unpack f).exp ≠ 32767 by omega)
  split
  · rename_i hsmall
    have hpattern := word_pattern_or_sign (y := 0#32) hs (by decide)
    rw [BitVec.zero_or] at hpattern
    rw [hpattern, h.sgn]
    refine .of_finite hfinite rfl (narrow_underflow h ?_)
    rw [hbits, hbias]
    push_cast
    omega
  · rename_i hsmall
    have hhigh := h.high
    have hjam : jam_shift 87 (f3_unpack f).mnt.toNat < 2 ^ 26 := jam_shift_lt (by decide) (by omega)
    obtain ⟨x, hx, hval⟩ : ∃ x : BitVec 32, (((f3_unpack f).mnt.x1 >>> 23 |||
        word ((f3_unpack f).mnt.x0 ||| (f3_unpack f).mnt.x1 <<< 41 != 0)).setWidth 32) = x ∧
        x.toNat = jam_shift 87 (f3_unpack f).mnt.toNat := by
      have hlow := (f3_unpack f).mnt.x0.isLt
      have heq := (f3_unpack f).mnt.toNat_eq
      have hdiv : ((f3_unpack f).mnt.x1 >>> 23).toNat = (f3_unpack f).mnt.toNat / 2 ^ 87 := by
        rw [toNat_shr, heq]
        omega
      have hlost : (f3_unpack f).mnt.x0 ||| (f3_unpack f).mnt.x1 <<< 41 = 0 ↔
          (f3_unpack f).mnt.toNat % 2 ^ 87 = 0 := by
        rw [or_eq_zero_iff, eq_zero_iff, eq_zero_iff, toNat_shl, heq]
        omega
      have hword : ((f3_unpack f).mnt.x1 >>> 23 |||
          word ((f3_unpack f).mnt.x0 ||| (f3_unpack f).mnt.x1 <<< 41 != 0)).toNat =
          jam_shift 87 (f3_unpack f).mnt.toNat := by
        rw [BitVec.toNat_or, hdiv, toNat_word_ne, jam_shift]
        simp only [hlost]
      refine ⟨_, rfl, ?_⟩
      rw [BitVec.toNat_setWidth, hword]
      omega
    rw [hx]
    have hsum := @f3_single_round_spec ((f3_unpack f).exp - 16257) x (by omega) (by omega) (by omega)
    rw [hval, jam_shift_jam_shift] at hsum
    obtain ⟨e, he⟩ : ∃ e, (f3_unpack f).exp - 16257 = e := ⟨_, rfl⟩
    have hquarter := round_quarter_le (jam_shift (87 + (-e).toNat) (f3_unpack f).mnt.toNat)
    have hfraction : jam_shift (87 + (-e).toNat) (f3_unpack f).mnt.toNat < 2 ^ 26 := by
      rw [← jam_shift_jam_shift]
      have hone := Nat.one_le_two_pow (n := (-e).toNat)
      have hmul := Nat.mul_le_mul_left (2 ^ 26) hone
      exact jam_shift_lt (by decide) (by omega)
    rw [he] at hsum ⊢
    have hlt : (f3_single_round e x).toNat < 2 ^ 31 := by
      rw [hsum]
      omega
    have hrounds := @narrow_rounds binary32 _ _ (e.toNat + 1) (87 + (-e).toNat) 87 16256
      h rfl rfl (by omega) (by omega) (by push_cast; omega) (by
        have hcase := h.low
        omega)
    rw [hbits, hinf, Nat.add_sub_cancel, min_eq_right (by omega)] at hrounds
    rw [word_pattern_or_sign hs hlt, h.sgn, hsum]
    exact .of_finite hfinite rfl hrounds

end single

section double

variable {exp : Int} {x : BitVec 64}

theorem f3_double_round_spec (hlo : -64 ≤ exp) (hhi : exp ≤ 2045) (hx : x.toNat < 2 ^ 55) :
    (f3_double_round exp x).toNat = exp.toNat * 2 ^ 52 + round_quarter (jam_shift (-exp).toNat x.toNat) := by
  obtain ⟨y, hy, hs⟩ : ∃ y : BitVec 64, y.toNat = jam_shift (-exp).toNat x.toNat ∧
      (if exp < 0 then (0, x >>> (-exp).toNat ||| word (x <<< (64 + exp).toNat != 0)) else (exp, x)) =
        ((exp.toNat : Int), y) := by
    split
    · rename_i hneg
      obtain ⟨n, hn⟩ : ∃ n, (-exp).toNat = n := ⟨_, rfl⟩
      have hzero : exp.toNat = 0 := by omega
      have hsub : (64 + exp).toNat = 64 - n := by omega
      rw [hn, hsub, hzero]
      refine ⟨_, toNat_jam (by omega) ?_, rfl⟩
      exact toNat_word_ne _
    · rename_i hnonneg
      have hzero : (-exp).toNat = 0 := by omega
      rw [hzero, jam_shift_zero, Int.toNat_of_nonneg (by omega)]
      exact ⟨x, rfl, rfl⟩
  have hle := jam_shift_le (-exp).toNat x.toNat
  have hdiv := Nat.div_le_self x.toNat (2 ^ (-exp).toNat)
  have hround := toNat_rounded y 3#64 7#64 6#64 4#64 rfl rfl rfl rfl (by omega)
  have hexp : (BitVec.ofInt 64 (exp.toNat : Int) <<< 52).toNat = exp.toNat * 2 ^ 52 := by
    rw [BitVec.ofInt_natCast, toNat_shl, BitVec.toNat_ofNat]
    omega
  have hquarter := round_quarter_le y.toNat
  unfold f3_double_round
  simp only [hs]
  rw [BitVec.toNat_add, hround, hexp, ← hy]
  omega

theorem trunctfdf2_converts (f : U128) : binary128.Converts binary64 f.pattern (word_pattern (trunctfdf2 f)) := by
  have h := f3_unpack_represents f
  have hinf : binary64.infinity = 2047 * 2 ^ 52 := rfl
  have hbits : binary64.fraction_bits = 52 := rfl
  have hbias : binary64.bias = 1023 := rfl
  have hs : (word (f3_unpack f).sgn <<< 63).toNat = (if (f3_unpack f).sgn then 1 else 0) * 2 ^ 63 := by
    rw [h.sgn]
    cases f.pattern.neg <;> rfl
  unfold trunctfdf2
  dsimp only
  split
  · rename_i hnan
    refine .of_nan (h.isNan_iff.mpr hnan) ?_
    have hquiet : (0x7ff8000000000000#64).toNat = 0x7ff8000000000000 := rfl
    have hle : 0x7ff8000000000000 ≤ (word_pattern (0x7ff8000000000000#64 ||| word (f3_unpack f).sgn <<< 63 |||
        (f3_unpack f).mnt.x1 <<< 16 >>> 12 ||| (f3_unpack f).mnt.x0 >>> 60)).magnitude := by
      rw [word_pattern, BitVec.toNat_or, BitVec.toNat_or, BitVec.toNat_or, Nat.or_mod_two_pow, Nat.or_mod_two_pow,
        Nat.or_mod_two_pow, hquiet]
      exact le_trans Nat.left_le_or (le_trans Nat.left_le_or Nat.left_le_or)
    rw [Format.IsNan, hinf]
    omega
  rename_i hnan
  rw [← h.isNan_iff] at hnan
  split
  · rename_i hlarge
    have hpattern := word_pattern_or_sign (y := 0x7ff0000000000000#64) hs (by decide)
    have hinf' : (0x7ff0000000000000#64).toNat = binary64.infinity := rfl
    rw [hpattern, hinf', h.sgn]
    by_cases hexp : (f3_unpack f).exp = 32767
    · exact .of_infinite ((h.isInfinite_of_exp hnan).mpr hexp) rfl rfl
    · refine .of_finite (h.isFinite_iff.mpr hexp) rfl (narrow_overflow h ?_)
      rw [hbias]
      push_cast
      omega
  rename_i hexp
  have hfinite := h.isFinite_iff.mpr (show (f3_unpack f).exp ≠ 32767 by omega)
  split
  · rename_i hsmall
    have hpattern := word_pattern_or_sign (y := 0#64) hs (by decide)
    rw [BitVec.zero_or] at hpattern
    rw [hpattern, h.sgn]
    refine .of_finite hfinite rfl (narrow_underflow h ?_)
    rw [hbits, hbias]
    push_cast
    omega
  · rename_i hsmall
    have hhigh := h.high
    have hjam : jam_shift 58 (f3_unpack f).mnt.toNat < 2 ^ 55 := jam_shift_lt (by decide) (by omega)
    obtain ⟨x, hx, hval⟩ : ∃ x : BitVec 64, ((f3_unpack f).mnt.x1 <<< 6 ||| (f3_unpack f).mnt.x0 >>> 58 |||
        word ((f3_unpack f).mnt.x0 <<< 6 != 0)) = x ∧ x.toNat = jam_shift 58 (f3_unpack f).mnt.toNat := by
      have hlow := (f3_unpack f).mnt.x0.isLt
      have heq := (f3_unpack f).mnt.toNat_eq
      have htop : ((f3_unpack f).mnt.x1 <<< 6).toNat = (f3_unpack f).mnt.x1.toNat * 2 ^ 6 := by
        rw [toNat_shl]
        omega
      have hrest : ((f3_unpack f).mnt.x0 >>> 58).toNat = (f3_unpack f).mnt.x0.toNat / 2 ^ 58 := toNat_shr _ _
      have hdiv : ((f3_unpack f).mnt.x1 <<< 6 ||| (f3_unpack f).mnt.x0 >>> 58).toNat =
          (f3_unpack f).mnt.toNat / 2 ^ 58 := by
        rw [toNat_or (by rw [htop]; exact Dvd.intro_left _ rfl) (by rw [hrest]; omega), htop, hrest, heq]
        omega
      have hlost : (f3_unpack f).mnt.x0 <<< 6 = 0 ↔ (f3_unpack f).mnt.toNat % 2 ^ 58 = 0 := by
        rw [eq_zero_iff, toNat_shl, heq]
        omega
      refine ⟨_, rfl, ?_⟩
      rw [BitVec.toNat_or, hdiv, toNat_word_ne, jam_shift]
      simp only [hlost]
    rw [hx]
    have hsum := @f3_double_round_spec ((f3_unpack f).exp - 15361) x (by omega) (by omega) (by omega)
    rw [hval, jam_shift_jam_shift] at hsum
    obtain ⟨e, he⟩ : ∃ e, (f3_unpack f).exp - 15361 = e := ⟨_, rfl⟩
    have hquarter := round_quarter_le (jam_shift (58 + (-e).toNat) (f3_unpack f).mnt.toNat)
    have hfraction : jam_shift (58 + (-e).toNat) (f3_unpack f).mnt.toNat < 2 ^ 55 := by
      rw [← jam_shift_jam_shift]
      have hone := Nat.one_le_two_pow (n := (-e).toNat)
      have hmul := Nat.mul_le_mul_left (2 ^ 55) hone
      exact jam_shift_lt (by decide) (by omega)
    rw [he] at hsum ⊢
    have hlt : (f3_double_round e x).toNat < 2 ^ 63 := by
      rw [hsum]
      omega
    have hrounds := @narrow_rounds binary64 _ _ (e.toNat + 1) (58 + (-e).toNat) 58 15360
      h rfl rfl (by omega) (by omega) (by push_cast; omega) (by
        have hcase := h.low
        omega)
    rw [hbits, hinf, Nat.add_sub_cancel, min_eq_right (by omega)] at hrounds
    rw [word_pattern_or_sign hs hlt, h.sgn, hsum]
    exact .of_finite hfinite rfl hrounds

end double

section round_trip

theorem word_pattern_injective {w : Nat} {a b : BitVec (w + 1)} (h : word_pattern a = word_pattern b) : a = b := by
  have ha := a.isLt
  have hb := b.isLt
  rw [pow_succ] at ha hb
  simp only [word_pattern, Pattern.mk.injEq, BitVec.msb_eq_decide, Nat.add_sub_cancel, decide_eq_decide] at h
  obtain ⟨hsign, hmod⟩ := h
  refine BitVec.eq_of_toNat_eq ?_
  rcases Nat.lt_or_ge a.toNat (2 ^ w) with hlt | hge
  · have hlt' : b.toNat < 2 ^ w := Nat.lt_of_not_le fun hle => absurd (hsign.mpr hle) (Nat.not_le.mpr hlt)
    rwa [Nat.mod_eq_of_lt hlt, Nat.mod_eq_of_lt hlt'] at hmod
  · have hge' := hsign.mp hge
    rw [Nat.mod_eq_sub_mod hge, Nat.mod_eq_sub_mod hge', Nat.mod_eq_of_lt (by omega), Nat.mod_eq_of_lt (by omega)] at hmod
    omega

/-- Longer numbers are the same numbers and can be converted back. Shorter ones are the nearest numbers. -/
theorem conversions_spec :
    (∀ a : BitVec 32, binary32.Embeds binary128 (word_pattern a) (extendsftf2 a).pattern ∧
      (¬ binary32.IsNan (word_pattern a) → trunctfsf2 (extendsftf2 a) = a)) ∧
    (∀ a : BitVec 64, binary64.Embeds binary128 (word_pattern a) (extenddftf2 a).pattern ∧
      (¬ binary64.IsNan (word_pattern a) → trunctfdf2 (extenddftf2 a) = a)) ∧
    ∀ f : U128, binary128.Converts binary32 f.pattern (word_pattern (trunctfsf2 f)) ∧
      binary128.Converts binary64 f.pattern (word_pattern (trunctfdf2 f)) :=
  ⟨fun a => ⟨extendsftf2_embeds a, fun ha => word_pattern_injective
      ((extendsftf2_embeds a).converts_back (trunctfsf2_converts _) ha)⟩,
    fun a => ⟨extenddftf2_embeds a, fun ha => word_pattern_injective
      ((extenddftf2_embeds a).converts_back (trunctfdf2_converts _) ha)⟩,
    fun f => ⟨trunctfsf2_converts f, trunctfdf2_converts f⟩⟩

/-- The least single number is a normal quad number. -/
theorem conversions_least : trunctfsf2 (extendsftf2 1#32) = 1#32 :=
  (conversions_spec.1 1#32).2 (by decide)

end round_trip

end tcc.lib.quad
