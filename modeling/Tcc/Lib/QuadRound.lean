import Tcc.Lib.QuadShift

/-! Rounding a fraction to the format. -/

namespace tcc.lib.quad

open machine.ieee machine.jam machine.double_word

section round

theorem f3_round_up_spec (exp : Int) {z : U128} (hz : z.toNat < 2 ^ 113) :
    (f3_round_up exp z).1 = (if z.toNat + 1 = 2 ^ 112 then 1 else if z.toNat + 1 = 2 ^ 113 then exp + 1 else exp) ∧
    (f3_round_up exp z).2.toNat = if z.toNat + 1 = 2 ^ 113 then 2 ^ 112 else z.toNat + 1 := by
  have hlow := z.x0.isLt
  have heq := z.toNat_eq
  have hsucc : ∀ x : BitVec 64, (x + 1#64).toNat = (x.toNat + 1) % 2 ^ 64 := fun x => BitVec.toNat_add x 1
  have hlead : ∀ (x : BitVec 64) (n : Nat), n < 64 → (x = 1#64 <<< n ↔ x.toNat = 2 ^ n) := by
    intro x n hn
    rw [← BitVec.toNat_inj, toNat_shl]
    have hlt : 2 ^ n < 2 ^ 64 := Nat.pow_lt_pow_right (by decide) hn
    have hone : (1#64).toNat = 1 := rfl
    rw [hone, Nat.one_mul, Nat.mod_eq_of_lt hlt]
  unfold f3_round_up
  split
  · rename_i hwrap
    rw [eq_zero_iff, hsucc] at hwrap
    split
    · rename_i hfirst
      rw [hlead _ 48 (by decide), hsucc] at hfirst
      have hsum : z.toNat + 1 = 2 ^ 112 := by omega
      rw [if_pos hsum, if_neg (by omega)]
      refine ⟨rfl, ?_⟩
      rw [U128.toNat_eq, hsucc, hsucc]
      omega
    · rename_i hfirst
      rw [hlead _ 48 (by decide), hsucc] at hfirst
      have hsum : ¬ z.toNat + 1 = 2 ^ 112 := by omega
      rw [if_neg hsum]
      split
      · rename_i hlast
        rw [hlead _ 49 (by decide), hsucc] at hlast
        rw [if_pos (by omega), if_pos (by omega)]
        refine ⟨rfl, ?_⟩
        have hshr := pair_shr (z.x1 + 1#64) (z.x0 + 1#64) (n := 1) (by decide)
        rw [U128.toNat, hshr, pair, hsucc, hsucc]
        omega
      · rename_i hlast
        rw [hlead _ 49 (by decide), hsucc] at hlast
        rw [if_neg (by omega), if_neg (by omega)]
        refine ⟨rfl, ?_⟩
        rw [U128.toNat_eq, hsucc, hsucc]
        omega
  · rename_i hwrap
    rw [eq_zero_iff, hsucc] at hwrap
    rw [if_neg (by omega), if_neg (by omega), if_neg (by omega)]
    refine ⟨rfl, ?_⟩
    rw [U128.toNat_mk, hsucc]
    omega

theorem rounded_up_fields {exp : Int} {y : Nat} (hexp : exp = 0 ∧ y < 2 ^ 114 ∨
    1 ≤ exp ∧ 2 ^ 114 ≤ y ∧ y < 2 ^ 115) :
    0 ≤ (if y / 4 + 1 = 2 ^ 112 then 1 else if y / 4 + 1 = 2 ^ 113 then exp + 1 else exp) ∧
    (if y / 4 + 1 = 2 ^ 112 then 1 else if y / 4 + 1 = 2 ^ 113 then exp + 1 else exp) * 2 ^ 112 +
      ((if y / 4 + 1 = 2 ^ 113 then 2 ^ 112 else y / 4 + 1 : Nat) : Int) % 2 ^ 112 =
      (max exp 1 - 1) * 2 ^ 112 + ((y / 4 + 1 : Nat) : Int) := by
  obtain ⟨q, hq⟩ : ∃ q, y / 4 = q := ⟨_, rfl⟩
  rw [hq]
  rcases hexp with ⟨rfl, hlt⟩ | ⟨hpos, hlo, hhi⟩
  · rw [max_eq_right (by norm_num), if_neg (show ¬ q + 1 = 2 ^ 113 by omega), if_neg (show ¬ q + 1 = 2 ^ 113 by omega)]
    by_cases hlead : q + 1 = 2 ^ 112
    · rw [if_pos hlead, hlead]
      norm_num
    · rw [if_neg hlead]
      omega
  · rw [max_eq_left hpos, if_neg (show ¬ q + 1 = 2 ^ 112 by omega)]
    by_cases hlong : q + 1 = 2 ^ 113
    · rw [if_pos hlong, if_pos hlong, hlong]
      norm_num
      omega
    · rw [if_neg hlong, if_neg hlong]
      omega

/-- Both fields together are rounded as one number. -/
theorem f3_round_last_spec {exp : Int} {y : U128} (hexp : exp = 0 ∧ y.toNat < 2 ^ 114 ∨
    1 ≤ exp ∧ 2 ^ 114 ≤ y.toNat ∧ y.toNat < 2 ^ 115) :
    0 ≤ (f3_round_last exp y).1 ∧ ((f3_round_last exp y).1 * 2 ^ 112 + (f3_round_last exp y).2.toNat % 2 ^ 112 =
      (max exp 1 - 1) * 2 ^ 112 + round_quarter y.toNat) := by
  have hquarter : U128.toNat ⟨y.x0 >>> 2 ||| y.x1 <<< 62, y.x1 >>> 2⟩ = y.toNat / 4 :=
    pair_shr y.x1 y.x0 (n := 2) (by decide)
  have herror : (y.x0 &&& 3#64).toNat = y.toNat % 4 := by
    rw [BitVec.toNat_and, U128.toNat_eq]
    have hmask : y.x0.toNat &&& 3 = y.x0.toNat % 4 := Nat.and_two_pow_sub_one_eq_mod _ 2
    refine hmask.trans ?_
    omega
  have hlast : ((y.x0 >>> 2 ||| y.x1 <<< 62) &&& 1#64).toNat = y.toNat / 4 % 2 := by
    rw [← hquarter, BitVec.toNat_and, U128.toNat_mk]
    have hmask := Nat.and_two_pow_sub_one_eq_mod (y.x0 >>> 2 ||| y.x1 <<< 62).toNat 1
    refine hmask.trans ?_
    omega
  have hcond : (y.x0 &&& 3#64 = 3#64 ∨ y.x0 &&& 3#64 = 2#64 ∧ (y.x0 >>> 2 ||| y.x1 <<< 62) &&& 1#64 ≠ 0) ↔
      (y.toNat % 4 = 3 ∨ y.toNat % 4 = 2 ∧ y.toNat / 4 % 2 = 1) := by
    have hthree : (3#64).toNat = 3 := rfl
    have htwo : (2#64).toNat = 2 := rfl
    rw [← BitVec.toNat_inj, ← BitVec.toNat_inj, Ne, eq_zero_iff, herror, hlast, hthree, htwo]
    omega
  have hup := f3_round_up_spec exp (z := ⟨y.x0 >>> 2 ||| y.x1 <<< 62, y.x1 >>> 2⟩) (by rw [hquarter]; omega)
  rw [hquarter] at hup
  unfold f3_round_last round_quarter
  by_cases hcase : y.toNat % 4 = 3 ∨ y.toNat % 4 = 2 ∧ y.toNat / 4 % 2 = 1
  · rw [if_pos (hcond.mpr hcase), if_pos hcase, hup.1, hup.2]
    exact rounded_up_fields hexp
  · rw [if_neg (mt hcond.mp hcase), if_neg hcase, hquarter]
    rcases hexp with ⟨rfl, hlt⟩ | ⟨hpos, hlo, hhi⟩
    · refine ⟨le_refl _, ?_⟩
      rw [max_eq_right (by norm_num)]
      omega
    · refine ⟨le_trans (by norm_num) hpos, ?_⟩
      rw [max_eq_left hpos]
      omega

theorem pattern_f3_infinity (sgn : Bool) : (f3_infinity sgn).pattern = ⟨sgn, binary128.infinity⟩ := by
  cases sgn <;> rfl

theorem pattern_f3_zero (sgn : Bool) : (f3_zero sgn).pattern = ⟨sgn, 0⟩ := by
  cases sgn <;> rfl

/-- The fields of a sign, an exponent and a fraction. -/
theorem pattern_fields (sgn : Bool) {e : Nat} (he : e < 2 ^ 15) {x0 y : BitVec 64} (hy : y.toNat < 2 ^ 48) :
    U128.pattern ⟨x0, y ||| BitVec.ofNat 64 e <<< 48 ||| word sgn <<< 63⟩ =
      ⟨sgn, e * 2 ^ 112 + (y.toNat * 2 ^ 64 + x0.toNat)⟩ := by
  have hlow := x0.isLt
  have hexp : (BitVec.ofNat 64 e <<< 48).toNat = e * 2 ^ 48 := by
    rw [toNat_shl, BitVec.toNat_ofNat]
    omega
  have hfields : (y ||| BitVec.ofNat 64 e <<< 48).toNat = e * 2 ^ 48 + y.toNat := by
    rw [BitVec.or_comm, toNat_or (by rw [hexp]; exact Dvd.intro_left _ rfl) hy, hexp]
  have hall : (y ||| BitVec.ofNat 64 e <<< 48 ||| word sgn <<< 63).toNat =
      (if sgn then 1 else 0) * 2 ^ 63 + (e * 2 ^ 48 + y.toNat) := by
    rw [BitVec.or_comm, toNat_or (by rw [toNat_sign]; exact Dvd.intro_left _ rfl) (by rw [hfields]; omega),
      toNat_sign, hfields]
  rw [U128.pattern_mk, Pattern.mk.injEq]
  constructor
  · rw [BitVec.msb_eq_decide, hall, Bool.eq_iff_iff, decide_eq_true_iff]
    cases sgn
    · simp
      omega
    · simp
  · rw [U128.toNat_mk, hall]
    cases sgn <;> simp only [if_true, if_false, Bool.false_eq_true] <;> omega

theorem f3_pack_spec (sgn : Bool) {exp : Int} (hexp : 0 ≤ exp) (x : U128) :
    (f3_pack sgn exp x).pattern = ⟨sgn, min binary128.infinity (exp.toNat * 2 ^ 112 + x.toNat % 2 ^ 112)⟩ := by
  have hlow := x.x0.isLt
  obtain ⟨e, rfl⟩ := Int.eq_ofNat_of_zero_le hexp
  unfold f3_pack
  split
  · rename_i hge
    rw [pattern_f3_infinity, Unpacked.Represents.infinity_eq, min_eq_left]
    rw [Int.toNat_natCast]
    omega
  · rename_i hlt
    have hfrac : (x.x1 <<< 16 >>> 16).toNat = x.x1.toNat % 2 ^ 48 := by
      rw [toNat_shr, toNat_shl]
      omega
    have hof : BitVec.ofInt 64 (e : Int) = BitVec.ofNat 64 e := BitVec.ofInt_natCast 64 e
    have hmag : e * 2 ^ 112 + (x.x1.toNat % 2 ^ 48 * 2 ^ 64 + x.x0.toNat) = e * 2 ^ 112 + x.toNat % 2 ^ 112 := by
      rw [U128.toNat_eq]
      omega
    rw [hof, pattern_fields sgn (by omega) (by rw [hfrac]; omega), hfrac, Unpacked.Represents.infinity_eq,
      Int.toNat_natCast, hmag, min_eq_right]
    omega

end round

section spec

variable {v : ℚ} {k x' : Nat} {x : U128} {exp : Int}

/-- A fraction of 128 bits of which at most the last 13 are not known is rounded right. -/
theorem f3_round_spec (sgn : Bool) (hk : k ≤ 13) (hx : x.toNat = x' * 2 ^ k) (hjam : Jam (v / 2 ^ k) x')
    (hlo : 2 ^ 127 ≤ x.toNat) :
    (f3_round sgn exp x).pattern.neg = sgn ∧
    binary128.Rounds (v * 2 ^ (exp - 16510)) (f3_round sgn exp x).pattern.magnitude := by
  obtain ⟨sh, E, y, hshift, hy, hsh, hE, hcase⟩ : ∃ (sh E : Nat) (y : U128),
      f3_round_shift exp x = (if 0 < exp then exp else 0, y) ∧ y.toNat = jam_shift sh x.toNat ∧ 13 ≤ sh ∧
      (E : Int) = max exp 1 ∧ (0 < exp ∧ sh = 13 ∨ exp ≤ 0 ∧ 14 ≤ sh ∧ (sh : Int) = 14 - exp) := by
    unfold f3_round_shift
    by_cases hpos : 0 < exp
    · rw [if_pos hpos, if_pos hpos]
      refine ⟨13, exp.toNat, _, rfl, f3_sticky_shift_spec x (by norm_num), le_refl _, ?_, .inl ⟨hpos, rfl⟩⟩
      omega
    · rw [if_neg hpos, if_neg hpos]
      refine ⟨(14 - exp).toNat, 1, _, rfl, f3_sticky_shift_spec x (by omega), by omega, ?_, .inr ?_⟩ <;> omega
  have hjam_y : Jam (v / 2 ^ sh) y.toNat := by
    have hshifted := hjam.shift (sh - k)
    rw [div_div, ← pow_add, Nat.add_sub_cancel' (le_trans hk hsh)] at hshifted
    rwa [hy, hx, jam_shift_mul x' (le_trans hk hsh)]
  have hlow : (2 : ℚ) ^ 127 ≤ v := (hjam.pow_le_iff (by omega)).mpr (by rwa [← hx])
  have hhigh : v < 2 ^ 128 := not_le.mp fun h =>
    absurd ((hjam.pow_le_iff (by omega)).mp h) (by rw [← hx]; exact Nat.not_le.mpr x.toNat_lt)
  have hpos : (0 : ℚ) < 2 ^ sh := by positivity
  have hbits : (if 0 < exp then exp else 0) = 0 ∧ y.toNat < 2 ^ 114 ∨
      1 ≤ (if 0 < exp then exp else 0) ∧ 2 ^ 114 ≤ y.toNat ∧ y.toNat < 2 ^ 115 := by
    rcases hcase with ⟨hexp, rfl⟩ | ⟨hexp, hge, -⟩
    · refine .inr ⟨by rw [if_pos hexp]; omega, ?_, ?_⟩
      · refine (hjam_y.le_iff (n := 2 ^ 114) (by decide)).mp ?_
        rw [le_div_iff₀ hpos]
        norm_num at hlow ⊢
        exact hlow
      · refine (hjam_y.lt_iff (n := 2 ^ 115) (by decide)).mp ?_
        rw [div_lt_iff₀ hpos]
        norm_num at hhigh ⊢
        exact hhigh
    · refine .inl ⟨if_neg (not_lt.mpr hexp), (hjam_y.lt_iff (n := 2 ^ 114) (by decide)).mp ?_⟩
      rw [div_lt_iff₀ hpos]
      have hpow : (2 : ℚ) ^ 14 ≤ 2 ^ sh := pow_le_pow_right₀ (by norm_num) hge
      norm_num at hhigh hpow ⊢
      linarith
  have hscaled : binary128.Rounds (v / 2 ^ sh / 4 * 2 ^ (E - 1) * binary128.least)
      (min binary128.infinity ((E - 1) * 2 ^ 112 + round_quarter y.toNat)) := by
    refine Format.rounds_of_scaled hjam_y.nearest (by omega) ?_ ?_
    · rcases hcase with ⟨hexp, rfl⟩ | ⟨hexp, -, -⟩
      · refine .inr ?_
        have hle := (hjam_y.le_iff (n := 2 ^ 114) (by decide)).mpr (hbits.resolve_left fun h => by omega).2.1
        norm_num [binary128] at hle ⊢
        linarith
      · exact .inl (by omega)
    · have hlt := (hjam_y.lt_iff (n := 2 ^ 115) (by decide)).mpr (by omega)
      norm_num [binary128] at hlt ⊢
      linarith
  have hscale : v / 2 ^ sh / 4 * 2 ^ (E - 1) * binary128.least = v * 2 ^ (exp - 16510) := by
    have hsum : exp - 16510 = -(sh : Int) + -2 + ((E - 1 : Nat) : Int) + -16494 := by omega
    rw [hsum, zpow_add₀ (by norm_num), zpow_add₀ (by norm_num), zpow_add₀ (by norm_num), zpow_natCast, zpow_neg,
      zpow_natCast, Unpacked.Represents.least_eq]
    have hquarter : (2 : ℚ) ^ (-2 : Int) = 1 / 4 := by norm_num
    obtain ⟨c, hc⟩ : ∃ c : ℚ, 2 ^ (-16494 : Int) = c := ⟨_, rfl⟩
    rw [hquarter, hc]
    ring
  obtain ⟨hnonneg, hfields⟩ := f3_round_last_spec hbits
  have hmax : max (if 0 < exp then exp else 0) 1 = max exp 1 := by
    split <;> omega
  rw [f3_round, hshift]
  simp only
  rw [f3_pack_spec sgn hnonneg]
  refine ⟨rfl, ?_⟩
  have hsum : (f3_round_last (if 0 < exp then exp else 0) y).1.toNat * 2 ^ 112 +
      (f3_round_last (if 0 < exp then exp else 0) y).2.toNat % 2 ^ 112 = (E - 1) * 2 ^ 112 + round_quarter y.toNat := by
    rw [hmax, ← hE] at hfields
    omega
  rw [← hscale, hsum]
  exact hscaled

/-- The sign of a number. -/
def signed (sgn : Bool) (v : ℚ) : ℚ := if sgn then -v else v

theorem f3_round_roundsTo (sgn : Bool) (hk : k ≤ 13) (hx : x.toNat = x' * 2 ^ k) (hjam : Jam (v / 2 ^ k) x')
    (hlo : 2 ^ 127 ≤ x.toNat) :
    binary128.RoundsTo (signed sgn (v * 2 ^ (exp - 16510))) (f3_round sgn exp x).pattern := by
  obtain ⟨hneg, hrounds⟩ := @f3_round_spec v k x' x exp sgn hk hx hjam hlo
  have hlow : (2 : ℚ) ^ 127 ≤ v := (hjam.pow_le_iff (by omega)).mpr (by rwa [← hx])
  have hpos : 0 < v * (2 : ℚ) ^ (exp - 16510) :=
    mul_pos (lt_of_lt_of_le (by positivity) hlow) (zpow_pos (by norm_num) _)
  unfold signed Format.RoundsTo
  rw [hneg]
  cases sgn
  · rw [if_neg (by decide), abs_of_pos hpos]
    exact ⟨(decide_eq_false (not_lt.mpr hpos.le)).symm, hrounds⟩
  · rw [if_pos rfl, abs_neg, abs_of_pos hpos]
    exact ⟨(decide_eq_true (neg_neg_of_pos hpos)).symm, hrounds⟩

/-- A number that is known exactly, or of which enough bits are known, is normalised and rounded right. -/
theorem normalise_round (sgn : Bool) (e c : Int) (hx : x.toNat ≠ 0) (hjam : Jam v x.toNat)
    (hbits : v = x.toNat ∨ 2 ^ 114 ≤ x.toNat) :
    binary128.RoundsTo (signed sgn (v * 2 ^ (e + c - 16510)))
      (f3_round sgn ((f3_normalise e x).1 + c) (f3_normalise e x).2).pattern := by
  obtain ⟨k, hexp, hmnt, hlo⟩ := f3_normalise_spec e hx
  have hscale : v * 2 ^ (e + c - 16510) = v * 2 ^ k * (2 : ℚ) ^ ((f3_normalise e x).1 + c - 16510) := by
    have hsum : e + c - 16510 = (k : Int) + ((f3_normalise e x).1 + c - 16510) := by
      rw [hexp]
      ring
    rw [hsum, zpow_add₀ (by norm_num), zpow_natCast, mul_assoc]
  rw [hscale]
  rcases hbits with hexact | hlarge
  · refine f3_round_roundsTo (k := 0) sgn (by decide) (Nat.mul_one _).symm (.inl ?_) hlo
    rw [hmnt, hexact]
    push_cast
    ring
  · have hk : k ≤ 13 := by
      by_contra hgt
      have hpow : 2 ^ 14 ≤ 2 ^ k := Nat.pow_le_pow_right (by decide) (by omega)
      have hlt := (f3_normalise e x).2.toNat_lt
      have hmul := Nat.mul_le_mul hlarge hpow
      omega
    refine f3_round_roundsTo sgn hk hmnt ?_ hlo
    rwa [mul_div_cancel_right₀ _ (by positivity)]

end spec

end tcc.lib.quad
