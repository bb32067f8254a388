import Mathlib.Data.Nat.Bitwise
import Tcc.Lib.ArmConvert

/-! What the conversions of integers round to, and for which numbers all eight conversions are right. -/

namespace tcc.lib.arm

open machine.ieee machine.jam tcc.lib.quad

section rounding

variable {f : Format} {m kept frac E : Nat} {lost : Bool}

/-- The bit that is added does what rounding does, and no carry meets the exponent in a bit that is set. -/
def CarriesRight (f : Format) (lost : Bool) (m : Nat) : Prop :=
  f.fraction_bits < m.log2 → (lost = true ↔ RoundsUp (m.log2 - f.fraction_bits) m) ∧
    ¬(lost = true ∧ m / 2 ^ (m.log2 - f.fraction_bits) + 1 = 2 ^ (f.fraction_bits + 1) ∧ m.log2 % 2 = 0)

/-- The bits below the leading one, as the fraction has room for them. -/
def kept_bits (frac m : Nat) : Nat :=
  if m.log2 ≤ frac then m % 2 ^ m.log2 * 2 ^ (frac - m.log2) else m % 2 ^ m.log2 / 2 ^ (m.log2 - frac)

theorem kept_bits_lt (frac m : Nat) : kept_bits frac m < 2 ^ frac := by
  have hmod := Nat.mod_lt m (Nat.two_pow_pos m.log2)
  rw [kept_bits]
  split
  · rename_i hle
    calc m % 2 ^ m.log2 * 2 ^ (frac - m.log2) < 2 ^ m.log2 * 2 ^ (frac - m.log2) :=
          Nat.mul_lt_mul_of_pos_right hmod (Nat.two_pow_pos _)
      _ = 2 ^ frac := by rw [← Nat.pow_add, Nat.add_sub_cancel' hle]
  · rename_i hlt
    refine div_pow_lt ?_
    rwa [Nat.add_sub_cancel' (Nat.le_of_not_le hlt)]

theorem mod_log2 (hm : m ≠ 0) : m = 2 ^ m.log2 + m % 2 ^ m.log2 := by
  have hlo := Nat.log2_self_le hm
  have hhi := Nat.lt_log2_self (n := m)
  rw [Nat.pow_succ] at hhi
  rw [Nat.mod_eq_sub_mod hlo, Nat.mod_eq_of_lt (by omega)]
  omega

theorem or_exponent_of_lt (hkept : kept < 2 ^ frac) : kept ||| E * 2 ^ frac = E * 2 ^ frac + kept := by
  rw [Nat.or_comm, or_eq_add (Nat.dvd_mul_left _ _) hkept]

/-- A fraction that is carried out of its place adds one to an even exponent, and nothing to an odd one. -/
theorem or_exponent_carry (frac E : Nat) : 2 ^ frac ||| E * 2 ^ frac = E / 2 * 2 * 2 ^ frac + 2 ^ frac := by
  have hor := Nat.shiftLeft_or_distrib (a := E) (b := 1) (i := frac)
  rw [or_one, Nat.shiftLeft_eq, Nat.shiftLeft_eq, Nat.shiftLeft_eq, Nat.one_mul] at hor
  rw [Nat.or_comm, ← hor, Nat.add_mul, Nat.one_mul]

theorem or_exponent_iff {up : Prop} [Decidable up] (hfrac : 1 ≤ frac) (hkept : kept < 2 ^ frac) :
    ((kept + if lost then 1 else 0) ||| E * 2 ^ frac) = E * 2 ^ frac + kept + (if up then 1 else 0) ↔
      (lost = true ↔ up) ∧ ¬(lost = true ∧ kept + 1 = 2 ^ frac ∧ E % 2 = 1) := by
  have hpos : 2 ^ 1 ≤ 2 ^ frac := Nat.pow_le_pow_right (by decide) hfrac
  cases lost with
  | false =>
    rw [if_neg Bool.false_ne_true, Nat.add_zero, or_exponent_of_lt hkept]
    by_cases hup : up
    · simp [hup]
    · simp [hup]
  | true =>
    simp only [if_true, true_iff, true_and]
    by_cases hcarry : kept + 1 = 2 ^ frac
    · have hsplit : E * 2 ^ frac = E / 2 * 2 * 2 ^ frac + E % 2 * 2 ^ frac := by
        rw [← Nat.add_mul, Nat.div_add_mod']
      rw [hcarry, or_exponent_carry]
      generalize E / 2 * 2 * 2 ^ frac = base at *
      rcases Nat.mod_two_eq_zero_or_one E with heven | hodd
      · rw [heven, Nat.zero_mul] at hsplit
        by_cases hup : up
        · refine iff_of_true ?_ ⟨hup, fun h => by omega⟩
          rw [if_pos hup]
          omega
        · refine iff_of_false ?_ fun h => hup h.1
          rw [if_neg hup]
          omega
      · rw [hodd, Nat.one_mul] at hsplit
        refine iff_of_false ?_ fun h => h.2 ⟨rfl, hodd⟩
        split <;> omega
    · rw [or_exponent_of_lt (by omega)]
      by_cases hup : up
      · refine iff_of_true ?_ ⟨hup, fun h => hcarry h.1⟩
        rw [if_pos hup]
        omega
      · refine iff_of_false ?_ fun h => hup h.1
        rw [if_neg hup]
        omega

theorem rounds_iff (hbias : f.bias % 2 = 1) (hm : m ≠ 0) (hfits : m.log2 + f.bias + 2 < 2 ^ f.exponent_bits)
    (hlost : m.log2 ≤ f.fraction_bits → lost = false) :
    f.Rounds m ((kept_bits f.fraction_bits m + if lost then 1 else 0) ||| (m.log2 + f.bias) * 2 ^ f.fraction_bits) ↔
      CarriesRight f lost m := by
  have hrounds := Format.rounds_natCast (f := f) hm rfl hfits
  have hkept := kept_bits_lt f.fraction_bits m
  have hsplit := mod_log2 hm
  have hone : (m.log2 + f.bias) * 2 ^ f.fraction_bits =
      (m.log2 + f.bias - 1) * 2 ^ f.fraction_bits + 2 ^ f.fraction_bits := by
    have hbias' := f.one_le_bias
    rw [← Nat.succ_mul]
    congr 1
    omega
  have hiff : ∀ M, f.Rounds m M ↔ M = _ := fun M => ⟨fun h => h.unique hrounds, fun h => h ▸ hrounds⟩
  rw [hiff, CarriesRight]
  rw [kept_bits] at hkept ⊢
  generalize m.log2 = S at *
  by_cases hle : S ≤ f.fraction_bits
  · have hscaled : m * 2 ^ (f.fraction_bits - S) = 2 ^ f.fraction_bits + m % 2 ^ S * 2 ^ (f.fraction_bits - S) := by
      conv_lhs => rw [hsplit]
      rw [Nat.add_mul, ← Nat.pow_add, Nat.add_sub_cancel' hle]
    rw [if_pos hle] at hkept
    rw [hlost hle, if_neg Bool.false_ne_true, Nat.add_zero, if_pos hle, or_exponent_of_lt hkept, if_pos hle, hscaled]
    exact iff_of_true (by omega) fun hlt => absurd hle (by omega)
  · have hpow : 2 ^ S = 2 ^ (S - f.fraction_bits) * 2 ^ f.fraction_bits := by
      rw [← Nat.pow_add, Nat.sub_add_cancel (by omega)]
    have hdiv : m / 2 ^ (S - f.fraction_bits) = 2 ^ f.fraction_bits + m % 2 ^ S / 2 ^ (S - f.fraction_bits) := by
      have hadd := Nat.add_mul_div_left (m % 2 ^ S) (2 ^ f.fraction_bits) (Nat.two_pow_pos (S - f.fraction_bits))
      rw [← hpow] at hadd
      conv_lhs => rw [hsplit]
      rw [Nat.add_comm, hadd, Nat.add_comm]
    have hparity : S % 2 = 0 ↔ (S + f.bias) % 2 = 1 := by omega
    have hlt : f.fraction_bits < S := by omega
    rw [if_neg hle] at hkept
    have hall : m / 2 ^ (S - f.fraction_bits) + 1 = 2 ^ (f.fraction_bits + 1) ↔
        m % 2 ^ S / 2 ^ (S - f.fraction_bits) + 1 = 2 ^ f.fraction_bits := by
      rw [hdiv, Nat.pow_succ]
      omega
    rw [if_neg hle, if_neg hle, rounded_shift, forall_prop_of_true hlt, hall, hparity,
      ← or_exponent_iff f.fraction_pos hkept, hdiv, hone]
    simp only [Nat.add_assoc]

end rounding

section fractions

variable {val : Halves} {x : BitVec 32} {n : Int} {k m s : Nat}

theorem and_bit_ne_zero_iff (hs : s < 32) : x &&& (1#32 <<< s) ≠ 0 ↔ x.toNat.testBit s = true := by
  have hlt : 2 ^ s < 2 ^ 32 := Nat.pow_lt_pow_right (by decide) hs
  have hpos := Nat.two_pow_pos s
  rw [ne_eq, ← BitVec.toNat_inj, BitVec.toNat_and, BitVec.toNat_shiftLeft, BitVec.toNat_ofNat, Nat.shiftLeft_eq,
    Nat.one_mod_two_pow (by decide), Nat.one_mul, Nat.mod_eq_of_lt hlt, Nat.and_two_pow]
  cases x.toNat.testBit s with
  | false => simp
  | true => simp

/-- The loop finds the leading bit. -/
theorem highest_bit_spec {n : Nat} (hn : n ≤ 32) (hx : x.toNat < 2 ^ n) :
    highest_bit x n = if x.toNat = 0 then none else some x.toNat.log2 := by
  induction n with
  | zero =>
    rw [highest_bit, if_pos (by omega)]
  | succ n ih =>
    have hbit := and_bit_ne_zero_iff (x := x) (s := n) (by omega)
    rw [highest_bit]
    by_cases hle : 2 ^ n ≤ x.toNat
    · have hpos := Nat.two_pow_pos n
      have hlog : x.toNat.log2 = n := (Nat.log2_eq_iff (by omega)).mpr ⟨hle, hx⟩
      have hset : x.toNat.testBit n = true := by
        rw [← hlog]
        exact Nat.testBit_log2 (by omega)
      rw [if_pos (hbit.mpr hset), if_neg (by omega), hlog]
    · have hunset : ¬x.toNat.testBit n = true := by
        rw [Nat.testBit_lt_two_pow (by omega)]
        exact Bool.false_ne_true
      rw [if_neg fun h => hunset (hbit.mp h), ih (by omega) (by omega)]

theorem toNat_below (hs : s < 32) : (x &&& ((1#32 <<< s) - 1)).toNat = x.toNat % 2 ^ s := by
  have hlt : 2 ^ s < 2 ^ 32 := Nat.pow_lt_pow_right (by decide) hs
  have hpos := Nat.two_pow_pos s
  have hmask : ((1#32 <<< s) - 1).toNat = 2 ^ s - 1 := by
    have hone : (1 : BitVec 32).toNat = 1 := rfl
    rw [BitVec.toNat_sub, BitVec.toNat_shiftLeft, BitVec.toNat_ofNat, Nat.shiftLeft_eq, hone,
      Nat.one_mod_two_pow (by decide), Nat.one_mul, Nat.mod_eq_of_lt hlt]
    omega
  rw [BitVec.toNat_and, hmask, Nat.and_two_pow_sub_one_eq_mod]

theorem lsr_bit (hn : n = k) (hk : k < 256) : (lsr x n &&& 1 != 0) = x.toNat.testBit k := by
  have hone : (1 : BitVec 32).toNat = 1 := rfl
  have hzero : (0 : BitVec 32).toNat = 0 := rfl
  rw [Bool.eq_iff_iff, bne_iff_ne, ne_eq, ← BitVec.toNat_inj, BitVec.toNat_and, toNat_lsr hn hk, hone, hzero,
    Nat.and_one_is_mod, Nat.testBit_eq_decide_div_mod_eq, decide_eq_true_iff]
  omega

/-- The leading bit of a number in halves. -/
theorem log2_halves {high low : Nat} (hhigh : high ≠ 0) (hlow : low < 2 ^ 32) :
    (high * 2 ^ 32 + low).log2 = high.log2 + 32 ∧
      (high * 2 ^ 32 + low) % 2 ^ (high.log2 + 32) = high % 2 ^ high.log2 * 2 ^ 32 + low := by
  have hlo := Nat.log2_self_le hhigh
  have hhi := Nat.lt_log2_self (n := high)
  have hmod := mod_log2 hhigh
  have hlt := Nat.mod_lt high (Nat.two_pow_pos high.log2)
  have hpow : 2 ^ (high.log2 + 32) = 2 ^ high.log2 * 2 ^ 32 := Nat.pow_add _ _ _
  have hpow' : 2 ^ (high.log2 + 32 + 1) = 2 ^ high.log2 * 2 ^ 32 * 2 := by rw [Nat.pow_succ, hpow]
  have hlog : (high * 2 ^ 32 + low).log2 = high.log2 + 32 := by
    rw [Nat.log2_eq_iff (by omega), hpow', hpow]
    rw [Nat.pow_succ] at hhi
    omega
  refine ⟨hlog, ?_⟩
  have hsplit := mod_log2 (m := high * 2 ^ 32 + low) (by omega)
  rw [hlog, hpow] at hsplit
  rw [hpow]
  generalize 2 ^ high.log2 = p at *
  omega

/-- The bit that `__aeabi_xl2f` takes for the first lost one: for numbers of 33 to 54 bits, the second bit above it. -/
def float_lost (m : Nat) : Bool :=
  if m.log2 ≤ 23 ∨ m.log2 = 54 ∨ m.log2 = 55 then false
  else if 32 ≤ m.log2 ∧ m.log2 < 54 then m.testBit (m.log2 - 22)
  else m.testBit (m.log2 - 24)

/-- The bit that `__aeabi_xl2d` takes for the first lost one. -/
def double_lost (m : Nat) : Bool := if m.log2 ≤ 52 then false else m.testBit (m.log2 - 53)

theorem double_lost_of_le (h : m.log2 ≤ 52) : double_lost m = false := if_pos h

theorem testBit_halves {high low : Nat} (hlow : low < 2 ^ 32) (j : Nat) :
    (high * 2 ^ 32 + low).testBit j = if j < 32 then low.testBit j else high.testBit (j - 32) := by
  rw [Nat.mul_comm]
  exact Nat.testBit_two_pow_mul_add _ hlow j

/-- What is kept of a number of more than 32 bits. -/
theorem kept_bits_halves {frac high low : Nat} (hhigh : high ≠ 0) (hlow : low < 2 ^ 32) (hfrac : frac < high.log2 + 32) :
    kept_bits frac (high * 2 ^ 32 + low) =
      (high % 2 ^ high.log2 * 2 ^ 32 + low) / 2 ^ (high.log2 + 32 - frac) := by
  obtain ⟨hlog, hmod⟩ := log2_halves hhigh hlow
  rw [kept_bits, hlog, if_neg (by omega), hmod]

/-- A shift to the right over both halves, by less than 32 and by more. -/
theorem halves_div {high low j : Nat} (hj : j ≤ 32) :
    (high * 2 ^ 32 + low) / 2 ^ j = high * 2 ^ (32 - j) + low / 2 ^ j := by
  have hsplit : 2 ^ 32 = 2 ^ j * 2 ^ (32 - j) := by
    rw [← Nat.pow_add, Nat.add_sub_cancel' hj]
  rw [hsplit, Nat.mul_left_comm, Nat.add_comm, Nat.add_mul_div_left _ _ (Nat.two_pow_pos j), Nat.add_comm]

theorem halves_div' {high low : Nat} (hlow : low < 2 ^ 32) (j : Nat) :
    (high * 2 ^ 32 + low) / 2 ^ (32 + j) = high / 2 ^ j := by
  have hdiv : (high * 2 ^ 32 + low) / 2 ^ 32 = high := by omega
  rw [Nat.pow_add, ← Nat.div_div_eq_div_mul, hdiv]

theorem float_fraction_low (hhigh : val.high.toNat = 0) (hne : val.low.toNat ≠ 0) :
    ∃ ret, float_fraction val = some (ret, float_lost val.low.toNat, (val.low.toNat.log2 : Int)) ∧
      ret.toNat = kept_bits 23 val.low.toNat := by
  have hlow := val.low.isLt
  have hS : val.low.toNat.log2 < 32 := (Nat.log2_lt hne).mpr hlow
  have hbelow := toNat_below (x := val.low) hS
  have hmod := Nat.mod_lt val.low.toNat (Nat.two_pow_pos val.low.toNat.log2)
  rw [float_fraction, highest_bit_spec (le_refl 32) val.high.isLt, if_pos hhigh]
  simp only
  rw [highest_bit_spec (le_refl 32) hlow, if_neg hne, Option.map_some, float_lost, kept_bits]
  by_cases h23 : val.low.toNat.log2 ≤ 23
  · rw [← hbelow] at hmod ⊢
    obtain ⟨hshift, -⟩ := toNat_lsl_of_lt (n := 23 - (val.low.toNat.log2 : Int)) (k := 23 - val.low.toNat.log2)
      (by omega) hmod (by omega)
    rw [if_pos h23, if_pos (.inl h23), if_pos h23]
    exact ⟨_, rfl, hshift⟩
  · have hshift := toNat_lsr (x := val.low &&& ((1#32 <<< val.low.toNat.log2) - 1))
      (n := (val.low.toNat.log2 : Int) - 23) (k := val.low.toNat.log2 - 23) (by omega) (by omega)
    have hbit := lsr_bit (x := val.low &&& ((1#32 <<< val.low.toNat.log2) - 1))
      (n := (val.low.toNat.log2 : Int) - 23 - 1) (k := val.low.toNat.log2 - 24) (by omega) (by omega)
    rw [hbelow, Nat.testBit_mod_two_pow, decide_eq_true (by omega), Bool.true_and] at hbit
    rw [if_neg h23, if_neg (by omega), if_neg (by omega), if_neg h23, hbit]
    exact ⟨_, rfl, by rw [hshift, hbelow]⟩

theorem float_lost_halves {high low : Nat} (hne : high ≠ 0) (hlow : low < 2 ^ 32) (hs : high.log2 < 32) :
    float_lost (high * 2 ^ 32 + low) = if high.log2 < 23 then low.testBit (high.log2 + 10)
      else if high.log2 = 23 then false else high.testBit (high.log2 - 24) := by
  obtain ⟨hlog, -⟩ := log2_halves hne hlow
  rw [float_lost, hlog, testBit_halves hlow, testBit_halves hlow]
  generalize high.log2 = s at *
  by_cases h22 : s = 22
  · rw [if_pos (by omega), if_pos (by omega), h22, Nat.testBit_lt_two_pow hlow]
  · by_cases h23 : s = 23
    · rw [if_pos (by omega), if_neg (by omega), if_pos h23]
    · by_cases hlt : s < 23
      · have hsub : s + 32 - 22 = s + 10 := by omega
        rw [if_neg (by omega), if_pos (by omega), if_pos hlt, hsub, if_pos (by omega)]
      · have hsub : s + 32 - 24 - 32 = s - 24 := by omega
        rw [if_neg (by omega), if_neg (by omega), if_neg (by omega), hsub, if_neg hlt, if_neg h23]

theorem float_fraction_high (hne : val.high.toNat ≠ 0) :
    ∃ ret, float_fraction val = some (ret, float_lost val.word.toNat, (val.word.toNat.log2 : Int)) ∧
      ret.toNat = kept_bits 23 val.word.toNat := by
  have hlow := val.low.isLt
  have hs : val.high.toNat.log2 < 32 := (Nat.log2_lt hne).mpr val.high.isLt
  have hbelow := toNat_below (x := val.high) hs
  have hmod := Nat.mod_lt val.high.toNat (Nat.two_pow_pos val.high.toNat.log2)
  obtain ⟨hlog, -⟩ := log2_halves hne hlow
  rw [float_fraction, highest_bit_spec (le_refl 32) val.high.isLt, if_neg hne, val.toNat_word,
    kept_bits_halves hne hlow (by omega), float_lost_halves hne hlow hs, hlog]
  generalize hgen : val.high.toNat.log2 = s at *
  have hcast : ((s + 32 : Nat) : Int) = s + 32 := by omega
  rw [hcast]
  by_cases h23 : s < 23
  · have hcarry := toNat_lsr (x := val.low) (n := 32 - (23 - (s : Int))) (k := s + 9) (by omega) (by omega)
    have hbit := lsr_bit (x := val.low) (n := 32 - (23 - (s : Int) - 1)) (k := s + 10) (by omega) (by omega)
    have hlt : val.low.toNat / 2 ^ (s + 9) < 2 ^ (23 - s) := div_pow_lt (by
      have hsum : 23 - s + (s + 9) = 32 := by omega
      rwa [hsum])
    rw [← hbelow] at hmod
    obtain ⟨hshift, -⟩ := toNat_lsl_of_lt (n := 23 - (s : Int)) (k := 23 - s) (by omega) hmod (by omega)
    have hsub : s + 32 - 23 = s + 9 := by omega
    have hsub' : 32 - (s + 9) = 23 - s := by omega
    simp only [h23, if_true]
    rw [hsub, halves_div (by omega), hsub', hbit, ← hbelow, ← hshift, ← hcarry]
    refine ⟨_, rfl, ?_⟩
    rw [← hcarry] at hlt
    rw [BitVec.toNat_or, or_eq_add ?_ hlt]
    exact hshift ▸ Nat.dvd_mul_left _ _
  · have hshift := toNat_lsr (x := val.high &&& ((1#32 <<< s) - 1)) (n := (s : Int) - 23) (k := s - 23) (by omega)
      (by omega)
    have hsub : s + 32 - 23 = 32 + (s - 23) := by omega
    simp only [h23, if_false]
    rw [hsub, halves_div' hlow, ← hbelow, ← hshift]
    by_cases h : s = 23
    · have hzero : lsr (val.high &&& ((1#32 <<< s) - 1)) ((s : Int) - 23 - 1) = 0 :=
        lsr_eq_zero (lt_of_lt_of_le (BitVec.isLt _) (Nat.pow_le_pow_right (by decide) (by omega)))
      rw [hzero, if_pos h]
      exact ⟨_, rfl, rfl⟩
    · have hbit := lsr_bit (x := val.high &&& ((1#32 <<< s) - 1)) (n := (s : Int) - 23 - 1) (k := s - 24) (by omega)
        (by omega)
      rw [hbelow, Nat.testBit_mod_two_pow, decide_eq_true (by omega), Bool.true_and] at hbit
      rw [hbit, if_neg h]
      exact ⟨_, rfl, rfl⟩

/-- The fraction of a number other than zero, without its leading bit. -/
theorem float_fraction_spec (hne : val.word.toNat ≠ 0) :
    ∃ ret, float_fraction val = some (ret, float_lost val.word.toNat, (val.word.toNat.log2 : Int)) ∧
      ret.toNat = kept_bits 23 val.word.toNat := by
  by_cases hhigh : val.high.toNat = 0
  · have hword := val.toNat_word
    rw [hhigh, Nat.zero_mul, Nat.zero_add] at hword
    rw [hword] at hne ⊢
    exact float_fraction_low hhigh hne
  · exact float_fraction_high hhigh

theorem double_fraction_low (hhigh : val.high.toNat = 0) (hne : val.low.toNat ≠ 0) :
    ∃ ret, double_fraction val = some (ret, (val.low.toNat.log2 : Int)) ∧
      ret.word.toNat = kept_bits 52 val.low.toNat := by
  have hlow := val.low.isLt
  have hS : val.low.toNat.log2 < 32 := (Nat.log2_lt hne).mpr hlow
  have hbelow := toNat_below (x := val.low) hS
  have hmod := Nat.mod_lt val.low.toNat (Nat.two_pow_pos val.low.toNat.log2)
  have hzero : (0 : BitVec 32).toNat = 0 := rfl
  rw [double_fraction, highest_bit_spec (le_refl 32) val.high.isLt, if_pos hhigh]
  simp only
  rw [highest_bit_spec (le_refl 32) hlow, if_neg hne, Option.map_some, kept_bits,
    if_pos (show val.low.toNat.log2 ≤ 52 by omega), ← hbelow]
  rw [← hbelow] at hmod
  by_cases h20 : val.low.toNat.log2 ≤ 20
  · obtain ⟨hshift, -⟩ := toNat_lsl_of_lt (n := 20 - (val.low.toNat.log2 : Int)) (k := 20 - val.low.toNat.log2)
      (by omega) hmod (by omega)
    have hsplit : 52 - val.low.toNat.log2 = 20 - val.low.toNat.log2 + 32 := by omega
    rw [if_pos h20, hsplit, Nat.pow_add, ← Nat.mul_assoc, ← hshift]
    exact ⟨_, rfl, by rw [Halves.toNat_word, hzero, Nat.add_zero]⟩
  · have hshift := toNat_lsl (x := val.low &&& ((1#32 <<< val.low.toNat.log2) - 1))
      (n := 32 - ((val.low.toNat.log2 : Int) - 20)) (k := 52 - val.low.toNat.log2) (by omega) (by omega)
    have htop := toNat_lsr (x := val.low &&& ((1#32 <<< val.low.toNat.log2) - 1))
      (n := (val.low.toNat.log2 : Int) - 20) (k := 32 - (52 - val.low.toNat.log2)) (by omega) (by omega)
    have hhalves := mul_pow_halves (val.low &&& ((1#32 <<< val.low.toNat.log2) - 1)).toNat
      (k := 52 - val.low.toNat.log2) (by omega)
    rw [if_neg h20, ← hhalves, ← hshift, ← htop]
    exact ⟨_, rfl, Halves.toNat_word _⟩

/-- The fraction has room for all bits. -/
theorem double_fraction_short (hne : val.high.toNat ≠ 0) (h20 : val.high.toNat.log2 < 20) :
    ∃ ret, double_fraction val = some (ret, (val.word.toNat.log2 : Int)) ∧
      ret.word.toNat = kept_bits 52 val.word.toNat := by
  have hlow := val.low.isLt
  have hs : val.high.toNat.log2 < 32 := by omega
  have hbelow := toNat_below (x := val.high) hs
  have hmod := Nat.mod_lt val.high.toNat (Nat.two_pow_pos val.high.toNat.log2)
  obtain ⟨hlog, hrest⟩ := log2_halves hne hlow
  rw [double_fraction, highest_bit_spec (le_refl 32) val.high.isLt, if_neg hne, val.toNat_word, kept_bits, hlog,
    if_pos (by omega), hrest]
  generalize hgen : val.high.toNat.log2 = s at *
  have hcast : ((s + 32 : Nat) : Int) = s + 32 := by omega
  have hsub : 52 - (s + 32) = 20 - s := by omega
  rw [hcast, hsub]
  rw [← hbelow] at hmod
  obtain ⟨hshift, hlt⟩ := toNat_lsl_of_lt (n := 20 - (s : Int)) (k := 20 - s) (by omega) hmod (by omega)
  have hlow' := toNat_lsl (x := val.low) (n := 20 - (s : Int)) (k := 20 - s) (by omega) (by omega)
  have hcarry := toNat_lsr (x := val.low) (n := 32 - (20 - (s : Int))) (k := 32 - (20 - s)) (by omega) (by omega)
  have hlt' : val.low.toNat / 2 ^ (32 - (20 - s)) < 2 ^ (20 - s) := div_pow_lt (by
    have hsum : 20 - s + (32 - (20 - s)) = 32 := by omega
    rwa [hsum])
  have hhalves := mul_pow_halves val.low.toNat (k := 20 - s) (by omega)
  simp only [h20, if_true]
  have hcomm := Nat.mul_right_comm (val.high &&& ((1#32 <<< s) - 1)).toNat (2 ^ 32) (2 ^ (20 - s))
  refine ⟨_, rfl, ?_⟩
  rw [Halves.toNat_word, BitVec.toNat_or, hshift, hcarry, hlow', or_eq_add (Nat.dvd_mul_left _ _) hlt', ← hbelow,
    Nat.add_mul (_ * 2 ^ 32), hcomm, Nat.add_mul, Nat.add_assoc, hhalves]

/-- One more in halves. -/
theorem word_increment {ret : Halves} (hhigh : ret.high.toNat + 1 < 2 ^ 32) :
    (if ret.low = 0xffffffff#32 then ({ low := 0, high := ret.high + 1 } : Halves)
      else { low := ret.low + 1, high := ret.high }).word.toNat = ret.word.toNat + 1 := by
  have hlow := ret.low.isLt
  have hzero : (0 : BitVec 32).toNat = 0 := rfl
  have hone : (1 : BitVec 32).toNat = 1 := rfl
  have hmax : (0xffffffff#32).toNat = 2 ^ 32 - 1 := rfl
  rw [ret.toNat_word]
  by_cases h : ret.low = 0xffffffff#32
  · have htoNat := congrArg BitVec.toNat h
    rw [if_pos h, Halves.toNat_word]
    simp only [BitVec.toNat_add, hzero, hone]
    omega
  · have htoNat : ret.low.toNat ≠ (0xffffffff#32).toNat := fun heq => h (BitVec.eq_of_toNat_eq heq)
    rw [if_neg h, Halves.toNat_word]
    simp only [BitVec.toNat_add, hone]
    omega

/-- The first lost bit is added to the fraction, with a carry between the halves. -/
theorem double_fraction_long (hne : val.high.toNat ≠ 0) (h20 : 20 ≤ val.high.toNat.log2) :
    ∃ ret, double_fraction val = some (ret, (val.word.toNat.log2 : Int)) ∧
      ret.word.toNat = kept_bits 52 val.word.toNat + if double_lost val.word.toNat then 1 else 0 := by
  have hlow := val.low.isLt
  have hs : val.high.toNat.log2 < 32 := (Nat.log2_lt hne).mpr val.high.isLt
  have hbelow := toNat_below (x := val.high) hs
  have hmod := Nat.mod_lt val.high.toNat (Nat.two_pow_pos val.high.toNat.log2)
  obtain ⟨hlog, hrest⟩ := log2_halves hne hlow
  have hkept : kept_bits 52 (val.high.toNat * 2 ^ 32 + val.low.toNat) =
      (val.high.toNat % 2 ^ val.high.toNat.log2 * 2 ^ 32 + val.low.toNat) / 2 ^ (val.high.toNat.log2 - 20) := by
    rcases Nat.lt_or_eq_of_le h20 with hlt | heq
    · have hsub : val.high.toNat.log2 + 32 - 52 = val.high.toNat.log2 - 20 := by omega
      rw [kept_bits_halves hne hlow (by omega), hsub]
    · rw [kept_bits, hlog, if_pos (by omega), hrest, ← heq, Nat.sub_self, Nat.pow_zero, Nat.div_one, Nat.mul_one]
  rw [double_fraction, highest_bit_spec (le_refl 32) val.high.isLt, if_neg hne, val.toNat_word, hkept, double_lost, hlog,
    testBit_halves hlow]
  generalize hgen : val.high.toNat.log2 = s at *
  have hcast : ((s + 32 : Nat) : Int) = s + 32 := by omega
  have hsub : 32 - (32 - (s - 20)) = s - 20 := by omega
  rw [← hbelow] at hmod ⊢
  have hshift := toNat_lsl (x := val.high &&& ((1#32 <<< s) - 1)) (n := 32 - ((s : Int) - 20)) (k := 32 - (s - 20))
    (by omega) (by omega)
  have htop := toNat_lsr (x := val.high &&& ((1#32 <<< s) - 1)) (n := (s : Int) - 20) (k := s - 20) (by omega)
    (by omega)
  have hlow' := toNat_lsr (x := val.low) (n := (s : Int) - 20) (k := s - 20) (by omega) (by omega)
  have hlt : (lsr (val.high &&& ((1#32 <<< s) - 1)) ((s : Int) - 20)).toNat < 2 ^ 20 := by
    rw [htop]
    refine div_pow_lt ?_
    rwa [Nat.add_sub_cancel' h20]
  have hlt' : val.low.toNat / 2 ^ (s - 20) < 2 ^ (32 - (s - 20)) := div_pow_lt (by
    have hsum : 32 - (s - 20) + (s - 20) = 32 := by omega
    rwa [hsum])
  have hdvd : 2 ^ (32 - (s - 20)) ∣ (val.high &&& ((1#32 <<< s) - 1)).toNat * 2 ^ (32 - (s - 20)) % 2 ^ 32 :=
    (Nat.dvd_mod_iff (Nat.pow_dvd_pow 2 (by omega))).mpr (Nat.dvd_mul_left _ _)
  have hhalves := mul_pow_halves (val.high &&& ((1#32 <<< s) - 1)).toNat (k := 32 - (s - 20)) (by omega)
  rw [hsub] at hhalves
  have hword : (Halves.mk (lsl (val.high &&& ((1#32 <<< s) - 1)) (32 - ((s : Int) - 20)) |||
      lsr val.low ((s : Int) - 20)) (lsr (val.high &&& ((1#32 <<< s) - 1)) ((s : Int) - 20))).word.toNat =
      ((val.high &&& ((1#32 <<< s) - 1)).toNat * 2 ^ 32 + val.low.toNat) / 2 ^ (s - 20) := by
    rw [Halves.toNat_word, BitVec.toNat_or, hshift, hlow', or_eq_add hdvd hlt', htop, halves_div (by omega)]
    omega
  have hlost : (lsr val.low ((s : Int) - 20 - 1) &&& 1 ≠ 0) ↔ (if s + 32 ≤ 52 then false
      else if s + 32 - 53 < 32 then val.low.toNat.testBit (s + 32 - 53)
      else val.high.toNat.testBit (s + 32 - 53 - 32)) = true := by
    by_cases h : s = 20
    · have hzero : lsr val.low ((s : Int) - 20 - 1) = 0 :=
        lsr_eq_zero (lt_of_lt_of_le val.low.isLt (Nat.pow_le_pow_right (by decide) (by omega)))
      rw [hzero, if_pos (by omega)]
      exact iff_of_false (fun hne => hne rfl) Bool.false_ne_true
    · have hsub' : s + 32 - 53 = s - 21 := by omega
      rw [if_neg (by omega), if_pos (by omega), hsub', ← lsr_bit (x := val.low) (n := (s : Int) - 20 - 1) (by omega)
        (by omega), bne_iff_ne]
  have hbranch : ¬s < 20 := by omega
  simp only [hbranch, if_false]
  rw [hcast, ← hword]
  generalize lsr (val.high &&& ((1#32 <<< s) - 1)) ((s : Int) - 20) = high at *
  generalize lsl (val.high &&& ((1#32 <<< s) - 1)) (32 - ((s : Int) - 20)) ||| lsr val.low ((s : Int) - 20) = low at *
  refine ⟨_, rfl, ?_⟩
  by_cases h : lsr val.low ((s : Int) - 20 - 1) &&& 1 ≠ 0
  · have hnext : high.toNat + 1 < 2 ^ 32 := by omega
    rw [if_pos h, if_pos (hlost.mp h)]
    exact @word_increment ⟨low, high⟩ hnext
  · rw [if_neg h, if_neg fun hbit => h (hlost.mpr hbit)]
    rfl

theorem double_fraction_spec (hne : val.word.toNat ≠ 0) :
    ∃ ret, double_fraction val = some (ret, (val.word.toNat.log2 : Int)) ∧
      ret.word.toNat = kept_bits 52 val.word.toNat + if double_lost val.word.toNat then 1 else 0 := by
  have hword := val.toNat_word
  by_cases hhigh : val.high.toNat = 0
  · rw [hhigh, Nat.zero_mul, Nat.zero_add] at hword
    have hS : val.low.toNat.log2 < 32 := (Nat.log2_lt (by omega)).mpr val.low.isLt
    rw [hword] at hne ⊢
    rw [double_lost_of_le (by omega), if_neg Bool.false_ne_true, Nat.add_zero]
    exact double_fraction_low hhigh hne
  · by_cases h20 : val.high.toNat.log2 < 20
    · obtain ⟨hlog, -⟩ := log2_halves hhigh val.low.isLt
      rw [double_lost_of_le (by rw [hword, hlog]; omega), if_neg Bool.false_ne_true, Nat.add_zero]
      exact double_fraction_short hhigh h20
    · exact double_fraction_long hhigh (by omega)

end fractions

section numbers

variable {with_sign : Bool} {v : BitVec 64} {val : Halves}

/-- The integer that is converted. -/
def number (with_sign : Bool) (v : BitVec 64) : Int := if with_sign then v.toInt else v.toNat

/-- The pattern of the number nearest to an integer, with ties to even. -/
def Nearest (f : Format) (v : Int) (r : Pattern) : Prop := if v = 0 then r = ⟨false, 0⟩ else f.RoundsTo v r

theorem word_of_setWidth (v : BitVec 64) :
    (Halves.mk (v.setWidth 32) ((v >>> 32).setWidth 32)).word.toNat = v.toNat := by
  have hlt := v.isLt
  rw [Halves.toNat_word, BitVec.toNat_setWidth, BitVec.toNat_setWidth, BitVec.toNat_ushiftRight,
    Nat.shiftRight_eq_div_pow]
  omega

theorem sign_and_halves_spec (with_sign : Bool) (v : BitVec 64) :
    (sign_and_halves with_sign v).1 = decide (number with_sign v < 0) ∧
      (sign_and_halves with_sign v).2.word.toNat = (number with_sign v).natAbs := by
  have hlt := v.isLt
  rw [sign_and_halves, number]
  simp only [word_of_setWidth]
  cases with_sign with
  | false =>
    simp only [Bool.false_and, Bool.false_eq_true, if_false]
    exact ⟨(decide_eq_false (by omega)).symm, (Int.natAbs_natCast _).symm⟩
  | true =>
    have hint := BitVec.toInt_eq_msb_cond v
    have hmsb := BitVec.msb_eq_decide v
    simp only [Bool.true_and, if_true]
    cases hneg : v.msb with
    | false =>
      rw [hneg, if_neg Bool.false_ne_true] at hint
      rw [hint, if_neg Bool.false_ne_true]
      exact ⟨(decide_eq_false (by omega)).symm, (Int.natAbs_natCast _).symm⟩
    | true =>
      rw [hneg, eq_comm, decide_eq_true_iff] at hmsb
      rw [hneg, if_pos rfl] at hint
      have hone : ~~~v + 1 = -v := (BitVec.neg_eq_not_add v).symm
      rw [hint, if_pos rfl, hone, BitVec.toNat_neg]
      exact ⟨(decide_eq_true (by omega)).symm, by omega⟩

/-- The sign as the highest bit. -/
theorem toNat_with_sign {x : BitVec 32} (sign : Bool) (hx : x.toNat < 2 ^ 31) :
    (x ||| (if sign then 1#32 else 0#32) <<< 31).toNat = (if sign then 2 ^ 31 else 0) + x.toNat := by
  have hbit : ((if sign then 1#32 else 0#32) <<< 31).toNat = if sign then 2 ^ 31 else 0 := by
    cases sign <;> rfl
  have hdvd : 2 ^ 31 ∣ if sign then 2 ^ 31 else 0 := by
    cases sign with
    | false => exact Nat.dvd_zero _
    | true => exact Nat.dvd_refl _
  rw [BitVec.toNat_or, hbit, Nat.or_comm, or_eq_add hdvd hx]

theorem pattern_with_sign {x : BitVec 32} (sign : Bool) (hx : x.toNat < 2 ^ 31) :
    word_pattern (x ||| (if sign then 1#32 else 0#32) <<< 31) = ⟨sign, x.toNat⟩ := by
  rw [word_pattern, BitVec.msb_eq_decide, toNat_with_sign sign hx]
  cases sign with
  | false =>
    simp only [Bool.false_eq_true, if_false, Nat.zero_add, Pattern.mk.injEq, decide_eq_false_iff_not]
    omega
  | true =>
    simp only [if_true, Pattern.mk.injEq, decide_eq_true_eq]
    omega

theorem halves_pattern_with_sign {low x : BitVec 32} (sign : Bool) (hx : x.toNat < 2 ^ 31) :
    word_pattern (Halves.mk low (x ||| (if sign then 1#32 else 0#32) <<< 31)).word =
      ⟨sign, x.toNat * 2 ^ 32 + low.toNat⟩ := by
  have hlow := low.isLt
  rw [word_pattern, BitVec.msb_eq_decide, Halves.toNat_word]
  simp only [toNat_with_sign sign hx]
  cases sign with
  | false =>
    simp only [Bool.false_eq_true, if_false, Nat.zero_add, Pattern.mk.injEq, decide_eq_false_iff_not]
    omega
  | true =>
    simp only [if_true, Pattern.mk.injEq, decide_eq_true_eq]
    omega

/-- The exponent in the high half. -/
theorem halves_or {high low E : Nat} (hlow : low < 2 ^ 32) :
    (high ||| E * 2 ^ 20) * 2 ^ 32 + low = (high * 2 ^ 32 + low) ||| E * 2 ^ 52 := by
  have hsplit : E * 2 ^ 52 = E * 2 ^ 20 * 2 ^ 32 := by rw [Nat.mul_assoc, ← Nat.pow_add]
  have hor := Nat.shiftLeft_or_distrib (a := high) (b := E * 2 ^ 20) (i := 32)
  rw [Nat.shiftLeft_eq, Nat.shiftLeft_eq, Nat.shiftLeft_eq] at hor
  rw [← or_eq_add (Nat.dvd_mul_left _ _) hlow, ← or_eq_add (Nat.dvd_mul_left _ _) hlow, hor, hsplit, Nat.or_assoc,
    Nat.or_assoc, Nat.or_comm low]

theorem toNat_exponent {S bias k : Nat} (hlt : (S + bias) * 2 ^ k < 2 ^ 32) :
    (BitVec.ofInt 32 ((S : Int) + bias) <<< k).toNat = (S + bias) * 2 ^ k := by
  have hcast : (S : Int) + bias = ((S + bias : Nat) : Int) := rfl
  have hle := Nat.le_mul_of_pos_right (S + bias) (Nat.two_pow_pos k)
  have hmod : (S + bias) % 2 ^ 32 = S + bias := Nat.mod_eq_of_lt (by omega)
  rw [hcast, BitVec.ofInt_natCast, BitVec.toNat_shiftLeft, BitVec.toNat_ofNat, hmod, Nat.shiftLeft_eq,
    Nat.mod_eq_of_lt hlt]

theorem nearest_iff {f : Format} {n : Int} {r : Pattern} (hne : n ≠ 0) (hneg : r.neg = decide (n < 0)) :
    Nearest f n r ↔ f.Rounds n.natAbs r.magnitude := by
  have habs : |(n : ℚ)| = (n.natAbs : ℚ) := by
    rw [Nat.cast_natAbs, Int.cast_abs]
  have hsign : decide ((n : ℚ) < 0) = decide (n < 0) := decide_eq_decide.mpr Int.cast_lt_zero
  rw [Nearest, if_neg hne, Format.RoundsTo, habs, hsign]
  exact and_iff_right hneg

theorem carriesRight_zero (f : Format) (lost : Bool) : CarriesRight f lost 0 := fun h => absurd h (by simp)

theorem float_fraction_zero (hzero : val.word.toNat = 0) : float_fraction val = none ∧ double_fraction val = none := by
  have hword := val.toNat_word
  have hhigh : val.high.toNat = 0 := by omega
  have hlow : val.low.toNat = 0 := by omega
  constructor
  · rw [float_fraction, highest_bit_spec (le_refl 32) val.high.isLt, if_pos hhigh]
    simp only
    rw [highest_bit_spec (le_refl 32) val.low.isLt, if_pos hlow, Option.map_none]
  · rw [double_fraction, highest_bit_spec (le_refl 32) val.high.isLt, if_pos hhigh]
    simp only
    rw [highest_bit_spec (le_refl 32) val.low.isLt, if_pos hlow, Option.map_none]

theorem xl2f_iff (with_sign : Bool) (v : BitVec 64) :
    Nearest binary32 (number with_sign v) (word_pattern (aeabi_xl2f with_sign v)) ↔
      CarriesRight binary32 (float_lost (number with_sign v).natAbs) (number with_sign v).natAbs := by
  obtain ⟨hsign, hword⟩ := sign_and_halves_spec with_sign v
  have hlt := (sign_and_halves with_sign v).2.word.isLt
  rw [aeabi_xl2f]
  generalize sign_and_halves with_sign v = parts at *
  obtain ⟨sign, val⟩ := parts
  simp only at hsign hword hlt ⊢
  rw [hword] at hlt
  by_cases hzero : number with_sign v = 0
  · rw [hzero] at hword ⊢
    rw [(float_fraction_zero hword).1, Nearest, if_pos rfl]
    exact iff_of_true (show word_pattern (0 : BitVec 32) = ⟨false, 0⟩ from rfl) (carriesRight_zero _ _)
  · have hne : (number with_sign v).natAbs ≠ 0 := Int.natAbs_ne_zero.mpr hzero
    obtain ⟨ret, hfraction, hret⟩ := @float_fraction_spec val (by omega)
    rw [hword] at hfraction hret
    rw [hfraction]
    simp only
    have hS : (number with_sign v).natAbs.log2 < 64 := (Nat.log2_lt hne).mpr hlt
    have hkept := kept_bits_lt 23 (number with_sign v).natAbs
    have hone : (1 : BitVec 32).toNat = 1 := rfl
    have hrounded : (if float_lost (number with_sign v).natAbs then ret + 1 else ret).toNat =
        kept_bits 23 (number with_sign v).natAbs + if float_lost (number with_sign v).natAbs then 1 else 0 := by
      split
      · rw [BitVec.toNat_add, hone, hret]
        omega
      · exact hret
    have hexponent := @toNat_exponent (number with_sign v).natAbs.log2 127 23 (by omega)
    have hmagnitude : ((if float_lost (number with_sign v).natAbs then ret + 1 else ret) |||
        BitVec.ofInt 32 ((number with_sign v).natAbs.log2 + 127) <<< 23).toNat =
        (kept_bits 23 (number with_sign v).natAbs + if float_lost (number with_sign v).natAbs then 1 else 0) |||
          ((number with_sign v).natAbs.log2 + 127) * 2 ^ 23 := by
      rw [BitVec.toNat_or, hrounded]
      exact congrArg _ hexponent
    have hlt31 : ((if float_lost (number with_sign v).natAbs then ret + 1 else ret) |||
        BitVec.ofInt 32 ((number with_sign v).natAbs.log2 + 127) <<< 23).toNat < 2 ^ 31 := by
      rw [hmagnitude]
      exact Nat.or_lt_two_pow (by split <;> omega) (by omega)
    have hpattern := pattern_with_sign sign hlt31
    rw [hpattern, nearest_iff hzero hsign, hmagnitude]
    have hfits : (number with_sign v).natAbs.log2 + 127 + 2 < 2 ^ 8 := by omega
    exact rounds_iff (f := binary32) rfl hne hfits fun hle => if_pos (.inl hle)

theorem xl2d_iff (with_sign : Bool) (v : BitVec 64) :
    Nearest binary64 (number with_sign v) (word_pattern (aeabi_xl2d with_sign v).word) ↔
      CarriesRight binary64 (double_lost (number with_sign v).natAbs) (number with_sign v).natAbs := by
  obtain ⟨hsign, hword⟩ := sign_and_halves_spec with_sign v
  have hlt := (sign_and_halves with_sign v).2.word.isLt
  rw [aeabi_xl2d]
  generalize sign_and_halves with_sign v = parts at *
  obtain ⟨sign, val⟩ := parts
  simp only at hsign hword hlt ⊢
  rw [hword] at hlt
  by_cases hzero : number with_sign v = 0
  · rw [hzero] at hword ⊢
    rw [(float_fraction_zero hword).2, Nearest, if_pos rfl]
    exact iff_of_true (show word_pattern (Halves.mk 0 0).word = ⟨false, 0⟩ from rfl) (carriesRight_zero _ _)
  · have hne : (number with_sign v).natAbs ≠ 0 := Int.natAbs_ne_zero.mpr hzero
    obtain ⟨ret, hfraction, hret⟩ := @double_fraction_spec val (by omega)
    rw [hword] at hfraction hret
    rw [hfraction]
    simp only
    have hS : (number with_sign v).natAbs.log2 < 64 := (Nat.log2_lt hne).mpr hlt
    have hkept := kept_bits_lt 52 (number with_sign v).natAbs
    have hhigh : ret.high.toNat ≤ 2 ^ 20 := by
      have hle : ret.word.toNat ≤ 2 ^ 52 := by
        rw [hret]
        split <;> omega
      rw [Halves.toNat_word] at hle
      omega
    have hexponent := @toNat_exponent (number with_sign v).natAbs.log2 1023 20 (by omega)
    have hmagnitude : (ret.high ||| BitVec.ofInt 32 ((number with_sign v).natAbs.log2 + 1023) <<< 20).toNat =
        ret.high.toNat ||| ((number with_sign v).natAbs.log2 + 1023) * 2 ^ 20 := by
      rw [BitVec.toNat_or]
      exact congrArg _ hexponent
    have hlt31 : (ret.high ||| BitVec.ofInt 32 ((number with_sign v).natAbs.log2 + 1023) <<< 20).toNat < 2 ^ 31 := by
      rw [hmagnitude]
      exact Nat.or_lt_two_pow (by omega) (by omega)
    have hpattern := @halves_pattern_with_sign ret.low _ sign hlt31
    have hfits : (number with_sign v).natAbs.log2 + 1023 + 2 < 2 ^ 11 := by omega
    rw [hpattern, nearest_iff hzero hsign, hmagnitude, halves_or ret.low.isLt, ← Halves.toNat_word, hret]
    exact rounds_iff (f := binary64) rfl hne hfits double_lost_of_le

theorem truncate_three_halves : truncate (binary32.value (word_pattern 0x3fc00000#32)) = 1 := by
  have hfloor := Format.floor_of_large (f := binary32) (m := (word_pattern 0x3fc00000#32).magnitude) (e := 0) (by decide)
  rw [truncate_eq, if_neg (by decide), hfloor]
  decide

end numbers

end tcc.lib.arm
