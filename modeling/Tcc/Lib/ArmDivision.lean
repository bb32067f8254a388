import Mathlib.Tactic.Ring

/-! The division helpers of `lib/armeabi.c`: the quotient is put together from powers of two. -/

namespace tcc.lib.arm

/-- The quotient and the remainder, as they are left in the registers. -/
@[ext] structure Divmod (w : Nat) where
  quot : BitVec w
  rem : BitVec w

section

variable {w : Nat}

/-- `while ((q << 1) * den <= num && q * den <= typemacro_MAX / 2) q <<= 1;` -/
def closest_power (num den : BitVec w) : Nat → BitVec w → Option (BitVec w)
  | 0, _ => none
  | n + 1, q =>
    if (q <<< 1) * den ≤ num ∧ q * den ≤ BitVec.allOnes w / 2 then closest_power num den n (q <<< 1) else some q

/-- The loop of `AEABI_UXDIVMOD`. Its last argument but one is the numerator that is left. -/
def divmod_loop (fuel : Nat) (den : BitVec w) : Nat → BitVec w → BitVec w → Option (Divmod w)
  | 0, _, _ => none
  | n + 1, num, quot =>
    if den ≤ num then
      (closest_power num den fuel 1).bind fun q => divmod_loop fuel den n (num - q * den) (quot + q)
    else some { quot := quot, rem := num }

/-- `AEABI_UXDIVMOD` -/
def aeabi_uxdivmod (fuel : Nat) (num den : BitVec w) : Option (Divmod w) := divmod_loop fuel den fuel num 0

/-- `num = numerator` or `num = 0 - numerator` -/
def magnitude (x : BitVec w) : BitVec w := if 0 ≤ x.toInt then x else 0 - x

/-- `__AEABI_XDIVMOD` -/
def aeabi_xdivmod (fuel : Nat) (numerator denominator : BitVec w) : Option (Divmod w) :=
  (aeabi_uxdivmod fuel (magnitude numerator) (magnitude denominator)).map fun uxdiv_ret =>
    { quot :=
        if numerator &&& BitVec.intMin w ≠ denominator &&& BitVec.intMin w then 0 - uxdiv_ret.quot
        else uxdiv_ret.quot
      rem := if numerator.toInt < 0 then 0 - uxdiv_ret.rem else uxdiv_ret.rem }

end

def aeabi_uidivmod (fuel : Nat) (num den : BitVec 32) : Option (Divmod 32) := aeabi_uxdivmod fuel num den

def aeabi_uldivmod (fuel : Nat) (num den : BitVec 64) : Option (Divmod 64) := aeabi_uxdivmod fuel num den

def aeabi_idivmod (fuel : Nat) (numerator denominator : BitVec 32) : Option (Divmod 32) :=
  aeabi_xdivmod fuel numerator denominator

/-- `__aeabi_idiv` has the quotient alone. -/
def aeabi_idiv (fuel : Nat) (numerator denominator : BitVec 32) : Option (BitVec 32) :=
  (aeabi_uidivmod fuel (magnitude numerator) (magnitude denominator)).map fun ret =>
    if numerator &&& BitVec.intMin 32 ≠ denominator &&& BitVec.intMin 32 then ret.quot * -1 else ret.quot

def aeabi_ldivmod (fuel : Nat) (numerator denominator : BitVec 64) : Option (Divmod 64) :=
  aeabi_xdivmod fuel numerator denominator

/-- The quotient truncated toward zero, and the remainder with the sign of the numerator. -/
structure Truncated {w : Nat} (numerator denominator : BitVec w) (ret : Divmod w) : Prop where
  quot : ret.quot.toInt = (numerator.toInt.tdiv denominator.toInt).bmod (2 ^ w)
  exact : ¬(numerator = BitVec.intMin w ∧ denominator = -1#w) →
    ret.quot.toInt = numerator.toInt.tdiv denominator.toInt
  rem : ret.rem.toInt = numerator.toInt.tmod denominator.toInt
  sum : ret.quot * denominator + ret.rem = numerator

section

variable {w : Nat} {num den q : BitVec w}

theorem toNat_mul_of_le (h : q.toNat * den.toNat ≤ num.toNat) : (q * den).toNat = q.toNat * den.toNat := by
  rw [BitVec.toNat_mul, Nat.mod_eq_of_lt (lt_of_le_of_lt h num.isLt)]

theorem toNat_half_max (hw : 1 < w) : (BitVec.allOnes w / 2).toNat = (2 ^ w - 1) / 2 := by
  have htwo : 2 ^ 1 < 2 ^ w := Nat.pow_lt_pow_right (by decide) hw
  have hlit : (2 : BitVec w).toNat = 2 := Nat.mod_eq_of_lt htwo
  rw [BitVec.toNat_udiv, BitVec.toNat_allOnes, hlit]

theorem toNat_double (h : 2 * q.toNat < 2 ^ w) : (q <<< 1).toNat = 2 * q.toNat := by
  rw [BitVec.toNat_shiftLeft, Nat.shiftLeft_eq, Nat.pow_one, Nat.mul_comm, Nat.mod_eq_of_lt h]

/-- The second test excludes the products that wrap around. -/
theorem guard_iff (hw : 1 < w) (hden : 0 < den.toNat) (hq : q.toNat * den.toNat ≤ num.toNat) :
    ((q <<< 1) * den ≤ num ∧ q * den ≤ BitVec.allOnes w / 2) ↔ 2 * (q.toNat * den.toNat) ≤ num.toNat := by
  have hnum := num.isLt
  have hle : q.toNat ≤ q.toNat * den.toNat := Nat.le_mul_of_pos_right _ hden
  rw [BitVec.le_def, BitVec.le_def, toNat_mul_of_le hq, toNat_half_max hw]
  have hexact (hfits : 2 * (q.toNat * den.toNat) < 2 ^ w) :
      ((q <<< 1) * den).toNat = 2 * (q.toNat * den.toNat) := by
    rw [BitVec.toNat_mul, toNat_double (by omega), Nat.mul_assoc, Nat.mod_eq_of_lt hfits]
  constructor
  · rintro ⟨hprod, hhalf⟩
    rwa [hexact (by omega)] at hprod
  · intro hdouble
    rw [hexact (by omega)]
    omega

/-- The inner loop stops within as many turns as the type has bits. -/
theorem closest_power_spec (hw : 1 < w) (hden : 0 < den.toNat) {fuel : Nat}
    (hfuel : 2 ^ w ≤ q.toNat * 2 ^ fuel) (hq : q.toNat * den.toNat ≤ num.toNat) :
    ∃ q', closest_power num den fuel q = some q' ∧ q'.toNat * den.toNat ≤ num.toNat ∧
      num.toNat < 2 * (q'.toNat * den.toNat) := by
  induction fuel generalizing q with
  | zero =>
    have hlt := q.isLt
    omega
  | succ fuel ih =>
    rw [closest_power]
    split
    · rename_i hguard
      have hdouble := (guard_iff hw hden hq).mp hguard
      have hle : q.toNat ≤ q.toNat * den.toNat := Nat.le_mul_of_pos_right _ hden
      have hq' : (q <<< 1).toNat = 2 * q.toNat := toNat_double (by have := num.isLt; omega)
      refine ih ?_ ?_
      · rw [hq', Nat.mul_assoc, Nat.mul_left_comm, ← Nat.pow_succ']
        exact hfuel
      · rw [hq', Nat.mul_assoc]
        exact hdouble
    · rename_i hguard
      exact ⟨q, rfl, hq, Nat.lt_of_not_le fun h => hguard ((guard_iff hw hden hq).mpr h)⟩

/-- Every turn of the outer loop at least halves what is left. -/
theorem divmod_loop_spec (hw : 1 < w) (hden : 0 < den.toNat) {fuel n : Nat} (hfuel : w ≤ fuel)
    (hn : num.toNat < 2 ^ n) (quot : BitVec w) :
    divmod_loop fuel den (n + 1) num quot = some { quot := quot + num / den, rem := num % den } := by
  induction n generalizing num quot with
  | zero =>
    have hzero : num.toNat = 0 := by omega
    rw [divmod_loop, if_neg (by rw [BitVec.le_def]; omega)]
    refine congrArg some (Divmod.ext ?_ ?_)
    · apply BitVec.eq_of_toNat_eq
      rw [BitVec.toNat_add, BitVec.toNat_udiv, hzero, Nat.zero_div, Nat.add_zero, Nat.mod_eq_of_lt quot.isLt]
    · apply BitVec.eq_of_toNat_eq
      rw [BitVec.toNat_umod, hzero, Nat.zero_mod]
  | succ n ih =>
    rw [divmod_loop]
    split
    · rename_i hle
      rw [BitVec.le_def] at hle
      have hone : (1 : BitVec w).toNat = 1 := Nat.mod_eq_of_lt (Nat.one_lt_two_pow (by omega))
      have hpow : 2 ^ w ≤ 2 ^ fuel := Nat.pow_le_pow_right (by decide) hfuel
      obtain ⟨q, hrun, hlo, hhi⟩ := @closest_power_spec w num den 1 hw hden fuel (by rw [hone]; omega)
        (by rw [hone]; omega)
      have hprod := toNat_mul_of_le hlo
      have hrest : (num - q * den).toNat = num.toNat - q.toNat * den.toNat := by
        rw [BitVec.toNat_sub_of_le (by rw [BitVec.le_def, hprod]; exact hlo), hprod]
      have hnum : num.toNat = (num - q * den).toNat + q.toNat * den.toNat := by omega
      rw [hrun, Option.bind_some, ih (by rw [hrest]; omega)]
      refine congrArg some (Divmod.ext ?_ ?_)
      · apply BitVec.eq_of_toNat_eq
        simp only [BitVec.toNat_add, BitVec.toNat_udiv]
        rw [hnum, Nat.add_mul_div_right _ _ hden, Nat.mod_add_mod, Nat.add_assoc, Nat.add_comm q.toNat]
      · apply BitVec.eq_of_toNat_eq
        rw [BitVec.toNat_umod, BitVec.toNat_umod, hnum, Nat.add_mul_mod_self_right]
    · rename_i hgt
      rw [BitVec.le_def, Nat.not_le] at hgt
      refine congrArg some (Divmod.ext ?_ ?_)
      · apply BitVec.eq_of_toNat_eq
        rw [BitVec.toNat_add, BitVec.toNat_udiv, Nat.div_eq_of_lt hgt, Nat.add_zero, Nat.mod_eq_of_lt quot.isLt]
      · apply BitVec.eq_of_toNat_eq
        rw [BitVec.toNat_umod, Nat.mod_eq_of_lt hgt]

theorem aeabi_uxdivmod_eq (hw : 1 < w) (hden : den ≠ 0) {fuel : Nat} (hfuel : w < fuel) (num : BitVec w) :
    aeabi_uxdivmod fuel num den = some { quot := num / den, rem := num % den } := by
  have hpos : 0 < den.toNat := by
    rw [Nat.pos_iff_ne_zero]
    exact fun h => hden (BitVec.eq_of_toNat_eq h)
  obtain ⟨n, rfl⟩ : ∃ n, fuel = n + 1 := ⟨fuel - 1, by omega⟩
  have hnum : num.toNat < 2 ^ n := lt_of_lt_of_le num.isLt (Nat.pow_le_pow_right (by decide) (by omega))
  have hzero : (0 : BitVec w) + num / den = num / den := BitVec.zero_add _
  rw [aeabi_uxdivmod, divmod_loop_spec hw hpos (by omega) hnum, hzero]

theorem and_intMin (hw : 0 < w) (x : BitVec w) :
    x &&& BitVec.intMin w = if x.msb then BitVec.intMin w else 0#w := by
  apply BitVec.eq_of_getLsbD_eq
  intro i hi
  rw [BitVec.getLsbD_and, BitVec.getLsbD_intMin, BitVec.msb_eq_getLsbD_last]
  by_cases hlast : i + 1 = w
  · have hi' : i = w - 1 := by omega
    subst hi'
    cases hbit : x.getLsbD (w - 1) <;> simp [BitVec.getLsbD_intMin, hlast]
  · cases hbit : x.getLsbD (w - 1) <;> simp [BitVec.getLsbD_intMin, hlast]

theorem signs_differ_iff (hw : 0 < w) (x y : BitVec w) :
    x &&& BitVec.intMin w ≠ y &&& BitVec.intMin w ↔ x.msb ≠ y.msb := by
  have hne : BitVec.intMin w ≠ 0#w := by
    intro h
    have hbit := congrArg (·.getLsbD (w - 1)) h
    simp only [BitVec.getLsbD_intMin, BitVec.getLsbD_zero, decide_eq_false_iff_not] at hbit
    omega
  rw [and_intMin hw, and_intMin hw]
  cases x.msb <;> cases y.msb <;> simp [hne, hne.symm]

theorem magnitude_eq (x : BitVec w) : magnitude x = if x.msb then -x else x := by
  have hneg : x.toInt < 0 ↔ x.msb = true := by
    rw [BitVec.msb_eq_toInt, decide_eq_true_iff]
  have hsub : (0 : BitVec w) - x = -x := BitVec.zero_sub x
  rw [magnitude, hsub]
  by_cases h : x.msb
  · rw [if_neg (by rw [Int.not_le]; exact hneg.mpr h), if_pos h]
  · rw [if_pos (by rw [← Int.not_lt]; exact fun hlt => h (hneg.mp hlt)), if_neg h]

theorem aeabi_xdivmod_eq (hw : 1 < w) {numerator denominator : BitVec w} (hden : denominator ≠ 0) {fuel : Nat}
    (hfuel : w < fuel) : aeabi_xdivmod fuel numerator denominator =
      some { quot := numerator.sdiv denominator, rem := numerator.srem denominator } := by
  have hden' : magnitude denominator ≠ 0 := by
    rw [magnitude_eq]
    split
    · exact fun h => hden (BitVec.neg_eq_zero_iff.mp h)
    · exact hden
  have hsign : numerator.toInt < 0 ↔ numerator.msb = true := by
    rw [BitVec.msb_eq_toInt, decide_eq_true_iff]
  rw [aeabi_xdivmod, aeabi_uxdivmod_eq hw hden' hfuel, Option.map_some]
  simp only [signs_differ_iff (show 0 < w by omega), hsign, magnitude_eq]
  refine congrArg some (Divmod.ext ?_ ?_)
  · rw [BitVec.sdiv_eq]
    cases numerator.msb <;> cases denominator.msb <;> simp
  · rw [BitVec.srem_eq]
    cases numerator.msb <;> cases denominator.msb <;> simp

theorem sdiv_mul_add_srem (x y : BitVec w) : x.sdiv y * y + x.srem y = x := by
  apply BitVec.eq_of_toInt_eq
  rw [BitVec.toInt_add, BitVec.toInt_mul, BitVec.toInt_sdiv, BitVec.toInt_srem, Int.bmod_mul_bmod,
    Int.bmod_add_bmod, Int.tdiv_mul_add_tmod, BitVec.toInt_bmod_cancel]

theorem truncated_sdiv (x y : BitVec w) : Truncated x y { quot := x.sdiv y, rem := x.srem y } where
  quot := BitVec.toInt_sdiv x y
  exact h := BitVec.toInt_sdiv_of_ne_or_ne x y (by
    rw [not_and_or] at h
    exact h)
  rem := BitVec.toInt_srem x y
  sum := sdiv_mul_add_srem x y

end

/-- The loops stop, within turns that only the type bounds, with the quotient and the remainder. -/
theorem divmod_helpers_spec {fuel : Nat} (hfuel : 64 < fuel) :
    (∀ num den : BitVec 32, den ≠ 0 → ∃ ret, aeabi_uidivmod fuel num den = some ret ∧
      ret.quot.toNat = num.toNat / den.toNat ∧ ret.rem.toNat = num.toNat % den.toNat) ∧
    (∀ num den : BitVec 64, den ≠ 0 → ∃ ret, aeabi_uldivmod fuel num den = some ret ∧
      ret.quot.toNat = num.toNat / den.toNat ∧ ret.rem.toNat = num.toNat % den.toNat) ∧
    (∀ numerator denominator : BitVec 32, denominator ≠ 0 → ∃ ret,
      aeabi_idivmod fuel numerator denominator = some ret ∧ Truncated numerator denominator ret) ∧
    ∀ numerator denominator : BitVec 64, denominator ≠ 0 → ∃ ret,
      aeabi_ldivmod fuel numerator denominator = some ret ∧ Truncated numerator denominator ret := by
  refine ⟨fun num den hden => ?_, fun num den hden => ?_, fun x y hy => ?_, fun x y hy => ?_⟩
  · exact ⟨_, aeabi_uxdivmod_eq (by decide) hden (by omega) num, BitVec.toNat_udiv, BitVec.toNat_umod⟩
  · exact ⟨_, aeabi_uxdivmod_eq (by decide) hden hfuel num, BitVec.toNat_udiv, BitVec.toNat_umod⟩
  · exact ⟨_, aeabi_xdivmod_eq (by decide) hy (by omega), truncated_sdiv x y⟩
  · exact ⟨_, aeabi_xdivmod_eq (by decide) hy hfuel, truncated_sdiv x y⟩

theorem divmod_helpers_minus_seven : ∃ ret, aeabi_idivmod 65 (-7) 2 = some ret ∧ ret.quot.toInt = -3 ∧
    ret.rem.toInt = -1 := by
  obtain ⟨ret, hrun, h⟩ := (divmod_helpers_spec (by decide : 64 < 65)).2.2.1 (-7) 2 (by decide)
  exact ⟨ret, hrun, (h.exact (by decide)).trans (by decide), h.rem.trans (by decide)⟩

theorem aeabi_idiv_eq (fuel : Nat) (numerator denominator : BitVec 32) :
    aeabi_idiv fuel numerator denominator = (aeabi_idivmod fuel numerator denominator).map Divmod.quot := by
  rw [aeabi_idiv, aeabi_idivmod, aeabi_xdivmod, aeabi_uidivmod, Option.map_map]
  refine congrArg (Option.map · _) (funext fun ret => ?_)
  have hneg : ret.quot * -1 = 0 - ret.quot := by
    have hone : ret.quot * (1 : BitVec 32) = ret.quot := BitVec.mul_one _
    have hsub : (0 : BitVec 32) - ret.quot = -ret.quot := BitVec.zero_sub _
    rw [BitVec.mul_neg, hone, hsub]
  simp only [Function.comp_apply, hneg]

end tcc.lib.arm
