import Tcc.Lib.QuadMul
import Tcc.Machine.DoubleWord

/-! `__divtf3` of `lib/lib-arm64.c`: a bit of the quotient in each turn of the loop. -/

namespace tcc.lib.quad

open machine.ieee machine.jam machine.double_word machine.restoring

def f3_half (x : U128) : U128 := { x0 := x.x0 >>> 1 ||| x.x1 <<< 63, x1 := x.x1 >>> 1 }

def f3_double (x : U128) : U128 := { x0 := x.x0 <<< 1, x1 := x.x1 <<< 1 ||| x.x0 >>> 63 }

/-- A turn of the loop: the remainder and the bits of the quotient. -/
def f3_div_step (b : U128) (s : U128 × U128) : U128 × U128 :=
  let x := f3_double s.2
  if s.1.x1 > b.x1 ∨ s.1.x1 = b.x1 ∧ s.1.x0 ≥ b.x0 then
    (f3_double { x0 := s.1.x0 - b.x0, x1 := s.1.x1 - b.x1 - word (s.1.x0 < b.x0) },
      { x with x0 := x.x0 ||| 1#64 })
  else (f3_double s.1, x)

def f3_div_loop (a b : U128) (n : Nat) : U128 × U128 := (f3_div_step b)^[n] (a, { x0 := 0, x1 := 0 })

def f3_div_finite (a b : Unpacked) : U128 :=
  let an := f3_normalise a.exp a.mnt
  let bn := f3_normalise b.exp b.mnt
  let s := f3_div_loop (f3_half an.2) (f3_half bn.2) 116
  let x : U128 := { s.2 with x0 := s.2.x0 ||| word (s.1.x0 ||| s.1.x1 != 0) }
  let n := f3_normalise (an.1 - bn.1 + 16395) x
  f3_round (a.sgn ^^ b.sgn) n.1 n.2

def divtf3 (fa fb : U128) : U128 :=
  let a := f3_unpack fa
  let b := f3_unpack fb
  match fp3_detect_NaNs a b with
  | some fx => fx
  | none =>
    if a.exp = 32767 ∧ b.exp = 32767 ∨ a.mnt.x0 ||| a.mnt.x1 = 0 ∧ b.mnt.x0 ||| b.mnt.x1 = 0 then f3_NaN
    else if a.exp = 32767 ∨ b.mnt.x0 ||| b.mnt.x1 = 0 then f3_infinity (a.sgn ^^ b.sgn)
    else if a.mnt.x0 ||| a.mnt.x1 = 0 ∨ b.exp = 32767 then f3_zero (a.sgn ^^ b.sgn)
    else f3_div_finite a b

section loop

variable {a b x : U128} {s : U128 × U128}

theorem f3_half_spec (x : U128) : (f3_half x).toNat = x.toNat / 2 := pair_shr x.x1 x.x0 (n := 1) (by decide)

theorem f3_double_spec (h : x.toNat < 2 ^ 127) : (f3_double x).toNat = 2 * x.toNat := by
  have hshl := pair_shl x.x1 x.x0 (n := 1) (by decide) (by
    change x.toNat * 2 < _
    omega)
  rw [Nat.mul_comm]
  exact hshl

/-- The numbers of the state. -/
def numbers (s : U128 × U128) : Nat × Nat := (s.1.toNat, s.2.toNat)

theorem f3_div_step_spec (hb : b.toNat < 2 ^ 127) (ha : s.1.toNat < 2 * b.toNat) (hx : s.2.toNat < 2 ^ 127) :
    numbers (f3_div_step b s) = restoring_step b.toNat (numbers s) := by
  have hlow := s.1.x0.isLt
  have hlow' := b.x0.isLt
  have hcond : (s.1.x1 > b.x1 ∨ s.1.x1 = b.x1 ∧ s.1.x0 ≥ b.x0) ↔ b.toNat ≤ s.1.toNat := by
    rw [gt_iff_lt, ge_iff_le, BitVec.lt_def, BitVec.le_def, ← BitVec.toNat_inj, U128.toNat_eq, U128.toNat_eq]
    omega
  unfold f3_div_step restoring_step numbers
  by_cases hle : b.toNat ≤ s.1.toNat
  · have hle' : b.x1 ++ b.x0 ≤ s.1.x1 ++ s.1.x0 := by
      rw [BitVec.le_def, toNat_append, toNat_append]
      exact hle
    have hminus : U128.toNat ⟨s.1.x0 - b.x0, s.1.x1 - b.x1 - word (s.1.x0 < b.x0)⟩ = s.1.toNat - b.toNat := by
      rw [word_decide, U128.toNat, ← toNat_append, sub_append, BitVec.toNat_sub_of_le hle', toNat_append,
        toNat_append]
      rfl
    have hbit : U128.toNat ⟨(f3_double s.2).x0 ||| 1#64, (f3_double s.2).x1⟩ = 2 * s.2.toNat + 1 := by
      have hor := pair_or_word (f3_double s.2).x1 (f3_double s.2).x0 (b := true) (p := False) (by decide)
      rw [if_neg not_false, or_one] at hor
      refine hor.trans ?_
      change (f3_double s.2).toNat / 2 * 2 + 1 = _
      rw [f3_double_spec hx]
      omega
    rw [if_pos (hcond.mpr hle), if_pos hle]
    refine Prod.ext ?_ hbit
    change (f3_double _).toNat = _
    rw [f3_double_spec (by rw [hminus]; omega), hminus]
  · rw [if_neg (mt hcond.mp hle), if_neg hle]
    refine Prod.ext ?_ (f3_double_spec hx)
    exact f3_double_spec (by omega)

/-- The words hold the numbers of the division of unbounded integers: nothing overflows. -/
theorem f3_div_loop_spec (hb : b.toNat < 2 ^ 127) (ha : a.toNat < 2 * b.toNat) {n : Nat} (hn : n ≤ 127) :
    numbers (f3_div_loop a b n) = (restoring_step b.toNat)^[n] (a.toNat, 0) := by
  induction n with
  | zero =>
    have hzero : U128.toNat ⟨0, 0⟩ = 0 := (U128.toNat_eq_zero _).mpr BitVec.or_self
    rw [f3_div_loop, Function.iterate_zero_apply, Function.iterate_zero_apply, numbers, hzero]
  | succ n ih =>
    have ih := ih (by omega)
    have hlt := restoring_lt ha n
    have hbits := (restoring_eq a.toNat b.toNat n).2
    rw [← ih] at hlt hbits
    have hpow : 2 ^ n ≤ 2 ^ 127 := Nat.pow_le_pow_right (by decide) (by omega)
    unfold f3_div_loop at ih hlt hbits ⊢
    rw [Function.iterate_succ_apply', Function.iterate_succ_apply', ← ih]
    exact f3_div_step_spec hb hlt (lt_of_lt_of_le hbits hpow)

end loop

section quotient

variable {u w : Unpacked} {p q : Pattern}

theorem signed_div_signed (s t : Bool) (v v' : ℚ) : signed s v / signed t v' = signed (s ^^ t) (v / v') := by
  cases s <;> cases t <;> simp [signed, neg_div, div_neg]

/-- The bits of the quotient with the sticky bit. -/
theorem f3_div_loop_adds {a b : U128} (ha : 2 ^ 126 ≤ a.toNat ∧ a.toNat < 2 ^ 127)
    (hb : 2 ^ 126 ≤ b.toNat ∧ b.toNat < 2 ^ 127) {s : U128 × U128} (hs : f3_div_loop a b 116 = s) :
    Adds (a.toNat * 2 ^ 115 / b.toNat) (U128.toNat ⟨s.2.x0 ||| word (s.1.x0 ||| s.1.x1 != 0), s.2.x1⟩) ∧
      U128.toNat ⟨s.2.x0 ||| word (s.1.x0 ||| s.1.x1 != 0), s.2.x1⟩ ≠ 0 := by
  have hlt : a.toNat < 2 * b.toNat := by omega
  have hnum := f3_div_loop_spec hb.2 hlt (show 116 ≤ 127 by decide)
  have hrem := restoring_lt hlt 116
  obtain ⟨heq, hbits⟩ := restoring_eq a.toNat b.toNat 116
  rw [← hnum, hs] at hrem heq hbits
  change s.1.toNat < _ at hrem
  change _ = 2 * b.toNat * s.2.toNat + s.1.toNat at heq
  have hsticky : (!(s.1.x0 ||| s.1.x1 != 0)) = true ↔ s.1.toNat = 0 := by
    rw [not_bne_zero, ← eq_zero_iff, U128.toNat_eq_zero]
  have hword : U128.toNat ⟨s.2.x0 ||| word (s.1.x0 ||| s.1.x1 != 0), s.2.x1⟩ =
      s.2.toNat ||| if s.1.toNat = 0 then 0 else 1 := pair_or_word s.2.x1 s.2.x0 hsticky
  rw [hword]
  have hpos : (0 : ℚ) < b.toNat := by exact_mod_cast (by omega : 0 < b.toNat)
  have heq' : (a.toNat : ℚ) * 2 ^ 115 = b.toNat * s.2.toNat + s.1.toNat / 2 := by
    have hcast : (a.toNat : ℚ) * 2 ^ 116 = 2 * b.toNat * s.2.toNat + s.1.toNat := by exact_mod_cast heq
    linarith
  have hlarge : 2 ^ 114 ≤ s.2.toNat := by
    by_contra hsmall
    have hmul := Nat.mul_le_mul_left (2 * b.toNat) (show s.2.toNat + 1 ≤ 2 ^ 114 by omega)
    rw [Nat.mul_succ] at hmul
    omega
  by_cases hzero : s.1.toNat = 0
  · rw [if_pos hzero, Nat.or_zero]
    have hexact : (a.toNat * 2 ^ 115 / b.toNat : ℚ) = s.2.toNat := by
      rw [heq', hzero, div_eq_iff hpos.ne']
      push_cast
      ring
    exact ⟨⟨.inl hexact, .inr hlarge⟩, by omega⟩
  · rw [if_neg hzero]
    have hrem' : (s.1.toNat : ℚ) < 2 * b.toNat := by exact_mod_cast hrem
    have hpos' : (0 : ℚ) < s.1.toNat := by exact_mod_cast Nat.pos_of_ne_zero hzero
    have hlarge' : 2 ^ 114 ≤ s.2.toNat ||| 1 := le_trans hlarge Nat.left_le_or
    refine ⟨⟨Jam.of_between ?_ ?_, .inr hlarge'⟩, by omega⟩
    · rw [lt_div_iff₀ hpos, heq']
      linarith
    · rw [div_lt_iff₀ hpos, heq']
      linarith

theorem f3_div_finite_spec (ha : u.Represents p) (hb : w.Represents q) (hane : u.mnt.toNat ≠ 0)
    (hbne : w.mnt.toNat ≠ 0) :
    binary128.RoundsTo (binary128.value p / binary128.value q) (f3_div_finite u w).pattern := by
  obtain ⟨hdvd_a, hlo_a, hval_a⟩ := f3_normalise_fraction ha hane
  obtain ⟨hdvd_b, hlo_b, hval_b⟩ := f3_normalise_fraction hb hbne
  unfold f3_div_finite
  obtain ⟨an, han⟩ : ∃ an, f3_normalise u.exp u.mnt = an := ⟨_, rfl⟩
  obtain ⟨bn, hbn⟩ : ∃ bn, f3_normalise w.exp w.mnt = bn := ⟨_, rfl⟩
  rw [han] at hdvd_a hlo_a hval_a ⊢
  rw [hbn] at hdvd_b hlo_b hval_b ⊢
  dsimp only
  obtain ⟨s, hs⟩ : ∃ s, f3_div_loop (f3_half an.2) (f3_half bn.2) 116 = s := ⟨_, rfl⟩
  have hlt_a := an.2.toNat_lt
  have hlt_b := bn.2.toNat_lt
  have hhalf_a := f3_half_spec an.2
  have hhalf_b := f3_half_spec bn.2
  obtain ⟨⟨hjam, hbits⟩, hne⟩ := f3_div_loop_adds (by omega) (by omega) hs
  rw [hs]
  obtain ⟨x, hx⟩ : ∃ x : U128, x = ⟨s.2.x0 ||| word (s.1.x0 ||| s.1.x1 != 0), s.2.x1⟩ := ⟨_, rfl⟩
  rw [← hx] at hjam hbits hne ⊢
  have hzpow : ∀ z : Int, (2 : ℚ) ^ z ≠ 0 := fun z => zpow_ne_zero z (by norm_num)
  have hvalue : binary128.value p / binary128.value q = signed (u.sgn ^^ w.sgn)
      ((f3_half an.2).toNat * 2 ^ 115 / (f3_half bn.2).toNat * 2 ^ (an.1 - bn.1 + 16395 - 16510)) := by
    rw [value_eq ha, value_eq hb, signed_div_signed, hval_a, hval_b]
    refine congrArg (signed _) ?_
    have hdouble_a : (an.2.toNat : ℚ) = 2 * (f3_half an.2).toNat := by
      exact_mod_cast (show an.2.toNat = 2 * (f3_half an.2).toNat by omega)
    have hdouble_b : (bn.2.toNat : ℚ) = 2 * (f3_half bn.2).toNat := by
      exact_mod_cast (show bn.2.toNat = 2 * (f3_half bn.2).toNat by omega)
    have hpos : ((f3_half bn.2).toNat : ℚ) ≠ 0 := by exact_mod_cast (show (f3_half bn.2).toNat ≠ 0 by omega)
    have hsum : an.1 - 16495 = (an.1 - bn.1 + 16395 - 16510) + (bn.1 - 16495) + (115 : Nat) := by
      push_cast
      ring
    rw [hdouble_a, hdouble_b, hsum, zpow_add₀ (by norm_num), zpow_add₀ (by norm_num), zpow_natCast]
    obtain ⟨c, hc⟩ : ∃ c : ℚ, 2 ^ (an.1 - bn.1 + 16395 - 16510) = c := ⟨_, rfl⟩
    obtain ⟨d, hd, hne⟩ : ∃ d : ℚ, 2 ^ (bn.1 - 16495) = d ∧ d ≠ 0 := ⟨_, rfl, hzpow _⟩
    rw [hc, hd]
    field_simp
  have hround := normalise_round (u.sgn ^^ w.sgn) (an.1 - bn.1 + 16395) 0 hne hjam hbits
  rw [add_zero, add_zero] at hround
  rw [hvalue]
  exact hround

theorem divtf3_isQuotient (fa fb : U128) : binary128.IsQuotient fa.pattern fb.pattern (divtf3 fa fb).pattern := by
  have ha := f3_unpack_represents fa
  have hb := f3_unpack_represents fb
  unfold divtf3
  rcases fp3_detect_NaNs_spec ha hb with ⟨fx, hdetect, hnan, hoperand⟩ | ⟨hdetect, hna, hnb⟩
  · simp only [hdetect]
    exact .of_nan (hoperand.imp_right .inl) hnan
  · simp only [hdetect, ha.sgn, hb.sgn]
    have hinf_a := ha.isInfinite_of_exp hna
    have hinf_b := hb.isInfinite_of_exp hnb
    have hfin_a := ha.isFinite_iff
    have hfin_b := hb.isFinite_iff
    have hmag_a := ha.magnitude_eq_zero
    have hmag_b := hb.magnitude_eq_zero
    have hpos := binary128.infinity_pos
    have hclass_a := binary128.classes fa.pattern
    have hclass_b := binary128.classes fb.pattern
    split
    · rename_i hinvalid
      rw [← hmag_a, ← hmag_b, ← hinf_a, ← hinf_b] at hinvalid
      exact .of_nan (.inr (.inr hinvalid)) pattern_f3_NaN
    split
    · rename_i hvalid hinfinite
      rw [← hmag_a, ← hmag_b, ← hinf_a, ← hinf_b] at hvalid
      rw [← hmag_b, ← hinf_a] at hinfinite
      rw [pattern_f3_infinity]
      refine .of_infinite ?_
      grind
    split
    · rename_i hvalid hfinite hzero
      rw [← hmag_a, ← hmag_b, ← hinf_a, ← hinf_b] at hvalid
      rw [← hmag_b, ← hinf_a] at hfinite
      rw [← hmag_a, ← hinf_b] at hzero
      rw [pattern_f3_zero]
      refine .of_zero ?_ ?_ <;> grind
    · rename_i hvalid hfinite hzero
      rw [not_or] at hfinite hzero
      exact .of_finite (hfin_a.mpr hfinite.1) (hfin_b.mpr hzero.2) (mt hmag_a.mp hzero.1) (mt hmag_b.mp hfinite.2)
        (f3_div_finite_spec ha hb (mt (U128.toNat_eq_zero _).mp hzero.1) (mt (U128.toNat_eq_zero _).mp hfinite.2))

/-- What `divtf3` divides, and what it divides by. -/
def f3_divided (f : U128) : U128 := f3_half (f3_normalise (f3_unpack f).exp (f3_unpack f).mnt).2

theorem f3_divided_bounds {f : U128} (h : f.pattern.magnitude ≠ 0) :
    2 ^ 126 ≤ (f3_divided f).toNat ∧ (f3_divided f).toNat < 2 ^ 127 := by
  have hf := f3_unpack_represents f
  have hne : (f3_unpack f).mnt.toNat ≠ 0 := fun hzero =>
    h (hf.magnitude_eq_zero.mpr ((U128.toNat_eq_zero _).mp hzero))
  have hlo := (f3_normalise_fraction hf hne).2.1
  have hlt := (f3_normalise (f3_unpack f).exp (f3_unpack f).mnt).2.toNat_lt
  rw [f3_divided, f3_half_spec]
  omega

/-- The quotient. In each turn of the loop the words hold the remainder and the bits of the quotient of
    unbounded integers, and the remainder is below twice the divisor. -/
theorem divtf3_spec (fa fb : U128) : binary128.IsQuotient fa.pattern fb.pattern (divtf3 fa fb).pattern ∧
    (fa.pattern.magnitude ≠ 0 → fb.pattern.magnitude ≠ 0 → ∀ n ≤ 116,
      numbers (f3_div_loop (f3_divided fa) (f3_divided fb) n) =
        (restoring_step (f3_divided fb).toNat)^[n] ((f3_divided fa).toNat, 0) ∧
      (f3_div_loop (f3_divided fa) (f3_divided fb) n).1.toNat < 2 * (f3_divided fb).toNat ∧
      2 * (f3_divided fb).toNat < 2 ^ 128) := by
  refine ⟨divtf3_isQuotient fa fb, fun hane hbne n hn => ?_⟩
  have ha := f3_divided_bounds hane
  have hb := f3_divided_bounds hbne
  have hlt : (f3_divided fa).toNat < 2 * (f3_divided fb).toNat := by omega
  have hnum := f3_div_loop_spec hb.2 hlt (show n ≤ 127 by omega)
  have hrem := restoring_lt hlt n
  rw [← hnum] at hrem
  exact ⟨hnum, hrem, by omega⟩

/-- One divided by three: all the turns leave a remainder. -/
theorem divtf3_one_three : binary128.IsQuotient ⟨false, 0x3fff * 2 ^ 112⟩ ⟨false, 0x40008 * 2 ^ 108⟩
      (divtf3 ⟨0, 0x3fff000000000000⟩ ⟨0, 0x4000800000000000⟩).pattern ∧
    (f3_div_loop (f3_divided ⟨0, 0x3fff000000000000⟩) (f3_divided ⟨0, 0x4000800000000000⟩) 116).1.toNat <
      2 * (f3_divided ⟨0, 0x4000800000000000⟩).toNat :=
  ⟨(divtf3_spec ⟨0, 0x3fff000000000000⟩ ⟨0, 0x4000800000000000⟩).1,
    ((divtf3_spec ⟨0, 0x3fff000000000000⟩ ⟨0, 0x4000800000000000⟩).2 (by decide) (by decide) 116 le_rfl).2.1⟩

end quotient

end tcc.lib.quad
