import Mathlib.Data.Nat.Cast.Field
import Tcc.Lib.QuadRound

/-! `__addtf3` and `__subtf3` of `lib/lib-arm64.c`. -/

namespace tcc.lib.quad

open machine.ieee machine.jam machine.double_word

/-- Three more bits at the end. -/
def f3_guard (x : U128) : U128 := { x0 := x.x0 <<< 3, x1 := x.x1 <<< 3 ||| x.x0 >>> 61 }

/-- The exponent and the fractions at this exponent. -/
def f3_align (a b : Unpacked) : Int × U128 × U128 :=
  if a.exp ≤ b.exp then (b.exp, f3_sticky_shift (b.exp - a.exp) (f3_guard a.mnt), f3_guard b.mnt)
  else (a.exp, f3_guard a.mnt, f3_sticky_shift (a.exp - b.exp) (f3_guard b.mnt))

def f3_sum (a b : U128) : U128 := { x0 := a.x0 + b.x0, x1 := a.x1 + b.x1 + word (a.x0 + b.x0 < a.x0) }

def f3_minus (a b : U128) : U128 := { x0 := a.x0 - b.x0, x1 := a.x1 - b.x1 - word (a.x0 - b.x0 > a.x0) }

def f3_negative (x : U128) : U128 := { x0 := -x.x0, x1 := -x.x1 - word (-x.x0 != 0) }

def f3_add_signed (a_sgn b_sgn : Bool) (a b : U128) : Bool × U128 :=
  if a_sgn = b_sgn then (a_sgn, f3_sum a b)
  else if (f3_minus a b).x1 >>> 63 ≠ 0 then (a_sgn ^^ true, f3_negative (f3_minus a b))
  else (a_sgn, f3_minus a b)

def f3_add_finite (a b : Unpacked) : U128 :=
  let s := f3_align a b
  let x := f3_add_signed a.sgn b.sgn s.2.1 s.2.2
  if x.2.x0 ||| x.2.x1 = 0 then f3_zero false
  else f3_round x.1 ((f3_normalise s.1 x.2).1 + 12) (f3_normalise s.1 x.2).2

def f3_add (fa fb : U128) (neg : Bool) : U128 :=
  let a := f3_unpack fa
  let b := f3_unpack fb
  match fp3_detect_NaNs a b with
  | some fx => fx
  | none =>
    let b_sgn := b.sgn ^^ neg
    if a.exp = 32767 ∧ b.exp = 32767 ∧ a.sgn ≠ b_sgn then f3_NaN
    else if a.exp = 32767 then f3_infinity a.sgn
    else if b.exp = 32767 then f3_infinity b_sgn
    else if a.mnt.x0 ||| a.mnt.x1 ||| b.mnt.x0 ||| b.mnt.x1 = 0 then f3_zero (a.sgn && b_sgn)
    else f3_add_finite a { b with sgn := b_sgn }

def addtf3 (a b : U128) : U128 := f3_add a b false

def subtf3 (a b : U128) : U128 := f3_add a b true

section nan

variable {u w : Unpacked} {p q : Pattern}

theorem isNan_convert (sgn : Bool) (x : U128) : binary128.IsNan (fp3_convert_NaN sgn x).pattern := by
  have hor : ∀ a b : Nat, 0x7fff800000000000 ≤ (a ||| 0x7fff800000000000 ||| b) % 2 ^ 63 := by
    intro a b
    rw [Nat.or_mod_two_pow, Nat.or_mod_two_pow]
    exact le_trans Nat.right_le_or Nat.left_le_or
  have hmnt := hor x.x1.toNat (word sgn <<< 63).toNat
  have hone : (0x7fff800000000000#64).toNat = 0x7fff800000000000 := rfl
  have hmag : (fp3_convert_NaN sgn x).pattern.magnitude =
      ((x.x1.toNat ||| 0x7fff800000000000 ||| (word sgn <<< 63).toNat) * 2 ^ 64 + x.x0.toNat) % 2 ^ 127 := by
    rw [fp3_convert_NaN, U128.pattern_mk, U128.toNat_mk, BitVec.toNat_or, BitVec.toNat_or, hone]
  rw [Format.IsNan, Unpacked.Represents.infinity_eq, hmag]
  omega

/-- What is detected is a NaN, and is one of the operands. -/
theorem fp3_detect_NaNs_spec (ha : u.Represents p) (hb : w.Represents q) :
    (∃ fx, fp3_detect_NaNs u w = some fx ∧ binary128.IsNan fx.pattern ∧ (binary128.IsNan p ∨ binary128.IsNan q)) ∨
    fp3_detect_NaNs u w = none ∧ ¬ binary128.IsNan p ∧ ¬ binary128.IsNan q := by
  rw [ha.isNan_iff, hb.isNan_iff]
  unfold fp3_detect_NaNs
  split
  · rename_i hsignal
    exact .inl ⟨_, rfl, isNan_convert _ _, .inl ⟨hsignal.1, hsignal.2.1⟩⟩
  split
  · rename_i hsignal
    exact .inl ⟨_, rfl, isNan_convert _ _, .inr ⟨hsignal.1, hsignal.2.1⟩⟩
  split
  · rename_i hquiet
    exact .inl ⟨_, rfl, isNan_convert _ _, .inl hquiet⟩
  split
  · rename_i hquiet
    exact .inl ⟨_, rfl, isNan_convert _ _, .inr hquiet⟩
  · rename_i ha' hb'
    exact .inr ⟨rfl, ha', hb'⟩

end nan

section words

variable {x y : U128}

theorem f3_guard_spec (hx : x.toNat < 2 ^ 113) : (f3_guard x).toNat = x.toNat * 8 :=
  pair_shl x.x1 x.x0 (n := 3) (by decide) (by
    have heq : pair x.x1 x.x0 = x.toNat := rfl
    rw [heq]
    omega)

theorem word_decide (p : Prop) [Decidable p] : word (decide p) = if p then 1 else 0 := by
  by_cases hp : p <;> simp [hp, word]

theorem f3_sum_spec (h : x.toNat + y.toNat < 2 ^ 128) : (f3_sum x y).toNat = x.toNat + y.toNat := by
  have hsum := add_append x.x1 x.x0 y.x1 y.x0
  rw [f3_sum, word_decide, U128.toNat, ← toNat_append, hsum, BitVec.toNat_add, toNat_append, toNat_append]
  exact Nat.mod_eq_of_lt h

theorem f3_minus_append (x y : U128) :
    (f3_minus x y).x1 ++ (f3_minus x y).x0 = (x.x1 ++ x.x0) - (y.x1 ++ y.x0) := by
  rw [← sub_append, f3_minus, word_decide]
  simp only [gt_iff_lt, lt_sub_iff]

theorem f3_minus_spec (h : y.toNat ≤ x.toNat) : (f3_minus x y).toNat = x.toNat - y.toNat := by
  have hle : y.x1 ++ y.x0 ≤ x.x1 ++ x.x0 := by
    rw [BitVec.le_def, toNat_append, toNat_append]
    exact h
  rw [U128.toNat, ← toNat_append, f3_minus_append, BitVec.toNat_sub_of_le hle, toNat_append, toNat_append]
  rfl

theorem f3_negative_append (x : U128) : (f3_negative x).x1 ++ (f3_negative x).x0 = -(x.x1 ++ x.x0) := by
  have hsub := sub_append 0#64 0#64 x.x1 x.x0
  have hborrow : (-x.x0 != 0) = decide (0 < x.x0) := by
    rw [Bool.eq_iff_iff, bne_iff_ne, decide_eq_true_iff, Ne, neg_eq_zero, BitVec.lt_def, eq_zero_iff]
    exact Nat.pos_iff_ne_zero.symm
  have hzero : (0#64 ++ 0#64 : BitVec (64 + 64)) = 0 := rfl
  rw [f3_negative, hborrow, word_decide]
  rw [hzero, BitVec.zero_sub, BitVec.zero_sub, zero_sub] at hsub
  exact hsub

/-- The negative of a difference is the other difference. -/
theorem f3_negative_spec (h : x.toNat ≤ y.toNat) : (f3_negative (f3_minus x y)).toNat = y.toNat - x.toNat := by
  have hneg : (f3_negative (f3_minus x y)).toNat = (f3_minus y x).toNat := by
    rw [U128.toNat, ← toNat_append, f3_negative_append, f3_minus_append, U128.toNat, ← toNat_append,
      f3_minus_append]
    ring_nf
  rw [hneg, f3_minus_spec h]

end words

section align

variable {va vb : ℚ} {A B d m m' : Nat}

/-- Of two fractions one is known exactly. The other one is too, or it is much smaller. -/
structure Aligned (va vb : ℚ) (A B : Nat) : Prop where
  exact : va = A
  even : 2 ∣ A
  jam : Jam vb B
  near : vb = B ∨ 2 ^ 115 ≤ A ∧ B < 2 ^ 112
  left_lt : A < 2 ^ 116
  right_lt : B < 2 ^ 116

/-- A shift by no more than the guard bits is exact, and a longer one starts below a normal number. -/
theorem aligned_shift (hm : m < 2 ^ 113) (hm' : m' < 2 ^ 113) (hfar : 4 ≤ d → 2 ^ 112 ≤ m') :
    Aligned (m' * 8 : Nat) ((m * 8 : Nat) / 2 ^ d) (m' * 8) (jam_shift d (m * 8)) := by
  have hjam := (Jam.of_eq (m * 8)).shift d
  refine ⟨rfl, by omega, hjam, ?_, by omega, jam_shift_lt (by decide) ?_⟩
  · rcases Nat.lt_or_ge 3 d with hd | hd
    · refine .inr ⟨by have := hfar hd; omega, jam_shift_lt (by decide) ?_⟩
      have hpow : 2 ^ 4 ≤ 2 ^ d := Nat.pow_le_pow_right (by decide) hd
      omega
    · have hdvd : 2 ^ d ∣ m * 8 := Dvd.dvd.mul_left (pow_dvd_pow 2 hd) m
      refine .inl ?_
      rw [jam_shift_of_dvd hdvd, Nat.cast_div hdvd (by positivity)]
      push_cast
      rfl
  · have hone := Nat.one_le_two_pow (n := d)
    have hmul := Nat.mul_le_mul_left (2 ^ 116) hone
    omega

/-- The exponent of the fractions, and what they are fractions of. -/
theorem f3_align_spec {u w : Unpacked} {p q : Pattern} (ha : u.Represents p) (hb : w.Represents q) :
    ∃ va vb : ℚ, u.mnt.toNat * (2 : ℚ) ^ (u.exp - 16495) = va * 2 ^ ((f3_align u w).1 - 16498) ∧
      w.mnt.toNat * (2 : ℚ) ^ (w.exp - 16495) = vb * 2 ^ ((f3_align u w).1 - 16498) ∧
      (Aligned va vb (f3_align u w).2.1.toNat (f3_align u w).2.2.toNat ∨
        Aligned vb va (f3_align u w).2.2.toNat (f3_align u w).2.1.toNat) := by
  have hscale : ∀ (m d : Nat) (e e' : Int), e' = e + d →
      (m : ℚ) * 2 ^ (e - 16495) = ((m * 8 : Nat) / 2 ^ d : ℚ) * 2 ^ (e' - 16498) := by
    intro m d e e' he
    have hsum : e' - 16498 = (e - 16495) + (d : Int) + -3 := by omega
    have heighth : (2 : ℚ) ^ (-3 : Int) = 1 / 8 := by norm_num
    rw [hsum, zpow_add₀ (by norm_num), zpow_add₀ (by norm_num), zpow_natCast, heighth]
    push_cast
    field_simp
  have hself : ∀ (m : Nat) (e : Int), (m : ℚ) * 2 ^ (e - 16495) = ((m * 8 : Nat) : ℚ) * 2 ^ (e - 16498) := by
    intro m e
    have hzero := hscale m 0 e e (by simp)
    rwa [pow_zero, div_one] at hzero
  unfold f3_align
  split
  · rename_i hle
    obtain ⟨d, hd⟩ := Int.eq_ofNat_of_zero_le (sub_nonneg.mpr hle)
    refine ⟨_, _, hscale u.mnt.toNat d u.exp w.exp (by omega), hself w.mnt.toNat w.exp, .inr ?_⟩
    have hshift : (f3_sticky_shift (w.exp - u.exp) (f3_guard u.mnt)).toNat = jam_shift d (u.mnt.toNat * 8) := by
      rw [f3_sticky_shift_spec _ (sub_nonneg.mpr hle), f3_guard_spec ha.high, hd, Int.toNat_natCast]
    simp only [hshift, f3_guard_spec hb.high]
    refine aligned_shift ha.high hb.high fun hfar => hb.low.resolve_left ?_
    have hpos := ha.exp_pos
    omega
  · rename_i hgt
    have hle : w.exp ≤ u.exp := (not_le.mp hgt).le
    obtain ⟨d, hd⟩ := Int.eq_ofNat_of_zero_le (sub_nonneg.mpr hle)
    refine ⟨_, _, hself u.mnt.toNat u.exp, hscale w.mnt.toNat d w.exp u.exp (by omega), .inl ?_⟩
    have hshift : (f3_sticky_shift (u.exp - w.exp) (f3_guard w.mnt)).toNat = jam_shift d (w.mnt.toNat * 8) := by
      rw [f3_sticky_shift_spec _ (sub_nonneg.mpr hle), f3_guard_spec hb.high, hd, Int.toNat_natCast]
    simp only [hshift, f3_guard_spec ha.high]
    refine aligned_shift hb.high ha.high fun hfar => ha.low.resolve_left ?_
    have hpos := hb.exp_pos
    omega

end align

section signed

variable {va vb : ℚ} {a b : U128}

theorem f3_add_signed_spec (s t : Bool) (ha : a.toNat < 2 ^ 116) (hb : b.toNat < 2 ^ 116) :
    s = t ∧ (f3_add_signed s t a b).1 = s ∧ (f3_add_signed s t a b).2.toNat = a.toNat + b.toNat ∨
    t = !s ∧ b.toNat ≤ a.toNat ∧ (f3_add_signed s t a b).1 = s ∧
      (f3_add_signed s t a b).2.toNat = a.toNat - b.toNat ∨
    t = !s ∧ a.toNat < b.toNat ∧ (f3_add_signed s t a b).1 = t ∧
      (f3_add_signed s t a b).2.toNat = b.toNat - a.toNat := by
  have htop : (f3_minus a b).x1 >>> 63 = 0 ↔ (f3_minus a b).toNat < 2 ^ 127 := by
    have hlow := (f3_minus a b).x0.isLt
    rw [eq_zero_iff, toNat_shr, U128.toNat_eq]
    omega
  unfold f3_add_signed
  by_cases hsign : s = t
  · rw [if_pos hsign]
    exact .inl ⟨hsign, rfl, f3_sum_spec (by omega)⟩
  · have ht : t = !s := by cases s <;> cases t <;> simp_all
    rw [if_neg hsign]
    rcases Nat.lt_or_ge a.toNat b.toNat with hlt | hge
    · have hneg := f3_negative_spec hlt.le
      have hminus : (f3_minus a b).toNat = 2 ^ 128 - (b.toNat - a.toNat) := by
        rw [U128.toNat, ← toNat_append, f3_minus_append, BitVec.toNat_sub, toNat_append, toNat_append]
        change (2 ^ 128 - b.toNat + a.toNat) % 2 ^ 128 = _
        omega
      have hset : (f3_minus a b).x1 >>> 63 ≠ 0 := by
        rw [Ne, htop, hminus]
        omega
      rw [if_pos hset]
      exact .inr (.inr ⟨ht, hlt, by rw [ht, Bool.xor_true], hneg⟩)
    · have hminus := f3_minus_spec hge
      have hclear : ¬ (f3_minus a b).x1 >>> 63 ≠ 0 := by
        rw [not_not, htop, hminus]
        omega
      rw [if_neg hclear]
      exact .inr (.inl ⟨ht, hge, rfl, hminus⟩)

theorem signed_not (s : Bool) (v : ℚ) : signed (!s) v = -signed s v := by
  cases s <;> simp [signed]

theorem signed_mul (s : Bool) (v c : ℚ) : signed s (v * c) = signed s v * c := by
  cases s <;> simp [signed]

theorem signed_eq_zero (s : Bool) (v : ℚ) : signed s v = 0 ↔ v = 0 := by
  cases s <;> simp [signed]

theorem signed_add (s : Bool) (v v' : ℚ) : signed s v + signed s v' = signed s (v + v') := by
  cases s
  · rfl
  · exact (neg_add v v').symm

/-- What the result of adding the fractions is known to be. -/
def Adds (v : ℚ) (X : Nat) : Prop := Jam v X ∧ (v = X ∨ 2 ^ 114 ≤ X)

theorem Aligned.adds_sum {A B : Nat} (h : Aligned va vb A B) : Adds (va + vb) (A + B) := by
  rw [h.exact]
  refine ⟨h.jam.add_even h.even, h.near.imp ?_ fun hlarge => by omega⟩
  rintro rfl
  exact (Nat.cast_add A B).symm

theorem Aligned.adds_sub {A B : Nat} (h : Aligned va vb A B) (hle : B ≤ A) : Adds (va - vb) (A - B) := by
  rw [h.exact]
  refine ⟨h.jam.even_sub h.even hle, h.near.imp ?_ fun hlarge => by omega⟩
  rintro rfl
  exact (Nat.cast_sub hle).symm

theorem Aligned.adds_sub_right {A B : Nat} (h : Aligned va vb A B) (hle : A ≤ B) : Adds (vb - va) (B - A) := by
  rw [h.exact]
  refine ⟨h.jam.sub_even h.even hle, h.near.imp ?_ fun hlarge => by omega⟩
  rintro rfl
  exact (Nat.cast_sub hle).symm

/-- The sum of the signed fractions. -/
theorem f3_add_signed_adds (s t : Bool) (h : Aligned va vb a.toNat b.toNat ∨ Aligned vb va b.toNat a.toNat) :
    ∃ v, signed s va + signed t vb = signed (f3_add_signed s t a b).1 v ∧
      Adds v (f3_add_signed s t a b).2.toNat := by
  have hbounds : a.toNat < 2 ^ 116 ∧ b.toNat < 2 ^ 116 :=
    h.elim (fun h => ⟨h.left_lt, h.right_lt⟩) fun h => ⟨h.right_lt, h.left_lt⟩
  rcases f3_add_signed_spec s t hbounds.1 hbounds.2 with ⟨rfl, hsgn, hval⟩ | ⟨rfl, hle, hsgn, hval⟩ |
    ⟨rfl, hlt, hsgn, hval⟩
  · rw [hsgn, hval]
    refine ⟨va + vb, signed_add s va vb, h.elim Aligned.adds_sum fun h => ?_⟩
    rw [add_comm va, Nat.add_comm]
    exact h.adds_sum
  · rw [hsgn, hval]
    refine ⟨va - vb, ?_, h.elim (fun h => h.adds_sub hle) fun h => h.adds_sub_right hle⟩
    rw [signed_not]
    cases s <;> simp [signed] <;> ring
  · rw [hsgn, hval]
    refine ⟨vb - va, ?_, h.elim (fun h => h.adds_sub_right hlt.le) fun h => h.adds_sub hlt.le⟩
    rw [signed_not]
    cases s <;> simp [signed] <;> ring

end signed

section sum

variable {u w : Unpacked} {p q : Pattern}

theorem value_eq (h : u.Represents p) : binary128.value p = signed u.sgn (u.mnt.toNat * (2 : ℚ) ^ (u.exp - 16495)) := by
  rw [Format.value, h.magnitude_value, signed, h.sgn]

theorem f3_add_finite_spec (ha : u.Represents p) (hb : w.Represents q) :
    (binary128.value p + binary128.value q = 0 → (f3_add_finite u w).pattern = ⟨false, 0⟩) ∧
    (binary128.value p + binary128.value q ≠ 0 →
      binary128.RoundsTo (binary128.value p + binary128.value q) (f3_add_finite u w).pattern) := by
  obtain ⟨va, vb, hva, hvb, haligned⟩ := f3_align_spec ha hb
  obtain ⟨v, hv, hjam, hbits⟩ := f3_add_signed_adds u.sgn w.sgn haligned
  have hsum : binary128.value p + binary128.value q =
      signed (f3_add_signed u.sgn w.sgn (f3_align u w).2.1 (f3_align u w).2.2).1
        (v * 2 ^ ((f3_align u w).1 + 12 - 16510)) := by
    have hexp : (f3_align u w).1 + 12 - 16510 = (f3_align u w).1 - 16498 := by ring
    rw [value_eq ha, value_eq hb, hva, hvb, signed_mul, signed_mul, signed_mul, ← add_mul, hv, hexp]
  have hpow : (2 : ℚ) ^ ((f3_align u w).1 + 12 - 16510) ≠ 0 := zpow_ne_zero _ (by norm_num)
  have hzero : binary128.value p + binary128.value q = 0 ↔
      (f3_add_signed u.sgn w.sgn (f3_align u w).2.1 (f3_align u w).2.2).2.toNat = 0 := by
    rw [hsum, signed_eq_zero, mul_eq_zero, or_iff_left hpow, hjam.eq_zero_iff]
  unfold f3_add_finite
  constructor
  · intro h
    rw [if_pos ((U128.toNat_eq_zero _).mp (hzero.mp h)), pattern_f3_zero]
  · intro h
    rw [if_neg (mt (U128.toNat_eq_zero _).mpr (mt hzero.mpr h)), hsum]
    exact normalise_round _ _ 12 (mt hzero.mpr h) hjam hbits

theorem Unpacked.Represents.negate_if (h : u.Represents p) (neg : Bool) :
    Unpacked.Represents { u with sgn := u.sgn ^^ neg } ⟨p.neg ^^ neg, p.magnitude⟩ :=
  ⟨by rw [h.sgn], h.exp_pos, h.exp_le, h.low, h.high, h.magnitude⟩

theorem pattern_f3_NaN : binary128.IsNan f3_NaN.pattern := by
  have hmag : f3_NaN.pattern.magnitude = 2 ^ 127 - 1 := rfl
  rw [Format.IsNan, Unpacked.Represents.infinity_eq, hmag]
  norm_num

/-- What is not a NaN is infinite if its exponent field is full. -/
theorem Unpacked.Represents.isInfinite_of_exp (h : u.Represents p) (hnan : ¬ binary128.IsNan p) :
    binary128.IsInfinite p ↔ u.exp = 32767 := by
  rw [h.isInfinite_iff]
  rw [h.isNan_iff] at hnan
  refine ⟨And.left, fun hexp => ⟨hexp, ?_⟩⟩
  by_contra hne
  exact hnan ⟨hexp, hne⟩

theorem mnt_or_eq_zero (x y : U128) : x.x0 ||| x.x1 ||| y.x0 ||| y.x1 = 0 ↔ x.toNat = 0 ∧ y.toNat = 0 := by
  rw [or_eq_zero_iff, or_eq_zero_iff (x.x0 ||| x.x1), and_assoc, ← or_eq_zero_iff y.x0 y.x1, x.toNat_eq_zero,
    y.toNat_eq_zero]

theorem value_add_of_zero (ha : u.Represents p) (hb : w.Represents q) (h : u.mnt.toNat = 0 ∧ w.mnt.toNat = 0) :
    binary128.value p + binary128.value q = 0 := by
  rw [value_eq ha, value_eq hb, h.1, h.2]
  simp [signed]

/-- Of two negative numbers only the zeros have the sum zero. -/
theorem zero_of_value_add (ha : u.Represents p) (hb : w.Represents q) (h : binary128.value p + binary128.value q = 0)
    (hp : p.neg = true) (hq : q.neg = true) : u.mnt.toNat = 0 ∧ w.mnt.toNat = 0 := by
  have hpow_a : (0 : ℚ) < 2 ^ (u.exp - 16495) := zpow_pos (by norm_num) _
  have hpow_b : (0 : ℚ) < 2 ^ (w.exp - 16495) := zpow_pos (by norm_num) _
  have hnonneg_a : (0 : ℚ) ≤ u.mnt.toNat * 2 ^ (u.exp - 16495) := mul_nonneg (Nat.cast_nonneg _) hpow_a.le
  have hnonneg_b : (0 : ℚ) ≤ w.mnt.toNat * 2 ^ (w.exp - 16495) := mul_nonneg (Nat.cast_nonneg _) hpow_b.le
  rw [value_eq ha, value_eq hb, ha.sgn, hb.sgn, hp, hq, signed, signed, if_pos rfl, if_pos rfl] at h
  have hzero_a : (u.mnt.toNat : ℚ) * 2 ^ (u.exp - 16495) = 0 := by linarith
  have hzero_b : (w.mnt.toNat : ℚ) * 2 ^ (w.exp - 16495) = 0 := by linarith
  rw [mul_eq_zero, or_iff_left hpow_a.ne', Nat.cast_eq_zero] at hzero_a
  rw [mul_eq_zero, or_iff_left hpow_b.ne', Nat.cast_eq_zero] at hzero_b
  exact ⟨hzero_a, hzero_b⟩

/-- Addition of a number or of its negative. -/
theorem f3_add_spec (fa fb : U128) (neg : Bool) :
    binary128.IsSum fa.pattern ⟨fb.pattern.neg ^^ neg, fb.pattern.magnitude⟩ (f3_add fa fb neg).pattern := by
  have ha := f3_unpack_represents fa
  have hb := f3_unpack_represents fb
  have hb' := hb.negate_if neg
  unfold f3_add
  rcases fp3_detect_NaNs_spec ha hb with ⟨fx, hdetect, hnan, hoperand⟩ | ⟨hdetect, hna, hnb⟩
  · simp only [hdetect]
    exact .of_nan (hoperand.imp_right .inl) hnan
  · simp only [hdetect]
    have hinf_a := ha.isInfinite_of_exp hna
    have hinf_b := hb'.isInfinite_of_exp hnb
    have hfin_a := ha.isFinite_iff
    have hfin_b := hb'.isFinite_iff
    simp only at hinf_b hfin_b
    by_cases hae : (f3_unpack fa).exp = 32767
    · by_cases hbe : (f3_unpack fb).exp = 32767 ∧ (f3_unpack fa).sgn ≠ ((f3_unpack fb).sgn ^^ neg)
      · rw [if_pos ⟨hae, hbe⟩]
        refine .of_nan (.inr (.inr ⟨hinf_a.mpr hae, hinf_b.mpr hbe.1, ?_⟩)) pattern_f3_NaN
        rw [← ha.sgn, ← hb.sgn]
        exact hbe.2
      · rw [if_neg fun h => hbe h.2, if_pos hae, pattern_f3_infinity, ha.sgn]
        refine .of_infinite_left (hinf_a.mpr hae) ?_
        by_cases hexp : (f3_unpack fb).exp = 32767
        · refine .inr ⟨hinf_b.mpr hexp, ?_⟩
          rw [← ha.sgn, ← hb.sgn]
          by_contra hne
          exact hbe ⟨hexp, fun heq => hne heq.symm⟩
        · exact .inl (hfin_b.mpr hexp)
    · rw [if_neg fun h => hae h.1, if_neg hae]
      by_cases hbe : (f3_unpack fb).exp = 32767
      · rw [if_pos hbe, pattern_f3_infinity, hb.sgn]
        exact .of_infinite_right (hfin_a.mpr hae) (hinf_b.mpr hbe)
      · rw [if_neg hbe]
        by_cases hzero : (f3_unpack fa).mnt.x0 ||| (f3_unpack fa).mnt.x1 ||| (f3_unpack fb).mnt.x0 |||
            (f3_unpack fb).mnt.x1 = 0
        · have hsum := value_add_of_zero ha hb' ((mnt_or_eq_zero _ _).mp hzero)
          rw [if_pos hzero, pattern_f3_zero, ha.sgn, hb.sgn]
          exact .of_finite (hfin_a.mpr hae) (hfin_b.mpr hbe) (fun _ => rfl) fun hne => absurd hsum hne
        · rw [if_neg hzero]
          obtain ⟨hcancel, hrounded⟩ := f3_add_finite_spec ha hb'
          refine .of_finite (hfin_a.mpr hae) (hfin_b.mpr hbe) (fun hsum => ?_) hrounded
          rw [hcancel hsum, Pattern.mk.injEq]
          refine ⟨?_, rfl⟩
          by_contra hneg
          have hnegs := Bool.and_eq_true_iff.mp (Bool.eq_true_of_not_eq_false fun h => hneg h.symm)
          have hzeros := zero_of_value_add ha hb' hsum hnegs.1 hnegs.2
          exact hzero ((mnt_or_eq_zero _ _).mpr hzeros)

/-- The difference is the sum with the negative of the right operand. -/
theorem addtf3_subtf3_spec (a b : U128) : binary128.IsSum a.pattern b.pattern (addtf3 a b).pattern ∧
    binary128.IsSum a.pattern b.pattern.negate (subtf3 a b).pattern := by
  have hadd := f3_add_spec a b false
  have hsub := f3_add_spec a b true
  rw [Bool.xor_false] at hadd
  rw [Bool.xor_true] at hsub
  exact ⟨hadd, hsub⟩

end sum


end tcc.lib.quad
