import Tcc.Machine.DoubleWord

/-! The number format of `lib/lib-arm64.c`: a `long double` of 128 bits as two words, its parts, shifting with
    a sticky bit and rounding. -/

namespace tcc.lib.quad

open machine.ieee machine.jam machine.double_word machine.halving

@[ext] structure U128 where
  x0 : BitVec 64
  x1 : BitVec 64
  deriving DecidableEq

/-- The value of a condition. -/
def word (b : Bool) : BitVec 64 := if b then 1 else 0

def f3_zero (sgn : Bool) : U128 := { x0 := 0, x1 := word sgn <<< 63 }

def f3_infinity (sgn : Bool) : U128 := { x0 := 0, x1 := word sgn <<< 63 ||| 0x7fff000000000000#64 }

def f3_NaN : U128 := { x0 := -1, x1 := 0x7fffffffffffffff }

def fp3_convert_NaN (sgn : Bool) (mnt : U128) : U128 :=
  { x0 := mnt.x0, x1 := mnt.x1 ||| 0x7fff800000000000#64 ||| word sgn <<< 63 }

/-- The sign, the exponent field and the fraction with the leading bit. -/
structure Unpacked where
  sgn : Bool
  exp : Int
  mnt : U128

/-- The exponent of the subnormal numbers is that of the least normal ones. -/
def f3_unpack (f : U128) : Unpacked :=
  let exp := f.x1 >>> 48 &&& 32767#64
  let x1 := f.x1 <<< 16 >>> 16
  if exp ≠ 0 then ⟨f.x1 >>> 63 != 0, exp.toNat, { x0 := f.x0, x1 := x1 ||| 1#64 <<< 48 }⟩
  else ⟨f.x1 >>> 63 != 0, 1, { x0 := f.x0, x1 := x1 }⟩

/-- The signalling NaNs go before the quiet ones, and the left operand before the right one. -/
def fp3_detect_NaNs (a b : Unpacked) : Option U128 :=
  if a.exp = 32767 ∧ a.mnt.x0 ||| a.mnt.x1 <<< 16 ≠ 0 ∧ a.mnt.x1 >>> 47 &&& 1#64 = 0 then
    some (fp3_convert_NaN a.sgn a.mnt)
  else if b.exp = 32767 ∧ b.mnt.x0 ||| b.mnt.x1 <<< 16 ≠ 0 ∧ b.mnt.x1 >>> 47 &&& 1#64 = 0 then
    some (fp3_convert_NaN b.sgn b.mnt)
  else if a.exp = 32767 ∧ a.mnt.x0 ||| a.mnt.x1 <<< 16 ≠ 0 then some (fp3_convert_NaN a.sgn a.mnt)
  else if b.exp = 32767 ∧ b.mnt.x0 ||| b.mnt.x1 <<< 16 ≠ 0 then some (fp3_convert_NaN b.sgn b.mnt)
  else none

def f3_normalise_step (s : Int × U128) (sh : Nat) : Int × U128 :=
  if s.2.x1 >>> (64 - sh) = 0 then
    (s.1 - sh, { x0 := s.2.x0 <<< sh, x1 := s.2.x1 <<< sh ||| s.2.x0 >>> (64 - sh) })
  else s

def f3_normalise_word (exp : Int) (mnt : U128) : Int × U128 :=
  if mnt.x1 = 0 then (exp - 64, { x0 := 0, x1 := mnt.x0 }) else (exp, mnt)

/-- Zero is left as it is. The loop goes over the shifts by 32, 16, 8, 4, 2 and 1. -/
def f3_normalise (exp : Int) (mnt : U128) : Int × U128 :=
  if mnt.x0 ||| mnt.x1 = 0 then (exp, mnt)
  else (halvings 6).foldl f3_normalise_step (f3_normalise_word exp mnt)

/-- Shifting by less than a word. -/
def f3_sticky_shift_bits (sh : Int) (x : U128) : U128 :=
  if 0 < sh then
    { x0 := x.x0 >>> sh.toNat ||| x.x1 <<< (64 - sh.toNat) ||| word (x.x0 <<< (64 - sh.toNat) != 0),
      x1 := x.x1 >>> sh.toNat }
  else x

def f3_sticky_shift (sh : Int) (x : U128) : U128 :=
  if 128 ≤ sh then { x0 := word (x.x0 ||| x.x1 != 0), x1 := 0 }
  else if 64 ≤ sh then f3_sticky_shift_bits (sh - 64) { x0 := x.x1 ||| word (x.x0 != 0), x1 := 0 }
  else f3_sticky_shift_bits sh x

/-- The fraction with two more bits, and the exponent field if the leading bit is there. -/
def f3_round_shift (exp : Int) (x : U128) : Int × U128 :=
  if 0 < exp then (exp, f3_sticky_shift 13 x) else (0, f3_sticky_shift (14 - exp) x)

/-- The next fraction. It may get the leading bit, or become too long by a bit. -/
def f3_round_up (exp : Int) (x : U128) : Int × U128 :=
  if x.x0 + 1#64 = 0 then
    if x.x1 + 1#64 = 1#64 <<< 48 then (1, { x0 := x.x0 + 1#64, x1 := x.x1 + 1#64 })
    else if x.x1 + 1#64 = 1#64 <<< 49 then
      (exp + 1, { x0 := (x.x0 + 1#64) >>> 1 ||| (x.x1 + 1#64) <<< 63, x1 := (x.x1 + 1#64) >>> 1 })
    else (exp, { x0 := x.x0 + 1#64, x1 := x.x1 + 1#64 })
  else (exp, { x0 := x.x0 + 1#64, x1 := x.x1 })

def f3_round_last (exp : Int) (x : U128) : Int × U128 :=
  let error := x.x0 &&& 3#64
  let x' : U128 := { x0 := x.x0 >>> 2 ||| x.x1 <<< 62, x1 := x.x1 >>> 2 }
  if error = 3#64 ∨ error = 2#64 ∧ x'.x0 &&& 1#64 ≠ 0 then f3_round_up exp x' else (exp, x')

def f3_pack (sgn : Bool) (exp : Int) (x : U128) : U128 :=
  if 32767 ≤ exp then f3_infinity sgn
  else { x0 := x.x0, x1 := x.x1 <<< 16 >>> 16 ||| BitVec.ofInt 64 exp <<< 48 ||| word sgn <<< 63 }

def f3_round (sgn : Bool) (exp : Int) (x : U128) : U128 :=
  let s := f3_round_shift exp x
  let t := f3_round_last s.1 s.2
  f3_pack sgn t.1 t.2

section words

theorem word_true : word true = 1 := rfl

theorem word_false : word false = 0 := rfl

theorem toNat_word (b : Bool) : (word b).toNat = if b then 1 else 0 := by
  cases b <;> rfl

theorem toNat_shl {w : Nat} (x : BitVec w) (n : Nat) : (x <<< n).toNat = x.toNat * 2 ^ n % 2 ^ w := by
  rw [BitVec.toNat_shiftLeft, Nat.shiftLeft_eq]

theorem toNat_shr {w : Nat} (x : BitVec w) (n : Nat) : (x >>> n).toNat = x.toNat / 2 ^ n := by
  rw [BitVec.toNat_ushiftRight, Nat.shiftRight_eq_div_pow]

theorem toNat_or {w n : Nat} {x y : BitVec w} (hx : 2 ^ n ∣ x.toNat) (hy : y.toNat < 2 ^ n) :
    (x ||| y).toNat = x.toNat + y.toNat := by
  rw [BitVec.toNat_or, or_eq_add hx hy]

theorem eq_zero_iff {w : Nat} (x : BitVec w) : x = 0 ↔ x.toNat = 0 := (BitVec.toNat_inj (y := 0)).symm

theorem or_eq_zero_iff {w : Nat} (x y : BitVec w) : x ||| y = 0 ↔ x = 0 ∧ y = 0 := BitVec.or_eq_zero_iff

/-- What is shifted out to the right by so many bits less than a word. -/
theorem shl_eq_zero_iff {w n : Nat} (x : BitVec w) (hn : n ≤ w) : x <<< (w - n) = 0 ↔ x.toNat % 2 ^ n = 0 := by
  have hsplit : 2 ^ w = 2 ^ n * 2 ^ (w - n) := by
    rw [← pow_add]
    congr 1
    omega
  rw [eq_zero_iff, toNat_shl, hsplit, Nat.mul_mod_mul_right, Nat.mul_eq_zero]
  simp only [(Nat.two_pow_pos _).ne', or_false]

theorem toNat_sign (sgn : Bool) : (word sgn <<< 63).toNat = (if sgn then 1 else 0) * 2 ^ 63 := by
  cases sgn <;> rfl

end words

namespace U128

variable (x : U128)

def toNat : Nat := pair x.x1 x.x0

/-- The bits as a pattern of the format. -/
def pattern : Pattern := ⟨x.x1.msb, x.toNat % 2 ^ 127⟩

theorem toNat_eq : x.toNat = x.x1.toNat * 2 ^ 64 + x.x0.toNat := rfl

theorem toNat_mk (x0 x1 : BitVec 64) : toNat ⟨x0, x1⟩ = x1.toNat * 2 ^ 64 + x0.toNat := rfl

theorem pattern_mk (x0 x1 : BitVec 64) : pattern ⟨x0, x1⟩ = ⟨x1.msb, toNat ⟨x0, x1⟩ % 2 ^ 127⟩ := rfl

theorem toNat_lt : x.toNat < 2 ^ 128 := pair_lt x.x1 x.x0

theorem toNat_eq_zero : x.toNat = 0 ↔ x.x0 ||| x.x1 = 0 := by
  rw [or_eq_zero_iff, toNat, pair_eq_zero, and_comm]

/-- The fraction without the leading bit. -/
theorem fraction_eq_zero (hlt : x.toNat < 2 ^ 113) : x.x0 ||| x.x1 <<< 16 = 0 ↔ x.toNat = 0 ∨ x.toNat = 2 ^ 112 := by
  have hlt' := x.x0.isLt
  rw [or_eq_zero_iff, eq_zero_iff, eq_zero_iff, toNat_shl]
  rw [toNat_eq] at hlt ⊢
  omega

end U128

/-- The parts of a pattern. -/
structure Unpacked.Represents (u : Unpacked) (p : Pattern) : Prop where
  sgn : u.sgn = p.neg
  exp_pos : 1 ≤ u.exp
  exp_le : u.exp ≤ 32767
  low : u.exp = 1 ∨ 2 ^ 112 ≤ u.mnt.toNat
  high : u.mnt.toNat < 2 ^ 113
  magnitude : (p.magnitude : Int) = (u.exp - 1) * 2 ^ 112 + u.mnt.toNat

theorem f3_unpack_represents (f : U128) : (f3_unpack f).Represents f.pattern := by
  have hlt := f.x1.isLt
  have hlt' := f.x0.isLt
  have hsgn : (f.x1 >>> 63 != 0) = f.pattern.neg := by
    rw [U128.pattern, Bool.eq_iff_iff, bne_iff_ne, Ne, eq_zero_iff, toNat_shr, BitVec.msb_eq_decide,
      decide_eq_true_iff]
    omega
  have hexp : (f.x1 >>> 48 &&& 32767#64).toNat = f.x1.toNat / 2 ^ 48 % 2 ^ 15 := by
    rw [BitVec.toNat_and, toNat_shr]
    exact Nat.and_two_pow_sub_one_eq_mod _ 15
  have hfrac : (f.x1 <<< 16 >>> 16).toNat = f.x1.toNat % 2 ^ 48 := by
    rw [toNat_shr, toNat_shl]
    omega
  have hlead : (f.x1 <<< 16 >>> 16 ||| 1#64 <<< 48).toNat = f.x1.toNat % 2 ^ 48 + 2 ^ 48 := by
    rw [BitVec.or_comm, toNat_or (n := 48) (by decide) (by rw [hfrac]; omega), hfrac, Nat.add_comm]
    rfl
  have hmag : f.pattern.magnitude = f.x1.toNat % 2 ^ 63 * 2 ^ 64 + f.x0.toNat := by
    change f.toNat % 2 ^ 127 = _
    rw [U128.toNat_eq]
    omega
  unfold f3_unpack
  by_cases hzero : f.x1 >>> 48 &&& 32767#64 = 0
  · rw [eq_zero_iff, hexp] at hzero
    rw [if_neg (by rw [ne_eq, not_not, eq_zero_iff, hexp, hzero])]
    refine ⟨hsgn, le_refl _, by norm_num, .inl rfl, ?_, ?_⟩ <;> simp only [U128.toNat_eq, hfrac, hmag] <;> omega
  · rw [if_pos hzero]
    rw [eq_zero_iff, hexp] at hzero
    refine ⟨hsgn, ?_, ?_, .inr ?_, ?_, ?_⟩ <;> simp only [hexp, U128.toNat_eq, hlead, hmag] <;> omega

namespace Unpacked.Represents

variable {u : Unpacked} {p : Pattern}

theorem infinity_eq : binary128.infinity = 32767 * 2 ^ 112 := by
  rw [Format.infinity]
  rfl

theorem isFinite_iff (h : u.Represents p) : binary128.IsFinite p ↔ u.exp ≠ 32767 := by
  have hlow := h.low
  have hhigh := h.high
  have hle := h.exp_le
  have hmag := h.magnitude
  rw [Format.IsFinite, infinity_eq]
  omega

theorem isInfinite_iff (h : u.Represents p) :
    binary128.IsInfinite p ↔ u.exp = 32767 ∧ u.mnt.x0 ||| u.mnt.x1 <<< 16 = 0 := by
  have hlow := h.low
  have hhigh := h.high
  have hle := h.exp_le
  have hmag := h.magnitude
  rw [Format.IsInfinite, infinity_eq, U128.fraction_eq_zero _ hhigh]
  omega

theorem isNan_iff (h : u.Represents p) :
    binary128.IsNan p ↔ u.exp = 32767 ∧ u.mnt.x0 ||| u.mnt.x1 <<< 16 ≠ 0 := by
  have hlow := h.low
  have hhigh := h.high
  have hle := h.exp_le
  have hmag := h.magnitude
  rw [Format.IsNan, infinity_eq, Ne, U128.fraction_eq_zero _ hhigh]
  omega

theorem magnitude_eq_zero (h : u.Represents p) : p.magnitude = 0 ↔ u.mnt.x0 ||| u.mnt.x1 = 0 := by
  have hlow := h.low
  have hpos := h.exp_pos
  have hmag := h.magnitude
  rw [← U128.toNat_eq_zero]
  omega

theorem least_eq : binary128.least = (2 : ℚ) ^ (-16494 : Int) := by
  have hexp : binary128.bias - 1 + binary128.fraction_bits = 16494 := rfl
  have hcast : (-16494 : Int) = -((16494 : ℕ) : Int) := rfl
  rw [Format.least, hexp, hcast, zpow_neg, zpow_natCast, one_div]

/-- The value of the fraction at its exponent. -/
theorem magnitude_value (h : u.Represents p) :
    binary128.magnitude_value p.magnitude = u.mnt.toNat * (2 : ℚ) ^ (u.exp - 16495) := by
  obtain ⟨e, he⟩ : ∃ e : Nat, u.exp = e + 1 := ⟨(u.exp - 1).toNat, by have := h.exp_pos; omega⟩
  have hmag : p.magnitude = (e + 1 - 1) * 2 ^ 112 + u.mnt.toNat := by
    have hmag := h.magnitude
    rw [he] at hmag
    omega
  have hlow : e + 1 = 1 ∨ 2 ^ 112 ≤ u.mnt.toNat := h.low.imp_left fun h => by omega
  have hhigh := h.high
  have hbits : binary128.fraction_bits = 112 := rfl
  have hgrid := Format.units_grid (f := binary128) (Nat.le_add_left 1 e) hlow (by rw [hbits]; omega)
  rw [hbits] at hgrid
  rw [Format.magnitude_value, hmag]
  rw [hgrid, least_eq, he, Nat.cast_mul, mul_assoc]
  congr 1
  rw [Nat.cast_pow, Nat.cast_ofNat, ← zpow_natCast, ← zpow_add₀ (by norm_num)]
  congr 1
  push_cast
  omega

end Unpacked.Represents

end tcc.lib.quad
