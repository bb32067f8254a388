import Mathlib.Data.Rat.Floor
import Mathlib.Tactic.FieldSimp
import Mathlib.Tactic.Linarith
import Mathlib.Tactic.Positivity
import Mathlib.Tactic.Ring

/-! Binary floating-point formats: the values of their bit patterns, and rounding to nearest with ties to
    even. -/

namespace machine.ieee

/-- The numbers of bits of the exponent and of the fraction. -/
structure Format where
  exponent_bits : Nat
  fraction_bits : Nat
  exponent_pos : 2 ≤ exponent_bits
  fraction_pos : 1 ≤ fraction_bits

def binary32 : Format := ⟨8, 23, by decide, by decide⟩

def binary64 : Format := ⟨11, 52, by decide, by decide⟩

def binary128 : Format := ⟨15, 112, by decide, by decide⟩

/-- A bit pattern: the sign, and the other bits as a number. -/
@[ext] structure Pattern where
  neg : Bool
  magnitude : Nat
  deriving DecidableEq

/-- The pattern with the other sign. -/
def Pattern.negate (a : Pattern) : Pattern := ⟨!a.neg, a.magnitude⟩

/-- The integer that is nearest to a number, the even one if there are two. -/
def NearestEven (v : ℚ) (r : ℕ) : Prop := |v - r| ≤ 1 / 2 ∧ (|v - r| = 1 / 2 → 2 ∣ r)

namespace Format

variable (f : Format)

def bias : Nat := 2 ^ (f.exponent_bits - 1) - 1

/-- The magnitude of the infinities. Those above it are no numbers. -/
def infinity : Nat := (2 ^ f.exponent_bits - 1) * 2 ^ f.fraction_bits

/-- The least positive number. -/
def least : ℚ := 1 / 2 ^ (f.bias - 1 + f.fraction_bits)

/-- A finite magnitude as a multiple of the least one. -/
def units (m : Nat) : Nat :=
  if m < 2 ^ f.fraction_bits then m
  else (2 ^ f.fraction_bits + m % 2 ^ f.fraction_bits) * 2 ^ (m / 2 ^ f.fraction_bits - 1)

def magnitude_value (m : Nat) : ℚ := f.units m * f.least

/-- The value of a finite pattern. -/
def value (a : Pattern) : ℚ := if a.neg then -f.magnitude_value a.magnitude else f.magnitude_value a.magnitude

def IsNan (a : Pattern) : Prop := f.infinity < a.magnitude

def IsInfinite (a : Pattern) : Prop := a.magnitude = f.infinity

def IsFinite (a : Pattern) : Prop := a.magnitude < f.infinity

instance (a : Pattern) : Decidable (f.IsNan a) := Nat.decLt _ _

instance (a : Pattern) : Decidable (f.IsInfinite a) := Nat.decEq _ _

instance (a : Pattern) : Decidable (f.IsFinite a) := Nat.decLt _ _

/-- What is rounded to infinity: from half of the last place above the greatest number on. -/
def overflow : ℚ := (2 - 1 / 2 ^ (f.fraction_bits + 1)) * 2 ^ f.bias

/-- Rounding to nearest, ties to even, of a number that is not negative. -/
def Rounds (q : ℚ) (m : Nat) : Prop :=
  if f.overflow ≤ q then m = f.infinity
  else m < f.infinity ∧ ∀ m' < f.infinity, |f.magnitude_value m - q| ≤ |f.magnitude_value m' - q| ∧
    (|f.magnitude_value m - q| = |f.magnitude_value m' - q| → m' = m ∨ 2 ∣ m)

/-- An exact result other than zero as a pattern. -/
def RoundsTo (q : ℚ) (r : Pattern) : Prop := r.neg = decide (q < 0) ∧ f.Rounds |q| r.magnitude

/-- The sum. A zero is negative if it is the sum of two negative zeros. -/
structure IsSum (a b r : Pattern) : Prop where
  nan : f.IsNan r ↔ f.IsNan a ∨ f.IsNan b ∨ f.IsInfinite a ∧ f.IsInfinite b ∧ a.neg ≠ b.neg
  infinite_left : f.IsInfinite a → f.IsFinite b ∨ f.IsInfinite b ∧ b.neg = a.neg → r = ⟨a.neg, f.infinity⟩
  infinite_right : f.IsFinite a → f.IsInfinite b → r = ⟨b.neg, f.infinity⟩
  zero : f.IsFinite a → f.IsFinite b → f.value a + f.value b = 0 → r = ⟨a.neg && b.neg, 0⟩
  rounded : f.IsFinite a → f.IsFinite b → f.value a + f.value b ≠ 0 → f.RoundsTo (f.value a + f.value b) r

/-- The product. Its sign is negative if one of the signs is. -/
structure IsProduct (a b r : Pattern) : Prop where
  nan : f.IsNan r ↔ f.IsNan a ∨ f.IsNan b ∨ f.IsInfinite a ∧ b.magnitude = 0 ∨ a.magnitude = 0 ∧ f.IsInfinite b
  infinite_left : f.IsInfinite a → ¬ f.IsNan b → b.magnitude ≠ 0 → r = ⟨a.neg ^^ b.neg, f.infinity⟩
  infinite_right : f.IsInfinite b → ¬ f.IsNan a → a.magnitude ≠ 0 → r = ⟨a.neg ^^ b.neg, f.infinity⟩
  zero : f.IsFinite a → f.IsFinite b → f.value a * f.value b = 0 → r = ⟨a.neg ^^ b.neg, 0⟩
  rounded : f.IsFinite a → f.IsFinite b → f.value a * f.value b ≠ 0 → f.RoundsTo (f.value a * f.value b) r

/-- The quotient. A number other than zero divided by zero is infinite. -/
structure IsQuotient (a b r : Pattern) : Prop where
  nan : f.IsNan r ↔ f.IsNan a ∨ f.IsNan b ∨ f.IsInfinite a ∧ f.IsInfinite b ∨ a.magnitude = 0 ∧ b.magnitude = 0
  infinite : f.IsInfinite a → f.IsFinite b → r = ⟨a.neg ^^ b.neg, f.infinity⟩
  by_zero : f.IsFinite a → a.magnitude ≠ 0 → b.magnitude = 0 → r = ⟨a.neg ^^ b.neg, f.infinity⟩
  by_infinite : f.IsFinite a → f.IsInfinite b → r = ⟨a.neg ^^ b.neg, 0⟩
  zero : a.magnitude = 0 → f.IsFinite b → b.magnitude ≠ 0 → r = ⟨a.neg ^^ b.neg, 0⟩
  rounded : f.IsFinite a → f.IsFinite b → a.magnitude ≠ 0 → b.magnitude ≠ 0 →
    f.RoundsTo (f.value a / f.value b) r

end Format

/-- A number of one format as one of another format. -/
structure Format.Converts (f g : Format) (a r : Pattern) : Prop where
  sign : ¬ f.IsNan a → r.neg = a.neg
  nan : f.IsNan a → g.IsNan r
  infinite : f.IsInfinite a → g.IsInfinite r
  rounded : f.IsFinite a → g.Rounds (f.magnitude_value a.magnitude) r.magnitude

/-- A number as the same number of another format. -/
structure Format.Embeds (f g : Format) (a r : Pattern) : Prop where
  sign : ¬ f.IsNan a → r.neg = a.neg
  nan : f.IsNan a → g.IsNan r
  infinite : f.IsInfinite a → g.IsInfinite r
  exact : f.IsFinite a → g.IsFinite r ∧ g.magnitude_value r.magnitude = f.magnitude_value a.magnitude

section results

variable {f : Format} {a b r : Pattern} {q : ℚ}

theorem Format.infinity_pos (f : Format) : 0 < f.infinity := by
  have hpow : 2 ^ 2 ≤ 2 ^ f.exponent_bits := Nat.pow_le_pow_right (by decide) f.exponent_pos
  exact Nat.mul_pos (by omega) (Nat.two_pow_pos _)

theorem Format.not_isNan_infinity (f : Format) (neg : Bool) : ¬ f.IsNan ⟨neg, f.infinity⟩ := lt_irrefl _

theorem Format.not_isNan_zero (f : Format) (neg : Bool) : ¬ f.IsNan ⟨neg, 0⟩ := Nat.not_lt_zero _

theorem Format.RoundsTo.not_isNan (h : f.RoundsTo q r) : ¬ f.IsNan r := by
  have hrounds := h.2
  unfold Format.Rounds at hrounds
  unfold Format.IsNan
  split at hrounds <;> omega

/-- A pattern is finite, infinite or a NaN. -/
theorem Format.classes (f : Format) (a : Pattern) :
    f.IsFinite a ∧ ¬ f.IsInfinite a ∧ ¬ f.IsNan a ∨ f.IsInfinite a ∧ ¬ f.IsFinite a ∧ ¬ f.IsNan a ∨
      f.IsNan a ∧ ¬ f.IsFinite a ∧ ¬ f.IsInfinite a := by
  unfold Format.IsFinite Format.IsInfinite Format.IsNan
  omega

theorem Format.IsSum.of_nan (h : f.IsNan a ∨ f.IsNan b ∨ f.IsInfinite a ∧ f.IsInfinite b ∧ a.neg ≠ b.neg)
    (hr : f.IsNan r) : f.IsSum a b r := by
  have ha := f.classes a
  have hb := f.classes b
  refine ⟨iff_of_true hr h, ?_, ?_, ?_, ?_⟩ <;> grind

theorem Format.IsSum.of_infinite_left (h : f.IsInfinite a) (hb : f.IsFinite b ∨ f.IsInfinite b ∧ b.neg = a.neg) :
    f.IsSum a b ⟨a.neg, f.infinity⟩ := by
  have ha := f.classes a
  have hb' := f.classes b
  refine ⟨iff_of_false (f.not_isNan_infinity _) ?_, fun _ _ => rfl, ?_, ?_, ?_⟩ <;> grind

theorem Format.IsSum.of_infinite_right (h : f.IsFinite a) (hb : f.IsInfinite b) :
    f.IsSum a b ⟨b.neg, f.infinity⟩ := by
  have ha := f.classes a
  have hb' := f.classes b
  refine ⟨iff_of_false (f.not_isNan_infinity _) ?_, ?_, fun _ _ => rfl, ?_, ?_⟩ <;> grind

theorem Format.IsSum.of_finite (ha : f.IsFinite a) (hb : f.IsFinite b)
    (hzero : f.value a + f.value b = 0 → r = ⟨a.neg && b.neg, 0⟩)
    (hrounded : f.value a + f.value b ≠ 0 → f.RoundsTo (f.value a + f.value b) r) : f.IsSum a b r := by
  have ha' := f.classes a
  have hb' := f.classes b
  have hr : ¬ f.IsNan r := by
    by_cases h : f.value a + f.value b = 0
    · rw [hzero h]
      exact f.not_isNan_zero _
    · exact (hrounded h).not_isNan
  refine ⟨iff_of_false hr ?_, ?_, ?_, fun _ _ => hzero, fun _ _ => hrounded⟩ <;> grind

theorem Format.IsProduct.of_nan (h : f.IsNan a ∨ f.IsNan b ∨ f.IsInfinite a ∧ b.magnitude = 0 ∨
    a.magnitude = 0 ∧ f.IsInfinite b) (hr : f.IsNan r) : f.IsProduct a b r := by
  have ha := f.classes a
  have hb := f.classes b
  have hpos := f.infinity_pos
  refine ⟨iff_of_true hr h, ?_, ?_, ?_, ?_⟩ <;> grind [Format.IsFinite, Format.IsInfinite]

theorem Format.IsProduct.of_infinite (h : f.IsInfinite a ∧ ¬ f.IsNan b ∧ b.magnitude ≠ 0 ∨
    f.IsInfinite b ∧ ¬ f.IsNan a ∧ a.magnitude ≠ 0) : f.IsProduct a b ⟨a.neg ^^ b.neg, f.infinity⟩ := by
  have ha := f.classes a
  have hb := f.classes b
  have hpos := f.infinity_pos
  refine ⟨iff_of_false (f.not_isNan_infinity _) ?_, fun _ _ _ => rfl, fun _ _ _ => rfl, ?_, ?_⟩ <;>
    grind [Format.IsFinite, Format.IsInfinite]

theorem Format.IsProduct.of_finite (ha : f.IsFinite a) (hb : f.IsFinite b)
    (hzero : f.value a * f.value b = 0 → r = ⟨a.neg ^^ b.neg, 0⟩)
    (hrounded : f.value a * f.value b ≠ 0 → f.RoundsTo (f.value a * f.value b) r) : f.IsProduct a b r := by
  have ha' := f.classes a
  have hb' := f.classes b
  have hr : ¬ f.IsNan r := by
    by_cases h : f.value a * f.value b = 0
    · rw [hzero h]
      exact f.not_isNan_zero _
    · exact (hrounded h).not_isNan
  refine ⟨iff_of_false hr ?_, ?_, ?_, fun _ _ => hzero, fun _ _ => hrounded⟩ <;> grind

theorem Format.IsQuotient.of_nan (h : f.IsNan a ∨ f.IsNan b ∨ f.IsInfinite a ∧ f.IsInfinite b ∨
    a.magnitude = 0 ∧ b.magnitude = 0) (hr : f.IsNan r) : f.IsQuotient a b r := by
  have ha := f.classes a
  have hb := f.classes b
  have hpos := f.infinity_pos
  refine ⟨iff_of_true hr h, ?_, ?_, ?_, ?_, ?_⟩ <;> grind [Format.IsFinite, Format.IsInfinite, Format.IsNan]

theorem Format.IsQuotient.of_infinite (h : f.IsInfinite a ∧ f.IsFinite b ∨
    f.IsFinite a ∧ a.magnitude ≠ 0 ∧ b.magnitude = 0) : f.IsQuotient a b ⟨a.neg ^^ b.neg, f.infinity⟩ := by
  have ha := f.classes a
  have hb := f.classes b
  have hpos := f.infinity_pos
  refine ⟨iff_of_false (f.not_isNan_infinity _) ?_, fun _ _ => rfl, fun _ _ _ => rfl, ?_, ?_, ?_⟩ <;>
    grind [Format.IsFinite, Format.IsInfinite, Format.IsNan]

theorem Format.IsQuotient.of_zero (h : f.IsFinite a ∧ f.IsInfinite b ∨
    a.magnitude = 0 ∧ f.IsFinite b ∧ b.magnitude ≠ 0) (hrounded : f.IsFinite b → a.magnitude = 0) :
    f.IsQuotient a b ⟨a.neg ^^ b.neg, 0⟩ := by
  have ha := f.classes a
  have hb := f.classes b
  have hpos := f.infinity_pos
  refine ⟨iff_of_false (f.not_isNan_zero _) ?_, ?_, ?_, fun _ _ => rfl, fun _ _ _ => rfl, ?_⟩ <;>
    grind [Format.IsFinite, Format.IsInfinite, Format.IsNan]

theorem Format.IsQuotient.of_finite (ha : f.IsFinite a) (hb : f.IsFinite b) (hane : a.magnitude ≠ 0)
    (hbne : b.magnitude ≠ 0) (hr : f.RoundsTo (f.value a / f.value b) r) : f.IsQuotient a b r := by
  have ha' := f.classes a
  have hb' := f.classes b
  have hnan := hr.not_isNan
  refine ⟨iff_of_false hnan ?_, ?_, ?_, ?_, ?_, fun _ _ _ _ => hr⟩ <;> grind

theorem Format.Embeds.of_nan {g : Format} (ha : f.IsNan a) (hr : g.IsNan r) : f.Embeds g a r := by
  have ha' := f.classes a
  exact ⟨fun h => absurd ha h, fun _ => hr, by grind, by grind⟩

theorem Format.Embeds.of_infinite {g : Format} (ha : f.IsInfinite a) (hr : g.IsInfinite r) (hsign : r.neg = a.neg) :
    f.Embeds g a r := by
  have ha' := f.classes a
  exact ⟨fun _ => hsign, by grind, fun _ => hr, by grind⟩

theorem Format.Embeds.of_finite {g : Format} (ha : f.IsFinite a) (hr : g.IsFinite r) (hsign : r.neg = a.neg)
    (hvalue : g.magnitude_value r.magnitude = f.magnitude_value a.magnitude) : f.Embeds g a r := by
  have ha' := f.classes a
  exact ⟨fun _ => hsign, by grind, by grind, fun _ => ⟨hr, hvalue⟩⟩

theorem Format.Converts.of_nan {g : Format} (ha : f.IsNan a) (hr : g.IsNan r) : f.Converts g a r := by
  have ha' := f.classes a
  exact ⟨fun h => absurd ha h, fun _ => hr, by grind, by grind⟩

theorem Format.Converts.of_infinite {g : Format} (ha : f.IsInfinite a) (hr : g.IsInfinite r) (hsign : r.neg = a.neg) :
    f.Converts g a r := by
  have ha' := f.classes a
  exact ⟨fun _ => hsign, by grind, fun _ => hr, by grind⟩

theorem Format.Converts.of_finite {g : Format} (ha : f.IsFinite a) (hsign : r.neg = a.neg)
    (hrounds : g.Rounds (f.magnitude_value a.magnitude) r.magnitude) : f.Converts g a r := by
  have ha' := f.classes a
  exact ⟨fun _ => hsign, by grind, by grind, fun _ => hrounds⟩

end results

section nearest

variable {v : ℚ} {r : ℕ}

theorem one_le_abs_cast {k : ℕ} (hne : k ≠ r) : (1 : ℚ) ≤ |(k : ℚ) - r| := by
  have hint : (1 : ℤ) ≤ |(k : ℤ) - r| := Int.one_le_abs (sub_ne_zero.mpr (Nat.cast_injective.ne hne))
  exact_mod_cast hint

theorem NearestEven.le (h : NearestEven v r) (k : ℕ) : |(r : ℚ) - v| ≤ |(k : ℚ) - v| := by
  rcases eq_or_ne k r with rfl | hne
  · exact le_refl _
  · have hone := one_le_abs_cast hne
    have htriangle := abs_sub_le (k : ℚ) v r
    have hhalf := h.1
    rw [abs_sub_comm (r : ℚ) v]
    linarith

theorem NearestEven.tie (h : NearestEven v r) {k : ℕ} (heq : |(r : ℚ) - v| = |(k : ℚ) - v|) :
    k = r ∨ 2 ∣ r := by
  rcases eq_or_ne k r with rfl | hne
  · exact .inl rfl
  · refine .inr (h.2 (le_antisymm h.1 ?_))
    have hone := one_le_abs_cast hne
    have htriangle := abs_sub_le (k : ℚ) v r
    rw [abs_sub_comm (r : ℚ) v] at heq
    linarith

theorem NearestEven.ge_of_le (h : NearestEven v r) {n : ℕ} (hn : (n : ℚ) ≤ v) : n ≤ r := by
  by_contra hlt
  have hsucc : (r : ℚ) + 1 ≤ n := by exact_mod_cast Nat.lt_of_not_le hlt
  have habs := (abs_le.mp h.1).2
  linarith

theorem NearestEven.le_of_le (h : NearestEven v r) {n : ℕ} (hn : v ≤ n) : r ≤ n := by
  by_contra hlt
  have hsucc : (n : ℚ) + 1 ≤ r := by exact_mod_cast Nat.lt_of_not_le hlt
  have habs := (abs_le.mp h.1).1
  linarith

/-- From half of the last place below the end of an exponent on, a number is rounded to this end. -/
theorem NearestEven.end_iff {n : ℕ} (hr : NearestEven v r) (hn : 1 ≤ n) : (2 * n - 1 / 2 : ℚ) ≤ v ↔ 2 * n ≤ r := by
  have hhalf := abs_le.mp hr.1
  constructor
  · intro hv
    by_contra hlt
    have hle : (r : ℚ) + 1 ≤ 2 * n := by exact_mod_cast Nat.lt_of_not_le hlt
    have hodd : r = 2 * n - 1 := by
      have hge : (2 * n : ℚ) - 1 ≤ r := by linarith
      have hge' : 2 * n ≤ r + 1 := by
        have : (2 * n : ℚ) ≤ r + 1 := by linarith
        exact_mod_cast this
      omega
    have htie : |v - r| = 1 / 2 := by
      rw [abs_of_nonneg (by linarith)]
      linarith
    have hdvd := hr.2 htie
    omega
  · intro hle
    have hle' : (2 * n : ℚ) ≤ r := by exact_mod_cast hle
    linarith

end nearest

namespace Format

variable {f : Format}

section grid

variable {E k m : ℕ}

theorem two_pow_fraction_pos : 0 < 2 ^ f.fraction_bits := Nat.two_pow_pos _

/-- The magnitudes of one exponent are equally far apart, and so is the next one after them. -/
theorem units_grid (hE : 1 ≤ E) (hlo : E = 1 ∨ 2 ^ f.fraction_bits ≤ k) (hhi : k ≤ 2 * 2 ^ f.fraction_bits) :
    f.units ((E - 1) * 2 ^ f.fraction_bits + k) = k * 2 ^ (E - 1) := by
  have hpos := f.two_pow_fraction_pos
  obtain ⟨e, rfl⟩ : ∃ e, E = e + 1 := ⟨E - 1, by omega⟩
  rw [Nat.add_sub_cancel]
  unfold units
  by_cases hk : k < 2 ^ f.fraction_bits
  · obtain rfl : e = 0 := by omega
    rw [if_pos (by omega)]
    omega
  · have hle : ¬ e * 2 ^ f.fraction_bits + k < 2 ^ f.fraction_bits := by
      have := Nat.zero_le (e * 2 ^ f.fraction_bits)
      omega
    rw [if_neg hle]
    rcases Nat.lt_or_eq_of_le hhi with hlt | rfl
    · obtain ⟨d, rfl⟩ : ∃ d, k = 2 ^ f.fraction_bits + d := ⟨k - 2 ^ f.fraction_bits, by omega⟩
      have hd : d < 2 ^ f.fraction_bits := by omega
      have hsum : e * 2 ^ f.fraction_bits + (2 ^ f.fraction_bits + d) = d + (e + 1) * 2 ^ f.fraction_bits := by
        ring
      rw [hsum, Nat.add_mul_mod_self_right, Nat.mod_eq_of_lt hd, Nat.add_mul_div_right _ _ hpos,
        Nat.div_eq_of_lt hd, Nat.zero_add, Nat.add_sub_cancel]
    · have hsum : e * 2 ^ f.fraction_bits + 2 * 2 ^ f.fraction_bits = 0 + (e + 2) * 2 ^ f.fraction_bits := by
        ring
      rw [hsum, Nat.add_mul_mod_self_right, Nat.zero_mod, Nat.add_mul_div_right _ _ hpos, Nat.zero_div]
      rw [Nat.zero_add, Nat.add_zero, show e + 2 - 1 = e + 1 by omega, pow_succ]
      ring

theorem exists_grid (f : Format) (m : ℕ) : ∃ E k, 1 ≤ E ∧ (E = 1 ∨ 2 ^ f.fraction_bits ≤ k) ∧
    k < 2 * 2 ^ f.fraction_bits ∧ m = (E - 1) * 2 ^ f.fraction_bits + k := by
  have hpos := f.two_pow_fraction_pos
  have hdiv := Nat.div_add_mod' m (2 ^ f.fraction_bits)
  have hmod := Nat.mod_lt m hpos
  by_cases hm : m < 2 ^ f.fraction_bits
  · exact ⟨1, m, le_refl _, .inl rfl, by omega, by omega⟩
  · have hE : 1 ≤ m / 2 ^ f.fraction_bits := (Nat.one_le_div_iff hpos).mpr (by omega)
    refine ⟨m / 2 ^ f.fraction_bits, 2 ^ f.fraction_bits + m % 2 ^ f.fraction_bits, hE, .inr (by omega),
      by omega, ?_⟩
    obtain ⟨e, he⟩ : ∃ e, m / 2 ^ f.fraction_bits = e + 1 := ⟨m / 2 ^ f.fraction_bits - 1, by omega⟩
    rw [he] at hdiv ⊢
    rw [Nat.add_sub_cancel]
    rw [Nat.add_mul] at hdiv
    omega

theorem units_strictMono : StrictMono f.units := by
  refine strictMono_nat_of_lt_succ fun m => ?_
  obtain ⟨E, k, hE, hlo, hhi, rfl⟩ := f.exists_grid m
  rw [Nat.add_assoc, units_grid hE hlo hhi.le, units_grid hE (by omega) (by omega)]
  exact Nat.mul_lt_mul_of_pos_right (Nat.lt_succ_self k) (Nat.two_pow_pos _)

theorem least_pos : 0 < f.least := by
  unfold least
  positivity

theorem infinity_eq (f : Format) :
    f.infinity = (2 ^ f.exponent_bits - 3) * 2 ^ f.fraction_bits + 2 * 2 ^ f.fraction_bits := by
  have hpow : 2 ^ 2 ≤ 2 ^ f.exponent_bits := Nat.pow_le_pow_right (by decide) f.exponent_pos
  rw [infinity, ← Nat.add_mul]
  congr 1
  omega

theorem one_le_bias (f : Format) : 1 ≤ f.bias := by
  have hpow : 2 ^ 1 ≤ 2 ^ (f.exponent_bits - 1) :=
    Nat.pow_le_pow_right (by decide) (by have := f.exponent_pos; omega)
  unfold bias
  omega

/-- The bound of overflow in least units. -/
theorem overflow_eq (f : Format) :
    f.overflow = (2 * 2 ^ f.fraction_bits - 1 / 2) * 2 ^ (2 ^ f.exponent_bits - 3) * f.least := by
  obtain ⟨w, hw⟩ : ∃ w, f.exponent_bits = w + 1 := ⟨f.exponent_bits - 1, by have := f.exponent_pos; omega⟩
  have hbias := f.one_le_bias
  have hexp : 2 ^ f.exponent_bits - 3 = f.bias + (f.bias - 1) := by
    unfold bias at hbias ⊢
    rw [hw, Nat.add_sub_cancel] at hbias ⊢
    rw [pow_succ]
    omega
  rw [overflow, least, hexp, pow_add, pow_add, pow_add]
  field_simp

end grid

section exact

variable {E m m' : ℕ}

theorem least_zpow (f : Format) : f.least = (2 : ℚ) ^ (1 - f.bias - f.fraction_bits : ℤ) := by
  have hbias := f.one_le_bias
  have hcast : (1 - f.bias - f.fraction_bits : ℤ) = -((f.bias - 1 + f.fraction_bits : ℕ) : ℤ) := by omega
  rw [least, hcast, zpow_neg, zpow_natCast, one_div]

/-- The value of a number in the units of its exponent. -/
theorem magnitude_value_grid {k : ℕ} (hE : 1 ≤ E) (hlo : E = 1 ∨ 2 ^ f.fraction_bits ≤ k)
    (hhi : k ≤ 2 * 2 ^ f.fraction_bits) :
    f.magnitude_value ((E - 1) * 2 ^ f.fraction_bits + k) = k * (2 : ℚ) ^ (E - f.bias - f.fraction_bits : ℤ) := by
  have hsum : (E - f.bias - f.fraction_bits : ℤ) = ((E - 1 : ℕ) : ℤ) + (1 - f.bias - f.fraction_bits) := by omega
  rw [magnitude_value, units_grid hE hlo hhi, least_zpow, hsum, zpow_add₀ (by norm_num), zpow_natCast]
  push_cast
  ring

theorem magnitude_value_strictMono : StrictMono f.magnitude_value := fun _ _ h =>
  mul_lt_mul_of_pos_right (Nat.cast_lt.mpr (units_strictMono h)) f.least_pos

theorem magnitude_value_lt_overflow (h : m < f.infinity) : f.magnitude_value m < f.overflow := by
  have hpos : (0 : ℚ) < 2 ^ (2 ^ f.exponent_bits - 3) := by positivity
  have hwidth : 2 ^ 2 ≤ 2 ^ f.exponent_bits := Nat.pow_le_pow_right (by decide) f.exponent_pos
  have hfraction := f.two_pow_fraction_pos
  have hle : f.units m ≤ (2 * 2 ^ f.fraction_bits - 1) * 2 ^ (2 ^ f.exponent_bits - 3) := by
    have hgrid := units_grid (f := f) (E := 2 ^ f.exponent_bits - 2) (k := 2 * 2 ^ f.fraction_bits - 1)
      (by omega) (.inr (by omega)) (by omega)
    rw [show 2 ^ f.exponent_bits - 2 - 1 = 2 ^ f.exponent_bits - 3 by omega] at hgrid
    rw [← hgrid]
    refine units_strictMono.monotone ?_
    rw [f.infinity_eq] at h
    omega
  have hle' : (f.units m : ℚ) ≤ (2 * 2 ^ f.fraction_bits - 1) * 2 ^ (2 ^ f.exponent_bits - 3) := by
    have hcast : ((2 * 2 ^ f.fraction_bits - 1 : ℕ) : ℚ) = 2 * 2 ^ f.fraction_bits - 1 := by
      rw [Nat.cast_sub (by omega)]
      push_cast
      rfl
    rw [← hcast]
    exact_mod_cast hle
  rw [overflow_eq, magnitude_value]
  refine mul_lt_mul_of_pos_right (lt_of_le_of_lt hle' ?_) f.least_pos
  exact mul_lt_mul_of_pos_right (by linarith) hpos

/-- What is a number of the format is rounded to itself. -/
theorem Rounds.eq_of_value {q : ℚ} (h : f.Rounds q m) (hfinite : m' < f.infinity) (hq : f.magnitude_value m' = q) :
    m = m' := by
  unfold Rounds at h
  rw [← hq, if_neg (not_le.mpr (magnitude_value_lt_overflow hfinite))] at h
  have hzero := (h.2 m' hfinite).1
  rw [sub_self, abs_zero, abs_nonpos_iff, sub_eq_zero] at hzero
  exact magnitude_value_strictMono.injective hzero

end exact

section rounding

variable {E r : ℕ} {v : ℚ}

theorem abs_magnitude_sub (m : ℕ) (E : ℕ) (v : ℚ) :
    |f.magnitude_value m - v * 2 ^ (E - 1) * f.least| = |(f.units m : ℚ) - v * 2 ^ (E - 1)| * f.least := by
  rw [magnitude_value, ← sub_mul, abs_mul, abs_of_pos f.least_pos]

/-- Among the magnitudes, the nearest integer in the exponent of a number is the nearest one. -/
theorem nearest_of_grid (hr : NearestEven v r) (hE : 1 ≤ E) (hlo : E = 1 ∨ (2 : ℚ) ^ f.fraction_bits ≤ v)
    (hhi : v < 2 * 2 ^ f.fraction_bits) (m' : ℕ) :
    |(f.units ((E - 1) * 2 ^ f.fraction_bits + r) : ℚ) - v * 2 ^ (E - 1)| ≤ |(f.units m' : ℚ) - v * 2 ^ (E - 1)| ∧
    (|(f.units ((E - 1) * 2 ^ f.fraction_bits + r) : ℚ) - v * 2 ^ (E - 1)| =
      |(f.units m' : ℚ) - v * 2 ^ (E - 1)| →
      m' = (E - 1) * 2 ^ f.fraction_bits + r ∨ 2 ∣ (E - 1) * 2 ^ f.fraction_bits + r) := by
  have hS : (0 : ℚ) < 2 ^ (E - 1) := by positivity
  have hscale : ∀ k : ℕ, |((k * 2 ^ (E - 1) : ℕ) : ℚ) - v * 2 ^ (E - 1)| = |(k : ℚ) - v| * 2 ^ (E - 1) := by
    intro k
    rw [Nat.cast_mul, Nat.cast_pow, Nat.cast_ofNat, ← sub_mul, abs_mul, abs_of_pos hS]
  have hrlo : E = 1 ∨ 2 ^ f.fraction_bits ≤ r :=
    hlo.imp_right fun h => hr.ge_of_le (by exact_mod_cast h)
  have hrhi : r ≤ 2 * 2 ^ f.fraction_bits := hr.le_of_le (by exact_mod_cast hhi.le)
  rw [units_grid hE hrlo hrhi, hscale]
  by_cases hbelow : m' < (E - 1) * 2 ^ f.fraction_bits + 2 ^ f.fraction_bits ∧ E ≠ 1
  · have hvlo := hlo.resolve_left hbelow.2
    have hunits := units_strictMono (f := f) hbelow.1
    rw [units_grid hE (.inr (le_refl _)) (by omega)] at hunits
    have hunits' : (f.units m' : ℚ) < 2 ^ f.fraction_bits * 2 ^ (E - 1) := by exact_mod_cast hunits
    have hv := mul_le_mul_of_nonneg_right hvlo hS.le
    have hnear := hr.le (2 ^ f.fraction_bits)
    have hend := hscale (2 ^ f.fraction_bits)
    push_cast at hnear hend
    have hnear' := mul_le_mul_of_nonneg_right hnear hS.le
    have habs := abs_of_nonpos (show (2 : ℚ) ^ f.fraction_bits * 2 ^ (E - 1) - v * 2 ^ (E - 1) ≤ 0 by linarith)
    rw [← hend, habs] at hnear'
    have hstrict : |(r : ℚ) - v| * 2 ^ (E - 1) < |(f.units m' : ℚ) - v * 2 ^ (E - 1)| := by
      have hunit := abs_of_nonpos (show (f.units m' : ℚ) - v * 2 ^ (E - 1) ≤ 0 by linarith)
      rw [hunit]
      linarith
    exact ⟨hstrict.le, fun heq => absurd heq hstrict.ne⟩
  · by_cases habove : (E - 1) * 2 ^ f.fraction_bits + 2 * 2 ^ f.fraction_bits < m'
    · have hunits := units_strictMono (f := f) habove
      rw [units_grid hE (.inr (by omega)) (le_refl _)] at hunits
      have hunits' : (2 * 2 ^ f.fraction_bits : ℚ) * 2 ^ (E - 1) < f.units m' := by exact_mod_cast hunits
      have hv := mul_lt_mul_of_pos_right hhi hS
      have hnear := hr.le (2 * 2 ^ f.fraction_bits)
      have hend := hscale (2 * 2 ^ f.fraction_bits)
      push_cast at hnear hend
      have hnear' := mul_le_mul_of_nonneg_right hnear hS.le
      have habs := abs_of_nonneg
        (show 0 ≤ (2 : ℚ) * 2 ^ f.fraction_bits * 2 ^ (E - 1) - v * 2 ^ (E - 1) by linarith)
      rw [← hend, habs] at hnear'
      have hstrict : |(r : ℚ) - v| * 2 ^ (E - 1) < |(f.units m' : ℚ) - v * 2 ^ (E - 1)| := by
        have hunit := abs_of_nonneg (show 0 ≤ (f.units m' : ℚ) - v * 2 ^ (E - 1) by linarith)
        rw [hunit]
        linarith
      exact ⟨hstrict.le, fun heq => absurd heq hstrict.ne⟩
    · obtain ⟨k, rfl⟩ : ∃ k, m' = (E - 1) * 2 ^ f.fraction_bits + k := by
        refine ⟨m' - (E - 1) * 2 ^ f.fraction_bits, ?_⟩
        by_cases hone : E = 1
        · rw [hone]
          omega
        · have hge : ¬ m' < (E - 1) * 2 ^ f.fraction_bits + 2 ^ f.fraction_bits := fun h => hbelow ⟨h, hone⟩
          omega
      have hklo : E = 1 ∨ 2 ^ f.fraction_bits ≤ k := by
        by_cases hone : E = 1
        · exact .inl hone
        · have hge : ¬ (E - 1) * 2 ^ f.fraction_bits + k < (E - 1) * 2 ^ f.fraction_bits + 2 ^ f.fraction_bits :=
            fun h => hbelow ⟨h, hone⟩
          exact .inr (by omega)
      rw [units_grid hE hklo (by omega), hscale]
      refine ⟨mul_le_mul_of_nonneg_right (hr.le k) hS.le, fun heq => ?_⟩
      rcases hr.tie (mul_right_cancel₀ hS.ne' heq) with rfl | hdvd
      · exact .inl rfl
      · refine .inr (Nat.dvd_add (Dvd.dvd.mul_left ?_ _) hdvd)
        exact dvd_pow_self 2 (Nat.one_le_iff_ne_zero.mp f.fraction_pos)

/-- A number is rounded in its exponent, where the magnitudes are integers; what is rounded past the
    greatest one is infinite. -/
theorem rounds_of_scaled (hr : NearestEven v r) (hE : 1 ≤ E) (hlo : E = 1 ∨ (2 : ℚ) ^ f.fraction_bits ≤ v)
    (hhi : v < 2 * 2 ^ f.fraction_bits) :
    f.Rounds (v * 2 ^ (E - 1) * f.least) (min f.infinity ((E - 1) * 2 ^ f.fraction_bits + r)) := by
  have hleast := f.least_pos
  have hpos : (0 : ℚ) < 2 ^ f.fraction_bits := by positivity
  have hwidth : 2 ^ 2 ≤ 2 ^ f.exponent_bits := Nat.pow_le_pow_right (by decide) f.exponent_pos
  have hrlo : E = 1 ∨ 2 ^ f.fraction_bits ≤ r :=
    hlo.imp_right fun h => hr.ge_of_le (by exact_mod_cast h)
  have hrhi : r ≤ 2 * 2 ^ f.fraction_bits := hr.le_of_le (by exact_mod_cast hhi.le)
  have hiff : f.overflow ≤ v * 2 ^ (E - 1) * f.least ↔
      f.infinity ≤ (E - 1) * 2 ^ f.fraction_bits + r := by
    rw [overflow_eq, mul_le_mul_iff_left₀ hleast, f.infinity_eq]
    rcases Nat.lt_trichotomy (E - 1) (2 ^ f.exponent_bits - 3) with hlt | heq | hgt
    · have hpow : (2 : ℚ) ^ (E - 1) * 2 ≤ 2 ^ (2 ^ f.exponent_bits - 3) := by
        rw [← pow_succ]
        exact pow_le_pow_right₀ (by norm_num) hlt
      have hone : (1 : ℚ) ≤ 2 ^ f.fraction_bits := one_le_pow₀ (by norm_num)
      have hmul := Nat.mul_le_mul_right (2 ^ f.fraction_bits) hlt
      have hpos' := f.two_pow_fraction_pos
      rw [Nat.succ_mul] at hmul
      refine iff_of_false (not_le.mpr ?_) (by omega)
      calc v * 2 ^ (E - 1) < 2 * 2 ^ f.fraction_bits * 2 ^ (E - 1) := mul_lt_mul_of_pos_right hhi (by positivity)
        _ = 2 ^ f.fraction_bits * (2 ^ (E - 1) * 2) := by ring
        _ ≤ 2 ^ f.fraction_bits * 2 ^ (2 ^ f.exponent_bits - 3) := mul_le_mul_of_nonneg_left hpow hpos.le
        _ ≤ (2 * 2 ^ f.fraction_bits - 1 / 2) * 2 ^ (2 ^ f.exponent_bits - 3) :=
          mul_le_mul_of_nonneg_right (by linarith) (by positivity)
    · have hend := hr.end_iff (Nat.one_le_two_pow (n := f.fraction_bits))
      push_cast at hend
      rw [heq, mul_le_mul_iff_left₀ (by positivity), hend]
      omega
    · have hne : E ≠ 1 := by omega
      have hpow : (2 : ℚ) ^ (2 ^ f.exponent_bits - 3) * 2 ≤ 2 ^ (E - 1) := by
        rw [← pow_succ]
        exact pow_le_pow_right₀ (by norm_num) hgt
      have hmul := Nat.mul_le_mul_right (2 ^ f.fraction_bits) hgt
      have hr' := hrlo.resolve_left hne
      rw [Nat.succ_mul] at hmul
      refine iff_of_true ?_ (by omega)
      calc (2 * 2 ^ f.fraction_bits - 1 / 2 : ℚ) * 2 ^ (2 ^ f.exponent_bits - 3)
          ≤ 2 * 2 ^ f.fraction_bits * 2 ^ (2 ^ f.exponent_bits - 3) :=
            mul_le_mul_of_nonneg_right (by linarith) (by positivity)
        _ = 2 ^ f.fraction_bits * (2 ^ (2 ^ f.exponent_bits - 3) * 2) := by ring
        _ ≤ 2 ^ f.fraction_bits * 2 ^ (E - 1) := mul_le_mul_of_nonneg_left hpow hpos.le
        _ ≤ v * 2 ^ (E - 1) := mul_le_mul_of_nonneg_right (hlo.resolve_left hne) (by positivity)
  unfold Rounds
  split
  · rename_i hover
    exact min_eq_left (hiff.mp hover)
  · rename_i hover
    have hlt := Nat.lt_of_not_le fun h => hover (hiff.mpr h)
    rw [min_eq_right hlt.le]
    refine ⟨hlt, fun m' _ => ?_⟩
    rw [abs_magnitude_sub, abs_magnitude_sub]
    obtain ⟨hle, htie⟩ := nearest_of_grid hr hE hlo hhi m'
    refine ⟨mul_le_mul_of_nonneg_right hle hleast.le, fun heq => htie ?_⟩
    exact mul_right_cancel₀ hleast.ne' heq

end rounding

end Format

section order

variable (f : Format)

/-- What a pattern that is not a NaN is, among the numbers with both infinities. -/
def Format.number (a : Pattern) : WithBot (WithTop ℚ) :=
  if f.IsInfinite a then (if a.neg then ⊥ else ((⊤ : WithTop ℚ) : WithBot (WithTop ℚ)))
  else ((f.value a : WithTop ℚ) : WithBot (WithTop ℚ))

/-- The sign and the magnitude as one integer. -/
def Pattern.position (a : Pattern) : ℤ := if a.neg then -(a.magnitude : ℤ) else a.magnitude

variable {f} {a b : Pattern}

theorem Format.number_of_finite (h : f.IsFinite a) : f.number a = ((f.value a : WithTop ℚ) : WithBot (WithTop ℚ)) :=
  if_neg (Nat.ne_of_lt h)

theorem Format.magnitude_value_zero (f : Format) : f.magnitude_value 0 = 0 := by
  rw [magnitude_value, units, if_pos (Nat.two_pow_pos _), Nat.cast_zero, zero_mul]

theorem Format.value_lt (h : a.position < b.position) : f.value a < f.value b := by
  have hmono := Format.magnitude_value_strictMono (f := f)
  have hnonneg : ∀ m, 0 ≤ f.magnitude_value m := fun m => mul_nonneg (Nat.cast_nonneg _) f.least_pos.le
  unfold Pattern.position at h
  unfold Format.value
  cases ha : a.neg <;> cases hb : b.neg <;> simp only [ha, hb, if_true, if_false, Bool.false_eq_true] at h ⊢
  · exact hmono (by omega)
  · omega
  · have hor : 0 < a.magnitude ∨ 0 < b.magnitude := by omega
    have hzero := f.magnitude_value_zero
    rcases hor with hpos | hpos
    · have hlt := hmono hpos
      linarith [hnonneg b.magnitude]
    · have hlt := hmono hpos
      linarith [hnonneg a.magnitude]
  · exact neg_lt_neg (hmono (by omega))

theorem Format.number_lt (ha : ¬ f.IsNan a) (hb : ¬ f.IsNan b) (h : a.position < b.position) :
    f.number a < f.number b := by
  have hpos := f.infinity_pos
  rcases f.classes a with ⟨hfa, -, -⟩ | ⟨hia, -, -⟩ | ⟨hna, -, -⟩
  · rcases f.classes b with ⟨hfb, -, -⟩ | ⟨hib, -, -⟩ | ⟨hnb, -, -⟩
    · rw [number_of_finite hfa, number_of_finite hfb]
      exact WithBot.coe_lt_coe.mpr (WithTop.coe_lt_coe.mpr (value_lt h))
    · have hneg : ¬ b.neg = true := by
        intro hneg
        rw [Pattern.position, Pattern.position, if_pos hneg, show b.magnitude = f.infinity from hib] at h
        have hlt : a.magnitude < f.infinity := hfa
        split at h <;> omega
      rw [number_of_finite hfa, number, if_pos hib, if_neg hneg]
      exact WithBot.coe_lt_coe.mpr (WithTop.coe_lt_top _)
    · exact absurd hnb hb
  · have hneg : a.neg = true := by
      by_contra hneg
      have hle : b.magnitude ≤ f.infinity := Nat.not_lt.mp hb
      rw [Pattern.position, Pattern.position, if_neg hneg, show a.magnitude = f.infinity from hia] at h
      split at h <;> omega
    rw [Pattern.position, Pattern.position, if_pos hneg, show a.magnitude = f.infinity from hia] at h
    rw [number, if_pos hia, if_pos hneg, number]
    by_cases hib : f.IsInfinite b
    · have hneg' : ¬ b.neg = true := by
        intro hneg'
        rw [if_pos hneg', show b.magnitude = f.infinity from hib] at h
        omega
      rw [if_pos hib, if_neg hneg']
      exact WithBot.bot_lt_coe _
    · rw [if_neg hib]
      exact WithBot.bot_lt_coe _
  · exact absurd hna ha

theorem Format.number_eq (h : a.position = b.position) : f.number a = f.number b := by
  have hpos := f.infinity_pos
  unfold Pattern.position at h
  by_cases hsign : a.neg = b.neg
  · have hmag : a.magnitude = b.magnitude := by
      rw [hsign] at h
      split at h <;> omega
    rw [Pattern.ext hsign hmag]
  · have hzero : a.magnitude = 0 ∧ b.magnitude = 0 := by
      cases ha : a.neg <;> cases hb : b.neg <;>
        simp only [ha, hb, if_true, if_false, Bool.false_eq_true, not_true] at h hsign <;> omega
    have hvalue : ∀ c : Pattern, c.magnitude = 0 → f.number c = ((0 : WithTop ℚ) : WithBot (WithTop ℚ)) := by
      intro c hc
      rw [number_of_finite (show c.magnitude < f.infinity by omega), value, hc, magnitude_value_zero, neg_zero, ite_self]
      rfl
    rw [hvalue a hzero.1, hvalue b hzero.2]

/-- Numbers are ordered as their signs and magnitudes are. -/
theorem Format.number_lt_iff (ha : ¬ f.IsNan a) (hb : ¬ f.IsNan b) : f.number a < f.number b ↔ a.position < b.position := by
  refine ⟨fun h => ?_, number_lt ha hb⟩
  rcases lt_trichotomy a.position b.position with hlt | heq | hgt
  · exact hlt
  · exact absurd (number_eq heq) h.ne
  · exact absurd (number_lt hb ha hgt) h.not_gt

theorem Format.number_eq_iff (ha : ¬ f.IsNan a) (hb : ¬ f.IsNan b) : f.number a = f.number b ↔ a.position = b.position := by
  refine ⟨fun h => ?_, number_eq⟩
  rcases lt_trichotomy a.position b.position with hlt | heq | hgt
  · exact absurd h (number_lt ha hb hlt).ne
  · exact heq
  · exact absurd h.symm (number_lt hb ha hgt).ne

end order

/-- Back from a longer format. -/
theorem Format.Embeds.converts_back {f g : Format} {a r s : Pattern} (h : f.Embeds g a r) (h' : g.Converts f r s)
    (ha : ¬ f.IsNan a) : s = a := by
  have hclass := g.classes r
  rcases f.classes a with ⟨hfinite, -, -⟩ | ⟨hinfinite, -, -⟩ | ⟨hnan, -, -⟩
  · obtain ⟨hr, hvalue⟩ := h.exact hfinite
    have hnotnan : ¬ g.IsNan r := by grind
    refine Pattern.ext ?_ ((h'.rounded hr).eq_of_value hfinite hvalue.symm)
    rw [h'.sign hnotnan, h.sign ha]
  · have hr := h.infinite hinfinite
    have hnotnan : ¬ g.IsNan r := by grind
    refine Pattern.ext ?_ ((h'.infinite hr).trans hinfinite.symm)
    rw [h'.sign hnotnan, h.sign ha]
  · exact absurd hnan ha

namespace Format

section integers

variable {f : Format} {m m' : ℕ} {q : ℚ}

theorem floor_magnitude (f : Format) (m : ℕ) :
    ⌊f.magnitude_value m⌋ = (f.units m / 2 ^ (f.bias - 1 + f.fraction_bits) : ℕ) := by
  have hcast : f.magnitude_value m = (f.units m : ℚ) / ((2 ^ (f.bias - 1 + f.fraction_bits) : ℕ) : ℚ) := by
    rw [magnitude_value, least]
    push_cast
    ring
  rw [hcast, Rat.floor_natCast_div_natCast]
  rfl

/-- Below the exponent of one there is no integer part. -/
theorem floor_of_small (h : m / 2 ^ f.fraction_bits < f.bias) : ⌊f.magnitude_value m⌋ = 0 := by
  have hpos := f.two_pow_fraction_pos
  have hlt : f.units m < 2 ^ (f.bias - 1 + f.fraction_bits) := by
    unfold units
    split
    · rename_i hm
      exact lt_of_lt_of_le hm (Nat.pow_le_pow_right (by decide) (Nat.le_add_left _ _))
    · have hmod := Nat.mod_lt m hpos
      have hE : 1 ≤ m / 2 ^ f.fraction_bits := (Nat.one_le_div_iff hpos).mpr (by omega)
      calc (2 ^ f.fraction_bits + m % 2 ^ f.fraction_bits) * 2 ^ (m / 2 ^ f.fraction_bits - 1)
          < 2 * 2 ^ f.fraction_bits * 2 ^ (m / 2 ^ f.fraction_bits - 1) :=
            Nat.mul_lt_mul_of_pos_right (by omega) (Nat.two_pow_pos _)
        _ = 2 ^ (m / 2 ^ f.fraction_bits + f.fraction_bits) := by
          obtain ⟨e, he⟩ : ∃ e, m / 2 ^ f.fraction_bits = e + 1 := ⟨m / 2 ^ f.fraction_bits - 1, by omega⟩
          rw [he, Nat.add_sub_cancel, Nat.pow_add, Nat.pow_add]
          ring
        _ ≤ 2 ^ (f.bias - 1 + f.fraction_bits) := Nat.pow_le_pow_right (by decide) (by omega)
  rw [floor_magnitude, Nat.div_eq_of_lt hlt]
  rfl

/-- The leading bit of the integer part, and the bits of the fraction that belong to it. -/
theorem floor_of_large {e : ℕ} (h : m / 2 ^ f.fraction_bits = f.bias + e) :
    ⌊f.magnitude_value m⌋ = (2 ^ e + m % 2 ^ f.fraction_bits * 2 ^ e / 2 ^ f.fraction_bits : ℕ) := by
  have hpos := f.two_pow_fraction_pos
  have hbias := f.one_le_bias
  have hle : ¬m < 2 ^ f.fraction_bits := by
    intro hm
    rw [Nat.div_eq_of_lt hm] at h
    omega
  have hexp : f.bias + e - 1 = (f.bias - 1) + e := by omega
  have hunits : f.units m = 2 ^ (f.bias - 1) *
      (m % 2 ^ f.fraction_bits * 2 ^ e + 2 ^ f.fraction_bits * 2 ^ e) := by
    rw [units, if_neg hle, h, hexp, Nat.pow_add]
    ring
  rw [floor_magnitude, hunits, Nat.pow_add, Nat.mul_div_mul_left _ _ (Nat.two_pow_pos _),
    Nat.add_mul_div_left _ _ hpos, Nat.add_comm]

/-- A number is rounded to one pattern only. -/
theorem Rounds.unique (h : f.Rounds q m) (h' : f.Rounds q m') : m = m' := by
  by_cases hover : f.overflow ≤ q
  · rw [Rounds, if_pos hover] at h h'
    rw [h, h']
  · rw [Rounds, if_neg hover] at h h'
    by_contra hne
    have heq := le_antisymm (h.2 m' h'.1).1 (h'.2 m h.1).1
    have heven := (h.2 m' h'.1).2 heq
    have heven' := (h'.2 m h.1).2 heq.symm
    -- a pattern between the two is nearer
    have hbetween {a b : ℕ} (ha : f.Rounds q a) (hlt : a + 1 < b) (hb : b < f.infinity)
        (hab : |f.magnitude_value a - q| = |f.magnitude_value b - q|) : False := by
      rw [Rounds, if_neg hover] at ha
      have hlo := f.magnitude_value_strictMono (Nat.lt_succ_self a)
      have hhi := f.magnitude_value_strictMono hlt
      have hnear := (ha.2 (a + 1) (by omega)).1
      rcases abs_cases (f.magnitude_value a - q) with ⟨h₁, _⟩ | ⟨h₁, _⟩ <;>
        rcases abs_cases (f.magnitude_value b - q) with ⟨h₂, _⟩ | ⟨h₂, _⟩ <;>
          rcases abs_cases (f.magnitude_value (a + 1) - q) with ⟨h₃, _⟩ | ⟨h₃, _⟩ <;> linarith
    have hm : f.Rounds q m := by
      rw [Rounds, if_neg hover]
      exact h
    have hm' : f.Rounds q m' := by
      rw [Rounds, if_neg hover]
      exact h'
    rcases Nat.lt_or_gt_of_ne hne with hlt | hlt
    · exact hbetween hm (by omega) h'.1 heq
    · exact hbetween hm' (by omega) h.1 heq.symm

end integers

end Format

/-- The bits that a shift loses are more than a half of its last place, or a half and the last bit is set. -/
def RoundsUp (k x : ℕ) : Prop := 2 ^ k < 2 * (x % 2 ^ k) ∨ 2 ^ k = 2 * (x % 2 ^ k) ∧ x / 2 ^ k % 2 = 1

instance (k x : ℕ) : Decidable (RoundsUp k x) := inferInstanceAs (Decidable (_ ∨ _))

/-- The quotient by a power of two, to nearest with ties to even. -/
def rounded_shift (k x : ℕ) : ℕ := x / 2 ^ k + if RoundsUp k x then 1 else 0

theorem nearestEven_rounded_shift (k x : ℕ) : NearestEven ((x : ℚ) / 2 ^ k) (rounded_shift k x) := by
  have hpos : (0 : ℚ) < 2 ^ k := by positivity
  have hdiv : (x : ℚ) = (x / 2 ^ k : ℕ) * 2 ^ k + (x % 2 ^ k : ℕ) := by
    exact_mod_cast (Nat.div_add_mod' x (2 ^ k)).symm
  have hlt := Nat.mod_lt x (Nat.two_pow_pos k)
  have hquot : (x : ℚ) / 2 ^ k = (x / 2 ^ k : ℕ) + ((x % 2 ^ k : ℕ) : ℚ) / 2 ^ k := by
    rw [hdiv]
    field_simp
  have hone : ((x % 2 ^ k : ℕ) : ℚ) / 2 ^ k < 1 := by
    rw [div_lt_one hpos]
    exact_mod_cast hlt
  have hnonneg : 0 ≤ ((x % 2 ^ k : ℕ) : ℚ) / 2 ^ k := by positivity
  have hhalf : ((x % 2 ^ k : ℕ) : ℚ) / 2 ^ k = 1 / 2 ↔ 2 ^ k = 2 * (x % 2 ^ k) := by
    rw [div_eq_div_iff hpos.ne' (by norm_num), one_mul, mul_comm, eq_comm]
    exact_mod_cast Iff.rfl
  have habove : 1 / 2 ≤ ((x % 2 ^ k : ℕ) : ℚ) / 2 ^ k ↔ 2 ^ k ≤ 2 * (x % 2 ^ k) := by
    rw [div_le_div_iff₀ (by norm_num) hpos, one_mul, mul_comm ((x % 2 ^ k : ℕ) : ℚ)]
    exact_mod_cast Iff.rfl
  rw [rounded_shift, hquot]
  generalize ((x % 2 ^ k : ℕ) : ℚ) / 2 ^ k = t at *
  have hup : RoundsUp k x ↔ 2 ^ k < 2 * (x % 2 ^ k) ∨ 2 ^ k = 2 * (x % 2 ^ k) ∧ x / 2 ^ k % 2 = 1 := Iff.rfl
  generalize x / 2 ^ k = n at *
  split
  · rename_i h
    rw [hup] at h
    have ht := habove.mpr (by omega)
    have hdiff : (n : ℚ) + t - (n + 1 : ℕ) = t - 1 := by
      push_cast
      ring
    rw [NearestEven, hdiff, abs_of_neg (by linarith)]
    refine ⟨by linarith, fun heq => ?_⟩
    have htie := hhalf.mp (by linarith)
    omega
  · rename_i h
    rw [hup] at h
    have hdiff : (n : ℚ) + t - (n + 0 : ℕ) = t := by
      push_cast
      ring
    rw [NearestEven, hdiff, abs_of_nonneg hnonneg]
    refine ⟨?_, fun heq => ?_⟩
    · by_contra hlarge
      have hle := habove.mp (not_le.mp hlarge).le
      have hne : ¬2 ^ k = 2 * (x % 2 ^ k) := fun h => hlarge (hhalf.mpr h).le
      omega
    · have htie := hhalf.mp heq
      omega

/-- A number that is not zero has its leading bit in the exponent, and the others in the fraction. -/
theorem Format.rounds_natCast {f : Format} {x r : ℕ} (hx : x ≠ 0)
    (hr : r = if x.log2 ≤ f.fraction_bits then x * 2 ^ (f.fraction_bits - x.log2)
      else rounded_shift (x.log2 - f.fraction_bits) x) (hfits : x.log2 + f.bias + 2 < 2 ^ f.exponent_bits) :
    f.Rounds x ((x.log2 + f.bias - 1) * 2 ^ f.fraction_bits + r) := by
  have hbias := f.one_le_bias
  have hlo : (2 : ℚ) ^ x.log2 ≤ x := by exact_mod_cast Nat.log2_self_le hx
  have hhi : (x : ℚ) < 2 ^ x.log2 * 2 := by
    rw [← pow_succ]
    exact_mod_cast Nat.lt_log2_self
  have hnearest : NearestEven ((x : ℚ) * 2 ^ f.fraction_bits / 2 ^ x.log2) r := by
    rw [hr]
    split
    · rename_i hle
      obtain ⟨j, hj⟩ := Nat.exists_eq_add_of_le hle
      have heq : (x : ℚ) * 2 ^ f.fraction_bits / 2 ^ x.log2 = ((x * 2 ^ (f.fraction_bits - x.log2) : ℕ) : ℚ) := by
        rw [hj, Nat.add_sub_cancel_left, pow_add]
        push_cast
        field_simp
      rw [heq, NearestEven, sub_self, abs_zero]
      exact ⟨by norm_num, fun h => absurd h (by norm_num)⟩
    · rename_i hlt
      obtain ⟨j, hj⟩ := Nat.exists_eq_add_of_le (Nat.le_of_not_le hlt)
      have heq : (x : ℚ) * 2 ^ f.fraction_bits / 2 ^ x.log2 = (x : ℚ) / 2 ^ (x.log2 - f.fraction_bits) := by
        conv_lhs => rw [hj, pow_add]
        rw [hj, Nat.add_sub_cancel_left]
        field_simp
      rw [heq]
      exact nearestEven_rounded_shift _ _
  have hlo' : (2 : ℚ) ^ f.fraction_bits ≤ x * 2 ^ f.fraction_bits / 2 ^ x.log2 := by
    rw [le_div_iff₀ (by positivity), mul_comm]
    exact mul_le_mul_of_nonneg_right hlo (by positivity)
  have hhi' : (x : ℚ) * 2 ^ f.fraction_bits / 2 ^ x.log2 < 2 * 2 ^ f.fraction_bits := by
    rw [div_lt_iff₀ (by positivity)]
    calc (x : ℚ) * 2 ^ f.fraction_bits < 2 ^ x.log2 * 2 * 2 ^ f.fraction_bits :=
          mul_lt_mul_of_pos_right hhi (by positivity)
      _ = 2 * 2 ^ f.fraction_bits * 2 ^ x.log2 := by ring
  have hvalue : (x : ℚ) * 2 ^ f.fraction_bits / 2 ^ x.log2 * 2 ^ (x.log2 + f.bias - 1) * f.least = x := by
    have hexp : x.log2 + f.bias - 1 = x.log2 + (f.bias - 1) := by omega
    rw [hexp, least, pow_add, pow_add]
    field_simp
  have hrounds := rounds_of_scaled hnearest (show 1 ≤ x.log2 + f.bias by omega) (.inr hlo') hhi'
  have hle : r ≤ 2 * 2 ^ f.fraction_bits := hnearest.le_of_le (by exact_mod_cast hhi'.le)
  have hmul := Nat.mul_le_mul_right (2 ^ f.fraction_bits) (show x.log2 + f.bias - 1 ≤ 2 ^ f.exponent_bits - 3 by omega)
  rwa [hvalue, f.infinity_eq, min_eq_right (by omega)] at hrounds

end machine.ieee
