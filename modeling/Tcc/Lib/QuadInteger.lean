import Mathlib.Data.Rat.Floor
import Tcc.Lib.QuadNarrow

/-! The conversions of `lib/lib-arm64.c` between `long double` and integers. -/

namespace tcc.lib.quad

open machine.ieee machine.jam machine.double_word machine.halving

def fixtfsi (fa : U128) : BitVec 32 :=
  let a := f3_unpack fa
  if a.exp < 16369 then 0
  else if 16413 < a.exp then (if a.sgn then -0x80000000#32 else 0x7fffffff#32)
  else
    let x := (a.mnt.x1 >>> (16431 - a.exp).toNat).setWidth 32
    if a.sgn then -x else x

def fixtfdi (fa : U128) : BitVec 64 :=
  let a := f3_unpack fa
  if a.exp < 16383 then 0
  else if 16445 < a.exp then (if a.sgn then -0x8000000000000000#64 else 0x7fffffffffffffff#64)
  else
    let x := (a.mnt.x1 <<< 15 ||| a.mnt.x0 >>> 49) >>> (16446 - a.exp).toNat
    if a.sgn then -x else x

def fixunstfsi (fa : U128) : BitVec 32 :=
  let a := f3_unpack fa
  if a.sgn ∨ a.exp < 16369 then 0
  else if 16414 < a.exp then -1
  else (a.mnt.x1 >>> (16431 - a.exp).toNat).setWidth 32

def fixunstfdi (fa : U128) : BitVec 64 :=
  let a := f3_unpack fa
  if a.sgn ∨ a.exp < 16383 then 0
  else if 16446 < a.exp then -1
  else (a.mnt.x1 <<< 15 ||| a.mnt.x0 >>> 49) >>> (16446 - a.exp).toNat

def float_normalise_step {w : Nat} (s : Int × BitVec w) (i : Nat) : Int × BitVec w :=
  if s.2 >>> (w - i) = 0 then (s.1 - i, s.2 <<< i) else s

/-- The loop goes over the shifts by 16, 8, 4, 2 and 1. -/
def float_single (sgn : Bool) (mnt : BitVec 32) : U128 :=
  let s := (halvings 5).foldl float_normalise_step ((16414 : Int), mnt)
  { x0 := 0, x1 := word sgn <<< 63 ||| BitVec.ofInt 64 s.1 <<< 48 ||| (s.2 <<< 1).setWidth 64 <<< 16 }

/-- The loop goes over the shifts by 32, 16, 8, 4, 2 and 1. -/
def float_double (sgn : Bool) (mnt : BitVec 64) : U128 :=
  let s := (halvings 6).foldl float_normalise_step ((16446 : Int), mnt)
  { x0 := s.2 <<< 49, x1 := word sgn <<< 63 ||| BitVec.ofInt 64 s.1 <<< 48 ||| s.2 <<< 1 >>> 16 }

def floatsitf (a : BitVec 32) : U128 :=
  if a = 0 then { x0 := 0, x1 := 0 } else if a.slt 0 then float_single true (-a) else float_single false a

def floatditf (a : BitVec 64) : U128 :=
  if a = 0 then { x0 := 0, x1 := 0 } else if a.slt 0 then float_double true (-a) else float_double false a

def floatunsitf (a : BitVec 32) : U128 := if a = 0 then { x0 := 0, x1 := 0 } else float_single false a

def floatunditf (a : BitVec 64) : U128 := if a = 0 then { x0 := 0, x1 := 0 } else float_double false a

/-- Rounding toward zero. -/
def truncate (v : ℚ) : ℤ := if v < 0 then -⌊-v⌋ else ⌊v⌋

theorem truncate_eq (f : Format) (p : Pattern) :
    truncate (f.value p) = if p.neg then -⌊f.magnitude_value p.magnitude⌋ else ⌊f.magnitude_value p.magnitude⌋ := by
  have hnonneg : 0 ≤ f.magnitude_value p.magnitude := mul_nonneg (Nat.cast_nonneg _) f.least_pos.le
  rw [truncate, Format.value]
  cases p.neg
  · simp only [Bool.false_eq_true, if_false]
    rw [if_neg (not_lt.mpr hnonneg)]
  · rw [if_pos rfl, if_pos rfl]
    split
    · rw [neg_neg]
    · rename_i hneg
      have hzero : f.magnitude_value p.magnitude = 0 := by linarith
      rw [hzero]
      rfl

section truncation

variable {u : Unpacked} {p : Pattern}

/-- The integer part of a magnitude. -/
theorem floor_magnitude (h : u.Represents p) {n : Nat} (hn : (n : Int) = 16495 - u.exp) :
    ⌊binary128.magnitude_value p.magnitude⌋ = (u.mnt.toNat / 2 ^ n : Nat) := by
  have hexp : u.exp - 16495 = -(n : Int) := by omega
  rw [h.magnitude_value, hexp, zpow_neg, zpow_natCast, ← div_eq_mul_inv]
  have hcast : ((u.mnt.toNat : ℚ) / 2 ^ n) = (u.mnt.toNat : ℚ) / ((2 ^ n : Nat) : ℚ) := by push_cast; rfl
  rw [hcast, Rat.floor_natCast_div_natCast]
  rfl

theorem truncate_value (h : u.Represents p) :
    truncate (binary128.value p) = if u.sgn then -⌊binary128.magnitude_value p.magnitude⌋
      else ⌊binary128.magnitude_value p.magnitude⌋ := by
  rw [truncate_eq, h.sgn]

/-- Below one. -/
theorem floor_of_small (h : u.Represents p) (hexp : u.exp < 16383) :
    ⌊binary128.magnitude_value p.magnitude⌋ = 0 := by
  obtain ⟨n, hn⟩ := Int.eq_ofNat_of_zero_le (show 0 ≤ 16495 - u.exp by omega)
  have hhigh := h.high
  have hpow : 2 ^ 113 ≤ 2 ^ n := Nat.pow_le_pow_right (by decide) (by omega)
  rw [floor_magnitude h hn.symm, Nat.div_eq_of_lt (by omega)]
  rfl

/-- From an exponent on. -/
theorem le_floor_of_large (h : u.Represents p) {n : Nat} (hexp : 16383 + (n : Int) ≤ u.exp) (hpos : 0 < n) :
    (2 : Int) ^ n ≤ ⌊binary128.magnitude_value p.magnitude⌋ := by
  have hlow : (2 : ℚ) ^ (112 : Int) ≤ u.mnt.toNat := by exact_mod_cast h.low.resolve_left (by omega)
  rw [Int.le_floor, h.magnitude_value]
  push_cast
  calc (2 : ℚ) ^ n = 2 ^ (n : Int) := (zpow_natCast 2 n).symm
    _ ≤ 2 ^ ((112 : Int) + (u.exp - 16495)) := zpow_le_zpow_right₀ (by norm_num) (by omega)
    _ = 2 ^ (112 : Int) * 2 ^ (u.exp - 16495) := zpow_add₀ (by norm_num) _ _
    _ ≤ u.mnt.toNat * 2 ^ (u.exp - 16495) := mul_le_mul_of_nonneg_right hlow (zpow_pos (by norm_num) _).le

theorem floor_lt (h : u.Represents p) :
    ⌊binary128.magnitude_value p.magnitude⌋ < (2 : Int) ^ (u.exp - 16382).toNat := by
  have hhigh : (u.mnt.toNat : ℚ) < 2 ^ (113 : Int) := by exact_mod_cast h.high
  rw [Int.floor_lt, h.magnitude_value]
  push_cast
  calc (u.mnt.toNat : ℚ) * 2 ^ (u.exp - 16495) < 2 ^ (113 : Int) * 2 ^ (u.exp - 16495) :=
      mul_lt_mul_of_pos_right hhigh (zpow_pos (by norm_num) _)
    _ = 2 ^ ((113 : Int) + (u.exp - 16495)) := (zpow_add₀ (by norm_num) _ _).symm
    _ ≤ 2 ^ ((u.exp - 16382).toNat : Int) := zpow_le_zpow_right₀ (by norm_num) (by omega)
    _ = 2 ^ (u.exp - 16382).toNat := zpow_natCast 2 _

theorem floor_nonneg (p : Pattern) : 0 ≤ ⌊binary128.magnitude_value p.magnitude⌋ :=
  Int.floor_nonneg.mpr (mul_nonneg (Nat.cast_nonneg _) binary128.least_pos.le)

end truncation

section fix

theorem toInt_of_small {w : Nat} {x : BitVec (w + 1)} (h : x.toNat < 2 ^ w) :
    x.toInt = x.toNat ∧ (-x).toInt = -(x.toNat : Int) := by
  have hpow : 2 ^ (w + 1) = 2 * 2 ^ w := pow_succ' 2 w
  rw [BitVec.toInt_eq_toNat_cond, BitVec.toInt_eq_toNat_cond, BitVec.toNat_neg, hpow]
  refine ⟨if_pos (by omega), ?_⟩
  rcases Nat.eq_zero_or_pos x.toNat with hzero | hpos
  · rw [hzero, Nat.sub_zero, Nat.mod_self, if_pos (by omega)]
    rfl
  · rw [Nat.mod_eq_of_lt (by omega), if_neg (by omega), Nat.cast_sub (by omega)]
    push_cast
    ring

/-- The word that is shifted to the integer part. -/
theorem toNat_fix_single {u : Unpacked} {p : Pattern} (h : u.Represents p) (hlo : 16369 ≤ u.exp) (hhi : u.exp ≤ 16414) :
    (((u.mnt.x1 >>> (16431 - u.exp).toNat).setWidth 32).toNat : Int) = ⌊binary128.magnitude_value p.magnitude⌋ ∧
      ⌊binary128.magnitude_value p.magnitude⌋ < 2 ^ (u.exp - 16382).toNat := by
  obtain ⟨sh, hsh⟩ := Int.eq_ofNat_of_zero_le (show 0 ≤ 16431 - u.exp by omega)
  have hlow := u.mnt.x0.isLt
  have heq := u.mnt.toNat_eq
  have hfloor := floor_magnitude h (n := 64 + sh) (by push_cast; omega)
  have hdiv : u.mnt.toNat / 2 ^ (64 + sh) = u.mnt.x1.toNat / 2 ^ sh := by
    rw [pow_add, ← Nat.div_div_eq_div_mul, heq]
    congr 1
    omega
  have hlt := floor_lt h
  rw [hfloor, hdiv] at hlt ⊢
  have hpow : (2 : Int) ^ (u.exp - 16382).toNat ≤ 2 ^ 32 := pow_le_pow_right₀ (by norm_num) (by omega)
  rw [hsh, Int.toNat_natCast, BitVec.toNat_setWidth, toNat_shr, Nat.mod_eq_of_lt (by omega)]
  exact ⟨rfl, hlt⟩

theorem toNat_fix_double {u : Unpacked} {p : Pattern} (h : u.Represents p) (hlo : 16383 ≤ u.exp) (hhi : u.exp ≤ 16446) :
    (((u.mnt.x1 <<< 15 ||| u.mnt.x0 >>> 49) >>> (16446 - u.exp).toNat).toNat : Int) =
      ⌊binary128.magnitude_value p.magnitude⌋ ∧
      ⌊binary128.magnitude_value p.magnitude⌋ < 2 ^ (u.exp - 16382).toNat := by
  obtain ⟨sh, hsh⟩ := Int.eq_ofNat_of_zero_le (show 0 ≤ 16446 - u.exp by omega)
  have hlow := u.mnt.x0.isLt
  have heq := u.mnt.toNat_eq
  have hhigh := h.high
  have hfloor := floor_magnitude h (n := 49 + sh) (by push_cast; omega)
  have htop : (u.mnt.x1 <<< 15).toNat = u.mnt.x1.toNat * 2 ^ 15 := by
    rw [toNat_shl]
    omega
  have hrest : (u.mnt.x0 >>> 49).toNat = u.mnt.x0.toNat / 2 ^ 49 := toNat_shr _ _
  have hword : (u.mnt.x1 <<< 15 ||| u.mnt.x0 >>> 49).toNat = u.mnt.toNat / 2 ^ 49 := by
    rw [toNat_or (by rw [htop]; exact Dvd.intro_left _ rfl) (by rw [hrest]; omega), htop, hrest, heq]
    omega
  rw [hsh, Int.toNat_natCast, toNat_shr, hword, Nat.div_div_eq_div_mul, ← pow_add, hfloor]
  exact ⟨rfl, hfloor ▸ floor_lt h⟩

variable {fa : U128}

theorem fixtfsi_spec (hlo : -2 ^ 31 ≤ truncate (binary128.value fa.pattern))
    (hhi : truncate (binary128.value fa.pattern) < 2 ^ 31) :
    (fixtfsi fa).toInt = truncate (binary128.value fa.pattern) := by
  have h := f3_unpack_represents fa
  rw [truncate_value h] at hlo hhi ⊢
  have hnonneg := floor_nonneg fa.pattern
  unfold fixtfsi
  dsimp only
  by_cases hsmall : (f3_unpack fa).exp < 16369
  · rw [if_pos hsmall, floor_of_small h (by omega), neg_zero, ite_self]
    rfl
  rw [if_neg hsmall]
  by_cases hlarge : 16413 < (f3_unpack fa).exp
  · have hfloor := le_floor_of_large h (n := 31) (by omega) (by decide)
    rw [if_pos hlarge]
    cases hsgn : (f3_unpack fa).sgn
    · simp only [hsgn, Bool.false_eq_true, if_false] at hhi
      omega
    · simp only [hsgn, if_true] at hlo ⊢
      have hmin : (-0x80000000#32).toInt = -2 ^ 31 := by decide
      rw [hmin]
      omega
  · obtain ⟨hfix, hlt⟩ := toNat_fix_single h (by omega) (by omega)
    have hpow : (2 : Int) ^ ((f3_unpack fa).exp - 16382).toNat ≤ 2 ^ 31 :=
      pow_le_pow_right₀ (by norm_num) (by omega)
    obtain ⟨hpos, hneg⟩ := toInt_of_small (w := 31) (show (((f3_unpack fa).mnt.x1 >>>
      (16431 - (f3_unpack fa).exp).toNat).setWidth 32).toNat < 2 ^ 31 by omega)
    rw [if_neg hlarge, ← hfix, ← hneg, ← hpos]
    split <;> rfl

theorem fixtfdi_spec (hlo : -2 ^ 63 ≤ truncate (binary128.value fa.pattern))
    (hhi : truncate (binary128.value fa.pattern) < 2 ^ 63) :
    (fixtfdi fa).toInt = truncate (binary128.value fa.pattern) := by
  have h := f3_unpack_represents fa
  rw [truncate_value h] at hlo hhi ⊢
  have hnonneg := floor_nonneg fa.pattern
  unfold fixtfdi
  dsimp only
  by_cases hsmall : (f3_unpack fa).exp < 16383
  · rw [if_pos hsmall, floor_of_small h hsmall, neg_zero, ite_self]
    rfl
  rw [if_neg hsmall]
  by_cases hlarge : 16445 < (f3_unpack fa).exp
  · have hfloor := le_floor_of_large h (n := 63) (by omega) (by decide)
    rw [if_pos hlarge]
    cases hsgn : (f3_unpack fa).sgn
    · simp only [hsgn, Bool.false_eq_true, if_false] at hhi
      omega
    · simp only [hsgn, if_true] at hlo ⊢
      have hmin : (-0x8000000000000000#64).toInt = -2 ^ 63 := by decide
      rw [hmin]
      omega
  · obtain ⟨hfix, hlt⟩ := toNat_fix_double h (by omega) (by omega)
    have hpow : (2 : Int) ^ ((f3_unpack fa).exp - 16382).toNat ≤ 2 ^ 63 :=
      pow_le_pow_right₀ (by norm_num) (by omega)
    obtain ⟨hpos, hneg⟩ := toInt_of_small (w := 63) (show (((f3_unpack fa).mnt.x1 <<< 15 |||
      (f3_unpack fa).mnt.x0 >>> 49) >>> (16446 - (f3_unpack fa).exp).toNat).toNat < 2 ^ 63 by omega)
    rw [if_neg hlarge, ← hfix, ← hneg, ← hpos]
    split <;> rfl

/-- A negative number whose integer part is an unsigned one is above minus one. -/
theorem floor_eq_zero_of_neg {n : Int} (hsgn : (f3_unpack fa).sgn = true)
    (hlo : 0 ≤ truncate (binary128.value fa.pattern)) (hn : truncate (binary128.value fa.pattern) = n) : n = 0 := by
  have h := f3_unpack_represents fa
  have hnonneg := floor_nonneg fa.pattern
  rw [truncate_value h, if_pos hsgn] at hlo hn
  omega

theorem fixunstfsi_spec (hlo : 0 ≤ truncate (binary128.value fa.pattern))
    (hhi : truncate (binary128.value fa.pattern) < 2 ^ 32) :
    ((fixunstfsi fa).toNat : Int) = truncate (binary128.value fa.pattern) := by
  have h := f3_unpack_represents fa
  unfold fixunstfsi
  dsimp only
  by_cases hsgn : (f3_unpack fa).sgn = true
  · rw [if_pos (.inl hsgn), floor_eq_zero_of_neg hsgn hlo rfl]
    rfl
  rw [truncate_value h, if_neg hsgn] at hhi ⊢
  by_cases hsmall : (f3_unpack fa).exp < 16369
  · rw [if_pos (.inr hsmall), floor_of_small h (by omega)]
    rfl
  rw [if_neg (not_or.mpr ⟨hsgn, hsmall⟩)]
  by_cases hlarge : 16414 < (f3_unpack fa).exp
  · have hfloor := le_floor_of_large h (n := 32) (by omega) (by decide)
    omega
  · rw [if_neg hlarge]
    exact (toNat_fix_single h (by omega) (by omega)).1

theorem fixunstfdi_spec (hlo : 0 ≤ truncate (binary128.value fa.pattern))
    (hhi : truncate (binary128.value fa.pattern) < 2 ^ 64) :
    ((fixunstfdi fa).toNat : Int) = truncate (binary128.value fa.pattern) := by
  have h := f3_unpack_represents fa
  unfold fixunstfdi
  dsimp only
  by_cases hsgn : (f3_unpack fa).sgn = true
  · rw [if_pos (.inl hsgn), floor_eq_zero_of_neg hsgn hlo rfl]
    rfl
  rw [truncate_value h, if_neg hsgn] at hhi ⊢
  by_cases hsmall : (f3_unpack fa).exp < 16383
  · rw [if_pos (.inr hsmall), floor_of_small h hsmall]
    rfl
  rw [if_neg (not_or.mpr ⟨hsgn, hsmall⟩)]
  by_cases hlarge : 16446 < (f3_unpack fa).exp
  · have hfloor := le_floor_of_large h (n := 64) (by omega) (by decide)
    omega
  · rw [if_neg hlarge]
    exact (toNat_fix_double h (by omega) (by omega)).1

end fix

section float

/-- The value is kept, and at most this many bits at the top are zero. -/
def WordNormalises {w : Nat} (e : Int) (m : Nat) (bits : Nat) (s : Int × BitVec w) : Prop :=
  ∃ k : Nat, s.1 = e - k ∧ s.2.toNat = m * 2 ^ k ∧ 2 ^ (w - bits) ≤ s.2.toNat

theorem WordNormalises.step {w : Nat} {e : Int} {m n : Nat} {s : Int × BitVec w}
    (h : WordNormalises e m (2 ^ (n + 1)) s) (hn : 2 ^ (n + 1) ≤ w) :
    WordNormalises e m (2 ^ n) (float_normalise_step s (2 ^ n)) := by
  obtain ⟨k, hexp, hmnt, hle⟩ := h
  have hpow : 2 ^ (n + 1) = 2 * 2 ^ n := pow_succ' 2 n
  obtain ⟨i, hi⟩ : ∃ i, i = 2 ^ n := ⟨_, rfl⟩
  rw [← hi] at hpow ⊢
  rw [hpow] at hle hn
  unfold float_normalise_step
  split
  · rename_i hzero
    rw [eq_zero_iff, toNat_shr, Nat.div_eq_zero_iff] at hzero
    have hsmall := hzero.resolve_left (Nat.two_pow_pos _).ne'
    have hfits : s.2.toNat * 2 ^ i < 2 ^ w := by
      calc s.2.toNat * 2 ^ i < 2 ^ (w - i) * 2 ^ i := Nat.mul_lt_mul_of_pos_right hsmall (Nat.two_pow_pos i)
        _ = 2 ^ w := by
          rw [← pow_add]
          congr 1
          omega
    have hshl : (s.2 <<< i).toNat = s.2.toNat * 2 ^ i := by
      rw [toNat_shl, Nat.mod_eq_of_lt hfits]
    refine ⟨k + i, ?_, ?_, ?_⟩
    · push_cast
      omega
    · rw [hshl, hmnt, pow_add, Nat.mul_assoc]
    · have hshift : 2 ^ (w - i) = 2 ^ (w - 2 * i) * 2 ^ i := by
        rw [← pow_add]
        congr 1
        omega
      rw [hshl, hshift]
      exact Nat.mul_le_mul_right _ hle
  · rename_i hzero
    rw [eq_zero_iff, toNat_shr, Nat.div_eq_zero_iff, not_or] at hzero
    exact ⟨k, hexp, hmnt, Nat.not_lt.mp hzero.2⟩

/-- The loop shifts the leading bit to the top. -/
theorem float_normalise_spec {n : Nat} {e : Int} {x : BitVec (2 ^ n)} (hx : x.toNat ≠ 0) :
    ∃ k : Nat, ((halvings n).foldl float_normalise_step (e, x)).1 = e - k ∧
      ((halvings n).foldl float_normalise_step (e, x)).2.toNat = x.toNat * 2 ^ k ∧
      2 ^ (2 ^ n - 1) ≤ ((halvings n).foldl float_normalise_step (e, x)).2.toNat := by
  have hstart : WordNormalises e x.toNat (2 ^ n) (e, x) :=
    ⟨0, by simp, by simp, by rw [Nat.sub_self, pow_zero]; exact Nat.one_le_iff_ne_zero.mpr hx⟩
  have hloop := foldl_halvings (P := fun i s => i ≤ n ∧ WordNormalises e x.toNat (2 ^ i) s)
    (fun i s hs => ⟨by omega, hs.2.step (Nat.pow_le_pow_right (by decide) hs.1)⟩) ⟨le_refl n, hstart⟩
  exact hloop.2

/-- The value of an integer whose leading bit is at a place. -/
theorem magnitude_value_integer {m x k c e : Nat} (hc : c ≤ 112) (hm : m = x * 2 ^ k) (hlo : 2 ^ c ≤ m)
    (hhi : m < 2 * 2 ^ c) (he : e + k = 16383 + c) (hpos : 1 ≤ e) :
    binary128.magnitude_value (e * 2 ^ 112 + (m - 2 ^ c) * 2 ^ (112 - c)) = x := by
  have hbits : binary128.fraction_bits = 112 := rfl
  have hbias : binary128.bias = 16383 := rfl
  have hsplit : 2 ^ c * 2 ^ (112 - c) = 2 ^ 112 := by
    rw [← pow_add]
    congr 1
    omega
  obtain ⟨f, rfl⟩ := Nat.exists_eq_add_of_le hlo
  have hscaled : (2 ^ c + f) * 2 ^ (112 - c) = 2 ^ 112 + f * 2 ^ (112 - c) := by rw [Nat.add_mul, hsplit]
  have hflt : f * 2 ^ (112 - c) < 2 ^ 112 := by
    rw [← hsplit]
    exact Nat.mul_lt_mul_of_pos_right (by omega) (Nat.two_pow_pos _)
  have hgrid := Format.magnitude_value_grid (f := binary128) (E := e) (k := (2 ^ c + f) * 2 ^ (112 - c)) hpos
    (.inr (by rw [hbits]; omega)) (by rw [hbits]; omega)
  obtain ⟨d, rfl⟩ : ∃ d, e = d + 1 := ⟨e - 1, by omega⟩
  have hsum : (d + 1) * 2 ^ 112 + (2 ^ c + f - 2 ^ c) * 2 ^ (112 - c) =
      (d + 1 - 1) * 2 ^ binary128.fraction_bits + (2 ^ c + f) * 2 ^ (112 - c) := by
    rw [hscaled, hbits, Nat.add_sub_cancel_left, Nat.add_sub_cancel]
    omega
  have hexp : ((d + 1 : Nat) - binary128.bias - binary128.fraction_bits : Int) = -((k + (112 - c) : Nat) : Int) := by
    rw [hbias, hbits]
    push_cast
    omega
  have hpow : (2 : ℚ) ^ (k + (112 - c)) ≠ 0 := by positivity
  rw [hsum, hgrid, hm, hexp, zpow_neg, zpow_natCast, Nat.mul_assoc, ← pow_add]
  push_cast
  field_simp

/-- A positive integer of one word: its sign and its value. -/
theorem float_single_spec (sgn : Bool) {x : BitVec 32} (hx : x ≠ 0) : (float_single sgn x).pattern.neg = sgn ∧
    binary128.IsFinite (float_single sgn x).pattern ∧
    binary128.magnitude_value (float_single sgn x).pattern.magnitude = x.toNat := by
  obtain ⟨k, hexp, hmnt, hlo⟩ := float_normalise_spec (n := 5) (e := 16414) (x := x) (mt (eq_zero_iff x).mpr hx)
  unfold float_single
  obtain ⟨s, hs⟩ : ∃ s, (halvings 5).foldl float_normalise_step ((16414 : Int), x) = s := ⟨_, rfl⟩
  rw [hs] at hexp hmnt hlo ⊢
  dsimp only
  have hlt := s.2.isLt
  have hk : k ≤ 31 := by
    by_contra hgt
    have hpow : 2 ^ 32 ≤ 2 ^ k := Nat.pow_le_pow_right (by decide) (by omega)
    have hpos : 1 ≤ x.toNat := Nat.one_le_iff_ne_zero.mpr (mt (eq_zero_iff x).mpr hx)
    have hmul := Nat.mul_le_mul hpos hpow
    omega
  have hE : (BitVec.ofInt 64 s.1).toNat = 16414 - k := by
    have hcast : s.1 = ((16414 - k : Nat) : Int) := by omega
    rw [hcast, BitVec.ofInt_natCast, BitVec.toNat_ofNat]
    omega
  have hF : ((s.2 <<< 1).setWidth 64 <<< 16).toNat = (s.2.toNat - 2 ^ 31) * 2 ^ 17 := by
    rw [toNat_shl, BitVec.toNat_setWidth, toNat_shl]
    omega
  have hlow : (0 : BitVec 64).toNat = 0 := rfl
  have hmag : (16414 - k) * 2 ^ 112 + ((s.2.toNat - 2 ^ 31) * 2 ^ 17 * 2 ^ 64 + 0) =
      (16414 - k) * 2 ^ 112 + (s.2.toNat - 2 ^ 31) * 2 ^ (112 - 31) := by
    omega
  rw [pattern_or_fields rfl (by omega) (by omega), hE, hF, hlow, hmag]
  refine ⟨rfl, isFinite_fields (by omega) (by omega), ?_⟩
  exact magnitude_value_integer (by decide) hmnt hlo (by omega) (by omega) (by omega)

theorem float_double_spec (sgn : Bool) {x : BitVec 64} (hx : x ≠ 0) : (float_double sgn x).pattern.neg = sgn ∧
    binary128.IsFinite (float_double sgn x).pattern ∧
    binary128.magnitude_value (float_double sgn x).pattern.magnitude = x.toNat := by
  obtain ⟨k, hexp, hmnt, hlo⟩ := float_normalise_spec (n := 6) (e := 16446) (x := x) (mt (eq_zero_iff x).mpr hx)
  unfold float_double
  obtain ⟨s, hs⟩ : ∃ s, (halvings 6).foldl float_normalise_step ((16446 : Int), x) = s := ⟨_, rfl⟩
  rw [hs] at hexp hmnt hlo ⊢
  dsimp only
  have hlt := s.2.isLt
  have hk : k ≤ 63 := by
    by_contra hgt
    have hpow : 2 ^ 64 ≤ 2 ^ k := Nat.pow_le_pow_right (by decide) (by omega)
    have hpos : 1 ≤ x.toNat := Nat.one_le_iff_ne_zero.mpr (mt (eq_zero_iff x).mpr hx)
    have hmul := Nat.mul_le_mul hpos hpow
    omega
  have hE : (BitVec.ofInt 64 s.1).toNat = 16446 - k := by
    have hcast : s.1 = ((16446 - k : Nat) : Int) := by omega
    rw [hcast, BitVec.ofInt_natCast, BitVec.toNat_ofNat]
    omega
  have hF : (s.2 <<< 1 >>> 16).toNat = (s.2.toNat - 2 ^ 63) / 2 ^ 15 := by
    rw [toNat_shr, toNat_shl]
    omega
  have hlow : (s.2 <<< 49).toNat = s.2.toNat % 2 ^ 15 * 2 ^ 49 := by
    rw [toNat_shl]
    omega
  have hmag : (16446 - k) * 2 ^ 112 + ((s.2.toNat - 2 ^ 63) / 2 ^ 15 * 2 ^ 64 + s.2.toNat % 2 ^ 15 * 2 ^ 49) =
      (16446 - k) * 2 ^ 112 + (s.2.toNat - 2 ^ 63) * 2 ^ (112 - 63) := by
    omega
  rw [pattern_or_fields rfl (by omega) (by omega), hE, hF, hlow, hmag]
  refine ⟨rfl, isFinite_fields (by omega) (by omega), ?_⟩
  exact magnitude_value_integer (by decide) hmnt hlo (by omega) (by omega) (by omega)

/-- A pattern has the value of an integer. -/
def IsInteger (r : Pattern) (n : Int) : Prop := binary128.IsFinite r ∧ binary128.value r = n

theorem isInteger_zero : IsInteger (U128.pattern ⟨0, 0⟩) 0 := by
  have hpattern : U128.pattern ⟨0, 0⟩ = ⟨false, 0⟩ := rfl
  rw [hpattern]
  refine ⟨binary128.infinity_pos, ?_⟩
  rw [Format.value, if_neg (by decide), Format.magnitude_value_zero, Int.cast_zero]

theorem isInteger_of_magnitude {r : Pattern} {sgn : Bool} {n : Nat} (h : r.neg = sgn ∧ binary128.IsFinite r ∧
    binary128.magnitude_value r.magnitude = n) : IsInteger r (if sgn then -(n : Int) else n) := by
  obtain ⟨hneg, hfinite, hvalue⟩ := h
  refine ⟨hfinite, ?_⟩
  rw [Format.value, hneg, hvalue]
  cases sgn
  · simp
  · simp

theorem slt_zero_iff {w : Nat} (a : BitVec (w + 1)) : a.slt 0 = true ↔ 2 ^ w ≤ a.toNat := by
  have hlt := a.isLt
  have hpow : 2 ^ (w + 1) = 2 * 2 ^ w := pow_succ' 2 w
  have hzero : (0 : BitVec (w + 1)).toInt = 0 := BitVec.toInt_zero
  rw [BitVec.slt_iff_toInt_lt, hzero, BitVec.toInt_eq_toNat_cond]
  split <;> omega

/-- The magnitude of a negative word. -/
theorem toInt_eq_neg {w : Nat} {a : BitVec (w + 1)} (h : a.slt 0 = true) : a.toInt = -((-a).toNat : Int) ∧ -a ≠ 0 := by
  have hlt := a.isLt
  have hpow : 2 ^ (w + 1) = 2 * 2 ^ w := pow_succ' 2 w
  have hpos := Nat.two_pow_pos w
  rw [slt_zero_iff] at h
  have hneg : (-a).toNat = 2 ^ (w + 1) - a.toNat := by
    rw [BitVec.toNat_neg, Nat.mod_eq_of_lt (by omega)]
  rw [Ne, eq_zero_iff, hneg, BitVec.toInt_eq_toNat_cond, if_neg (by omega), Nat.cast_sub hlt.le]
  push_cast
  exact ⟨by ring, by omega⟩

theorem toInt_eq_toNat {w : Nat} {a : BitVec (w + 1)} (h : ¬ a.slt 0 = true) : a.toInt = a.toNat := by
  have hpow : 2 ^ (w + 1) = 2 * 2 ^ w := pow_succ' 2 w
  rw [slt_zero_iff] at h
  rw [BitVec.toInt_eq_toNat_cond, if_pos (by omega)]

theorem floatsitf_isInteger (a : BitVec 32) : IsInteger (floatsitf a).pattern a.toInt := by
  unfold floatsitf
  split
  · rename_i hzero
    rw [hzero]
    exact isInteger_zero
  split
  · rename_i hneg
    obtain ⟨hint, hne⟩ := toInt_eq_neg (w := 31) hneg
    rw [hint]
    exact isInteger_of_magnitude (float_single_spec true hne)
  · rename_i hne hpos
    rw [toInt_eq_toNat (w := 31) hpos]
    exact isInteger_of_magnitude (float_single_spec false hne)

theorem floatditf_isInteger (a : BitVec 64) : IsInteger (floatditf a).pattern a.toInt := by
  unfold floatditf
  split
  · rename_i hzero
    rw [hzero]
    exact isInteger_zero
  split
  · rename_i hneg
    obtain ⟨hint, hne⟩ := toInt_eq_neg (w := 63) hneg
    rw [hint]
    exact isInteger_of_magnitude (float_double_spec true hne)
  · rename_i hne hpos
    rw [toInt_eq_toNat (w := 63) hpos]
    exact isInteger_of_magnitude (float_double_spec false hne)

theorem floatunsitf_isInteger (a : BitVec 32) : IsInteger (floatunsitf a).pattern a.toNat := by
  unfold floatunsitf
  split
  · rename_i hzero
    rw [hzero]
    exact isInteger_zero
  · rename_i hne
    exact isInteger_of_magnitude (float_single_spec false hne)

theorem floatunditf_isInteger (a : BitVec 64) : IsInteger (floatunditf a).pattern a.toNat := by
  unfold floatunditf
  split
  · rename_i hzero
    rw [hzero]
    exact isInteger_zero
  · rename_i hne
    exact isInteger_of_magnitude (float_double_spec false hne)

theorem IsInteger.truncate {r : Pattern} {n : Int} (h : IsInteger r n) : truncate (binary128.value r) = n := by
  rw [h.2, quad.truncate]
  split
  · rw [← Int.cast_neg, Int.floor_intCast, neg_neg]
  · exact Int.floor_intCast n

end float

section integers

/-- Integers are converted exactly and back, and numbers are rounded toward zero if the integer fits. -/
theorem integer_conversions_spec :
    (∀ n : BitVec 32, IsInteger (floatsitf n).pattern n.toInt ∧ fixtfsi (floatsitf n) = n) ∧
    (∀ n : BitVec 64, IsInteger (floatditf n).pattern n.toInt ∧ fixtfdi (floatditf n) = n) ∧
    (∀ n : BitVec 32, IsInteger (floatunsitf n).pattern n.toNat ∧ fixunstfsi (floatunsitf n) = n) ∧
    (∀ n : BitVec 64, IsInteger (floatunditf n).pattern n.toNat ∧ fixunstfdi (floatunditf n) = n) ∧
    ∀ (fa : U128) (t : Int), binary128.IsFinite fa.pattern → t = truncate (binary128.value fa.pattern) →
      (-2 ^ 31 ≤ t → t < 2 ^ 31 → (fixtfsi fa).toInt = t) ∧
      (-2 ^ 63 ≤ t → t < 2 ^ 63 → (fixtfdi fa).toInt = t) ∧
      (0 ≤ t → t < 2 ^ 32 → ((fixunstfsi fa).toNat : Int) = t) ∧
      (0 ≤ t → t < 2 ^ 64 → ((fixunstfdi fa).toNat : Int) = t) := by
  refine ⟨fun n => ⟨floatsitf_isInteger n, ?_⟩, fun n => ⟨floatditf_isInteger n, ?_⟩,
    fun n => ⟨floatunsitf_isInteger n, ?_⟩, fun n => ⟨floatunditf_isInteger n, ?_⟩, ?_⟩
  · have hlo := n.le_toInt
    have hhi := n.toInt_lt
    have hfix := @fixtfsi_spec (floatsitf n)
    rw [(floatsitf_isInteger n).truncate] at hfix
    exact BitVec.eq_of_toInt_eq (hfix hlo hhi)
  · have hlo := n.le_toInt
    have hhi := n.toInt_lt
    have hfix := @fixtfdi_spec (floatditf n)
    rw [(floatditf_isInteger n).truncate] at hfix
    exact BitVec.eq_of_toInt_eq (hfix hlo hhi)
  · have hlt := n.isLt
    have hfix := @fixunstfsi_spec (floatunsitf n)
    rw [(floatunsitf_isInteger n).truncate] at hfix
    exact BitVec.eq_of_toNat_eq (by exact_mod_cast hfix (Int.natCast_nonneg _) (by exact_mod_cast hlt))
  · have hlt := n.isLt
    have hfix := @fixunstfdi_spec (floatunditf n)
    rw [(floatunditf_isInteger n).truncate] at hfix
    exact BitVec.eq_of_toNat_eq (by exact_mod_cast hfix (Int.natCast_nonneg _) (by exact_mod_cast hlt))
  · rintro fa t - rfl
    exact ⟨fixtfsi_spec, fixtfdi_spec, fixunstfsi_spec, fixunstfdi_spec⟩

/-- A word through a quad number to a double word. -/
theorem integer_conversions_minus_three : (fixtfdi (floatsitf (-3#32))).toInt = -3 :=
  have hvalue := (floatsitf_isInteger (-3#32)).truncate.trans (show (-3#32).toInt = -3 by decide)
  (integer_conversions_spec.2.2.2.2 (floatsitf (-3#32)) (-3) (floatsitf_isInteger (-3#32)).1 hvalue.symm).2.1
    (by decide) (by decide)

end integers

end tcc.lib.quad
