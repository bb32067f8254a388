import Tcc.Lib.QuadInteger

/-! The conversions of `lib/armeabi.c` between floating point and 64-bit integers, in halves of 32 bits. -/

namespace tcc.lib.arm

open machine.ieee machine.jam tcc.lib.quad

/-- `double_unsigned_struct` -/
@[ext] structure Halves where
  low : BitVec 32
  high : BitVec 32

def Halves.word (ret : Halves) : BitVec 64 := ret.high ++ ret.low

/-- A shift by a register, as `arm-gen.c` emits it: the processor takes the low byte of the count. -/
def lsl (x : BitVec 32) (n : Int) : BitVec 32 := x <<< (n % 256).toNat

def lsr (x : BitVec 32) (n : Int) : BitVec 32 := x >>> (n % 256).toNat

/-- The two's complement in halves. -/
def negate (ret : Halves) : Halves :=
  let low := ~~~ret.low
  let high := ~~~ret.high
  if low = 0xffffffff#32 then { low := 0, high := high + 1 } else { low := low + 1, high := high }

/-- `undefined behavior if truncated value cannot be represented` -/
def unrepresentable (with_sign sign : Bool) (exp : Int) : Bool :=
  if with_sign then decide (exp > 62) else (sign && decide (exp ≥ 0)) || decide (exp > 63)

/-- `1.fraction x 2^exp` of a float, without the bits behind the point. -/
def f2xlz_halves (val : BitVec 32) (exp : Int) : Halves :=
  if exp ≥ 32 then
    let high := lsl 1 (exp - 32)
    if exp - 32 ≥ 23 then { low := 0, high := high ||| lsl val (exp - 32 - 23) }
    else
      let high_shift := 23 - (exp - 32)
      { low := lsl val (32 - high_shift), high := high ||| lsr val high_shift }
  else
    let low := lsl 1 exp
    if exp > 23 then { low := low ||| lsl val (exp - 23), high := 0 }
    else { low := low ||| lsr val (23 - exp), high := 0 }

/-- `DEFINE__AEABI_F2XLZ`; the function that returns early leaves no result. -/
def aeabi_f2xlz (with_sign : Bool) (val : BitVec 32) : Option Halves :=
  let sign := val >>> 31 != 0
  let exp : Int := ((val >>> 23) &&& 0xff#32).toNat - 127
  if unrepresentable with_sign sign exp then none
  else
    let ret := f2xlz_halves (val &&& 0x7fffff#32) exp
    some (if with_sign && sign then negate ret else ret)

def aeabi_f2ulz (val : BitVec 32) : Option Halves := aeabi_f2xlz false val

def aeabi_f2lz (val : BitVec 32) : Option Halves := aeabi_f2xlz true val

/-- `1.fraction x 2^exp` of a double, without the bits behind the point. -/
def d2xlz_halves (val : Halves) (exp : Int) : Halves :=
  if exp ≥ 32 then
    let high := lsl 1 (exp - 32)
    if exp ≥ 52 then
      let high_shift := exp - 52
      { low := lsl val.low high_shift, high := high ||| lsl val.high high_shift ||| lsr val.low (32 - high_shift) }
    else
      let high_shift := 52 - exp
      { low := lsl val.high (32 - high_shift) ||| lsr val.low high_shift, high := high ||| lsr val.high high_shift }
  else
    let low := lsl 1 exp
    if exp > 20 then
      let high_shift := exp - 52 - 32
      { low := low ||| lsl val.high high_shift ||| lsr val.low (32 - high_shift), high := 0 }
    else { low := low ||| lsr val.high (20 - exp), high := 0 }

/-- `DEFINE__AEABI_D2XLZ` -/
def aeabi_d2xlz (with_sign : Bool) (val : Halves) : Option Halves :=
  let sign := val.high >>> 31 != 0
  let exp : Int := ((val.high >>> 20) &&& 0x7ff#32).toNat - 1023
  if unrepresentable with_sign sign exp then none
  else
    let ret := d2xlz_halves { val with high := val.high &&& 0xfffff#32 } exp
    some (if with_sign && sign then negate ret else ret)

def aeabi_d2ulz (val : Halves) : Option Halves := aeabi_d2xlz false val

def aeabi_d2lz (val : Halves) : Option Halves := aeabi_d2xlz true val

/-- `for (s = 31, p = 1 << 31; p && !(val & p); s--, p >>= 1);` with `s + 1`; without a bit `p` gets 0. -/
def highest_bit (val : BitVec 32) : Nat → Option Nat
  | 0 => none
  | s + 1 => if val &&& (1#32 <<< s) ≠ 0 then some s else highest_bit val s

/-- The fraction without the exponent, the first lost bit, and the exponent. -/
def float_fraction (val : Halves) : Option (BitVec 32 × Bool × Int) :=
  match highest_bit val.high 32 with
  | some s =>
    let ret := val.high &&& ((1#32 <<< s) - 1)
    if s < 23 then
      some (lsl ret (23 - s) ||| lsr val.low (32 - (23 - s)), lsr val.low (32 - (23 - s - 1)) &&& 1 != 0, s + 32)
    else some (lsr ret (s - 23), lsr ret (s - 23 - 1) &&& 1 != 0, s + 32)
  | none =>
    (highest_bit val.low 32).map fun (s : Nat) =>
      let ret := val.low &&& ((1#32 <<< s) - 1)
      if s ≤ 23 then (lsl ret (23 - s), false, (s : Int))
      else (lsr ret (s - 23), lsr ret (s - 23 - 1) &&& 1 != 0, (s : Int))

/-- The sign, and the number without it. -/
def sign_and_halves (with_sign : Bool) (v : BitVec 64) : Bool × Halves :=
  let sign := with_sign && v.msb
  let v := if sign then ~~~v + 1 else v
  (sign, { low := v.setWidth 32, high := (v >>> 32).setWidth 32 })

/-- `DEFINE__AEABI_XL2F` -/
def aeabi_xl2f (with_sign : Bool) (v : BitVec 64) : BitVec 32 :=
  let (sign, val) := sign_and_halves with_sign v
  match float_fraction val with
  | none => 0
  | some (ret, flb, s) =>
    let ret := if flb then ret + 1 else ret
    ret ||| BitVec.ofInt 32 (s + 127) <<< 23 ||| (if sign then 1#32 else 0#32) <<< 31

def aeabi_ul2f (v : BitVec 64) : BitVec 32 := aeabi_xl2f false v

def aeabi_l2f (v : BitVec 64) : BitVec 32 := aeabi_xl2f true v

/-- The fraction without the exponent, rounded, and the exponent. -/
def double_fraction (val : Halves) : Option (Halves × Int) :=
  match highest_bit val.high 32 with
  | some s =>
    let tmp := val.high &&& ((1#32 <<< s) - 1)
    if s < 20 then
      let high_shift : Int := 20 - s
      some ({ low := lsl val.low high_shift, high := lsl tmp high_shift ||| lsr val.low (32 - high_shift) }, s + 32)
    else
      let high_shift : Int := s - 20
      let high := lsr tmp high_shift
      let low := lsl tmp (32 - high_shift) ||| lsr val.low high_shift
      let ret : Halves :=
        if lsr val.low (high_shift - 1) &&& 1 ≠ 0 then
          if low = 0xffffffff#32 then { low := 0, high := high + 1 } else { low := low + 1, high := high }
        else { low := low, high := high }
      some (ret, s + 32)
  | none =>
    (highest_bit val.low 32).map fun (s : Nat) =>
      let tmp := val.low &&& ((1#32 <<< s) - 1)
      if s ≤ 20 then ({ low := 0, high := lsl tmp (20 - s) }, (s : Int))
      else ({ low := lsl tmp (32 - (s - 20)), high := lsr tmp (s - 20) }, (s : Int))

/-- `__AEABI_XL2D` -/
def aeabi_xl2d (with_sign : Bool) (v : BitVec 64) : Halves :=
  let (sign, val) := sign_and_halves with_sign v
  match double_fraction val with
  | none => { low := 0, high := 0 }
  | some (ret, s) =>
    { ret with high := ret.high ||| BitVec.ofInt 32 (s + 1023) <<< 20 ||| (if sign then 1#32 else 0#32) <<< 31 }

def aeabi_ul2d (v : BitVec 64) : Halves := aeabi_xl2d false v

def aeabi_l2d (v : BitVec 64) : Halves := aeabi_xl2d true v

section halves

variable {x : BitVec 32} {n : Int} {k : Nat}

theorem toNat_lsl (hn : n = k) (hk : k < 256) : (lsl x n).toNat = x.toNat * 2 ^ k % 2 ^ 32 := by
  have hmod : (n % 256).toNat = k := by omega
  rw [lsl, hmod, BitVec.toNat_shiftLeft, Nat.shiftLeft_eq]

theorem toNat_lsr (hn : n = k) (hk : k < 256) : (lsr x n).toNat = x.toNat / 2 ^ k := by
  have hmod : (n % 256).toNat = k := by omega
  rw [lsr, hmod, BitVec.toNat_ushiftRight, Nat.shiftRight_eq_div_pow]

/-- All bits are shifted out. -/
theorem lsl_eq_zero (hn : 32 ≤ n % 256) : lsl x n = 0 := by
  obtain ⟨j, hj⟩ : ∃ j, (n % 256).toNat = 32 + j := ⟨(n % 256).toNat - 32, by omega⟩
  apply BitVec.eq_of_toNat_eq
  rw [lsl, hj, BitVec.toNat_shiftLeft, Nat.shiftLeft_eq, Nat.pow_add, Nat.mul_left_comm]
  exact Nat.mul_mod_right _ _

theorem lsr_eq_zero (hn : x.toNat < 2 ^ (n % 256).toNat) : lsr x n = 0 := by
  apply BitVec.eq_of_toNat_eq
  rw [lsr, BitVec.toNat_ushiftRight, Nat.shiftRight_eq_div_pow, Nat.div_eq_of_lt hn]
  rfl

theorem Halves.toNat_word (ret : Halves) : ret.word.toNat = ret.high.toNat * 2 ^ 32 + ret.low.toNat := by
  rw [Halves.word, BitVec.toNat_append, Nat.shiftLeft_eq, Nat.mul_comm]
  exact (Nat.two_pow_add_eq_or_of_lt ret.low.isLt _).symm

theorem word_negate (ret : Halves) : (negate ret).word = -ret.word := by
  have hlow := ret.low.isLt
  have hhigh := ret.high.isLt
  have hzero : (0 : BitVec 32).toNat = 0 := rfl
  have hone : (1 : BitVec 32).toNat = 1 := rfl
  apply BitVec.eq_of_toNat_eq
  rw [BitVec.toNat_neg, Halves.toNat_word, Halves.toNat_word, negate]
  split
  · rename_i hmax
    have hmax' := congrArg BitVec.toNat hmax
    simp only [BitVec.toNat_not, BitVec.toNat_ofNat] at hmax'
    simp only [BitVec.toNat_add, BitVec.toNat_not, hzero, hone]
    omega
  · rename_i hmax
    have hmax' : (~~~ret.low).toNat ≠ (0xffffffff#32).toNat := fun h => hmax (BitVec.eq_of_toNat_eq h)
    simp only [BitVec.toNat_not, BitVec.toNat_ofNat] at hmax'
    simp only [BitVec.toNat_add, BitVec.toNat_not, hone]
    omega

end halves

section fields

/-- The sign, the exponent and the fraction of a word. -/
theorem float_fields (val : BitVec 32) : (val >>> 31 != 0) = (word_pattern val).neg ∧
    ((val >>> 23) &&& 0xff#32).toNat = (word_pattern val).magnitude / 2 ^ 23 ∧
    (val &&& 0x7fffff#32).toNat = (word_pattern val).magnitude % 2 ^ 23 := by
  have hlt := val.isLt
  have hexp : val.toNat / 2 ^ 23 &&& (0xff#32).toNat = val.toNat / 2 ^ 23 % 2 ^ 8 :=
    Nat.and_two_pow_sub_one_eq_mod _ 8
  have hfrac : val.toNat &&& (0x7fffff#32).toNat = val.toNat % 2 ^ 23 := Nat.and_two_pow_sub_one_eq_mod _ 23
  refine ⟨?_, ?_, ?_⟩
  · rw [word_pattern, Bool.eq_iff_iff, bne_iff_ne, BitVec.msb_eq_decide, decide_eq_true_iff, ne_eq,
      ← BitVec.toNat_inj, BitVec.toNat_ushiftRight, Nat.shiftRight_eq_div_pow]
    have hzero : (0 : BitVec 32).toNat = 0 := rfl
    rw [hzero]
    omega
  · rw [BitVec.toNat_and, BitVec.toNat_ushiftRight, Nat.shiftRight_eq_div_pow, hexp, word_pattern]
    simp only
    omega
  · rw [BitVec.toNat_and, hfrac, word_pattern]
    simp only
    omega

theorem double_fields (val : Halves) : (val.high >>> 31 != 0) = (word_pattern val.word).neg ∧
    ((val.high >>> 20) &&& 0x7ff#32).toNat = (word_pattern val.word).magnitude / 2 ^ 52 ∧
    (val.high &&& 0xfffff#32).toNat * 2 ^ 32 + val.low.toNat = (word_pattern val.word).magnitude % 2 ^ 52 := by
  have hlow := val.low.isLt
  have hhigh := val.high.isLt
  have hword := val.toNat_word
  have hexp : val.high.toNat / 2 ^ 20 &&& (0x7ff#32).toNat = val.high.toNat / 2 ^ 20 % 2 ^ 11 :=
    Nat.and_two_pow_sub_one_eq_mod _ 11
  have hfrac : val.high.toNat &&& (0xfffff#32).toNat = val.high.toNat % 2 ^ 20 :=
    Nat.and_two_pow_sub_one_eq_mod _ 20
  refine ⟨?_, ?_, ?_⟩
  · rw [word_pattern, Bool.eq_iff_iff, bne_iff_ne, BitVec.msb_eq_decide, decide_eq_true_iff, ne_eq,
      ← BitVec.toNat_inj, BitVec.toNat_ushiftRight, Nat.shiftRight_eq_div_pow, hword]
    have hzero : (0 : BitVec 32).toNat = 0 := rfl
    rw [hzero]
    omega
  · rw [BitVec.toNat_and, BitVec.toNat_ushiftRight, Nat.shiftRight_eq_div_pow, hexp, word_pattern]
    simp only [hword]
    omega
  · rw [BitVec.toNat_and, hfrac, word_pattern]
    simp only [hword]
    omega

end fields

section magnitudes

theorem toNat_lsl_one {n : Int} {k : Nat} (hn : n = k) (hk : k < 32) : (lsl 1 n).toNat = 2 ^ k := by
  have hlt : 2 ^ k < 2 ^ 32 := Nat.pow_lt_pow_right (by decide) hk
  have hone : (1 : BitVec 32).toNat = 1 := rfl
  rw [toNat_lsl hn (by omega), hone, Nat.one_mul, Nat.mod_eq_of_lt hlt]

/-- A shift that loses no bit. -/
theorem toNat_lsl_of_lt {x : BitVec 32} {n : Int} {j k : Nat} (hn : n = k) (hx : x.toNat < 2 ^ j) (hk : j + k ≤ 32) :
    (lsl x n).toNat = x.toNat * 2 ^ k ∧ x.toNat * 2 ^ k < 2 ^ (j + k) := by
  have hlt : x.toNat * 2 ^ k < 2 ^ (j + k) := by
    rw [Nat.pow_add]
    exact Nat.mul_lt_mul_of_pos_right hx (Nat.two_pow_pos k)
  have hle : 2 ^ (j + k) ≤ 2 ^ 32 := Nat.pow_le_pow_right (by decide) hk
  rw [toNat_lsl hn (by omega), Nat.mod_eq_of_lt (lt_of_lt_of_le hlt hle)]
  exact ⟨rfl, hlt⟩

theorem div_pow_lt {x j k : Nat} (hx : x < 2 ^ (j + k)) : x / 2 ^ k < 2 ^ j := by
  rw [Nat.div_lt_iff_lt_mul (Nat.two_pow_pos k), ← Nat.pow_add]
  exact hx

theorem mul_pow_div_pow (x : Nat) {j k : Nat} (h : j ≤ k) : x * 2 ^ k / 2 ^ j = x * 2 ^ (k - j) := by
  obtain ⟨i, rfl⟩ := Nat.exists_eq_add_of_le h
  rw [Nat.add_sub_cancel_left, Nat.pow_add, Nat.mul_left_comm, Nat.mul_div_cancel_left _ (Nat.two_pow_pos j)]

theorem mul_pow_div_pow' (x : Nat) {j k : Nat} (h : k ≤ j) : x * 2 ^ k / 2 ^ j = x / 2 ^ (j - k) := by
  obtain ⟨i, rfl⟩ := Nat.exists_eq_add_of_le h
  rw [Nat.add_sub_cancel_left, Nat.pow_add, Nat.mul_comm, Nat.mul_div_mul_left _ _ (Nat.two_pow_pos k)]

/-- A shifted number in halves. -/
theorem mul_pow_halves (x : Nat) {k : Nat} (hk : k ≤ 32) :
    x / 2 ^ (32 - k) * 2 ^ 32 + x * 2 ^ k % 2 ^ 32 = x * 2 ^ k := by
  have hdiv : x * 2 ^ k / 2 ^ 32 = x / 2 ^ (32 - k) := mul_pow_div_pow' x hk
  rw [← hdiv]
  exact Nat.div_add_mod' (x * 2 ^ k) (2 ^ 32)

theorem toNat_f2xlz_halves {val : BitVec 32} {e : Nat} (hval : val.toNat < 2 ^ 23) (he : e < 64) :
    (f2xlz_halves val e).word.toNat = 2 ^ e + val.toNat * 2 ^ e / 2 ^ 23 := by
  rw [Halves.toNat_word, f2xlz_halves]
  by_cases h32 : 32 ≤ e
  · have hpow : 2 ^ e = 2 ^ (e - 32) * 2 ^ 32 := by
      rw [← Nat.pow_add, Nat.sub_add_cancel h32]
    have hone := toNat_lsl_one (n := (e : Int) - 32) (k := e - 32) (by omega) (by omega)
    rw [if_pos (by omega)]
    by_cases h55 : 55 ≤ e
    · obtain ⟨hshift, hlt⟩ := toNat_lsl_of_lt (n := (e : Int) - 32 - 23) (k := e - 55) (by omega) hval (by omega)
      have hdvd : 2 ^ (23 + (e - 55)) ∣ 2 ^ (e - 32) := Nat.pow_dvd_pow 2 (by omega)
      have hsplit : 2 ^ (e - 23) = 2 ^ (e - 55) * 2 ^ 32 := by
        rw [← Nat.pow_add]
        congr 1
        omega
      rw [if_pos (by omega), mul_pow_div_pow _ (by omega), hsplit]
      simp only [BitVec.toNat_or, hone, hshift]
      rw [or_eq_add hdvd hlt, hpow, Nat.add_mul, Nat.mul_assoc]
      exact Nat.add_zero _
    · have hlow := toNat_lsl (x := val) (n := 32 - (23 - ((e : Int) - 32))) (k := e - 23) (by omega) (by omega)
      have hhigh := toNat_lsr (x := val) (n := 23 - ((e : Int) - 32)) (k := 55 - e) (by omega) (by omega)
      have hlt : val.toNat / 2 ^ (55 - e) < 2 ^ (e - 32) := div_pow_lt (by
        have hsum : e - 32 + (55 - e) = 23 := by omega
        rw [hsum]
        exact hval)
      have hhalves := mul_pow_halves val.toNat (k := e - 23) (by omega)
      have hsub : 32 - (e - 23) = 55 - e := by omega
      rw [hsub] at hhalves
      rw [if_neg (by omega), mul_pow_div_pow _ (by omega), ← hhalves]
      simp only [BitVec.toNat_or, hone, hlow, hhigh]
      rw [or_eq_add (dvd_refl _) hlt, hpow]
      ring
  · have hone := toNat_lsl_one (n := (e : Int)) (k := e) rfl (by omega)
    rw [if_neg (by omega)]
    by_cases h23 : 23 < e
    · obtain ⟨hshift, hlt⟩ := toNat_lsl_of_lt (n := (e : Int) - 23) (k := e - 23) (by omega) hval (by omega)
      have hdvd : 2 ^ (23 + (e - 23)) ∣ 2 ^ e := Nat.pow_dvd_pow 2 (by omega)
      rw [if_pos (by omega), mul_pow_div_pow _ (by omega)]
      simp only [BitVec.toNat_or, hone, hshift]
      rw [or_eq_add hdvd hlt]
      exact Nat.zero_add _
    · have hshift := toNat_lsr (x := val) (n := 23 - (e : Int)) (k := 23 - e) (by omega) (by omega)
      have hlt : val.toNat / 2 ^ (23 - e) < 2 ^ e := div_pow_lt (by
        have hsum : e + (23 - e) = 23 := by omega
        rw [hsum]
        exact hval)
      rw [if_neg (by omega), mul_pow_div_pow' _ (by omega)]
      simp only [BitVec.toNat_or, hone, hshift]
      rw [or_eq_add (dvd_refl _) hlt]
      exact Nat.zero_add _

/-- Below one. -/
theorem f2xlz_halves_of_neg {val : BitVec 32} {exp : Int} (hval : val.toNat < 2 ^ 23) (hneg : exp < 0)
    (hexp : -127 ≤ exp) : (f2xlz_halves val exp).word.toNat = 0 := by
  have hlt : val.toNat < 2 ^ ((23 - exp) % 256).toNat :=
    lt_of_lt_of_le hval (Nat.pow_le_pow_right (by decide) (by omega))
  rw [Halves.toNat_word, f2xlz_halves, if_neg (by omega), if_neg (by omega), lsl_eq_zero (by omega), lsr_eq_zero hlt]
  rfl

theorem toNat_d2xlz_halves {val : Halves} {e : Nat} (hhigh : val.high.toNat < 2 ^ 20) (he : e < 64)
    (hbits : e ≤ 20 ∨ 32 ≤ e) : (d2xlz_halves val e).word.toNat =
      2 ^ e + (val.high.toNat * 2 ^ 32 + val.low.toNat) * 2 ^ e / 2 ^ 52 := by
  rw [Halves.toNat_word, d2xlz_halves]
  by_cases h32 : 32 ≤ e
  · have hpow : 2 ^ e = 2 ^ (e - 32) * 2 ^ 32 := by
      rw [← Nat.pow_add, Nat.sub_add_cancel h32]
    have hone := toNat_lsl_one (n := (e : Int) - 32) (k := e - 32) (by omega) (by omega)
    rw [if_pos (by omega)]
    by_cases h52 : 52 ≤ e
    · obtain ⟨hshift, hlt⟩ := toNat_lsl_of_lt (n := (e : Int) - 52) (k := e - 52) (by omega) hhigh (by omega)
      have hlow := toNat_lsl (x := val.low) (n := (e : Int) - 52) (k := e - 52) (by omega) (by omega)
      have hcarry := toNat_lsr (x := val.low) (n := 32 - ((e : Int) - 52)) (k := 32 - (e - 52)) (by omega) (by omega)
      have hlt' : val.low.toNat / 2 ^ (32 - (e - 52)) < 2 ^ (e - 52) := div_pow_lt (by
        have hsum : e - 52 + (32 - (e - 52)) = 32 := by omega
        rw [hsum]
        exact val.low.isLt)
      have hlt'' : val.high.toNat * 2 ^ (e - 52) < 2 ^ (e - 32) := by
        have hsum : 20 + (e - 52) = e - 32 := by omega
        rwa [hsum] at hlt
      have hdvd : 2 ^ (e - 52) ∣ 2 ^ (e - 32) + val.high.toNat * 2 ^ (e - 52) :=
        (Nat.dvd_add_iff_right (Nat.pow_dvd_pow 2 (by omega))).mp (Nat.dvd_mul_left _ _)
      have hhalves := mul_pow_halves val.low.toNat (k := e - 52) (by omega)
      rw [if_pos (by omega), mul_pow_div_pow _ h52, Nat.add_mul, ← hhalves]
      simp only [BitVec.toNat_or, hone, hshift, hlow, hcarry]
      rw [or_eq_add (dvd_refl _) hlt'', or_eq_add hdvd hlt', hpow]
      ring
    · have hshift := toNat_lsl (x := val.high) (n := 32 - (52 - (e : Int))) (k := e - 20) (by omega) (by omega)
      have hlow := toNat_lsr (x := val.low) (n := 52 - (e : Int)) (k := 52 - e) (by omega) (by omega)
      have htop := toNat_lsr (x := val.high) (n := 52 - (e : Int)) (k := 52 - e) (by omega) (by omega)
      have hlt : val.high.toNat / 2 ^ (52 - e) < 2 ^ (e - 32) := div_pow_lt (by
        have hsum : e - 32 + (52 - e) = 20 := by omega
        rw [hsum]
        exact hhigh)
      have hlt' : val.low.toNat / 2 ^ (52 - e) < 2 ^ (e - 20) := div_pow_lt (by
        have hsum : e - 20 + (52 - e) = 32 := by omega
        rw [hsum]
        exact val.low.isLt)
      have hdvd : 2 ^ (e - 20) ∣ val.high.toNat * 2 ^ (e - 20) % 2 ^ 32 :=
        (Nat.dvd_mod_iff (Nat.pow_dvd_pow 2 (by omega))).mpr (Nat.dvd_mul_left _ _)
      have hhalves := mul_pow_halves val.high.toNat (k := e - 20) (by omega)
      have hsub : 32 - (e - 20) = 52 - e := by omega
      have hsplit : 2 ^ 32 = 2 ^ (52 - e) * 2 ^ (e - 20) := by
        rw [← Nat.pow_add]
        congr 1
        omega
      rw [hsub] at hhalves
      have hdiv : (val.high.toNat * 2 ^ 32 + val.low.toNat) / 2 ^ (52 - e) =
          val.high.toNat * 2 ^ (e - 20) + val.low.toNat / 2 ^ (52 - e) := by
        rw [hsplit, Nat.mul_left_comm, Nat.add_comm, Nat.add_mul_div_left _ _ (Nat.two_pow_pos _), Nat.add_comm]
      rw [if_neg (by omega), mul_pow_div_pow' _ (by omega), hdiv, ← hhalves]
      simp only [BitVec.toNat_or, hone, hshift, hlow, htop]
      rw [or_eq_add (dvd_refl _) hlt, or_eq_add hdvd hlt', hpow]
      ring
  · have hone := toNat_lsl_one (n := (e : Int)) (k := e) rfl (by omega)
    have hshift := toNat_lsr (x := val.high) (n := 20 - (e : Int)) (k := 20 - e) (by omega) (by omega)
    have hlt : val.high.toNat / 2 ^ (20 - e) < 2 ^ e := div_pow_lt (by
      have hsum : e + (20 - e) = 20 := by omega
      rw [hsum]
      exact hhigh)
    have hsplit : 52 - e = 32 + (20 - e) := by omega
    have hdiv : (val.high.toNat * 2 ^ 32 + val.low.toNat) / 2 ^ 32 = val.high.toNat := by
      have hlow := val.low.isLt
      omega
    rw [if_neg (by omega), if_neg (by omega), mul_pow_div_pow' _ (by omega), hsplit, Nat.pow_add,
      ← Nat.div_div_eq_div_mul, hdiv]
    simp only [BitVec.toNat_or, hone, hshift]
    rw [or_eq_add (dvd_refl _) hlt]
    exact Nat.zero_add _

/-- `exp - DOUBLE_FRAC_BITS - 32` is below zero: the fraction is shifted out. -/
theorem toNat_d2xlz_halves_lost (val : Halves) {e : Nat} (hlo : 20 < e) (hhi : e < 32) :
    (d2xlz_halves val e).word.toNat = 2 ^ e := by
  have hone := toNat_lsl_one (n := (e : Int)) (k := e) rfl hhi
  have hhigh : lsl val.high ((e : Int) - 52 - 32) = 0 := lsl_eq_zero (by omega)
  have hlow : lsr val.low (32 - ((e : Int) - 52 - 32)) = 0 := by
    refine lsr_eq_zero (lt_of_lt_of_le val.low.isLt (Nat.pow_le_pow_right (by decide) ?_))
    omega
  have hzero : (0 : BitVec 32).toNat = 0 := rfl
  rw [Halves.toNat_word, d2xlz_halves, if_neg (by omega), if_pos (by omega)]
  simp only [BitVec.toNat_or, hone, hhigh, hlow, hzero, Nat.or_zero, Nat.zero_mul, Nat.zero_add]

/-- Below one a bit is left where the low byte of the exponent is less than 32. -/
theorem d2xlz_halves_of_neg {val : Halves} {exp : Int} (hhigh : val.high.toNat < 2 ^ 20) (hneg : exp < 0) :
    (d2xlz_halves val exp).word.toNat = 0 ↔ 32 ≤ exp % 256 := by
  rw [Halves.toNat_word, d2xlz_halves, if_neg (by omega), if_neg (by omega)]
  constructor
  · intro hzero
    by_contra hsmall
    obtain ⟨k, hk⟩ : ∃ k : Nat, exp % 256 = k := ⟨(exp % 256).toNat, by omega⟩
    have hpow : 2 ^ k < 2 ^ 32 := Nat.pow_lt_pow_right (by decide) (by omega)
    have hone : (lsl 1 exp).toNat = 2 ^ k := by
      have htoNat : (exp % 256).toNat = k := by omega
      have hlit : (1 : BitVec 32).toNat = 1 := rfl
      rw [lsl, htoNat, BitVec.toNat_shiftLeft, hlit, Nat.shiftLeft_eq, Nat.one_mul, Nat.mod_eq_of_lt hpow]
    have hle : 2 ^ k ≤ (lsl 1 exp ||| lsr val.high (20 - exp)).toNat := by
      rw [BitVec.toNat_or, hone]
      exact Nat.left_le_or
    have hpos := Nat.two_pow_pos k
    simp only at hzero
    omega
  · intro hlarge
    have hlt : val.high.toNat < 2 ^ ((20 - exp) % 256).toNat :=
      lt_of_lt_of_le hhigh (Nat.pow_le_pow_right (by decide) (by omega))
    rw [lsl_eq_zero hlarge, lsr_eq_zero hlt]
    rfl

end magnitudes

section truncation

variable {f : Format} {p : Pattern} {exp : Int} {halves : Halves}

/-- The integer part by the exponent. -/
theorem exists_floor (hexp : exp = (p.magnitude / 2 ^ f.fraction_bits : Nat) - (f.bias : Int)) :
    ∃ N : Nat, ⌊f.magnitude_value p.magnitude⌋ = N ∧ (exp < 0 → N = 0) ∧ ∀ e : Nat, exp = e →
      N = 2 ^ e + p.magnitude % 2 ^ f.fraction_bits * 2 ^ e / 2 ^ f.fraction_bits ∧ 2 ^ e ≤ N ∧ N < 2 ^ (e + 1) := by
  by_cases hneg : exp < 0
  · exact ⟨0, Format.floor_of_small (by omega), fun _ => rfl, fun e he => by omega⟩
  · obtain ⟨e, he⟩ := Int.eq_ofNat_of_zero_le (Int.not_lt.mp hneg)
    have hlarge : p.magnitude / 2 ^ f.fraction_bits = f.bias + e := by omega
    have hlt : p.magnitude % 2 ^ f.fraction_bits * 2 ^ e / 2 ^ f.fraction_bits < 2 ^ e := by
      rw [Nat.div_lt_iff_lt_mul (Nat.two_pow_pos _), Nat.mul_comm (2 ^ e)]
      exact Nat.mul_lt_mul_of_pos_right (Nat.mod_lt _ (Nat.two_pow_pos _)) (Nat.two_pow_pos e)
    refine ⟨2 ^ e + p.magnitude % 2 ^ f.fraction_bits * 2 ^ e / 2 ^ f.fraction_bits, Format.floor_of_large hlarge,
      fun h => absurd h hneg, fun e' he' => ?_⟩
    obtain rfl : e' = e := by omega
    refine ⟨rfl, Nat.le_add_right _ _, ?_⟩
    rw [Nat.pow_succ, Nat.mul_two]
    exact Nat.add_lt_add_left hlt _

/-- A magnitude with a sign, in two's complement. -/
theorem toInt_negate_iff {N : Nat} {t : Int} {sign : Bool} (ht : t = if sign then -(N : Int) else N)
    (hlt : halves.word.toNat < 2 ^ 63) :
    (if sign then negate halves else halves).word.toInt = t ↔ halves.word.toNat = N := by
  obtain ⟨hpos, hneg⟩ := toInt_of_small hlt
  cases sign with
  | false =>
    simp only [Bool.false_eq_true, if_false] at ht ⊢
    rw [hpos, ht]
    omega
  | true =>
    simp only [if_true] at ht ⊢
    rw [word_negate, hneg, ht]
    omega

theorem floor_lt (hexp : exp = (p.magnitude / 2 ^ f.fraction_bits : Nat) - (f.bias : Int)) {k : Nat} (hk : exp < k) :
    ⌊f.magnitude_value p.magnitude⌋ < 2 ^ k := by
  obtain ⟨N, hfloor, hsmall, hlarge⟩ := exists_floor hexp
  rw [hfloor]
  by_cases hneg : exp < 0
  · rw [hsmall hneg]
    positivity
  · obtain ⟨e, he⟩ := Int.eq_ofNat_of_zero_le (Int.not_lt.mp hneg)
    have hpow : 2 ^ (e + 1) ≤ 2 ^ k := Nat.pow_le_pow_right (by decide) (by omega)
    exact_mod_cast lt_of_lt_of_le (hlarge e he).2.2 hpow

theorem exp_lt_iff (hexp : exp = (p.magnitude / 2 ^ f.fraction_bits : Nat) - (f.bias : Int)) {k : Nat} :
    exp < k ↔ ⌊f.magnitude_value p.magnitude⌋ < 2 ^ k := by
  refine ⟨floor_lt hexp, fun hlt => ?_⟩
  by_contra hge
  obtain ⟨N, hfloor, -, hlarge⟩ := exists_floor hexp
  obtain ⟨e, he⟩ := Int.eq_ofNat_of_zero_le (show 0 ≤ exp by omega)
  have hpow : 2 ^ k ≤ 2 ^ e := Nat.pow_le_pow_right (by decide) (by omega)
  have hN : (2 ^ e : Nat) ≤ N := (hlarge e he).2.1
  rw [hfloor] at hlt
  have hlt' : N < 2 ^ k := by exact_mod_cast hlt
  omega

/-- The exponent is too large for the least number alone. -/
theorem least_iff (hexp : exp = (p.magnitude / 2 ^ f.fraction_bits : Nat) - (f.bias : Int))
    (hlo : -2 ^ 63 ≤ truncate (f.value p)) (hhi : truncate (f.value p) < 2 ^ 63) :
    truncate (f.value p) = -2 ^ 63 ↔ 62 < exp := by
  have ht := truncate_eq f p
  have hlt := exp_lt_iff hexp (k := 63)
  have hnonneg : 0 ≤ ⌊f.magnitude_value p.magnitude⌋ :=
    Int.floor_nonneg.mpr (mul_nonneg (Nat.cast_nonneg _) f.least_pos.le)
  have hiff : 62 < exp ↔ ¬⌊f.magnitude_value p.magnitude⌋ < 2 ^ 63 := by
    rw [← hlt]
    omega
  rw [hiff]
  split at ht <;> omega

theorem signed_conversion (hexp : exp = (p.magnitude / 2 ^ f.fraction_bits : Nat) - (f.bias : Int))
    (hlo : -2 ^ 63 ≤ truncate (f.value p)) (hhi : truncate (f.value p) < 2 ^ 63)
    (hhalves : exp ≤ 62 → halves.word.toNat < 2 ^ 63) :
    (∃ ret, (if unrepresentable true p.neg exp then none
        else some (if p.neg then negate halves else halves)) = some ret ∧
        ret.word.toInt = truncate (f.value p)) ↔
      truncate (f.value p) ≠ -2 ^ 63 ∧ (halves.word.toNat : Int) = ⌊f.magnitude_value p.magnitude⌋ := by
  have hleast := least_iff hexp hlo hhi
  have hun : unrepresentable true p.neg exp = true ↔ truncate (f.value p) = -2 ^ 63 := by
    rw [unrepresentable, if_pos rfl, decide_eq_true_iff, hleast, gt_iff_lt]
  by_cases h : unrepresentable true p.neg exp = true
  · rw [if_pos h]
    refine iff_of_false ?_ fun hne => hne.1 (hun.mp h)
    rintro ⟨ret, hret, -⟩
    exact absurd hret (by simp)
  · have h62 : exp ≤ 62 := Int.not_lt.mp fun h62 => h (hun.mpr (hleast.mpr h62))
    obtain ⟨N, hfloor, -, -⟩ := exists_floor hexp
    have ht := truncate_eq f p
    rw [hfloor] at ht ⊢
    have hiff := toInt_negate_iff ht (hhalves h62)
    rw [if_neg h, Nat.cast_inj, ← hiff]
    constructor
    · rintro ⟨ret, hret, hvalue⟩
      obtain rfl := Option.some.inj hret
      exact ⟨fun hmost => h (hun.mpr hmost), hvalue⟩
    · exact fun hvalue => ⟨_, rfl, hvalue.2⟩

theorem exp_le_of_unsigned (hexp : exp = (p.magnitude / 2 ^ f.fraction_bits : Nat) - (f.bias : Int))
    (hlo : 0 ≤ truncate (f.value p)) (hhi : truncate (f.value p) < 2 ^ 64) : exp ≤ 63 := by
  have ht := truncate_eq f p
  have hlt : exp < (64 : Nat) := (exp_lt_iff hexp).mpr (by split at ht <;> omega)
  omega

theorem unsigned_conversion (hexp : exp = (p.magnitude / 2 ^ f.fraction_bits : Nat) - (f.bias : Int))
    (hlo : 0 ≤ truncate (f.value p)) (hhi : truncate (f.value p) < 2 ^ 64) :
    (∃ ret, (if unrepresentable false p.neg exp then none else some halves) = some ret ∧
        (ret.word.toNat : Int) = truncate (f.value p)) ↔
      (halves.word.toNat : Int) = ⌊f.magnitude_value p.magnitude⌋ := by
  have h63 : ¬exp > 63 := Int.not_lt.mpr (exp_le_of_unsigned hexp hlo hhi)
  obtain ⟨N, hfloor, hsmall, hlarge⟩ := exists_floor hexp
  have ht := truncate_eq f p
  rw [hfloor] at ht ⊢
  have hun : unrepresentable false p.neg exp = false ∧ truncate (f.value p) = N := by
    by_cases hneg : exp < 0
    · have hge : ¬exp ≥ 0 := by omega
      have hN := hsmall hneg
      refine ⟨by simp [unrepresentable, h63, hge], ?_⟩
      split at ht <;> omega
    · obtain ⟨e, he⟩ := Int.eq_ofNat_of_zero_le (Int.not_lt.mp hneg)
      obtain ⟨-, hN, -⟩ := hlarge e he
      have hpos := Nat.two_pow_pos e
      cases hsign : p.neg with
      | false =>
        simp only [hsign, Bool.false_eq_true, if_false] at ht
        exact ⟨by simp [unrepresentable, h63], ht⟩
      | true =>
        simp only [hsign, if_true] at ht
        omega
  rw [hun.1, hun.2, if_neg Bool.false_ne_true]
  constructor
  · rintro ⟨ret, hret, hvalue⟩
    obtain rfl := Option.some.inj hret
    exact hvalue
  · exact fun hvalue => ⟨_, rfl, hvalue⟩

end truncation

section float

variable {val : BitVec 32}

theorem float_word (hexp : ((word_pattern val).magnitude / 2 ^ 23 : Nat) - (127 : Int) ≤ 63) :
    ((f2xlz_halves (val &&& 0x7fffff#32) (((word_pattern val).magnitude / 2 ^ 23 : Nat) - 127)).word.toNat : Int) =
      ⌊binary32.magnitude_value (word_pattern val).magnitude⌋ := by
  obtain ⟨-, -, hfrac⟩ := float_fields val
  have hlt : (val &&& 0x7fffff#32).toNat < 2 ^ 23 := by
    rw [hfrac]
    exact Nat.mod_lt _ (Nat.two_pow_pos _)
  obtain ⟨N, hfloor, hsmall, hlarge⟩ := exists_floor (f := binary32) (p := word_pattern val) rfl
  have hbits : binary32.fraction_bits = 23 := rfl
  have hbias : (binary32.bias : Int) = 127 := rfl
  rw [hbits, hbias] at hsmall hlarge
  rw [hfloor, Nat.cast_inj]
  generalize hgen : ((word_pattern val).magnitude / 2 ^ 23 : Nat) - (127 : Int) = exp at *
  by_cases hneg : exp < 0
  · rw [hsmall hneg, f2xlz_halves_of_neg hlt hneg (by omega)]
  · obtain ⟨e, rfl⟩ := Int.eq_ofNat_of_zero_le (Int.not_lt.mp hneg)
    rw [(hlarge e rfl).1, toNat_f2xlz_halves hlt (by omega), hfrac]

/-- Only the least number has no result. -/
theorem f2lz_iff (hlo : -2 ^ 63 ≤ truncate (binary32.value (word_pattern val)))
    (hhi : truncate (binary32.value (word_pattern val)) < 2 ^ 63) :
    (∃ ret, aeabi_f2lz val = some ret ∧ ret.word.toInt = truncate (binary32.value (word_pattern val))) ↔
      truncate (binary32.value (word_pattern val)) ≠ -2 ^ 63 := by
  obtain ⟨hsign, hexp, -⟩ := float_fields val
  have hleast := least_iff (f := binary32) (p := word_pattern val) rfl hlo hhi
  have hbits : binary32.fraction_bits = 23 := rfl
  have hbias : (binary32.bias : Int) = 127 := rfl
  rw [hbits, hbias] at hleast
  have hconv := @signed_conversion binary32 (word_pattern val) _
    (f2xlz_halves (val &&& 0x7fffff#32) (((word_pattern val).magnitude / 2 ^ 23 : Nat) - 127)) rfl hlo hhi
    fun h62 => by
      have hword := @float_word val (le_trans h62 (by decide))
      have hlt := floor_lt (f := binary32) (p := word_pattern val) rfl (k := 63) (Int.lt_of_le_of_lt h62 (by decide))
      omega
  rw [aeabi_f2lz, aeabi_f2xlz]
  simp only [hsign, hexp, Bool.true_and]
  refine hconv.trans (and_iff_left_of_imp fun hne => float_word ?_)
  by_contra h63
  exact hne (hleast.mpr (by omega))

theorem f2ulz_spec (hlo : 0 ≤ truncate (binary32.value (word_pattern val)))
    (hhi : truncate (binary32.value (word_pattern val)) < 2 ^ 64) :
    ∃ ret, aeabi_f2ulz val = some ret ∧ (ret.word.toNat : Int) = truncate (binary32.value (word_pattern val)) := by
  obtain ⟨hsign, hexp, -⟩ := float_fields val
  have hconv := @unsigned_conversion binary32 (word_pattern val) _
    (f2xlz_halves (val &&& 0x7fffff#32) (((word_pattern val).magnitude / 2 ^ 23 : Nat) - 127)) rfl hlo hhi
  rw [aeabi_f2ulz, aeabi_f2xlz]
  simp only [hsign, hexp, Bool.false_and, Bool.false_eq_true, if_false]
  refine hconv.mpr (float_word ?_)
  exact exp_le_of_unsigned (f := binary32) (p := word_pattern val) rfl hlo hhi

end float

section double

variable {val : Halves}

/-- The shift counts are right: below one no bit is left, and no bit of the fraction is due between the exponents
    21 and 31. -/
def Shifts (val : Halves) : Prop :=
  let exp : Int := ((word_pattern val.word).magnitude / 2 ^ 52 : Nat) - 1023
  (exp < 0 → 32 ≤ exp % 256) ∧ ∀ e : Nat, exp = e → 20 < e → e < 32 →
    (word_pattern val.word).magnitude % 2 ^ 52 < 2 ^ (52 - e)

theorem high_fraction_lt (val : Halves) : (val.high &&& 0xfffff#32).toNat < 2 ^ 20 := by
  rw [BitVec.toNat_and]
  exact lt_of_le_of_lt Nat.and_le_right (by decide)

theorem double_word_iff (hexp : ((word_pattern val.word).magnitude / 2 ^ 52 : Nat) - (1023 : Int) ≤ 63) :
    ((d2xlz_halves { val with high := val.high &&& 0xfffff#32 }
        (((word_pattern val.word).magnitude / 2 ^ 52 : Nat) - 1023)).word.toNat : Int) =
      ⌊binary64.magnitude_value (word_pattern val.word).magnitude⌋ ↔ Shifts val := by
  obtain ⟨-, -, hfrac⟩ := double_fields val
  have hhigh := high_fraction_lt val
  obtain ⟨N, hfloor, hsmall, hlarge⟩ := exists_floor (f := binary64) (p := word_pattern val.word) rfl
  have hbits : binary64.fraction_bits = 52 := rfl
  have hbias : (binary64.bias : Int) = 1023 := rfl
  rw [hbits, hbias] at hsmall hlarge
  rw [hfloor, Nat.cast_inj, Shifts]
  generalize hgen : ((word_pattern val.word).magnitude / 2 ^ 52 : Nat) - (1023 : Int) = exp at *
  by_cases hneg : exp < 0
  · rw [hsmall hneg, d2xlz_halves_of_neg hhigh hneg]
    exact ⟨fun h => ⟨fun _ => h, fun e he => by omega⟩, fun h => h.1 hneg⟩
  · obtain ⟨e, rfl⟩ := Int.eq_ofNat_of_zero_le (Int.not_lt.mp hneg)
    rw [(hlarge e rfl).1]
    by_cases hlost : 20 < e ∧ e < 32
    · have hsplit : 2 ^ 52 = 2 ^ (52 - e) * 2 ^ e := by
        rw [← Nat.pow_add]
        congr 1
        omega
      rw [toNat_d2xlz_halves_lost _ hlost.1 hlost.2, hsplit, Nat.mul_div_mul_right _ _ (Nat.two_pow_pos e),
        ← hsplit, left_eq_add, Nat.div_eq_zero_iff_lt (Nat.two_pow_pos _)]
      refine ⟨fun h => ⟨fun h' => absurd h' hneg, fun e' he' _ _ => ?_⟩, fun h => h.2 e rfl hlost.1 hlost.2⟩
      obtain rfl : e' = e := by omega
      exact h
    · rw [toNat_d2xlz_halves hhigh (by omega) (by omega)]
      simp only [hfrac]
      exact iff_of_true trivial ⟨fun h' => absurd h' hneg, fun e' he' h₁ h₂ => by omega⟩

theorem double_word_lt {exp : Int} (hexp : exp = ((word_pattern val.word).magnitude / 2 ^ 52 : Nat) - (1023 : Int))
    (h62 : exp ≤ 62) :
    (d2xlz_halves { val with high := val.high &&& 0xfffff#32 } exp).word.toNat < 2 ^ 63 := by
  obtain ⟨-, -, hfrac⟩ := double_fields val
  have hhigh := high_fraction_lt val
  by_cases hneg : exp < 0
  · have hlow := (lsl 1 exp ||| lsr (val.high &&& 0xfffff#32) (20 - exp)).isLt
    have hzero : (0 : BitVec 32).toNat = 0 := rfl
    rw [Halves.toNat_word, d2xlz_halves, if_neg (by omega), if_neg (by omega)]
    simp only [hzero]
    omega
  · obtain ⟨e, rfl⟩ := Int.eq_ofNat_of_zero_le (Int.not_lt.mp hneg)
    by_cases hlost : 20 < e ∧ e < 32
    · rw [toNat_d2xlz_halves_lost _ hlost.1 hlost.2]
      exact Nat.pow_lt_pow_right (by decide) (by omega)
    · have hpow : 2 ^ (e + 1) ≤ 2 ^ 63 := Nat.pow_le_pow_right (by decide) (by omega)
      obtain ⟨N, -, -, hlarge⟩ := exists_floor (f := binary64) (p := word_pattern val.word) rfl
      have hN := hlarge e hexp.symm
      rw [toNat_d2xlz_halves hhigh (by omega) (by omega)]
      simp only [hfrac]
      exact lt_of_lt_of_le (hN.1 ▸ hN.2.2) hpow

theorem d2lz_iff (hlo : -2 ^ 63 ≤ truncate (binary64.value (word_pattern val.word)))
    (hhi : truncate (binary64.value (word_pattern val.word)) < 2 ^ 63) :
    (∃ ret, aeabi_d2lz val = some ret ∧ ret.word.toInt = truncate (binary64.value (word_pattern val.word))) ↔
      truncate (binary64.value (word_pattern val.word)) ≠ -2 ^ 63 ∧ Shifts val := by
  obtain ⟨hsign, hexp, -⟩ := double_fields val
  have hleast := least_iff (f := binary64) (p := word_pattern val.word) rfl hlo hhi
  have hbits : binary64.fraction_bits = 52 := rfl
  have hbias : (binary64.bias : Int) = 1023 := rfl
  rw [hbits, hbias] at hleast
  have hconv := @signed_conversion binary64 (word_pattern val.word) _
    (d2xlz_halves { val with high := val.high &&& 0xfffff#32 }
      (((word_pattern val.word).magnitude / 2 ^ 52 : Nat) - 1023)) rfl hlo hhi fun h62 => double_word_lt rfl h62
  rw [aeabi_d2lz, aeabi_d2xlz]
  simp only [hsign, hexp, Bool.true_and]
  refine hconv.trans (and_congr_right fun hne => double_word_iff ?_)
  by_contra h63
  exact hne (hleast.mpr (by omega))

theorem d2ulz_iff (hlo : 0 ≤ truncate (binary64.value (word_pattern val.word)))
    (hhi : truncate (binary64.value (word_pattern val.word)) < 2 ^ 64) :
    (∃ ret, aeabi_d2ulz val = some ret ∧ (ret.word.toNat : Int) = truncate (binary64.value (word_pattern val.word))) ↔
      Shifts val := by
  obtain ⟨hsign, hexp, -⟩ := double_fields val
  have hconv := @unsigned_conversion binary64 (word_pattern val.word) _
    (d2xlz_halves { val with high := val.high &&& 0xfffff#32 }
      (((word_pattern val.word).magnitude / 2 ^ 52 : Nat) - 1023)) rfl hlo hhi
  rw [aeabi_d2ulz, aeabi_d2xlz]
  simp only [hsign, hexp, Bool.false_and, Bool.false_eq_true, if_false]
  exact hconv.trans (double_word_iff (exp_le_of_unsigned (f := binary64) (p := word_pattern val.word) rfl hlo hhi))

end double

end tcc.lib.arm
