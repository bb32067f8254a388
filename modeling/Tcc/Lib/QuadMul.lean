import Tcc.Lib.QuadAdd

/-! `__multf3` of `lib/lib-arm64.c`: the product of the fractions in base `2 ^ 30`. -/

namespace tcc.lib.quad

open machine.ieee machine.jam machine.double_word

/-- The digits of a normalised fraction without its last 6 bits. The last digit has 32 bits. -/
structure Limbs where
  a0 : BitVec 64
  a1 : BitVec 64
  a2 : BitVec 64
  a3 : BitVec 64

def f3_limbs (a : U128) : Limbs :=
  { a0 := a.x0 <<< 28 >>> 34, a1 := a.x0 >>> 36 ||| a.x1 <<< 62 >>> 34, a2 := a.x1 <<< 32 >>> 34,
    a3 := a.x1 >>> 32 }

/-- The sums of the products for each place, with what is carried from the place before. -/
structure PartialSums where
  x0 : BitVec 64
  x1 : BitVec 64
  x2 : BitVec 64
  x3 : BitVec 64
  x4 : BitVec 64
  x5 : BitVec 64
  x6 : BitVec 64

def f3_partial_sums (a b : Limbs) : PartialSums :=
  let x0 := a.a0 * b.a0
  let x1 := x0 >>> 30 + a.a0 * b.a1 + a.a1 * b.a0
  let x2 := x1 >>> 30 + a.a0 * b.a2 + a.a1 * b.a1 + a.a2 * b.a0
  let x3 := x2 >>> 30 + a.a0 * b.a3 + a.a1 * b.a2 + a.a2 * b.a1 + a.a3 * b.a0
  let x4 := x3 >>> 30 + a.a1 * b.a3 + a.a2 * b.a2 + a.a3 * b.a1
  let x5 := x4 >>> 30 + a.a2 * b.a3 + a.a3 * b.a2
  let x6 := x5 >>> 30 + a.a3 * b.a3
  { x0, x1, x2, x3, x4, x5, x6 }

/-- The first 128 bits, where the last one is set if there are more bits. -/
def f3_top_bits (s : PartialSums) : U128 :=
  { x0 := s.x5 <<< 34 ||| s.x4 <<< 34 >>> 30 ||| s.x3 <<< 34 >>> 60 |||
      word (s.x3 <<< 38 ||| (s.x2 ||| s.x1 ||| s.x0) <<< 34 != 0),
    x1 := s.x6 }

def f3_renormalise (exp : Int) (y : U128) : Int × U128 :=
  if y.x1 >>> 63 = 0 then (exp - 1, { x0 := y.x0 <<< 1, x1 := y.x1 <<< 1 ||| y.x0 >>> 63 }) else (exp, y)

def f3_mul_finite (a b : Unpacked) : U128 :=
  let an := f3_normalise a.exp a.mnt
  let bn := f3_normalise b.exp b.mnt
  let x_exp := an.1 + bn.1 - 16352
  let x := f3_renormalise x_exp (f3_top_bits (f3_partial_sums (f3_limbs an.2) (f3_limbs bn.2)))
  f3_round (a.sgn ^^ b.sgn) x.1 x.2

def multf3 (fa fb : U128) : U128 :=
  let a := f3_unpack fa
  let b := f3_unpack fb
  match fp3_detect_NaNs a b with
  | some fx => fx
  | none =>
    if a.exp = 32767 ∧ b.mnt.x0 ||| b.mnt.x1 = 0 ∨ b.exp = 32767 ∧ a.mnt.x0 ||| a.mnt.x1 = 0 then f3_NaN
    else if a.exp = 32767 ∨ b.exp = 32767 then f3_infinity (a.sgn ^^ b.sgn)
    else if a.mnt.x0 ||| a.mnt.x1 = 0 ∨ b.mnt.x0 ||| b.mnt.x1 = 0 then f3_zero (a.sgn ^^ b.sgn)
    else f3_mul_finite a b

section limbs

variable {a b : U128}

/-- The bounds of the digits, and the number they are. -/
structure Limbs.IsDigits (l : Limbs) (n : Nat) : Prop where
  a0_lt : l.a0.toNat < 2 ^ 30
  a1_lt : l.a1.toNat < 2 ^ 30
  a2_lt : l.a2.toNat < 2 ^ 30
  a3_lt : l.a3.toNat < 2 ^ 32
  eq : n = l.a0.toNat + 2 ^ 30 * l.a1.toNat + 2 ^ 60 * l.a2.toNat + 2 ^ 90 * l.a3.toNat

theorem f3_limbs_spec (h : 2 ^ 6 ∣ a.toNat) : (f3_limbs a).IsDigits (a.toNat / 2 ^ 6) := by
  have hlow := a.x0.isLt
  have hhigh := a.x1.isLt
  have heq := a.toNat_eq
  have h0 : (f3_limbs a).a0.toNat = a.x0.toNat / 2 ^ 6 % 2 ^ 30 := by
    change (a.x0 <<< 28 >>> 34).toNat = _
    rw [toNat_shr, toNat_shl]
    omega
  have h1 : (f3_limbs a).a1.toNat = a.x1.toNat % 2 ^ 2 * 2 ^ 28 + a.x0.toNat / 2 ^ 36 := by
    have htop : (a.x1 <<< 62 >>> 34).toNat = a.x1.toNat % 2 ^ 2 * 2 ^ 28 := by
      rw [toNat_shr, toNat_shl]
      omega
    have hrest : (a.x0 >>> 36).toNat = a.x0.toNat / 2 ^ 36 := toNat_shr _ _
    change (a.x0 >>> 36 ||| a.x1 <<< 62 >>> 34).toNat = _
    rw [BitVec.or_comm, toNat_or (by rw [htop]; exact Dvd.intro_left _ rfl) (by rw [hrest]; omega), htop,
      hrest]
  have h2 : (f3_limbs a).a2.toNat = a.x1.toNat / 2 ^ 2 % 2 ^ 30 := by
    change (a.x1 <<< 32 >>> 34).toNat = _
    rw [toNat_shr, toNat_shl]
    omega
  have h3 : (f3_limbs a).a3.toNat = a.x1.toNat / 2 ^ 32 := toNat_shr _ _
  refine ⟨?_, ?_, ?_, ?_, ?_⟩ <;> omega

end limbs

section sums

variable {a b : Limbs} {m n : Nat}

/-- The sums of the products without a bound on their size. -/
structure PartialSums.AreExact (s : PartialSums) (a b : Limbs) : Prop where
  x0 : s.x0.toNat = a.a0.toNat * b.a0.toNat
  x1 : s.x1.toNat = s.x0.toNat / 2 ^ 30 + a.a0.toNat * b.a1.toNat + a.a1.toNat * b.a0.toNat
  x2 : s.x2.toNat = s.x1.toNat / 2 ^ 30 + a.a0.toNat * b.a2.toNat + a.a1.toNat * b.a1.toNat +
    a.a2.toNat * b.a0.toNat
  x3 : s.x3.toNat = s.x2.toNat / 2 ^ 30 + a.a0.toNat * b.a3.toNat + a.a1.toNat * b.a2.toNat +
    a.a2.toNat * b.a1.toNat + a.a3.toNat * b.a0.toNat
  x4 : s.x4.toNat = s.x3.toNat / 2 ^ 30 + a.a1.toNat * b.a3.toNat + a.a2.toNat * b.a2.toNat +
    a.a3.toNat * b.a1.toNat
  x5 : s.x5.toNat = s.x4.toNat / 2 ^ 30 + a.a2.toNat * b.a3.toNat + a.a3.toNat * b.a2.toNat
  x6 : s.x6.toNat = s.x5.toNat / 2 ^ 30 + a.a3.toNat * b.a3.toNat

/-- None of the sums overflows. -/
theorem f3_partial_sums_exact (ha : a.IsDigits m) (hb : b.IsDigits n) :
    (f3_partial_sums a b).AreExact a b := by
  obtain ⟨ha0, ha1, ha2, ha3, -⟩ := ha
  obtain ⟨hb0, hb1, hb2, hb3, -⟩ := hb
  have hmul : ∀ {x y : BitVec 64} {c d : Nat}, x.toNat < 2 ^ c → y.toNat < 2 ^ d → c + d ≤ 64 →
      (x * y).toNat = x.toNat * y.toNat ∧ x.toNat * y.toNat ≤ (2 ^ c - 1) * (2 ^ d - 1) := by
    intro x y c d hx hy hsum
    have hlt : x.toNat * y.toNat < 2 ^ 64 := by
      calc x.toNat * y.toNat < 2 ^ c * 2 ^ d := Nat.mul_lt_mul'' hx hy
        _ = 2 ^ (c + d) := (pow_add 2 c d).symm
        _ ≤ 2 ^ 64 := Nat.pow_le_pow_right (by decide) hsum
    exact ⟨by rw [BitVec.toNat_mul, Nat.mod_eq_of_lt hlt], Nat.mul_le_mul (by omega) (by omega)⟩
  obtain ⟨hv00, hp00⟩ := hmul ha0 hb0 (by decide)
  obtain ⟨hv01, hp01⟩ := hmul ha0 hb1 (by decide)
  obtain ⟨hv02, hp02⟩ := hmul ha0 hb2 (by decide)
  obtain ⟨hv03, hp03⟩ := hmul ha0 hb3 (by decide)
  obtain ⟨hv10, hp10⟩ := hmul ha1 hb0 (by decide)
  obtain ⟨hv11, hp11⟩ := hmul ha1 hb1 (by decide)
  obtain ⟨hv12, hp12⟩ := hmul ha1 hb2 (by decide)
  obtain ⟨hv13, hp13⟩ := hmul ha1 hb3 (by decide)
  obtain ⟨hv20, hp20⟩ := hmul ha2 hb0 (by decide)
  obtain ⟨hv21, hp21⟩ := hmul ha2 hb1 (by decide)
  obtain ⟨hv22, hp22⟩ := hmul ha2 hb2 (by decide)
  obtain ⟨hv23, hp23⟩ := hmul ha2 hb3 (by decide)
  obtain ⟨hv30, hp30⟩ := hmul ha3 hb0 (by decide)
  obtain ⟨hv31, hp31⟩ := hmul ha3 hb1 (by decide)
  obtain ⟨hv32, hp32⟩ := hmul ha3 hb2 (by decide)
  obtain ⟨hv33, hp33⟩ := hmul ha3 hb3 (by decide)
  have hx0 : (f3_partial_sums a b).x0.toNat = a.a0.toNat * b.a0.toNat := hv00
  have hx1 : (f3_partial_sums a b).x1.toNat =
    (f3_partial_sums a b).x0.toNat / 2 ^ 30 + a.a0.toNat * b.a1.toNat + a.a1.toNat * b.a0.toNat := by
    change ((f3_partial_sums a b).x0 >>> 30 + a.a0 * b.a1 + a.a1 * b.a0).toNat = _
    rw [BitVec.toNat_add, BitVec.toNat_add, toNat_shr, hv01, hv10]
    omega
  have hx2 : (f3_partial_sums a b).x2.toNat =
    (f3_partial_sums a b).x1.toNat / 2 ^ 30 + a.a0.toNat * b.a2.toNat + a.a1.toNat * b.a1.toNat + a.a2.toNat * b.a0.toNat := by
    change ((f3_partial_sums a b).x1 >>> 30 + a.a0 * b.a2 + a.a1 * b.a1 + a.a2 * b.a0).toNat = _
    rw [BitVec.toNat_add, BitVec.toNat_add, BitVec.toNat_add, toNat_shr, hv02, hv11, hv20]
    omega
  have hx3 : (f3_partial_sums a b).x3.toNat =
    (f3_partial_sums a b).x2.toNat / 2 ^ 30 + a.a0.toNat * b.a3.toNat + a.a1.toNat * b.a2.toNat + a.a2.toNat * b.a1.toNat + a.a3.toNat * b.a0.toNat := by
    change ((f3_partial_sums a b).x2 >>> 30 + a.a0 * b.a3 + a.a1 * b.a2 + a.a2 * b.a1 + a.a3 * b.a0).toNat = _
    rw [BitVec.toNat_add, BitVec.toNat_add, BitVec.toNat_add, BitVec.toNat_add, toNat_shr, hv03, hv12,
      hv21, hv30]
    omega
  have hx4 : (f3_partial_sums a b).x4.toNat =
    (f3_partial_sums a b).x3.toNat / 2 ^ 30 + a.a1.toNat * b.a3.toNat + a.a2.toNat * b.a2.toNat + a.a3.toNat * b.a1.toNat := by
    change ((f3_partial_sums a b).x3 >>> 30 + a.a1 * b.a3 + a.a2 * b.a2 + a.a3 * b.a1).toNat = _
    rw [BitVec.toNat_add, BitVec.toNat_add, BitVec.toNat_add, toNat_shr, hv13, hv22, hv31]
    omega
  have hx5 : (f3_partial_sums a b).x5.toNat =
    (f3_partial_sums a b).x4.toNat / 2 ^ 30 + a.a2.toNat * b.a3.toNat + a.a3.toNat * b.a2.toNat := by
    change ((f3_partial_sums a b).x4 >>> 30 + a.a2 * b.a3 + a.a3 * b.a2).toNat = _
    rw [BitVec.toNat_add, BitVec.toNat_add, toNat_shr, hv23, hv32]
    omega
  have hx6 : (f3_partial_sums a b).x6.toNat =
    (f3_partial_sums a b).x5.toNat / 2 ^ 30 + a.a3.toNat * b.a3.toNat := by
    change ((f3_partial_sums a b).x5 >>> 30 + a.a3 * b.a3).toNat = _
    rw [BitVec.toNat_add, toNat_shr, hv33]
    omega
  exact ⟨hx0, hx1, hx2, hx3, hx4, hx5, hx6⟩

/-- The places of the product. -/
theorem PartialSums.AreExact.product {s : PartialSums} (h : s.AreExact a b) (ha : a.IsDigits m) (hb : b.IsDigits n) :
    m * n = s.x0.toNat % 2 ^ 30 + 2 ^ 30 * (s.x1.toNat % 2 ^ 30) + 2 ^ 60 * (s.x2.toNat % 2 ^ 30) +
      2 ^ 90 * (s.x3.toNat % 2 ^ 30) + 2 ^ 120 * (s.x4.toNat % 2 ^ 30) + 2 ^ 150 * (s.x5.toNat % 2 ^ 30) +
      2 ^ 180 * s.x6.toNat := by
  obtain ⟨hx0, hx1, hx2, hx3, hx4, hx5, hx6⟩ := h
  have hplaces : m * n = a.a0.toNat * b.a0.toNat + 2 ^ 30 * (a.a0.toNat * b.a1.toNat + a.a1.toNat * b.a0.toNat) +
      2 ^ 60 * (a.a0.toNat * b.a2.toNat + a.a1.toNat * b.a1.toNat + a.a2.toNat * b.a0.toNat) +
      2 ^ 90 * (a.a0.toNat * b.a3.toNat + a.a1.toNat * b.a2.toNat + a.a2.toNat * b.a1.toNat +
        a.a3.toNat * b.a0.toNat) +
      2 ^ 120 * (a.a1.toNat * b.a3.toNat + a.a2.toNat * b.a2.toNat + a.a3.toNat * b.a1.toNat) +
      2 ^ 150 * (a.a2.toNat * b.a3.toNat + a.a3.toNat * b.a2.toNat) + 2 ^ 180 * (a.a3.toNat * b.a3.toNat) := by
    rw [ha.eq, hb.eq]
    ring
  omega

theorem f3_top_bits_spec {s : PartialSums} {p : Nat} (hp : p = s.x0.toNat % 2 ^ 30 + 2 ^ 30 * (s.x1.toNat % 2 ^ 30) +
    2 ^ 60 * (s.x2.toNat % 2 ^ 30) + 2 ^ 90 * (s.x3.toNat % 2 ^ 30) + 2 ^ 120 * (s.x4.toNat % 2 ^ 30) +
    2 ^ 150 * (s.x5.toNat % 2 ^ 30) + 2 ^ 180 * s.x6.toNat) : (f3_top_bits s).toNat = jam_shift 116 p := by
  have h5 : (s.x5 <<< 34).toNat = s.x5.toNat % 2 ^ 30 * 2 ^ 34 := by
    rw [toNat_shl]
    omega
  have h4 : (s.x4 <<< 34 >>> 30).toNat = s.x4.toNat % 2 ^ 30 * 2 ^ 4 := by
    rw [toNat_shr, toNat_shl]
    omega
  have h3 : (s.x3 <<< 34 >>> 60).toNat = s.x3.toNat % 2 ^ 30 / 2 ^ 26 := by
    rw [toNat_shr, toNat_shl]
    omega
  have h54 : (s.x5 <<< 34 ||| s.x4 <<< 34 >>> 30).toNat = s.x5.toNat % 2 ^ 30 * 2 ^ 34 + s.x4.toNat % 2 ^ 30 * 2 ^ 4 := by
    rw [toNat_or (by rw [h5]; exact Dvd.intro_left _ rfl) (by rw [h4]; omega), h5, h4]
  have h543 : (s.x5 <<< 34 ||| s.x4 <<< 34 >>> 30 ||| s.x3 <<< 34 >>> 60).toNat =
      s.x5.toNat % 2 ^ 30 * 2 ^ 34 + s.x4.toNat % 2 ^ 30 * 2 ^ 4 + s.x3.toNat % 2 ^ 30 / 2 ^ 26 := by
    rw [toNat_or (n := 4) (by rw [h54]; omega) (by rw [h3]; omega), h54, h3]
  have hlost : (!(s.x3 <<< 38 ||| (s.x2 ||| s.x1 ||| s.x0) <<< 34 != 0)) = true ↔ p % 2 ^ 116 = 0 := by
    have hor : ∀ x y : BitVec 64, (x ||| y).toNat % 2 ^ 30 = 0 ↔ x.toNat % 2 ^ 30 = 0 ∧ y.toNat % 2 ^ 30 = 0 := by
      intro x y
      rw [BitVec.toNat_or, Nat.or_mod_two_pow, Nat.or_eq_zero_iff]
    have hshl : ∀ x : BitVec 64, x <<< 34 = 0 ↔ x.toNat % 2 ^ 30 = 0 := by
      intro x
      rw [eq_zero_iff, toNat_shl]
      omega
    rw [not_bne_zero, ← eq_zero_iff, or_eq_zero_iff, hshl, hor, hor, eq_zero_iff, toNat_shl]
    omega
  have hdiv : p / 2 ^ 116 = s.x6.toNat * 2 ^ 64 + (s.x5.toNat % 2 ^ 30 * 2 ^ 34 + s.x4.toNat % 2 ^ 30 * 2 ^ 4 +
      s.x3.toNat % 2 ^ 30 / 2 ^ 26) := by
    omega
  rw [f3_top_bits, U128.toNat, pair_or_word _ _ hlost, pair, h543, jam_shift, hdiv]

end sums

section product

variable {u w : Unpacked} {p q : Pattern}

theorem f3_renormalise_spec (exp : Int) {y : U128} (hy : 2 ^ 126 ≤ y.toNat) :
    ∃ k : Nat, k ≤ 1 ∧ (f3_renormalise exp y).1 = exp - k ∧ (f3_renormalise exp y).2.toNat = y.toNat * 2 ^ k ∧
      2 ^ 127 ≤ (f3_renormalise exp y).2.toNat := by
  have hlow := y.x0.isLt
  have heq := y.toNat_eq
  unfold f3_renormalise
  split
  · rename_i htop
    rw [eq_zero_iff, toNat_shr] at htop
    have hshl : U128.toNat ⟨y.x0 <<< 1, y.x1 <<< 1 ||| y.x0 >>> 63⟩ = y.toNat * 2 :=
      pair_shl y.x1 y.x0 (n := 1) (by decide) (by
        change y.toNat * 2 < _
        omega)
    refine ⟨1, le_refl _, rfl, ?_, ?_⟩ <;> rw [hshl] <;> omega
  · rename_i htop
    rw [eq_zero_iff, toNat_shr] at htop
    refine ⟨0, by decide, by simp, (Nat.mul_one _).symm, ?_⟩
    change 2 ^ 127 ≤ y.toNat
    omega

/-- A normalised fraction ends with at least 15 zeros. -/
theorem f3_normalise_fraction (h : u.Represents p) (hne : u.mnt.toNat ≠ 0) :
    2 ^ 15 ∣ (f3_normalise u.exp u.mnt).2.toNat ∧ 2 ^ 127 ≤ (f3_normalise u.exp u.mnt).2.toNat ∧
      u.mnt.toNat * (2 : ℚ) ^ (u.exp - 16495) =
        (f3_normalise u.exp u.mnt).2.toNat * 2 ^ ((f3_normalise u.exp u.mnt).1 - 16495) := by
  obtain ⟨k, hexp, hmnt, hlo⟩ := f3_normalise_spec u.exp hne
  have hhigh := h.high
  have hk : 15 ≤ k := by
    by_contra hlt
    have hpow : 2 ^ k ≤ 2 ^ 14 := Nat.pow_le_pow_right (by decide) (by omega)
    have hlt' := Nat.mul_lt_mul_of_pos_right hhigh (Nat.two_pow_pos k)
    have hle := Nat.mul_le_mul_left (2 ^ 113) hpow
    omega
  refine ⟨?_, hlo, ?_⟩
  · rw [hmnt]
    exact Dvd.dvd.mul_left (pow_dvd_pow 2 hk) _
  · have hsum : u.exp - 16495 = (k : Int) + (u.exp - k - 16495) := by ring
    rw [hmnt, hexp, hsum, zpow_add₀ (by norm_num), zpow_natCast]
    push_cast
    ring

theorem signed_mul_signed (s t : Bool) (v v' : ℚ) : signed s v * signed t v' = signed (s ^^ t) (v * v') := by
  cases s <;> cases t <;> simp [signed]

theorem f3_mul_finite_spec (ha : u.Represents p) (hb : w.Represents q) (hane : u.mnt.toNat ≠ 0)
    (hbne : w.mnt.toNat ≠ 0) :
    binary128.RoundsTo (binary128.value p * binary128.value q) (f3_mul_finite u w).pattern := by
  obtain ⟨hdvd_a, hlo_a, hval_a⟩ := f3_normalise_fraction ha hane
  obtain ⟨hdvd_b, hlo_b, hval_b⟩ := f3_normalise_fraction hb hbne
  unfold f3_mul_finite
  obtain ⟨an, han⟩ : ∃ an, f3_normalise u.exp u.mnt = an := ⟨_, rfl⟩
  obtain ⟨bn, hbn⟩ : ∃ bn, f3_normalise w.exp w.mnt = bn := ⟨_, rfl⟩
  rw [han] at hdvd_a hlo_a hval_a ⊢
  rw [hbn] at hdvd_b hlo_b hval_b ⊢
  dsimp only
  obtain ⟨m, hm⟩ := dvd_trans (pow_dvd_pow 2 (by decide : 6 ≤ 15)) hdvd_a
  obtain ⟨n, hn⟩ := dvd_trans (pow_dvd_pow 2 (by decide : 6 ≤ 15)) hdvd_b
  have hdigits_a := f3_limbs_spec (a := an.2) ⟨m, hm⟩
  have hdigits_b := f3_limbs_spec (a := bn.2) ⟨n, hn⟩
  rw [hm, Nat.mul_div_cancel_left _ (by decide)] at hdigits_a
  rw [hn, Nat.mul_div_cancel_left _ (by decide)] at hdigits_b
  have hexact := f3_partial_sums_exact hdigits_a hdigits_b
  have htop := f3_top_bits_spec (hexact.product hdigits_a hdigits_b)
  obtain ⟨y, hy⟩ : ∃ y, f3_top_bits (f3_partial_sums (f3_limbs an.2) (f3_limbs bn.2)) = y := ⟨_, rfl⟩
  rw [hy] at htop ⊢
  have hjam := (Jam.of_eq (m * n)).shift 116
  rw [← htop] at hjam
  have hlarge : 2 ^ 126 ≤ y.toNat := by
    refine (hjam.le_iff (n := 2 ^ 126) (by decide)).mp ?_
    have hmul := Nat.mul_le_mul (show 2 ^ 121 ≤ m by omega) (show 2 ^ 121 ≤ n by omega)
    rw [le_div_iff₀ (by positivity)]
    exact_mod_cast hmul
  obtain ⟨k, hk, hexp, hmnt, hlo⟩ := f3_renormalise_spec (an.1 + bn.1 - 16352) hlarge
  simp only [hexp]
  have hvalue : binary128.value p * binary128.value q = signed (u.sgn ^^ w.sgn)
      ((m * n : Nat) / 2 ^ 116 * 2 ^ k * 2 ^ (an.1 + bn.1 - 16352 - k - 16510)) := by
    rw [value_eq ha, value_eq hb, signed_mul_signed, hval_a, hval_b, hm, hn]
    congr 1
    have hsum : (an.1 - 16495) + (bn.1 - 16495) = (an.1 + bn.1 - 16352 - k - 16510) + k + ((-128 : Int)) := by ring
    have hprod : ((2 ^ 6 * m : Nat) : ℚ) * 2 ^ (an.1 - 16495) * (((2 ^ 6 * n : Nat) : ℚ) * 2 ^ (bn.1 - 16495)) =
        ((m * n : Nat) : ℚ) * 2 ^ 12 * 2 ^ ((an.1 - 16495) + (bn.1 - 16495)) := by
      rw [zpow_add₀ (by norm_num)]
      push_cast
      ring
    have hshift : (2 : ℚ) ^ (-128 : Int) = 1 / 2 ^ 128 := by
      rw [zpow_neg, one_div]
      rfl
    rw [hprod, hsum, zpow_add₀ (by norm_num), zpow_add₀ (by norm_num), zpow_natCast, hshift]
    obtain ⟨c, hc⟩ : ∃ c : ℚ, 2 ^ (an.1 + bn.1 - 16352 - k - 16510) = c := ⟨_, rfl⟩
    rw [hc]
    ring
  rw [hvalue]
  refine f3_round_roundsTo (k := k) _ (by omega) hmnt ?_ hlo
  rwa [mul_div_cancel_right₀ _ (by positivity)]

/-- The last bits of a normalised fraction are zeros, also if it is zero. -/
theorem f3_normalise_dvd (h : u.Represents p) : 2 ^ 6 ∣ (f3_normalise u.exp u.mnt).2.toNat := by
  by_cases hzero : u.mnt.toNat = 0
  · have hmnt := (U128.toNat_eq_zero _).mp hzero
    rw [f3_normalise, if_pos hmnt]
    exact hzero ▸ Nat.dvd_zero _
  · exact dvd_trans (pow_dvd_pow 2 (by decide)) (f3_normalise_fraction h hzero).1

theorem value_eq_zero (h : u.Represents p) : binary128.value p = 0 ↔ u.mnt.toNat = 0 := by
  have hpow : (2 : ℚ) ^ (u.exp - 16495) ≠ 0 := zpow_ne_zero _ (by norm_num)
  rw [value_eq h, signed_eq_zero, mul_eq_zero, or_iff_left hpow, Nat.cast_eq_zero]

theorem multf3_isProduct (fa fb : U128) : binary128.IsProduct fa.pattern fb.pattern (multf3 fa fb).pattern := by
  have ha := f3_unpack_represents fa
  have hb := f3_unpack_represents fb
  unfold multf3
  rcases fp3_detect_NaNs_spec ha hb with ⟨fx, hdetect, hnan, hoperand⟩ | ⟨hdetect, hna, hnb⟩
  · simp only [hdetect]
    exact .of_nan (hoperand.imp_right .inl) hnan
  · simp only [hdetect, ha.sgn, hb.sgn]
    have hinf_a := ha.isInfinite_of_exp hna
    have hinf_b := hb.isInfinite_of_exp hnb
    split
    · rename_i hinvalid
      rw [← ha.magnitude_eq_zero, ← hb.magnitude_eq_zero, ← hinf_a, ← hinf_b] at hinvalid
      refine .of_nan (.inr (.inr ?_)) pattern_f3_NaN
      exact hinvalid.imp_right And.symm
    split
    · rename_i hvalid hinfinite
      rw [← ha.magnitude_eq_zero, ← hb.magnitude_eq_zero, ← hinf_a, ← hinf_b] at hvalid
      rw [← hinf_a, ← hinf_b] at hinfinite
      rw [pattern_f3_infinity]
      refine .of_infinite ?_
      rcases hinfinite with h | h
      · exact .inl ⟨h, hnb, fun hzero => hvalid (.inl ⟨h, hzero⟩)⟩
      · exact .inr ⟨h, hna, fun hzero => hvalid (.inr ⟨h, hzero⟩)⟩
    · rename_i hfinite
      rw [not_or] at hfinite
      have hfin_a := ha.isFinite_iff.mpr hfinite.1
      have hfin_b := hb.isFinite_iff.mpr hfinite.2
      have hmnt_a : fa.pattern.magnitude = 0 ↔ (f3_unpack fa).mnt.toNat = 0 := by
        rw [ha.magnitude_eq_zero, U128.toNat_eq_zero]
      have hmnt_b : fb.pattern.magnitude = 0 ↔ (f3_unpack fb).mnt.toNat = 0 := by
        rw [hb.magnitude_eq_zero, U128.toNat_eq_zero]
      have hprod : binary128.value fa.pattern * binary128.value fb.pattern = 0 ↔
          fa.pattern.magnitude = 0 ∨ fb.pattern.magnitude = 0 := by
        rw [mul_eq_zero, value_eq_zero ha, value_eq_zero hb, hmnt_a, hmnt_b]
      split
      · rename_i hzero
        rw [← ha.magnitude_eq_zero, ← hb.magnitude_eq_zero] at hzero
        rw [pattern_f3_zero]
        exact .of_finite hfin_a hfin_b (fun _ => rfl) fun hne => absurd (hprod.mpr hzero) hne
      · rename_i hzero
        rw [← ha.magnitude_eq_zero, ← hb.magnitude_eq_zero] at hzero
        have hne := not_or.mp hzero
        refine .of_finite hfin_a hfin_b (fun hp => absurd (hprod.mp hp) hzero) fun _ => ?_
        exact f3_mul_finite_spec ha hb (mt hmnt_a.mpr hne.1) (mt hmnt_b.mpr hne.2)

/-- The digits that `multf3` multiplies. -/
def f3_factor (f : U128) : Limbs := f3_limbs (f3_normalise (f3_unpack f).exp (f3_unpack f).mnt).2

/-- The product. The sums of the products of the digits do not overflow. -/
theorem multf3_spec (fa fb : U128) : binary128.IsProduct fa.pattern fb.pattern (multf3 fa fb).pattern ∧
    (f3_partial_sums (f3_factor fa) (f3_factor fb)).AreExact (f3_factor fa) (f3_factor fb) :=
  ⟨multf3_isProduct fa fb,
    f3_partial_sums_exact (f3_limbs_spec (f3_normalise_dvd (f3_unpack_represents fa)))
      (f3_limbs_spec (f3_normalise_dvd (f3_unpack_represents fb)))⟩

end product

end tcc.lib.quad
