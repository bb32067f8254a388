import Tcc.Machine.Ieee

/-! Sticky bits: a number as an integer whose last bit also says that something was cut off. -/

namespace machine.jam

open machine.ieee

/-- What a number is known to be: this integer, or a number strictly beside it if it is odd. -/
def Jam (v : ℚ) (x : ℕ) : Prop := v = x ∨ x % 2 = 1 ∧ |v - x| < 1

/-- Shifting to the right, where the last bit is set if a bit gets lost. -/
def jam_shift (k x : ℕ) : ℕ := x / 2 ^ k ||| if x % 2 ^ k = 0 then 0 else 1

section bits

/-- Where the bits do not meet, the bitwise or is the sum. -/
theorem or_eq_add {a b k : ℕ} (ha : 2 ^ k ∣ a) (hb : b < 2 ^ k) : a ||| b = a + b := by
  obtain ⟨c, rfl⟩ := ha
  exact (Nat.two_pow_add_eq_or_of_lt hb c).symm

theorem or_one (x : ℕ) : x ||| 1 = x / 2 * 2 + 1 := by
  have hor : ∀ b < 2, x / 2 * 2 ||| b = x / 2 * 2 + b := fun b hb =>
    or_eq_add (k := 1) ⟨x / 2, Nat.mul_comm _ _⟩ hb
  have hsplit : x / 2 * 2 ||| x % 2 = x := by
    rw [hor _ (Nat.mod_lt x (by decide))]
    omega
  have hlow : x % 2 ||| 1 = 1 := by
    rcases Nat.mod_two_eq_zero_or_one x with h | h <;> rw [h] <;> rfl
  calc x ||| 1 = x / 2 * 2 ||| (x % 2 ||| 1) := by rw [← Nat.or_assoc, hsplit]
    _ = x / 2 * 2 + 1 := by rw [hlow, hor 1 (by decide)]

theorem jam_shift_zero (x : ℕ) : jam_shift 0 x = x := by
  rw [jam_shift, pow_zero, Nat.div_one, Nat.mod_one, if_pos rfl, Nat.or_zero]

theorem jam_shift_of_dvd {k x : ℕ} (h : 2 ^ k ∣ x) : jam_shift k x = x / 2 ^ k := by
  rw [jam_shift, if_pos (Nat.mod_eq_zero_of_dvd h), Nat.or_zero]

theorem jam_shift_of_not_dvd {k x : ℕ} (h : ¬ 2 ^ k ∣ x) : jam_shift k x = x / 2 ^ k ||| 1 := by
  rw [jam_shift, if_neg fun hmod => h (Nat.dvd_of_mod_eq_zero hmod)]

theorem jam_shift_le (k x : ℕ) : jam_shift k x ≤ x / 2 ^ k + 1 := by
  by_cases h : 2 ^ k ∣ x
  · rw [jam_shift_of_dvd h]
    omega
  · rw [jam_shift_of_not_dvd h, or_one]
    omega

/-- Zeros at the end need not be looked at. -/
theorem jam_shift_mul (x : ℕ) {j k : ℕ} (hle : j ≤ k) : jam_shift k (x * 2 ^ j) = jam_shift (k - j) x := by
  obtain ⟨i, rfl⟩ := Nat.exists_eq_add_of_le hle
  have hpos := Nat.two_pow_pos j
  rw [Nat.add_sub_cancel_left, jam_shift, jam_shift, pow_add, Nat.mul_comm x, Nat.mul_div_mul_left _ _ hpos,
    Nat.mul_mod_mul_left]
  congr 1
  by_cases h : x % 2 ^ i = 0
  · rw [h, Nat.mul_zero]
  · rw [if_neg h, if_neg (Nat.mul_ne_zero hpos.ne' h)]

/-- Two shifts are one. -/
theorem jam_shift_jam_shift (j k x : ℕ) : jam_shift k (jam_shift j x) = jam_shift (j + k) x := by
  rcases Nat.eq_zero_or_pos k with rfl | hk
  · rw [jam_shift_zero, Nat.add_zero]
  by_cases hj : 2 ^ j ∣ x
  · obtain ⟨y, rfl⟩ := hj
    rw [jam_shift_of_dvd (Dvd.intro _ rfl), Nat.mul_div_cancel_left _ (Nat.two_pow_pos j), Nat.mul_comm,
      jam_shift_mul y (Nat.le_add_right j k), Nat.add_sub_cancel_left]
  · obtain ⟨k, rfl⟩ : ∃ i, k = i + 1 := ⟨k - 1, by omega⟩
    have hsum : ¬ 2 ^ (j + (k + 1)) ∣ x := fun h => hj (dvd_trans (pow_dvd_pow 2 (Nat.le_add_right _ _)) h)
    have hodd : ¬ 2 ^ (k + 1) ∣ x / 2 ^ j ||| 1 := by
      rw [or_one]
      intro h
      have htwo : 2 ∣ x / 2 ^ j / 2 * 2 + 1 := dvd_trans (dvd_pow_self 2 (Nat.succ_ne_zero k)) h
      omega
    rw [jam_shift_of_not_dvd hj, jam_shift_of_not_dvd hodd, jam_shift_of_not_dvd hsum]
    congr 1
    rw [or_one, pow_succ', ← Nat.div_div_eq_div_mul, pow_add, ← Nat.div_div_eq_div_mul, pow_succ',
      ← Nat.div_div_eq_div_mul]
    congr 1
    omega

end bits

section relation

variable {v w : ℚ} {n x : ℕ}

theorem Jam.of_eq (x : ℕ) : Jam x x := .inl rfl

/-- A number strictly between two integers, as the odd one of them. -/
theorem Jam.of_between (hlo : (n : ℚ) < v) (hhi : v < n + 1) : Jam v (n ||| 1) := by
  rw [or_one]
  refine .inr ⟨by omega, ?_⟩
  rcases Nat.mod_two_eq_zero_or_one n with hmod | hmod
  · have hodd : n / 2 * 2 + 1 = n + 1 := by omega
    rw [hodd, abs_lt]
    push_cast
    constructor <;> linarith
  · have hodd : n / 2 * 2 + 1 = n := by omega
    rw [hodd, abs_lt]
    constructor <;> linarith

/-- Shifting keeps what is known of a number. -/
theorem Jam.shift (h : Jam v x) (k : ℕ) : Jam (v / 2 ^ k) (jam_shift k x) := by
  rcases Nat.eq_zero_or_pos k with rfl | hk
  · rw [pow_zero, div_one, jam_shift_zero]
    exact h
  have hpos : (0 : ℚ) < 2 ^ k := by positivity
  by_cases hdvd : 2 ^ k ∣ x
  · obtain ⟨y, rfl⟩ := hdvd
    rw [jam_shift_of_dvd (Dvd.intro _ rfl), Nat.mul_div_cancel_left _ (Nat.two_pow_pos k)]
    rcases h with rfl | ⟨hodd, -⟩
    · refine .inl ?_
      push_cast
      field_simp
    · have htwo : 2 ∣ 2 ^ k * y := Dvd.dvd.mul_right (dvd_pow_self 2 hk.ne') y
      omega
  · rw [jam_shift_of_not_dvd hdvd]
    have hdiv := Nat.div_add_mod x (2 ^ k)
    have hlt := Nat.mod_lt x (Nat.two_pow_pos k)
    have hmod : x % 2 ^ k ≠ 0 := fun h0 => hdvd (Nat.dvd_of_mod_eq_zero h0)
    have hbetween : (2 ^ k * (x / 2 ^ k : ℕ) : ℚ) < v ∧ v < 2 ^ k * ((x / 2 ^ k : ℕ) + 1) := by
      have hx : (x : ℚ) = 2 ^ k * (x / 2 ^ k : ℕ) + (x % 2 ^ k : ℕ) := by exact_mod_cast hdiv.symm
      have hlo : (1 : ℚ) ≤ (x % 2 ^ k : ℕ) := by exact_mod_cast Nat.one_le_iff_ne_zero.mpr hmod
      have hhi : ((x % 2 ^ k : ℕ) : ℚ) + 1 ≤ 2 ^ k := by exact_mod_cast hlt
      rcases h with rfl | ⟨-, hnear⟩
      · constructor <;> linarith
      · have hnear' := abs_lt.mp hnear
        constructor <;> linarith [hnear'.1, hnear'.2]
    refine Jam.of_between ?_ ?_
    · rw [lt_div_iff₀ hpos, mul_comm]
      exact hbetween.1
    · rw [div_lt_iff₀ hpos, mul_comm]
      exact hbetween.2

/-- No even integer lies between a number and what is known of it. -/
theorem Jam.le_iff (h : Jam v x) (hn : 2 ∣ n) : (n : ℚ) ≤ v ↔ n ≤ x := by
  rcases h with rfl | ⟨hodd, hnear⟩
  · exact Nat.cast_le
  · have hnear' := abs_lt.mp hnear
    constructor
    · intro hle
      have hlt : (n : ℚ) < x + 1 := by linarith [hnear'.2]
      have hlt' : n < x + 1 := by exact_mod_cast hlt
      omega
    · intro hle
      have hlt : n + 1 ≤ x := by omega
      have hlt' : (n : ℚ) + 1 ≤ x := by exact_mod_cast hlt
      linarith [hnear'.1]

theorem Jam.lt_iff (h : Jam v x) (hn : 2 ∣ n) : v < n ↔ x < n := by
  rcases h with rfl | ⟨hodd, hnear⟩
  · exact Nat.cast_lt
  · have hnear' := abs_lt.mp hnear
    constructor
    · intro hlt
      have hlt' : (x : ℚ) < n + 1 := by linarith [hnear'.1]
      have hlt'' : x < n + 1 := by exact_mod_cast hlt'
      omega
    · intro hlt
      have hle : (x : ℚ) + 1 ≤ n := by exact_mod_cast hlt
      linarith [hnear'.2]

/-- Powers of two are even after the bits that are not known. -/
theorem Jam.pow_le_iff {k : ℕ} (h : Jam (v / 2 ^ k) x) (hk : k < n) : (2 : ℚ) ^ n ≤ v ↔ 2 ^ n ≤ x * 2 ^ k := by
  obtain ⟨d, rfl⟩ : ∃ d, n = d + 1 + k := ⟨n - k - 1, by omega⟩
  have heven := h.le_iff (n := 2 ^ (d + 1)) (dvd_pow_self 2 (Nat.succ_ne_zero d))
  have hpos : (0 : ℚ) < 2 ^ k := by positivity
  rw [Nat.cast_pow, Nat.cast_ofNat, le_div_iff₀ hpos] at heven
  rw [pow_add, pow_add _ (d + 1), heven]
  exact (Nat.mul_le_mul_right_iff (Nat.two_pow_pos k)).symm

theorem jam_shift_lt {k : ℕ} (hn : 2 ∣ n) (hlt : x < n * 2 ^ k) : jam_shift k x < n := by
  refine (((Jam.of_eq x).shift k).lt_iff hn).mp ?_
  rw [div_lt_iff₀ (by positivity)]
  exact_mod_cast hlt

theorem Jam.eq_zero_iff (h : Jam v x) : v = 0 ↔ x = 0 := by
  rcases h with rfl | ⟨hodd, hnear⟩
  · exact Nat.cast_eq_zero
  · have hone : (1 : ℚ) ≤ x := by exact_mod_cast (by omega : 1 ≤ x)
    have hnear' := abs_lt.mp hnear
    refine iff_of_false (fun hzero => ?_) (by omega)
    linarith [hnear'.1]

theorem Jam.add_even (h : Jam v x) (hn : 2 ∣ n) : Jam (n + v) (n + x) := by
  rcases h with rfl | ⟨hodd, hnear⟩
  · exact .inl (Nat.cast_add n x).symm
  · refine .inr ⟨by omega, ?_⟩
    rw [Nat.cast_add, add_sub_add_left_eq_sub]
    exact hnear

theorem Jam.even_sub (h : Jam v x) (hn : 2 ∣ n) (hle : x ≤ n) : Jam (n - v) (n - x) := by
  rcases h with rfl | ⟨hodd, hnear⟩
  · exact .inl (Nat.cast_sub hle).symm
  · refine .inr ⟨by omega, ?_⟩
    rw [Nat.cast_sub hle, sub_sub_sub_cancel_left, abs_sub_comm]
    exact hnear

theorem Jam.sub_even (h : Jam v x) (hn : 2 ∣ n) (hle : n ≤ x) : Jam (v - n) (x - n) := by
  rcases h with rfl | ⟨hodd, hnear⟩
  · exact .inl (Nat.cast_sub hle).symm
  · refine .inr ⟨by omega, ?_⟩
    rw [Nat.cast_sub hle, sub_sub_sub_cancel_right]
    exact hnear

/-- Rounding by the two last bits. -/
def round_quarter (x : ℕ) : ℕ := x / 4 + if x % 4 = 3 ∨ x % 4 = 2 ∧ x / 4 % 2 = 1 then 1 else 0

theorem Jam.nearest (h : Jam v x) : NearestEven (v / 4) (round_quarter x) := by
  obtain ⟨q, ρ, hρ, rfl⟩ : ∃ q ρ, ρ < 4 ∧ x = 4 * q + ρ := ⟨x / 4, x % 4, by omega, by omega⟩
  have hdiv : (4 * q + ρ) / 4 = q := by omega
  have hmod : (4 * q + ρ) % 4 = ρ := by omega
  have heven : ρ % 2 = 0 → v = 4 * q + ρ := by
    intro h0
    rcases h with rfl | ⟨hodd, -⟩
    · push_cast
      rfl
    · omega
  have hnear : |v - (4 * q + ρ)| < 1 := by
    rcases h with rfl | ⟨-, hnear⟩
    · simp
    · exact_mod_cast hnear
  have hnear' := abs_lt.mp hnear
  rw [round_quarter, hdiv, hmod]
  rcases (by omega : ρ = 0 ∨ ρ = 1 ∨ ρ = 2 ∨ ρ = 3) with rfl | rfl | rfl | rfl
  · rw [if_neg (by omega), heven rfl]
    refine ⟨?_, fun habs => ?_⟩ <;> norm_num at *
  · have hlt : |v / 4 - (q + 0 : ℕ)| < 1 / 2 := by
      rw [abs_lt]
      push_cast at hnear' ⊢
      constructor <;> linarith [hnear'.1, hnear'.2]
    rw [if_neg (by omega)]
    exact ⟨hlt.le, fun habs => absurd habs hlt.ne⟩
  · rw [heven rfl]
    by_cases hodd : q % 2 = 1
    · rw [if_pos (by omega)]
      refine ⟨?_, fun _ => by omega⟩
      push_cast
      rw [abs_of_nonpos] <;> linarith
    · rw [if_neg (by omega)]
      refine ⟨?_, fun _ => by omega⟩
      push_cast
      rw [abs_of_nonneg] <;> linarith
  · have hlt : |v / 4 - (q + 1 : ℕ)| < 1 / 2 := by
      rw [abs_lt]
      push_cast at hnear' ⊢
      constructor <;> linarith [hnear'.1, hnear'.2]
    rw [if_pos (by omega)]
    exact ⟨hlt.le, fun habs => absurd habs hlt.ne⟩

end relation

end machine.jam
