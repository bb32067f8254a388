import Mathlib.Data.BitVec
import Mathlib.Data.Nat.SuccPred
import Mathlib.Tactic.Ring
import Tcc.Machine.Jam

/-! Numbers of two machine words, and the arithmetic on them that carries from the low word to the high
    one. -/

namespace machine.double_word

open machine.jam

variable {w : Nat}

/-- The high and the low word as one number. -/
def pair (hi lo : BitVec w) : Nat := hi.toNat * 2 ^ w + lo.toNat

theorem toNat_append (hi lo : BitVec w) : (hi ++ lo).toNat = pair hi lo := by
  rw [BitVec.toNat_append, pair, Nat.shiftLeft_eq, or_eq_add (Dvd.intro_left _ rfl) lo.isLt]

theorem pair_lt (hi lo : BitVec w) : pair hi lo < 2 ^ (w + w) := by
  rw [← toNat_append]
  exact (hi ++ lo).isLt

theorem pair_zero_left (lo : BitVec w) : pair 0 lo = lo.toNat := by
  have hzero : (0 : BitVec w).toNat = 0 := BitVec.toNat_zero
  rw [pair, hzero, Nat.zero_mul, Nat.zero_add]

theorem pair_eq_zero (hi lo : BitVec w) : pair hi lo = 0 ↔ hi = 0 ∧ lo = 0 := by
  have hpos := Nat.two_pow_pos w
  unfold pair
  rw [Nat.add_eq_zero_iff, Nat.mul_eq_zero]
  simp only [hpos.ne', or_false]
  constructor
  · rintro ⟨hhi, hlo⟩
    exact ⟨BitVec.eq_of_toNat_eq hhi, BitVec.eq_of_toNat_eq hlo⟩
  · rintro ⟨rfl, rfl⟩
    exact ⟨rfl, rfl⟩

theorem shl_append (hi lo : BitVec w) {n : Nat} (hn : n ≤ w) :
    (hi <<< n ||| lo >>> (w - n)) ++ (lo <<< n) = (hi ++ lo) <<< n := by
  refine BitVec.eq_of_getLsbD_eq fun i hi' => ?_
  simp only [BitVec.getLsbD_append, BitVec.getLsbD_shiftLeft, BitVec.getLsbD_or, BitVec.getLsbD_ushiftRight]
  by_cases hlow : i < w
  · have hsub : i - n < w := by omega
    simp [hlow, hsub, hi']
  · by_cases hcarry : i - w < n
    · have hsub : i - n < w := by omega
      have hidx : w - n + (i - w) = i - n := by omega
      have hge : ¬ i < n := by omega
      simp [hlow, hsub, hcarry, hidx, hge, hi']
    · have hsub : ¬ i - n < w := by omega
      have hidx : i - w - n = i - n - w := by omega
      have hout : w ≤ w - n + (i - w) := by omega
      have hge : ¬ i < n := by omega
      have hlt : i - w < w := by omega
      simp [hlow, hsub, hcarry, hidx, hge, hlt, hi', BitVec.getLsbD_of_ge _ _ hout]

theorem shr_append (hi lo : BitVec w) {n : Nat} (hn : n ≤ w) :
    (hi >>> n) ++ (lo >>> n ||| hi <<< (w - n)) = (hi ++ lo) >>> n := by
  refine BitVec.eq_of_getLsbD_eq fun i hi' => ?_
  simp only [BitVec.getLsbD_append, BitVec.getLsbD_shiftLeft, BitVec.getLsbD_or, BitVec.getLsbD_ushiftRight]
  by_cases hlow : i < w
  · by_cases hcarry : n + i < w
    · have hlt : i < w - n := by omega
      simp [hlow, hcarry, hlt]
    · have hidx : i - (w - n) = n + i - w := by omega
      have hge : ¬ i < w - n := by omega
      simp [hlow, hcarry, hidx, hge, BitVec.getLsbD_of_ge _ _ (Nat.not_lt.mp hcarry)]
  · have hge : ¬ n + i < w := by omega
    have hidx : n + (i - w) = n + i - w := by omega
    simp [hlow, hge, hidx]

/-- Shifting the pair to the left, where nothing is shifted out. -/
theorem pair_shl (hi lo : BitVec w) {n : Nat} (hn : n ≤ w) (hlt : pair hi lo * 2 ^ n < 2 ^ (w + w)) :
    pair (hi <<< n ||| lo >>> (w - n)) (lo <<< n) = pair hi lo * 2 ^ n := by
  rw [← toNat_append, shl_append hi lo hn, BitVec.toNat_shiftLeft, toNat_append, Nat.shiftLeft_eq,
    Nat.mod_eq_of_lt hlt]

theorem pair_shr (hi lo : BitVec w) {n : Nat} (hn : n ≤ w) :
    pair (hi >>> n) (lo >>> n ||| hi <<< (w - n)) = pair hi lo / 2 ^ n := by
  rw [← toNat_append, shr_append hi lo hn, BitVec.toNat_ushiftRight, toNat_append, Nat.shiftRight_eq_div_pow]

/-- The carry of the low words goes into the high ones. -/
theorem add_append (hi lo hi' lo' : BitVec w) :
    (hi + hi' + if lo + lo' < lo then 1 else 0) ++ (lo + lo') = (hi ++ lo) + (hi' ++ lo') := by
  rcases Nat.eq_zero_or_pos w with rfl | hw
  · have hlength := Nat.add_zero 0
    exact BitVec.eq_of_toNat_eq (by rw [BitVec.toNat_of_zero_length hlength, BitVec.toNat_of_zero_length hlength])
  have hone : 1 < 2 ^ w := Nat.one_lt_two_pow hw.ne'
  have hlo := lo.isLt
  have hlo' := lo'.isLt
  obtain ⟨c, r, hc, hr, hsum, hcarry⟩ : ∃ c r, c < 2 ^ w ∧ r < 2 ^ w ∧ lo.toNat + lo'.toNat = c * 2 ^ w + r ∧
      (if lo + lo' < lo then (1 : BitVec w) else 0) = BitVec.ofNat w c := by
    rcases Nat.lt_or_ge (lo.toNat + lo'.toNat) (2 ^ w) with hlt | hge
    · refine ⟨0, _, by omega, hlt, by omega, if_neg ?_⟩
      rw [BitVec.lt_def, BitVec.toNat_add, Nat.mod_eq_of_lt hlt]
      omega
    · refine ⟨1, lo.toNat + lo'.toNat - 2 ^ w, hone, by omega, by omega, if_pos ?_⟩
      rw [BitVec.lt_def, BitVec.toNat_add, Nat.mod_eq_sub_mod hge, Nat.mod_eq_of_lt (by omega)]
      omega
  have htotal : pair hi lo + pair hi' lo' = (hi.toNat + hi'.toNat + c) * 2 ^ w + r := by
    unfold pair
    linarith
  refine BitVec.eq_of_toNat_eq ?_
  rw [hcarry, toNat_append, BitVec.toNat_add, toNat_append, toNat_append, htotal, pow_add, Nat.mod_mul,
    Nat.mul_add_mod_of_lt hr, Nat.mul_comm _ (2 ^ w), Nat.mul_add_div (Nat.two_pow_pos w), Nat.div_eq_of_lt hr]
  rw [pair, BitVec.toNat_add, BitVec.toNat_add, BitVec.toNat_add, BitVec.toNat_ofNat, hsum,
    Nat.mul_add_mod_of_lt hr, Nat.mod_eq_of_lt hc, Nat.mod_add_mod, Nat.add_zero]
  ring

theorem lt_sub_iff (x y : BitVec w) : x < x - y ↔ x < y := by
  have hx := x.isLt
  have hy := y.isLt
  rw [BitVec.lt_def, BitVec.lt_def, BitVec.toNat_sub]
  rcases Nat.lt_or_ge x.toNat y.toNat with hlt | hge
  · rw [Nat.mod_eq_of_lt (by omega)]
    omega
  · rw [show 2 ^ w - y.toNat + x.toNat = x.toNat - y.toNat + 2 ^ w by omega, Nat.add_mod_right,
      Nat.mod_eq_of_lt (by omega)]
    omega

/-- The borrow of the low words is taken from the high ones. -/
theorem sub_append (hi lo hi' lo' : BitVec w) :
    (hi - hi' - if lo < lo' then 1 else 0) ++ (lo - lo') = (hi ++ lo) - (hi' ++ lo') := by
  refine (BitVec.sub_eq_iff_eq_add.mpr ?_).symm
  have hback : ∀ c : BitVec w, hi - hi' - c + hi' + c = hi := fun c => by ring
  rw [← add_append, BitVec.sub_add_cancel]
  simp only [lt_sub_iff, hback]

end machine.double_word

/-! Loops over a bound that is halved in each turn. -/

namespace machine.halving

/-- The powers of two below a power, from the greatest one on. -/
def halvings : Nat → List Nat
  | 0 => []
  | n + 1 => 2 ^ n :: halvings n

/-- A relation between the exponent and the state holds at the end if each turn keeps it. -/
theorem foldl_halvings {σ : Type} {step : σ → Nat → σ} {P : Nat → σ → Prop}
    (hstep : ∀ n s, P (n + 1) s → P n (step s (2 ^ n))) {n : Nat} {s : σ} (h : P n s) :
    P 0 ((halvings n).foldl step s) := by
  induction n generalizing s with
  | zero => exact h
  | succ n ih => exact ih (hstep n s h)

end machine.halving

/-! Restoring division: one bit of the quotient in each step. -/

namespace machine.restoring

variable {a b : ℕ}

/-- The remainder and the bits of the quotient so far. -/
def restoring_step (b : ℕ) (s : ℕ × ℕ) : ℕ × ℕ :=
  if b ≤ s.1 then (2 * (s.1 - b), 2 * s.2 + 1) else (2 * s.1, 2 * s.2)

/-- The remainder stays below twice the divisor. -/
theorem restoring_step_lt {s : ℕ × ℕ} (h : s.1 < 2 * b) : (restoring_step b s).1 < 2 * b := by
  unfold restoring_step
  split
  · change 2 * (s.1 - b) < 2 * b
    omega
  · change 2 * s.1 < 2 * b
    omega

theorem restoring_lt (h : a < 2 * b) (n : ℕ) : ((restoring_step b)^[n] (a, 0)).1 < 2 * b := by
  induction n with
  | zero => exact h
  | succ n ih =>
    rw [Function.iterate_succ_apply']
    exact restoring_step_lt ih

/-- Quotient and remainder after some steps. -/
theorem restoring_eq (a b n : ℕ) :
    a * 2 ^ n = 2 * b * ((restoring_step b)^[n] (a, 0)).2 + ((restoring_step b)^[n] (a, 0)).1 ∧
      ((restoring_step b)^[n] (a, 0)).2 < 2 ^ n := by
  induction n with
  | zero => exact ⟨by simp, by simp⟩
  | succ n ih =>
    obtain ⟨heq, hlt⟩ := ih
    rw [Function.iterate_succ_apply']
    obtain ⟨⟨r, q⟩, hs⟩ : ∃ s, (restoring_step b)^[n] (a, 0) = s := ⟨_, rfl⟩
    rw [hs] at heq hlt ⊢
    simp only at heq hlt
    unfold restoring_step
    split
    · rename_i hle
      simp only at hle ⊢
      obtain ⟨d, rfl⟩ := Nat.exists_eq_add_of_le hle
      rw [Nat.add_sub_cancel_left, pow_succ, ← Nat.mul_assoc, heq]
      refine ⟨by ring, by omega⟩
    · rw [pow_succ, ← Nat.mul_assoc, heq]
      refine ⟨by ring, by omega⟩

end machine.restoring
