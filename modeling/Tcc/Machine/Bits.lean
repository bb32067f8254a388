import Mathlib.Algebra.Ring.Int.Defs
import Mathlib.Data.Nat.Cast.Basic
import Mathlib.Order.Basic

namespace machine

theorem toInt_setWidth_eq_bmod {w k : Nat} (hk : k ≤ w) (d : BitVec w) :
    (d.setWidth k).toInt = d.toInt.bmod (2 ^ k) := by
  rw [BitVec.toInt_setWidth, BitVec.toInt_eq_toNat_bmod, Int.bmod_bmod_of_dvd]
  exact Nat.pow_dvd_pow 2 hk

/-- Narrowing a bit vector to its low `k` bits and sign-extending the result
    loses nothing exactly when its signed value fits in `k` bits. -/
theorem signExtend_setWidth_iff {w k : Nat} (hpos : 0 < k) (hk : k ≤ w) (d : BitVec w) :
    (d.setWidth k).signExtend w = d ↔ -2 ^ (k - 1) ≤ d.toInt ∧ d.toInt < 2 ^ (k - 1) := by
  have hext : ((d.setWidth k).signExtend w).toInt = (d.setWidth k).toInt :=
    BitVec.toInt_signExtend_of_le hk
  constructor
  · intro h
    have hval : (d.setWidth k).toInt = d.toInt := by rw [← hext, h]
    rw [← hval]
    exact ⟨BitVec.le_toInt _, BitVec.toInt_lt⟩
  · rintro ⟨hlo, hhi⟩
    apply BitVec.eq_of_toInt_eq
    rw [hext, toInt_setWidth_eq_bmod hk]
    have hpow : (2 : Int) ^ k = 2 * 2 ^ (k - 1) := by
      rw [← pow_succ', Nat.sub_add_cancel hpos]
    apply Int.bmod_eq_of_le_mul_two <;> push_cast <;> omega

/-- A vector with no bit outside `m` is unchanged by masking with `m`. -/
theorem and_eq_self_of_and_not_eq_zero {w : Nat} {y m : BitVec w} (h : y &&& ~~~m = 0#w) :
    y &&& m = y := by
  have hsplit := BitVec.and_or_distrib_left (x := y) (y := m) (z := ~~~m)
  rw [h, BitVec.or_not_self, BitVec.and_allOnes, BitVec.or_zero] at hsplit
  exact hsplit.symm

/-- A 64-bit vector has no bit outside positions `1` to `k - 1` exactly when it
    is an even number below `2 ^ k`. -/
theorem and_not_eq_zero_iff {k : Nat} {y m : BitVec 64}
    (hm : ∀ i < 64, m.getLsbD i = (decide (0 < i) && decide (i < k))) :
    y &&& ~~~m = 0#64 ↔ y.getLsbD 0 = false ∧ y.toNat < 2 ^ k := by
  constructor
  · intro h
    have hclear : ∀ i < 64, m.getLsbD i = false → y.getLsbD i = false := by
      intro i hi hmi
      have hbit := congrArg (BitVec.getLsbD · i) h
      simp only [BitVec.getLsbD_and, BitVec.getLsbD_not, hi, hmi, BitVec.getLsbD_zero] at hbit
      simpa using hbit
    refine ⟨hclear 0 (by omega) (by rw [hm 0 (by omega)]; rfl), ?_⟩
    apply Nat.lt_pow_two_of_testBit
    intro i hi
    by_cases hlt : i < 64
    · exact hclear i hlt (by simp [hm i hlt, Nat.not_lt.mpr hi])
    · exact BitVec.getLsbD_of_ge y i (by omega)
  · rintro ⟨hzero, hlt⟩
    apply BitVec.eq_of_getLsbD_eq
    intro i hi
    simp only [BitVec.getLsbD_and, BitVec.getLsbD_not, hi, hm i hi, decide_true, Bool.true_and,
      BitVec.getLsbD_zero]
    by_cases hpos : 0 < i
    · by_cases hik : i < k
      · simp [hpos, hik]
      · have hhigh : y.getLsbD i = false :=
          Nat.testBit_lt_two_pow (hlt.trans_le (Nat.pow_le_pow_right (by omega) (by omega)))
        simp [hhigh]
    · have hi0 : i = 0 := by omega
      subst hi0
      rw [hzero]
      rfl

/-- The range check the relocations share: biasing a displacement by
    `2 ^ (k - 1)` and masking accepts the even displacements of `k` bits. -/
theorem biased_check_iff {k : Nat} (hlo : 2 ≤ k) (hhi : k ≤ 63) {d b m : BitVec 64}
    (hb : b.toNat = 2 ^ (k - 1))
    (hm : ∀ i < 64, m.getLsbD i = (decide (0 < i) && decide (i < k))) :
    (d + b) &&& ~~~m = 0#64 ↔
      d.getLsbD 0 = false ∧ -2 ^ (k - 1) ≤ d.toInt ∧ d.toInt < 2 ^ (k - 1) := by
  rw [and_not_eq_zero_iff hm]
  have hpow : 2 ^ k = 2 * (2 * 2 ^ (k - 2)) := by
    rw [← pow_succ', ← pow_succ']
    congr 1
    omega
  have hhalf : 2 ^ (k - 1) = 2 * 2 ^ (k - 2) := by
    rw [← pow_succ']
    congr 1
    omega
  have hle : 2 ^ k ≤ 2 ^ 63 := Nat.pow_le_pow_right (by omega) hhi
  have hcast : (2 : Int) ^ (k - 1) = ((2 ^ (k - 1) : Nat) : Int) := by push_cast; rfl
  have hd := d.isLt
  have hsum : (d + b).toNat = (d.toNat + 2 ^ (k - 1)) % 2 ^ 64 := by rw [BitVec.toNat_add, hb]
  have hbit0 : (d + b).getLsbD 0 = d.getLsbD 0 := by
    simp only [BitVec.getLsbD, Nat.testBit_zero, hsum]
    congr 2
    omega
  rw [hbit0, hsum, BitVec.toInt_eq_toNat_cond, hcast]
  apply and_congr_right
  intro _
  rw [hhalf] at *
  generalize 2 ^ (k - 2) = q at *
  split <;> omega

end machine
