import Tcc.Lib.QuadParts

/-! Normalising and shifting fractions. -/

namespace tcc.lib.quad

open machine.ieee machine.jam machine.double_word machine.halving

section normalise

/-- The value is kept, and at most this many bits at the top are zero. -/
def Normalises (e : Int) (m : Nat) (bits : Nat) (s : Int × U128) : Prop :=
  ∃ k : Nat, s.1 = e - k ∧ s.2.toNat = m * 2 ^ k ∧ 2 ^ (128 - bits) ≤ s.2.toNat

theorem Normalises.step {e : Int} {m n : Nat} {s : Int × U128} (h : Normalises e m (2 ^ (n + 1)) s)
    (hn : n ≤ 5) : Normalises e m (2 ^ n) (f3_normalise_step s (2 ^ n)) := by
  obtain ⟨k, hexp, hmnt, hle⟩ := h
  have hbits : 2 ^ n ≤ 2 ^ 5 := Nat.pow_le_pow_right (by decide) hn
  have hpow : 2 ^ (n + 1) = 2 * 2 ^ n := pow_succ' 2 n
  obtain ⟨sh, hsh⟩ : ∃ sh, sh = 2 ^ n := ⟨_, rfl⟩
  rw [← hsh] at hbits hpow ⊢
  rw [hpow] at hle
  have hsplit : 2 ^ (128 - sh) = 2 ^ (64 - sh) * 2 ^ 64 := by
    rw [← pow_add]
    congr 1
    omega
  unfold f3_normalise_step
  split
  · rename_i hzero
    rw [eq_zero_iff, toNat_shr, Nat.div_eq_zero_iff] at hzero
    have hsmall := hzero.resolve_left (Nat.two_pow_pos _).ne'
    have hlow := s.2.x0.isLt
    have hlt : s.2.toNat < 2 ^ (128 - sh) := by
      have hmul := Nat.mul_le_mul_right (2 ^ 64) hsmall
      rw [Nat.succ_mul] at hmul
      rw [U128.toNat_eq, hsplit]
      omega
    have hfits : s.2.toNat * 2 ^ sh < 2 ^ (64 + 64) := by
      calc s.2.toNat * 2 ^ sh < 2 ^ (128 - sh) * 2 ^ sh := Nat.mul_lt_mul_of_pos_right hlt (Nat.two_pow_pos sh)
        _ = 2 ^ (64 + 64) := by
          rw [← pow_add]
          congr 1
          omega
    have hshl : U128.toNat ⟨s.2.x0 <<< sh, s.2.x1 <<< sh ||| s.2.x0 >>> (64 - sh)⟩ = s.2.toNat * 2 ^ sh :=
      pair_shl s.2.x1 s.2.x0 (by omega) hfits
    refine ⟨k + sh, ?_, ?_, ?_⟩
    · push_cast
      omega
    · rw [hshl, hmnt, pow_add, Nat.mul_assoc]
    · have hshift : 2 ^ (128 - sh) = 2 ^ (128 - 2 * sh) * 2 ^ sh := by
        rw [← pow_add]
        congr 1
        omega
      rw [hshl, hshift]
      exact Nat.mul_le_mul_right _ hle
  · rename_i hzero
    rw [eq_zero_iff, toNat_shr, Nat.div_eq_zero_iff, not_or] at hzero
    refine ⟨k, hexp, hmnt, ?_⟩
    rw [U128.toNat_eq, hsplit]
    exact le_trans (Nat.mul_le_mul_right _ (Nat.not_lt.mp hzero.2)) (Nat.le_add_right _ _)

theorem normalises_word (e : Int) {x : U128} (h : x.toNat ≠ 0) :
    Normalises e x.toNat 64 (f3_normalise_word e x) := by
  have hlow := x.x0.isLt
  unfold f3_normalise_word
  split
  · rename_i hzero
    rw [eq_zero_iff] at hzero
    have hx : x.toNat = x.x0.toNat := by
      rw [U128.toNat_eq, hzero, Nat.zero_mul, Nat.zero_add]
    have hword : U128.toNat ⟨0, x.x0⟩ = x.x0.toNat * 2 ^ 64 := Nat.add_zero _
    refine ⟨64, rfl, ?_, ?_⟩
    · rw [hword, hx]
    · rw [hword]
      omega
  · rename_i hzero
    rw [eq_zero_iff] at hzero
    refine ⟨0, by simp, by simp, ?_⟩
    simp only [U128.toNat_eq] at *
    omega

/-- Normalising shifts the leading bit to the top. -/
theorem f3_normalise_spec (e : Int) {x : U128} (h : x.toNat ≠ 0) :
    ∃ k : Nat, (f3_normalise e x).1 = e - k ∧ (f3_normalise e x).2.toNat = x.toNat * 2 ^ k ∧
      2 ^ 127 ≤ (f3_normalise e x).2.toNat := by
  have hne : ¬ x.x0 ||| x.x1 = 0 := fun hzero => h (x.toNat_eq_zero.mpr hzero)
  rw [f3_normalise, if_neg hne]
  have hloop := foldl_halvings (P := fun n s => n ≤ 6 ∧ Normalises e x.toNat (2 ^ n) s)
    (fun n s hs => ⟨by omega, hs.2.step (by omega)⟩) ⟨le_refl 6, normalises_word e h⟩
  exact hloop.2

end normalise

section shift

/-- A condition as the last bit. -/
theorem pair_or_word (hi lo : BitVec 64) {b : Bool} {p : Prop} [Decidable p] (hb : (!b) = true ↔ p) :
    pair hi (lo ||| word b) = pair hi lo ||| if p then 0 else 1 := by
  have hor : ∀ y : BitVec 64, pair hi y = hi.toNat * 2 ^ 64 ||| y.toNat := fun y =>
    (or_eq_add (Dvd.intro_left _ rfl) y.isLt).symm
  have hword : (word b).toNat = if p then 0 else 1 := by
    by_cases hp : p
    · rw [if_pos hp, toNat_word, if_neg (by simpa using hb.mpr hp)]
    · rw [if_neg hp, toNat_word, if_pos (by simpa using mt hb.mp hp)]
  rw [hor, hor, BitVec.toNat_or, hword, Nat.or_assoc]

theorem not_bne_zero (x : BitVec 64) : (!(x != 0)) = true ↔ x.toNat = 0 := by
  rw [bne, Bool.not_not, beq_iff_eq, eq_zero_iff]

theorem f3_sticky_shift_bits_spec {sh : Int} (x : U128) (hsh : 0 ≤ sh) (hlt : sh < 64) :
    (f3_sticky_shift_bits sh x).toNat = jam_shift sh.toNat x.toNat := by
  obtain ⟨n, rfl⟩ := Int.eq_ofNat_of_zero_le hsh
  unfold f3_sticky_shift_bits
  split
  · rename_i hpos
    have hn : n ≤ 64 := by omega
    have hlost : (!(x.x0 <<< (64 - n) != 0)) = true ↔ x.toNat % 2 ^ n = 0 := by
      have hsplit : 2 ^ 64 = 2 ^ n * 2 ^ (64 - n) := by
        rw [← pow_add]
        congr 1
        omega
      have hmod : x.toNat % 2 ^ n = x.x0.toNat % 2 ^ n := by
        rw [U128.toNat_eq, hsplit, Nat.mul_left_comm, Nat.mul_add_mod]
      rw [not_bne_zero, ← eq_zero_iff, shl_eq_zero_iff _ hn, hmod]
    rw [U128.toNat, Int.toNat_natCast, pair_or_word _ _ hlost, pair_shr _ _ hn]
    rfl
  · have hzero : n = 0 := by omega
    rw [hzero]
    exact (jam_shift_zero _).symm

/-- Shifting sets the last bit if a bit gets lost. -/
theorem f3_sticky_shift_spec {sh : Int} (x : U128) (hsh : 0 ≤ sh) :
    (f3_sticky_shift sh x).toNat = jam_shift sh.toNat x.toNat := by
  have hlow := x.x0.isLt
  unfold f3_sticky_shift
  split
  · rename_i hge
    have hlt : x.toNat < 2 ^ sh.toNat := lt_of_lt_of_le x.toNat_lt (Nat.pow_le_pow_right (by decide) (by omega))
    have hzero : (!(x.x0 ||| x.x1 != 0)) = true ↔ x.toNat = 0 := by
      rw [not_bne_zero, ← eq_zero_iff, U128.toNat_eq_zero]
    have hword := pair_or_word 0 0 hzero
    have hor : 0 ||| word (x.x0 ||| x.x1 != 0) = word (x.x0 ||| x.x1 != 0) := BitVec.zero_or
    rw [hor, pair_zero_left 0] at hword
    rw [jam_shift, Nat.div_eq_of_lt hlt, Nat.mod_eq_of_lt hlt]
    exact hword
  · split
    · rename_i hlt hge
      have hzero : (!(x.x0 != 0)) = true ↔ x.toNat % 2 ^ 64 = 0 := by
        rw [not_bne_zero, U128.toNat_eq]
        omega
      have hdiv : x.toNat / 2 ^ 64 = x.x1.toNat := by
        rw [U128.toNat_eq]
        omega
      have hword : U128.toNat ⟨x.x1 ||| word (x.x0 != 0), 0⟩ = jam_shift 64 x.toNat := by
        rw [U128.toNat, pair_or_word _ _ hzero, pair_zero_left, jam_shift, hdiv]
      have hsum : 64 + (sh - 64).toNat = sh.toNat := by omega
      rw [f3_sticky_shift_bits_spec _ (by omega) (by omega), hword, jam_shift_jam_shift, hsum]
    · exact f3_sticky_shift_bits_spec x hsh (by omega)

end shift

end tcc.lib.quad
