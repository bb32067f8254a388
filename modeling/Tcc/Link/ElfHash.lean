import Mathlib.Data.List.Induction
import Tcc.Link.Named

/-! The hash of symbol names. The function computes in an `unsigned long` of the host. -/

namespace tcc.elf

inductive Host where
  | long32
  | long64
deriving DecidableEq

/-- The width of `unsigned long`. -/
def Host.bits : Host → Nat
  | long32 => 32
  | long64 => 64

section hash

variable (w : Nat)

/-- The four highest of 32 bits are folded in and cleared. -/
def fold (h : BitVec w) : BitVec w :=
  let g := h &&& 0xf0000000#w
  (if g ≠ 0 then h ^^^ (g >>> 24) else h) &&& ~~~g

def elf_hash (name : List (BitVec 8)) : BitVec w :=
  name.foldl (fun h c => fold w ((h <<< 4) + c.setWidth w)) 0

end hash

/-- One step of the hash function of the System V ABI, in 32 bits. -/
def gabi_step (h : Nat) (c : BitVec 8) : Nat :=
  let s := (16 * h + c.toNat) % 2 ^ 32
  (s % 2 ^ 28) ^^^ (s / 2 ^ 28 * 16)

def gabi_hash (name : List (BitVec 8)) : Nat := name.foldl gabi_step 0

theorem elf_hash_concat (w : Nat) (name : List (BitVec 8)) (c : BitVec 8) :
    elf_hash w (name ++ [c]) = fold w ((elf_hash w name <<< 4) + c.setWidth w) := by
  rw [elf_hash, List.foldl_append]
  rfl

theorem gabi_hash_concat (name : List (BitVec 8)) (c : BitVec 8) :
    gabi_hash (name ++ [c]) = gabi_step (gabi_hash name) c := by
  rw [gabi_hash, List.foldl_append]
  rfl

theorem gabi_step_lt (h : Nat) (c : BitVec 8) : gabi_step h c < 2 ^ 28 := by
  refine Nat.xor_lt_two_pow (Nat.mod_lt _ (by decide)) ?_
  have hs : (16 * h + c.toNat) % 2 ^ 32 < 2 ^ 32 := Nat.mod_lt _ (by decide)
  omega

theorem gabi_hash_lt (name : List (BitVec 8)) : gabi_hash name < 2 ^ 28 := by
  rcases List.eq_nil_or_concat name with rfl | ⟨name, c, rfl⟩
  · decide
  · rw [List.concat_eq_append, gabi_hash_concat]
    exact gabi_step_lt _ c

section bits

variable {w : Nat}

/-- The test for `g` makes no difference. -/
theorem fold_eq (h : BitVec w) :
    fold w h = (h ^^^ ((h &&& 0xf0000000#w) >>> 24)) &&& ~~~(h &&& 0xf0000000#w) := by
  rw [fold]
  split
  · rfl
  · rename_i hg
    rw [not_not.mp hg]
    simp

theorem getLsbD_mask {i : Nat} (hi : i < w) :
    (0xf0000000#w).getLsbD i = decide (28 ≤ i ∧ i < 32) := by
  have hmask : (0xf0000000 : Nat) = (2 ^ 4 - 1) * 2 ^ 28 := by decide
  rw [BitVec.getLsbD_ofNat, hmask, Nat.testBit_mul_two_pow, Nat.testBit_two_pow_sub_one]
  by_cases h : 28 ≤ i
  · simp [hi, h]
    omega
  · simp [h]

/-- The bits of the fold: the highest four of 32 are cleared and added to those from the fourth on. -/
theorem getLsbD_fold (h : BitVec w) {i : Nat} (hi : i < w) :
    (fold w h).getLsbD i =
      ((h.getLsbD i ^^ (decide (4 ≤ i ∧ i < 8) && h.getLsbD (24 + i))) && !decide (28 ≤ i ∧ i < 32)) := by
  rw [fold_eq, BitVec.getLsbD_and, BitVec.getLsbD_xor, BitVec.getLsbD_not, BitVec.getLsbD_ushiftRight,
    BitVec.getLsbD_and, BitVec.getLsbD_and, getLsbD_mask hi]
  have hhigh : (h.getLsbD (24 + i) && (0xf0000000#w).getLsbD (24 + i)) =
      (decide (4 ≤ i ∧ i < 8) && h.getLsbD (24 + i)) := by
    by_cases hw : 24 + i < w
    · rw [getLsbD_mask hw, Bool.and_comm]
      congr 1
      exact decide_eq_decide.mpr ⟨fun h => by omega, fun h => by omega⟩
    · rw [BitVec.getLsbD_of_ge _ _ (by omega), Bool.false_and, Bool.and_false]
  rw [hhigh, decide_eq_true hi]
  by_cases htop : 28 ≤ i ∧ i < 32
  · have hlow : ¬ (4 ≤ i ∧ i < 8) := by omega
    simp [htop, hlow]
  · simp [htop]

/-- In 32 bits the fold is that of the ABI. -/
theorem fold_toNat (h : BitVec 32) : (fold 32 h).toNat = (h.toNat % 2 ^ 28) ^^^ (h.toNat / 2 ^ 28 * 2 ^ 4) := by
  apply Nat.eq_of_testBit_eq
  intro i
  rw [Nat.testBit_xor, Nat.testBit_mod_two_pow, Nat.testBit_mul_two_pow, Nat.testBit_div_two_pow]
  by_cases hi : i < 32
  · have hbits := getLsbD_fold h hi
    rw [BitVec.getLsbD, BitVec.getLsbD, BitVec.getLsbD] at hbits
    rw [hbits]
    by_cases h4 : 4 ≤ i
    · rw [show i - 4 + 28 = 24 + i by omega]
      by_cases h8 : i < 8
      · simp [h4, h8, show i < 28 by omega, show ¬ 28 ≤ i by omega]
      · have hout : h.toNat.testBit (24 + i) = false := Nat.testBit_lt_two_pow
          (lt_of_lt_of_le h.isLt (Nat.pow_le_pow_right (by decide) (by omega)))
        by_cases h28 : i < 28
        · simp [h8, h28, hout, show ¬ 28 ≤ i by omega]
        · simp [h28, hout, hi, show 28 ≤ i by omega]
    · simp [h4, show i < 28 by omega, show ¬ 28 ≤ i by omega]
  · have hfold : (fold 32 h).toNat.testBit i = false := Nat.testBit_lt_two_pow
      (lt_of_lt_of_le (fold 32 h).isLt (Nat.pow_le_pow_right (by decide) (by omega)))
    have hout : h.toNat.testBit (i - 4 + 28) = false := Nat.testBit_lt_two_pow
      (lt_of_lt_of_le h.isLt (Nat.pow_le_pow_right (by decide) (by omega)))
    simp [hfold, hout, show ¬ i < 28 by omega]

theorem fold_setWidth (h : BitVec 64) : (fold 64 h).setWidth 32 = fold 32 (h.setWidth 32) := by
  apply BitVec.eq_of_getLsbD_eq
  intro i hi
  rw [getLsbD_fold _ hi, BitVec.getLsbD_setWidth, getLsbD_fold h (by omega), BitVec.getLsbD_setWidth,
    BitVec.getLsbD_setWidth, decide_eq_true hi, Bool.true_and, Bool.true_and]
  by_cases h8 : 4 ≤ i ∧ i < 8
  · rw [decide_eq_true (show 24 + i < 32 by omega), Bool.true_and]
  · rw [decide_eq_false h8, Bool.false_and, Bool.false_and]

theorem fold_high (h : BitVec 64) : fold 64 h >>> 32 = h >>> 32 := by
  apply BitVec.eq_of_getLsbD_eq
  intro i hi
  rw [BitVec.getLsbD_ushiftRight, BitVec.getLsbD_ushiftRight]
  by_cases hlt : 32 + i < 64
  · rw [getLsbD_fold h hlt, decide_eq_false (by omega), decide_eq_false (by omega)]
    simp
  · rw [BitVec.getLsbD_of_ge _ _ (by omega), BitVec.getLsbD_of_ge _ _ (by omega)]

end bits

/-- The low half of a wide hash is the narrow one. -/
theorem elf_hash_setWidth (name : List (BitVec 8)) : (elf_hash 64 name).setWidth 32 = elf_hash 32 name := by
  induction name using List.reverseRecOn with
  | nil => rfl
  | append_singleton name c ih =>
    rw [elf_hash_concat, elf_hash_concat, fold_setWidth, ← ih]
    congr 1
    apply BitVec.eq_of_toNat_eq
    simp only [BitVec.toNat_setWidth, BitVec.toNat_add, BitVec.toNat_shiftLeft, Nat.shiftLeft_eq]
    omega

theorem elf_hash_narrow (name : List (BitVec 8)) : (elf_hash 32 name).toNat = gabi_hash name := by
  induction name using List.reverseRecOn with
  | nil => rfl
  | append_singleton name c ih =>
    have hs : ((elf_hash 32 name <<< 4) + c.setWidth 32).toNat = (16 * gabi_hash name + c.toNat) % 2 ^ 32 := by
      rw [BitVec.toNat_add, BitVec.toNat_shiftLeft, ih, BitVec.toNat_setWidth, Nat.shiftLeft_eq]
      have := c.isLt
      omega
    rw [elf_hash_concat, fold_toNat, hs, gabi_hash_concat]
    rfl

section carries

/-- The part of a wide hash that a narrow one has no room for. -/
def surplus (name : List (BitVec 8)) : Nat := (elf_hash 64 name).toNat / 2 ^ 32

theorem elf_hash_wide (name : List (BitVec 8)) :
    (elf_hash 64 name).toNat = surplus name * 2 ^ 32 + gabi_hash name := by
  have hlow : (elf_hash 64 name).toNat % 2 ^ 32 = gabi_hash name := by
    rw [← elf_hash_narrow, ← elf_hash_setWidth, BitVec.toNat_setWidth]
  rw [← hlow, surplus]
  exact (Nat.div_add_mod' _ _).symm

/-- A carry out of the 32 bits stays, and is moved up by every character that follows. -/
theorem surplus_concat (name : List (BitVec 8)) (c : BitVec 8) :
    surplus (name ++ [c]) = (16 * surplus name + (16 * gabi_hash name + c.toNat) / 2 ^ 32) % 2 ^ 32 := by
  have hhigh := congrArg BitVec.toNat (fold_high ((elf_hash 64 name <<< 4) + c.setWidth 64))
  rw [BitVec.toNat_ushiftRight, BitVec.toNat_ushiftRight, Nat.shiftRight_eq_div_pow, Nat.shiftRight_eq_div_pow,
    BitVec.toNat_add, BitVec.toNat_shiftLeft, BitVec.toNat_setWidth, Nat.shiftLeft_eq, elf_hash_wide] at hhigh
  rw [surplus, elf_hash_concat, hhigh]
  have := c.isLt
  omega

/-- None of the last `k` characters carries. -/
def NoCarry (k : Nat) (name : List (BitVec 8)) : Prop :=
  ∀ pre c post, name = pre ++ c :: post → post.length < k → 16 * gabi_hash pre + c.toNat < 2 ^ 32

theorem noCarry_concat {k : Nat} {name : List (BitVec 8)} {c : BitVec 8} :
    NoCarry (k + 1) (name ++ [c]) ↔ 16 * gabi_hash name + c.toNat < 2 ^ 32 ∧ NoCarry k name := by
  constructor
  · intro h
    refine ⟨h name c [] rfl (Nat.succ_pos k), fun pre d post heq hlt => ?_⟩
    refine h pre d (post ++ [c]) ?_ ?_
    · rw [heq, List.append_assoc, List.cons_append]
    · rw [List.length_append, List.length_singleton]
      omega
  · rintro ⟨hlast, hall⟩ pre d post heq hlt
    rcases List.eq_nil_or_concat post with rfl | ⟨post, e, rfl⟩
    · obtain ⟨rfl, hc⟩ := List.append_inj' heq rfl
      rw [← List.head_eq_of_cons_eq hc]
      exact hlast
    · rw [List.concat_eq_append, ← List.cons_append, ← List.append_assoc] at heq
      obtain ⟨hname, -⟩ := List.append_inj' heq rfl
      rw [List.concat_eq_append, List.length_append, List.length_singleton] at hlt
      exact hall pre d post hname (by omega)

theorem surplus_mod_eq_zero_iff {k : Nat} (hk : k ≤ 8) (name : List (BitVec 8)) :
    surplus name % 16 ^ k = 0 ↔ NoCarry k name := by
  induction name using List.reverseRecOn generalizing k with
  | nil =>
    refine iff_of_true (Nat.zero_mod _) fun pre c post heq _ => ?_
    exact absurd heq (by simp)
  | append_singleton name c ih =>
    cases k with
    | zero => exact iff_of_true (Nat.mod_one _) fun pre d post _ hlt => absurd hlt (Nat.not_lt_zero _)
    | succ k =>
      have hdvd : 16 ^ (k + 1) ∣ 2 ^ 32 := by
        rw [show (2 : Nat) ^ 32 = 16 ^ 8 by decide]
        exact Nat.pow_dvd_pow 16 hk
      rw [noCarry_concat, ← ih (by omega), surplus_concat, Nat.mod_mod_of_dvd _ hdvd]
      have hlow := gabi_hash_lt name
      have hc := c.isLt
      obtain ⟨carry, hcarry⟩ : ∃ x, (16 * gabi_hash name + c.toNat) / 2 ^ 32 = x := ⟨_, rfl⟩
      have hle : carry ≤ 1 := by omega
      have hiff : 16 * gabi_hash name + c.toNat < 2 ^ 32 ↔ carry = 0 := by omega
      rw [hcarry, hiff, ← Nat.dvd_iff_mod_eq_zero, ← Nat.dvd_iff_mod_eq_zero]
      constructor
      · intro hsum
        have h16 : 16 ∣ 16 * surplus name + carry := (dvd_pow_self 16 (Nat.succ_ne_zero k)).trans hsum
        have hzero : carry = 0 := by omega
        rw [hzero, Nat.add_zero, pow_succ, Nat.mul_comm] at hsum
        exact ⟨hzero, Nat.dvd_of_mul_dvd_mul_left (by decide) hsum⟩
      · rintro ⟨hzero, hdvd⟩
        rw [hzero, Nat.add_zero, pow_succ, Nat.mul_comm]
        exact Nat.mul_dvd_mul_left 16 hdvd

end carries

/-- The hash is that of the ABI on every host with 32 bits, and on one with 64 just where none of the
    last eight characters carries out of 32 bits. -/
theorem elf_hash_eq_iff (host : Host) (name : Name) :
    ((elf_hash host.bits name.1).toNat = gabi_hash name.1 ∧ (elf_hash host.bits name.1).toNat < 2 ^ 28) ↔
      (host = .long64 → NoCarry 8 name.1) := by
  have hlt := gabi_hash_lt name.1
  cases host with
  | long32 =>
    have hnarrow : (elf_hash Host.long32.bits name.1).toNat = gabi_hash name.1 := elf_hash_narrow name.1
    exact iff_of_true ⟨hnarrow, hnarrow ▸ hlt⟩ fun h => absurd h (by decide)
  | long64 =>
    have hwide : (elf_hash Host.long64.bits name.1).toNat = surplus name.1 * 2 ^ 32 + gabi_hash name.1 :=
      elf_hash_wide name.1
    have hsurplus : surplus name.1 < 16 ^ 8 := by
      rw [surplus]
      have := (elf_hash 64 name.1).isLt
      omega
    rw [hwide, ← surplus_mod_eq_zero_iff le_rfl, Nat.mod_eq_of_lt hsurplus]
    constructor
    · rintro ⟨heq, -⟩ -
      omega
    · intro hzero
      rw [hzero rfl, Nat.zero_mul, Nat.zero_add]
      exact ⟨rfl, hlt⟩

/-- `hyhxycmw` has a hash with a bit more. -/
theorem elf_hash_long64 : ¬ ((elf_hash Host.long64.bits
    [104#8, 121#8, 104#8, 120#8, 121#8, 99#8, 109#8, 119#8]).toNat =
      gabi_hash [104#8, 121#8, 104#8, 120#8, 121#8, 99#8, 109#8, 119#8]) := by
  decide

end tcc.elf
