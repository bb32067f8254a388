import Mathlib.Tactic.Ring
import Mathlib.Data.BitVec
import Tcc.Gen.Arm64.Bimm

/-! The instructions that move a constant to a register. -/

namespace tcc.arm64

open machine.a64

/-- The word of `a | r | f` as it is stored. -/
def word (a r f : BitVec 64) : Word := (a ||| r ||| f).setWidth 32

/-- The instruction that moves `x` to `r`, or zero when no single one does. -/
def arm64_movi (r : Nat) (x : BitVec 64) : Word :=
  let m := 0xffff#64
  let r := BitVec.ofNat 64 r
  let e32 := arm64_encode_bimm64 (x ||| x <<< 32).toNat
  let e64 := arm64_encode_bimm64 x.toNat
  if x &&& ~~~m = 0#64 then word 0x52800000#64 r (x <<< 5)
  else if x &&& ~~~(m <<< 16) = 0#64 then word 0x52a00000#64 r (x >>> 11)
  else if x &&& ~~~(m <<< 32) = 0#64 then word 0xd2c00000#64 r (x >>> 27)
  else if x &&& ~~~(m <<< 48) = 0#64 then word 0xd2e00000#64 r (x >>> 43)
  else if x &&& ~~~m = m <<< 16 then word 0x12800000#64 r (~~~x <<< 5 &&& 0x1fffe0#64)
  else if x &&& ~~~(m <<< 16) = m then word 0x12a00000#64 r (~~~x >>> 11 &&& 0x1fffe0#64)
  else if ~~~(x ||| m) = 0#64 then word 0x92800000#64 r (~~~x <<< 5 &&& 0x1fffe0#64)
  else if ~~~(x ||| m <<< 16) = 0#64 then word 0x92a00000#64 r (~~~x >>> 11 &&& 0x1fffe0#64)
  else if ~~~(x ||| m <<< 32) = 0#64 then word 0x92c00000#64 r (~~~x >>> 27 &&& 0x1fffe0#64)
  else if ~~~(x ||| m <<< 48) = 0#64 then word 0x92e00000#64 r (~~~x >>> 43 &&& 0x1fffe0#64)
  else if x >>> 32 = 0#64 ∧ 0 ≤ e32 then word 0x320003e0#64 r (BitVec.ofInt 64 e32 <<< 10)
  else if 0 ≤ e64 then word 0xb20003e0#64 r (BitVec.ofInt 64 e64 <<< 10)
  else 0#32

/-- `x >> i & 0xffff` -/
def half (x : BitVec 64) (i : Nat) : BitVec 64 := x >>> i &&& 0xffff#64

/-- The rest of the halves, for those that `x1` does not have as zero. -/
def movks (r : BitVec 64) (x x1 : BitVec 64) : List Nat → List Word
  | [] => []
  | i :: is =>
    if half x1 i ≠ 0#64 then word 0xf2800000#64 r
      (half x i <<< 5 ||| BitVec.ofNat 64 (i <<< 17)) :: movks r x x1 is
    else movks r x x1 is

/-- The first half that `x1` does not have as zero, and the rest. -/
def movs (mov1 r : BitVec 64) (x x1 : BitVec 64) : List Nat → List Word
  | [] => []
  | i :: is =>
    if half x1 i ≠ 0#64 then word mov1 r (half x1 i <<< 5 ||| BitVec.ofNat 64 (i <<< 17)) :: movks r x x1 is
    else movs mov1 r x x1 is

/-- `for (i = 0; i < 64; i += 16)` -/
def positions : List Nat := [0, 16, 32, 48]

/-- The words that `arm64_movimm` emits. -/
def arm64_movimm (r : Nat) (x : BitVec 64) : List Word :=
  let i := arm64_movi r x
  if i ≠ 0#32 then [i]
  else
    let z := positions.countP fun i => half x i = 0#64
    let m := positions.countP fun i => half (~~~x) i = 0#64
    if z < m then movs 0x92800000#64 (BitVec.ofNat 64 r) x (~~~x) positions
    else movs 0xd2800000#64 (BitVec.ofNat 64 r) x x positions

section halves

variable {x : BitVec 64}

/-- The halves of a number as they are counted from the lowest. -/
def part (v j : Nat) : Nat := v / 2 ^ (16 * j) % 2 ^ 16

theorem half_toNat (x : BitVec 64) (j : Nat) : (half x (16 * j)).toNat = part x.toNat j := by
  rw [half, BitVec.toNat_and, BitVec.toNat_ushiftRight, Nat.shiftRight_eq_div_pow]
  exact Nat.and_two_pow_sub_one_eq_mod _ 16

theorem and_shifted (v k : Nat) : v &&& (2 ^ 16 - 1) <<< k = v / 2 ^ k % 2 ^ 16 * 2 ^ k := by
  have hsplit : v &&& (2 ^ 16 - 1) <<< k = (v >>> k &&& (2 ^ 16 - 1)) <<< k := by
    rw [Nat.shiftLeft_and_distrib]
    apply Nat.eq_of_testBit_eq
    intro i
    simp only [Nat.testBit_and, Nat.testBit_shiftLeft, Nat.testBit_shiftRight]
    by_cases hi : k ≤ i
    · simp [hi]
    · simp [hi]
  rw [hsplit, Nat.and_two_pow_sub_one_eq_mod, Nat.shiftRight_eq_div_pow, Nat.shiftLeft_eq]

/-- The mask of a half. -/
def mask (j : Nat) : BitVec 64 := 0xffff#64 <<< (16 * j)

theorem and_mask_toNat (x : BitVec 64) {j : Nat} (hj : j < 4) :
    (x &&& mask j).toNat = part x.toNat j * 2 ^ (16 * j) := by
  have hmask : (mask j).toNat = (2 ^ 16 - 1) <<< (16 * j) := by
    interval_cases j <;> rfl
  rw [BitVec.toNat_and, hmask, and_shifted]
  rfl

/-- A number is the sum of a half and of the rest. -/
theorem toNat_mask (x : BitVec 64) {j : Nat} (hj : j < 4) :
    x.toNat = part x.toNat j * 2 ^ (16 * j) + (x &&& ~~~mask j).toNat := by
  have hdisjoint : x &&& mask j &&& (x &&& ~~~mask j) = 0#64 := by
    ext i hi
    simp only [BitVec.getElem_and, BitVec.getElem_not, BitVec.getElem_zero]
    cases x[i] <;> cases (mask j)[i] <;> rfl
  have hwhole : x = (x &&& mask j) ||| (x &&& ~~~mask j) := by
    ext i hi
    simp only [BitVec.getElem_or, BitVec.getElem_and, BitVec.getElem_not]
    cases x[i] <;> cases (mask j)[i] <;> rfl
  calc x.toNat = ((x &&& mask j) + (x &&& ~~~mask j)).toNat := by
        rw [BitVec.add_eq_or_of_and_eq_zero _ _ hdisjoint, ← hwhole]
    _ = (x &&& mask j).toNat + (x &&& ~~~mask j).toNat := BitVec.toNat_add_of_and_eq_zero hdisjoint
    _ = part x.toNat j * 2 ^ (16 * j) + (x &&& ~~~mask j).toNat := by rw [and_mask_toNat x hj]

/-- A number with one half that is not zero. -/
theorem toNat_of_zero {j : Nat} (hj : j < 4) (hzero : x &&& ~~~mask j = 0#64) :
    x.toNat = part x.toNat j * 2 ^ (16 * j) := by
  have hsum := toNat_mask x hj
  rwa [hzero, BitVec.toNat_zero, Nat.add_zero] at hsum

/-- A number whose complement has one half that is not zero. -/
theorem toNat_of_ones {j : Nat} (hj : j < 4) (hones : ~~~(x ||| mask j) = 0#64) :
    x.toNat = 2 ^ 64 - 1 - part (~~~x).toNat j * 2 ^ (16 * j) := by
  have hnot : ~~~x &&& ~~~mask j = 0#64 := by rw [← BitVec.not_or, hones]
  have hsum := toNat_of_zero hj hnot
  rw [← hsum, BitVec.toNat_not]
  have hlt := x.isLt
  omega

end halves

section words

variable {r : Nat}

/-- The fields of a word do not overlap. -/
theorem word_toNat {a f : BitVec 64} {base c : Nat} (ha : a.toNat = base * 2 ^ 21) (hbase : base < 2 ^ 11)
    (hr : r < 31)
    (hf : f.toNat = c * 2 ^ 5) (hc : c < 2 ^ 16) :
    (word a (BitVec.ofNat 64 r) f).toNat = base * 2 ^ 21 + c * 2 ^ 5 + r := by
  have hrn : (BitVec.ofNat 64 r).toNat = r := by
    rw [BitVec.toNat_ofNat]
    omega
  rw [word, BitVec.toNat_setWidth, BitVec.toNat_or, BitVec.toNat_or, ha, hf, hrn, Nat.or_assoc, Nat.or_comm r,
    Nat.mul_comm c, ← Nat.two_pow_add_eq_or_of_lt (show r < 2 ^ 5 by omega), Nat.mul_comm base,
    ← Nat.two_pow_add_eq_or_of_lt (show 2 ^ 5 * c + r < 2 ^ 21 by omega)]
  omega

/-- The word of a move of an immediate. -/
theorem word_move {a f : BitVec 64} {sf opc hw c : Nat} (ha : a.toNat = move_word sf opc hw 0 0)
    (hsf : sf < 2)
    (hopc : opc < 4) (hhw : hw < 4) (hr : r < 31) (hf : f.toNat = c * 2 ^ 5) (hc : c < 2 ^ 16) :
    (word a (BitVec.ofNat 64 r) f).toNat = move_word sf opc hw c r := by
  have hbase : a.toNat = (sf * 2 ^ 10 + opc * 2 ^ 8 + 0b100101 * 2 ^ 2 + hw) * 2 ^ 21 := by
    rw [ha, move_word]
    omega
  rw [word_toNat hbase (by omega) hr hf hc, move_word]
  omega

/-- The word of `ORR` with an immediate. -/
theorem word_orr {a f : BitVec 64} {sf n : Nat} (ha : a.toNat = sf * 2 ^ 31 + 0x320003e0) (hsf : sf < 2)
    (hr : r < 31) (hf : f.toNat = n * 2 ^ 10) (hn : n < 2 ^ 13) :
    (word a (BitVec.ofNat 64 r) f).toNat =
      sf * 2 ^ 31 + 2 ^ 29 + 0b100100 * 2 ^ 23 + n * 2 ^ 10 + 31 * 2 ^ 5 + r := by
  have hrn : (BitVec.ofNat 64 r).toNat = r := by
    rw [BitVec.toNat_ofNat]
    omega
  have hlow : a.toNat ||| r = 2 ^ 23 * (sf * 2 ^ 8 + 100) ||| (31 * 2 ^ 5 + r) := by
    rw [ha, ← Nat.two_pow_add_eq_or_of_lt (show 31 * 2 ^ 5 + r < 2 ^ 23 by omega),
      show sf * 2 ^ 31 + 0x320003e0 = 2 ^ 5 * (sf * 2 ^ 26 + 0x190001f) by omega,
      ← Nat.two_pow_add_eq_or_of_lt (show r < 2 ^ 5 by omega)]
    omega
  rw [word, BitVec.toNat_setWidth, BitVec.toNat_or, BitVec.toNat_or, hf, hrn, hlow, Nat.or_assoc,
    Nat.or_comm _ (n * 2 ^ 10),
    Nat.mul_comm n, ← Nat.two_pow_add_eq_or_of_lt (show 31 * 2 ^ 5 + r < 2 ^ 10 by omega),
    ← Nat.two_pow_add_eq_or_of_lt (show 2 ^ 10 * n + (31 * 2 ^ 5 + r) < 2 ^ 23 by omega)]
  omega

/-- `~x << 5 & 0x1fffe0`, and `~x >> n & 0x1fffe0` for the higher halves. -/
theorem and_field (v : BitVec 64) : (v &&& 0x1fffe0#64).toNat = v.toNat / 2 ^ 5 % 2 ^ 16 * 2 ^ 5 := by
  rw [BitVec.toNat_and]
  exact and_shifted v.toNat 5

end words

section moves

variable {r : Nat} {x : BitVec 64} {a f : BitVec 64} {sf j : Nat} {y : Regs}

theorem part_lt (v j : Nat) : part v j < 2 ^ 16 := Nat.mod_lt _ (by decide)

theorem exec_movz (hj : j < 4) (hr : r < 31) (hx : x.toNat = part x.toNat j * 2 ^ (16 * j))
    (ha : a.toNat = move_word sf 2 j 0 0) (hsf : sf = 1 ∨ sf = 0 ∧ j < 2)
    (hf : f.toNat = part x.toNat j * 2 ^ 5) :
    exec (word a (BitVec.ofNat 64 r) f) y = some (Function.update y r x) := by
  have hword := word_move ha (by omega) (by decide) hj hr hf (part_lt _ _)
  rw [exec_move hword (by omega) (Or.inr rfl) hj (by omega) (part_lt _ _) hr, if_neg (by decide), ← hx]
  have hresult : result sf x.toNat = x := by
    unfold result
    rcases hsf with rfl | ⟨rfl, hlow⟩
    · exact BitVec.ofNat_toNat 64 x ▸ by simp
    · have hpart := part_lt x.toNat j
      have hlt : x.toNat < 2 ^ 32 := by
        generalize part x.toNat j = p at hx hpart
        interval_cases j <;> omega
      rw [if_neg (by decide), Nat.mod_eq_of_lt hlt]
      simp
  rw [hresult]

/-- A move of a complement. -/
theorem exec_movn (hj : j < 4) (hr : r < 31)
    (hx : result sf (2 ^ 64 - 1 - part (~~~x).toNat j * 2 ^ (16 * j)) = x)
    (ha : a.toNat = move_word sf 0 j 0 0) (hsf : sf = 1 ∨ sf = 0 ∧ j < 2)
    (hf : f.toNat = part (~~~x).toNat j * 2 ^ 5) :
    exec (word a (BitVec.ofNat 64 r) f) y = some (Function.update y r x) := by
  have hword := word_move ha (by omega) (by decide) hj hr hf (part_lt _ _)
  rw [exec_move hword (by omega) (Or.inl rfl) hj (by omega) (part_lt _ _) hr, if_pos rfl, hx]

/-- A move of a bitmask. -/
theorem exec_bimm {e : Int} {n : Nat} (hr : r < 31) (he : e = n) (hn : n < 2 ^ 13)
    (hsf : sf = 1 ∨ sf = 0 ∧ n < 2 ^ 12)
    {m : Nat} (hmask : DecodeBitMasks (n / 2 ^ 12) (n % 2 ^ 6) (n / 2 ^ 6 % 2 ^ 6) = some m)
    (hx : result sf m = x)
    (ha : a.toNat = sf * 2 ^ 31 + 0x320003e0) :
    exec (word a (BitVec.ofNat 64 r) (BitVec.ofInt 64 e <<< 10)) y = some (Function.update y r x) := by
  have hf : (BitVec.ofInt 64 e <<< 10).toNat = n * 2 ^ 10 := by
    rw [he, BitVec.ofInt_natCast, BitVec.toNat_shiftLeft, BitVec.toNat_ofNat, Nat.shiftLeft_eq]
    omega
  have hword := word_orr ha (by omega) hr hf hn
  rw [@exec_orr _ sf r (n / 2 ^ 12) (n % 2 ^ 6) (n / 2 ^ 6 % 2 ^ 6) m (by rw [hword]; omega) (by omega)
    (by omega)
    (by omega) (by omega) hr hmask, hx]

/-- A number that is repeated after 32 bits has a period of at most 32. -/
theorem period_cleared_ne {v : Nat} (hv : v < 2 ^ 64) (hdouble : v / 2 ^ 32 = v % 2 ^ 32) :
    period (cleared v) ≠ 64 := by
  have hrep : repeats (cleared v) 32 = true := by
    rw [repeats_iff]
    have hcleared : cleared v = v ∨ cleared v = 2 ^ 64 - 1 - v := by
      unfold cleared compl
      split
      · exact Or.inr rfl
      · exact Or.inl rfl
    rcases hcleared with heq | heq
    · rw [heq]
      exact hdouble
    · obtain ⟨q, hq, hnot⟩ : ∃ q < 2 ^ 32, 2 ^ 64 - 1 - v = 2 ^ 32 * q + q := by
        have hlow := Nat.mod_lt v (Nat.two_pow_pos 32)
        exact ⟨2 ^ 32 - 1 - v % 2 ^ 32, by omega, by omega⟩
      rw [heq, hnot, Nat.mul_add_div (Nat.two_pow_pos 32), Nat.mul_add_mod, Nat.div_eq_of_lt hq,
        Nat.mod_eq_of_lt hq,
        Nat.add_zero]
  intro h64
  rcases period_cases (cleared v) with ⟨-, hnone⟩ | ⟨hmem, -⟩
  · rw [hrep] at hnone
    exact absurd hnone (by decide)
  · rw [h64] at hmem
    exact absurd hmem (by decide)

theorem exec_movi_bimm_32 (hr : r < 31) (hhigh : x >>> 32 = 0#64)
    (henc : 0 ≤ arm64_encode_bimm64 (x ||| x <<< 32).toNat) :
    exec (word 0x320003e0#64 (BitVec.ofNat 64 r)
      (BitVec.ofInt 64 (arm64_encode_bimm64 (x ||| x <<< 32).toNat) <<< 10)) y =
      some (Function.update y r x) := by
  have hx : x.toNat < 2 ^ 32 := by
    have hzero := congrArg BitVec.toNat hhigh
    rw [BitVec.toNat_ushiftRight, Nat.shiftRight_eq_div_pow, BitVec.toNat_zero] at hzero
    omega
  have hdouble : (x ||| x <<< 32).toNat = 2 ^ 32 * x.toNat + x.toNat := by
    rw [BitVec.toNat_or, BitVec.toNat_shiftLeft, Nat.shiftLeft_eq, Nat.mod_eq_of_lt (by omega), Nat.or_comm,
      Nat.mul_comm x.toNat, ← Nat.two_pow_add_eq_or_of_lt hx]
  obtain ⟨n, hvalue, hn, hfirst, hdecode⟩ := decode_of_encode (x ||| x <<< 32).isLt (by omega)
  rw [if_neg (period_cleared_ne (x ||| x <<< 32).isLt (by omega))] at hfirst
  refine exec_bimm hr hvalue hn (Or.inr ⟨rfl, by omega⟩) hdecode ?_ rfl
  rw [result, if_neg (by decide), hdouble, Nat.mul_add_mod, Nat.mod_eq_of_lt hx]
  simp

/-- The single instruction moves the constant; without one, `x` is neither zero nor all ones. -/
theorem exec_movi (hr : r < 31) (x : BitVec 64) (y : Regs) :
    exec (arm64_movi r x) y = some (Function.update y r x) ∨
      x ≠ 0#64 ∧ ~~~x ≠ 0#64 ∧ arm64_movi r x = 0#32 := by
  unfold arm64_movi
  simp only []
  by_cases h1 : x &&& ~~~0xffff#64 = 0#64
  · have hx := toNat_of_zero (j := 0) (by decide) h1
    rw [if_pos h1]
    refine Or.inl (exec_movz (j := 0) (by decide) hr hx rfl (Or.inr ⟨rfl, by decide⟩) ?_)
    rw [BitVec.toNat_shiftLeft, Nat.shiftLeft_eq]
    have hpart := part_lt x.toNat 0
    omega
  rw [if_neg h1]
  by_cases h2 : x &&& ~~~(0xffff#64 <<< 16) = 0#64
  · have hx := toNat_of_zero (j := 1) (by decide) h2
    rw [if_pos h2]
    refine Or.inl (exec_movz (j := 1) (by decide) hr hx rfl (Or.inr ⟨rfl, by decide⟩) ?_)
    rw [BitVec.toNat_ushiftRight, Nat.shiftRight_eq_div_pow]
    omega
  rw [if_neg h2]
  by_cases h3 : x &&& ~~~(0xffff#64 <<< 32) = 0#64
  · have hx := toNat_of_zero (j := 2) (by decide) h3
    rw [if_pos h3]
    refine Or.inl (exec_movz (j := 2) (by decide) hr hx rfl (Or.inl rfl) ?_)
    rw [BitVec.toNat_ushiftRight, Nat.shiftRight_eq_div_pow]
    omega
  rw [if_neg h3]
  by_cases h4 : x &&& ~~~(0xffff#64 <<< 48) = 0#64
  · have hx := toNat_of_zero (j := 3) (by decide) h4
    rw [if_pos h4]
    refine Or.inl (exec_movz (j := 3) (by decide) hr hx rfl (Or.inl rfl) ?_)
    rw [BitVec.toNat_ushiftRight, Nat.shiftRight_eq_div_pow]
    omega
  rw [if_neg h4]
  have hlt := x.isLt
  have hnot : (~~~x).toNat = 2 ^ 64 - 1 - x.toNat := BitVec.toNat_not
  have hfield : (~~~x <<< 5 &&& 0x1fffe0#64).toNat = part (~~~x).toNat 0 * 2 ^ 5 := by
    rw [and_field, BitVec.toNat_shiftLeft, Nat.shiftLeft_eq, part]
    omega
  have hfields : ∀ j, 0 < j → j < 4 → (~~~x >>> (16 * j - 5) &&& 0x1fffe0#64).toNat = part
    (~~~x).toNat j * 2 ^ 5 := by
    intro j hpos hj
    rw [and_field, BitVec.toNat_ushiftRight, Nat.shiftRight_eq_div_pow, Nat.div_div_eq_div_mul,
      ← Nat.pow_add, part,
      show 16 * j - 5 + 5 = 16 * j by omega]
  by_cases h5 : x &&& ~~~0xffff#64 = 0xffff#64 <<< 16
  · have hx := toNat_mask x (j := 0) (by decide)
    rw [show x &&& ~~~mask 0 = 0xffff#64 <<< 16 from h5] at hx
    rw [if_pos h5]
    refine Or.inl (exec_movn (j := 0) (by decide) hr ?_ rfl (Or.inr ⟨rfl, by decide⟩) hfield)
    change BitVec.ofNat 64 ((2 ^ 64 - 1 - part (~~~x).toNat 0 * 2 ^ 0) % 2 ^ 32) = x
    apply BitVec.eq_of_toNat_eq
    rw [BitVec.toNat_ofNat, hnot]
    unfold part at hx ⊢
    change _ = _ + 0xffff0000 at hx
    omega
  rw [if_neg h5]
  by_cases h6 : x &&& ~~~(0xffff#64 <<< 16) = 0xffff#64
  · have hx := toNat_mask x (j := 1) (by decide)
    rw [show x &&& ~~~mask 1 = 0xffff#64 from h6] at hx
    rw [if_pos h6]
    refine Or.inl (exec_movn (j := 1) (by decide) hr ?_ rfl (Or.inr ⟨rfl, by decide⟩)
      (hfields 1 (by decide) (by decide)))
    change BitVec.ofNat 64 ((2 ^ 64 - 1 - part (~~~x).toNat 1 * 2 ^ 16) % 2 ^ 32) = x
    apply BitVec.eq_of_toNat_eq
    rw [BitVec.toNat_ofNat, hnot]
    unfold part at hx ⊢
    change _ = _ + 0xffff at hx
    omega
  rw [if_neg h6]
  have hones : ∀ j, j < 4 → ~~~(x ||| mask j) = 0#64 →
      result 1 (2 ^ 64 - 1 - part (~~~x).toNat j * 2 ^ (16 * j)) = x := by
    intro j hj hmask
    rw [← toNat_of_ones hj hmask, result, if_pos rfl]
    simp
  by_cases h7 : ~~~(x ||| 0xffff#64) = 0#64
  · rw [if_pos h7]
    exact Or.inl (exec_movn (j := 0) (by decide) hr (hones 0 (by decide) h7) rfl (Or.inl rfl) hfield)
  rw [if_neg h7]
  by_cases h8 : ~~~(x ||| 0xffff#64 <<< 16) = 0#64
  · rw [if_pos h8]
    exact Or.inl (exec_movn (j := 1) (by decide) hr (hones 1 (by decide) h8) rfl (Or.inl rfl)
      (hfields 1 (by decide) (by decide)))
  rw [if_neg h8]
  by_cases h9 : ~~~(x ||| 0xffff#64 <<< 32) = 0#64
  · rw [if_pos h9]
    exact Or.inl (exec_movn (j := 2) (by decide) hr (hones 2 (by decide) h9) rfl (Or.inl rfl)
      (hfields 2 (by decide) (by decide)))
  rw [if_neg h9]
  by_cases h10 : ~~~(x ||| 0xffff#64 <<< 48) = 0#64
  · rw [if_pos h10]
    exact Or.inl (exec_movn (j := 3) (by decide) hr (hones 3 (by decide) h10) rfl (Or.inl rfl)
      (hfields 3 (by decide) (by decide)))
  rw [if_neg h10]
  by_cases h11 : x >>> 32 = 0#64 ∧ (0 : Int) ≤ arm64_encode_bimm64 (x ||| x <<< 32).toNat
  · rw [if_pos h11]
    exact Or.inl (exec_movi_bimm_32 hr h11.1 h11.2)
  rw [if_neg h11]
  by_cases h12 : (0 : Int) ≤ arm64_encode_bimm64 x.toNat
  · obtain ⟨n, hvalue, hn, -, hdecode⟩ := decode_of_encode x.isLt (by omega)
    rw [if_pos h12]
    refine Or.inl (exec_bimm hr hvalue hn (Or.inl rfl) hdecode ?_ rfl)
    rw [result, if_pos rfl]
    simp
  rw [if_neg h12]
  refine Or.inr ⟨?_, ?_, rfl⟩
  · rintro rfl
    exact h1 rfl
  · intro hzero
    apply h7
    rw [BitVec.not_or, hzero, BitVec.zero_and]

end moves

section sequence

variable {r : Nat} {x x1 : BitVec 64} {mov1 : BitVec 64} {opc fill : Nat}

/-- The kinds of first instructions, with what they leave in the other halves. -/
structure Filled (x x1 mov1 : BitVec 64) (opc fill : Nat) : Prop where
  word_eq : mov1.toNat = move_word 1 opc 0 0 0
  kind : opc = 2 ∧ fill = 0 ∧ x1 = x ∨ opc = 0 ∧ fill = 2 ^ 64 - 1 ∧ x1 = ~~~x

/-- The low halves of `x` over those that a first instruction leaves. -/
def mixed (x fill k : Nat) : Nat := x % 2 ^ (16 * k) + fill / 2 ^ (16 * k) * 2 ^ (16 * k)

theorem or_position_toNat (h : BitVec 64) {k : Nat} (hk : k < 4) (hh : h.toNat < 2 ^ 16) :
    (h <<< 5 ||| BitVec.ofNat 64 ((16 * k) <<< 17)).toNat = k * 2 ^ 21 + h.toNat * 2 ^ 5 := by
  have hpos : (BitVec.ofNat 64 ((16 * k) <<< 17)).toNat = 2 ^ 21 * k := by
    rw [BitVec.toNat_ofNat, Nat.shiftLeft_eq]
    omega
  have hshift : (h <<< 5).toNat = h.toNat * 2 ^ 5 := by
    rw [BitVec.toNat_shiftLeft, Nat.shiftLeft_eq]
    omega
  rw [BitVec.toNat_or, hpos, hshift, Nat.or_comm, ← Nat.two_pow_add_eq_or_of_lt
    (show h.toNat * 2 ^ 5 < 2 ^ 21 by omega)]
  omega

/-- The word for a half. -/
theorem word_half {a h : BitVec 64} {k : Nat} (ha : a.toNat = move_word 1 opc 0 0 0) (hopc : opc < 4)
    (hk : k < 4)
    (hr : r < 31) (hh : h.toNat < 2 ^ 16) :
    (word a (BitVec.ofNat 64 r)
    (h <<< 5 ||| BitVec.ofNat 64 ((16 * k) <<< 17))).toNat = move_word 1 opc k h.toNat r := by
  have hf := or_position_toNat h hk hh
  have hrn : (BitVec.ofNat 64 r).toNat = r := by
    rw [BitVec.toNat_ofNat]
    omega
  have hbase : a.toNat = 2 ^ 23 * (2 ^ 8 + opc * 2 ^ 6 + 0b100101) := by
    rw [ha, move_word]
    omega
  rw [word, BitVec.toNat_setWidth, BitVec.toNat_or, BitVec.toNat_or, hbase, hf, hrn, Nat.or_assoc,
    Nat.or_comm r,
    show k * 2 ^ 21 + h.toNat * 2 ^ 5 = 2 ^ 5 * (k * 2 ^ 16 + h.toNat) by omega,
    ← Nat.two_pow_add_eq_or_of_lt (show r < 2 ^ 5 by omega),
    ← Nat.two_pow_add_eq_or_of_lt (show 2 ^ 5 * (k * 2 ^ 16 + h.toNat) + r < 2 ^ 23 by omega), move_word]
  omega

/-- A half that is zero is one that the first instruction leaves. -/
theorem mixed_skip (hfilled : Filled x x1 mov1 opc fill) {k : Nat} (hk : k < 4)
    (hskip : part x1.toNat k = 0) :
    mixed x.toNat fill k = mixed x.toNat fill (k + 1) := by
  have hlt := x.isLt
  have hnot : (~~~x).toNat = 2 ^ 64 - 1 - x.toNat := BitVec.toNat_not
  unfold mixed part at *
  obtain ⟨-, rfl, rfl⟩ | ⟨-, rfl, rfl⟩ := hfilled.kind
  · interval_cases k <;> omega
  · rw [hnot] at hskip
    interval_cases k <;> omega

/-- A half that is put into the register. -/
theorem mixed_put {v k : Nat} (hfill : fill = 0 ∨ fill = 2 ^ 64 - 1) (hk : k < 4)
    (hv : v = mixed x.toNat fill k) :
    v % 2 ^ (16 * k) + part x.toNat k * 2 ^ (16 * k) + v / 2 ^ (16 * k + 16) * 2 ^ (16 * k + 16) =
      mixed x.toNat fill (k + 1) := by
  have hlt := x.isLt
  unfold mixed part at *
  obtain rfl | rfl := hfill
  · interval_cases k <;> omega
  · interval_cases k <;> omega

theorem mixed_lt (hfill : fill = 0 ∨ fill = 2 ^ 64 - 1) {k : Nat} (hk : k < 5) :
    mixed x.toNat fill k < 2 ^ 64 := by
  have hlt := x.isLt
  unfold mixed
  obtain rfl | rfl := hfill
  · interval_cases k <;> omega
  · interval_cases k <;> omega

theorem half_eq_zero_iff (x : BitVec 64) (k : Nat) : half x (16 * k) = 0#64 ↔ part x.toNat k = 0 := by
  rw [← half_toNat, ← BitVec.toNat_inj]
  rfl

theorem Filled.fill_cases (hfilled : Filled x x1 mov1 opc fill) : fill = 0 ∨ fill = 2 ^ 64 - 1 := by
  obtain ⟨-, hzero, -⟩ | ⟨-, hones, -⟩ := hfilled.kind
  · exact Or.inl hzero
  · exact Or.inr hones

/-- The rest of the halves are put into the register. -/
theorem run_movks (hfilled : Filled x x1 mov1 opc fill) (hr : r < 31) {n k : Nat} (hk : k + n = 4) (y : Regs)
    (hy : (y r).toNat = mixed x.toNat fill k) :
    run (movks (BitVec.ofNat 64 r) x x1 (List.range' (16 * k) n 16)) y = some (Function.update y r x) := by
  induction n generalizing k y with
  | zero =>
    obtain rfl : k = 4 := by omega
    have hx : y r = x := by
      apply BitVec.eq_of_toNat_eq
      have hlt := x.isLt
      rw [hy]
      unfold mixed
      obtain rfl | rfl := hfilled.fill_cases <;> omega
    rw [← hx, Function.update_eq_self]
    rfl
  | succ n ih =>
    rw [List.range'_succ, movks, show 16 * k + 16 = 16 * (k + 1) by omega]
    by_cases hskip : half x1 (16 * k) = 0#64
    · rw [if_neg (not_not_intro hskip)]
      rw [half_eq_zero_iff] at hskip
      exact ih (by omega) y (hy.trans (mixed_skip hfilled (by omega) hskip))
    · have hhalf := half_toNat x k
      have hlt := part_lt x.toNat k
      have hword := @word_half r 3 0xf2800000#64 (half x (16 * k)) k rfl (by decide)
        (show k < 4 by omega) hr (hhalf ▸ hlt)
      rw [if_pos hskip, run, exec_movk hword (by omega) (hhalf ▸ hlt) hr, hhalf,
        mixed_put hfilled.fill_cases (by omega) hy, Option.bind_some, ih (by omega), Function.update_idem]
      rw [Function.update_self, BitVec.toNat_ofNat, Nat.mod_eq_of_lt (mixed_lt hfilled.fill_cases (by omega))]

theorem mod_of_parts {v k : Nat} (hlow : ∀ j < k, part v j = 0) : v % 2 ^ (16 * k) = 0 := by
  induction k with
  | zero => exact Nat.mod_one v
  | succ k ih =>
    have hlast : v / 2 ^ (16 * k) % 2 ^ 16 = 0 := hlow k (Nat.lt_succ_self k)
    rw [Nat.mul_succ, Nat.pow_add, Nat.mod_mul, ih fun j hj => hlow j (Nat.lt_succ_of_lt hj), hlast,
      Nat.mul_zero]

/-- The first instruction and the rest. -/
theorem run_movs (hfilled : Filled x x1 mov1 opc fill) (hr : r < 31) (hx1 : x1 ≠ 0#64) {n k : Nat}
    (hk : k + n = 4)
    (y : Regs) (hlow : ∀ j < k, part x1.toNat j = 0) :
    run (movs mov1 (BitVec.ofNat 64 r) x x1 (List.range' (16 * k) n 16)) y = some
      (Function.update y r x) := by
  have hlt := x.isLt
  have hnot : (~~~x).toNat = 2 ^ 64 - 1 - x.toNat := BitVec.toNat_not
  induction n generalizing k with
  | zero =>
    -- every half of `x1` is zero
    obtain rfl : k = 4 := by omega
    have h0 := hlow 0 (by decide)
    have h1 := hlow 1 (by decide)
    have h2 := hlow 2 (by decide)
    have h3 := hlow 3 (by decide)
    have hlt1 := x1.isLt
    refine absurd (BitVec.eq_of_toNat_eq ?_) hx1
    unfold part at h0 h1 h2 h3
    rw [BitVec.toNat_zero]
    omega
  | succ n ih =>
    rw [List.range'_succ, movs, show 16 * k + 16 = 16 * (k + 1) by omega]
    by_cases hskip : half x1 (16 * k) = 0#64
    · rw [if_neg (not_not_intro hskip)]
      rw [half_eq_zero_iff] at hskip
      refine ih (by omega) fun j hj => ?_
      by_cases hlast : j < k
      · exact hlow j hlast
      · rw [show j = k by omega]
        exact hskip
    · have hhalf := half_toNat x1 k
      have hpart := part_lt x1.toNat k
      have hopc : opc = 0 ∨ opc = 2 := by
        obtain ⟨h, -, -⟩ | ⟨h, -, -⟩ := hfilled.kind <;> omega
      have hword := @word_half r opc mov1 (half x1 (16 * k)) k hfilled.word_eq (by omega) (by omega) hr
        (hhalf ▸ hpart)
      have hvalue : (if opc = 0 then 2 ^ 64 - 1 - part x1.toNat k * 2 ^ (16 * k) else part x1.toNat k * 2 ^
        (16 * k)) =
          mixed x.toNat fill (k + 1) := by
        have hmod := mod_of_parts hlow
        have hk4 : k < 4 := by omega
        unfold mixed part
        obtain ⟨rfl, rfl, rfl⟩ | ⟨rfl, rfl, rfl⟩ := hfilled.kind
        · rw [if_neg (by decide)]
          interval_cases k <;> omega
        · rw [hnot] at hmod ⊢
          rw [if_pos rfl]
          interval_cases k <;> omega
      rw [if_pos hskip, run, exec_move hword (by decide) hopc (by omega) (Or.inl rfl) (hhalf ▸ hpart) hr,
        hhalf,
        hvalue, Option.bind_some, run_movks hfilled hr (by omega), Function.update_idem]
      rw [Function.update_self, result, if_pos rfl, BitVec.toNat_ofNat,
        Nat.mod_eq_of_lt (mixed_lt hfilled.fill_cases (by omega))]

end sequence

/-- The emitted instructions leave the constant in the register and the others as they were. -/
theorem run_arm64_movimm {r : Nat} (hr : r < 31) (x : BitVec 64) (y : Regs) :
    run (arm64_movimm r x) y = some (Function.update y r x) := by
  unfold arm64_movimm
  rcases exec_movi hr x y with hexec | ⟨hzero, hones, hnone⟩
  · by_cases hnone : arm64_movi r x = 0#32
    · rw [hnone] at hexec
      exact absurd hexec (by simp [exec, field])
    · simp only [if_pos hnone]
      rw [run, hexec]
      rfl
  · simp only [hnone, ne_eq, not_true_eq_false, if_false]
    split
    · exact run_movs (show Filled _ _ _ 0 _ from ⟨rfl, Or.inr ⟨rfl, rfl, rfl⟩⟩) hr hones
        (show 0 + 4 = 4 from rfl) y fun j hj => absurd hj (Nat.not_lt_zero j)
    · exact run_movs (show Filled _ _ _ 2 _ from ⟨rfl, Or.inl ⟨rfl, rfl, rfl⟩⟩) hr hzero
        (show 0 + 4 = 4 from rfl) y fun j hj => absurd hj (Nat.not_lt_zero j)

/-- A constant is moved by instructions that execute to it; -1 is returned for the constants that no fields are decoded
to, and otherwise fields that are decoded to the constant. -/
theorem constant_materialised (x : BitVec 64) :
    (∀ r < 31, ∀ y : Regs, run (arm64_movimm r x) y = some (Function.update y r x)) ∧
      (arm64_encode_bimm64 x.toNat = -1 ↔
        ∀ N < 2, ∀ imms < 64, ∀ immr < 64, DecodeBitMasks N imms immr ≠ some x.toNat) ∧
      (arm64_encode_bimm64 x.toNat ≠ -1 → ∃ n : Nat, arm64_encode_bimm64 x.toNat = n ∧ n < 2 ^ 13 ∧
        DecodeBitMasks (n / 2 ^ 12) (n % 2 ^ 6) (n / 2 ^ 6 % 2 ^ 6) = some x.toNat) := by
  refine ⟨fun r hr y => run_arm64_movimm hr x y, ⟨?_, ?_⟩, ?_⟩
  · intro hnone N hN imms himms immr himmr hdecode
    exact encode_of_decode hN himms himmr hdecode hnone
  · intro hnever
    by_contra henc
    obtain ⟨n, -, hn, -, hdecode⟩ := decode_of_encode x.isLt henc
    exact hnever (n / 2 ^ 12) (by omega) (n % 2 ^ 6) (by omega) (n / 2 ^ 6 % 2 ^ 6) (by omega) hdecode
  · intro henc
    obtain ⟨n, hvalue, hn, -, hdecode⟩ := decode_of_encode x.isLt henc
    exact ⟨n, hvalue, hn, hdecode⟩

theorem constant_materialised_bytes :
    run (arm64_movimm 5 0xff00ff00ff00ff#64) (fun _ => 0#64) =
        some (Function.update (fun _ => 0#64) 5 0xff00ff00ff00ff#64) ∧
      arm64_encode_bimm64 (0x1234567800000000#64).toNat = -1 ∧
      ∃ n : Nat, arm64_encode_bimm64 (0xff00ff00ff00ff#64).toNat = n ∧ n < 2 ^ 13 ∧
        DecodeBitMasks (n / 2 ^ 12) (n % 2 ^ 6) (n / 2 ^ 6 % 2 ^ 6) = some (0xff00ff00ff00ff#64).toNat :=
  ⟨(constant_materialised 0xff00ff00ff00ff#64).1 5 (by decide) (fun _ => 0#64), by decide,
    (constant_materialised 0xff00ff00ff00ff#64).2.2 (by decide)⟩

end tcc.arm64
