import Tcc.Gen.Riscv32.Operators

open machine.rv64 (Word divU divS)
open machine machine.rv32
open tcc.riscv64 (Result)

namespace tcc.riscv32

open tcc.Op

/-- What C defines is what the code computes, but for the difference of pointers. -/
theorem c_result_value {op : Op} (hpdiv : op ≠ TOK_PDIV) {x y v : BitVec 32}
    (hv : c_result op x y = some v) :
    op ≠ TOK_LAND ∧ op ≠ TOK_LOR ∧ opi_value op x y = v := by
  cases op with
  | TOK_PDIV => exact absurd rfl hpdiv
  | TOK_LAND | TOK_LOR => cases hv
  | add =>
    cases hv
    refine ⟨by decide, by decide, BitVec.eq_of_toInt_eq ?_⟩
    rw [BitVec.toInt_ofInt]
    exact BitVec.toInt_add x y
  | sub =>
    cases hv
    refine ⟨by decide, by decide, BitVec.eq_of_toInt_eq ?_⟩
    rw [BitVec.toInt_ofInt]
    exact BitVec.toInt_sub
  | mul =>
    cases hv
    refine ⟨by decide, by decide, BitVec.eq_of_toInt_eq ?_⟩
    rw [BitVec.toInt_ofInt]
    exact BitVec.toInt_mul x y
  | div =>
    simp only [c_result] at hv
    rw [Option.ite_none_left_eq_some, not_or, Option.some.injEq] at hv
    obtain ⟨⟨hy, -⟩, rfl⟩ := hv
    refine ⟨by decide, by decide, BitVec.eq_of_toInt_eq ?_⟩
    rw [BitVec.toInt_ofInt, ← BitVec.toInt_sdiv]
    exact congrArg BitVec.toInt (if_neg hy)
  | mod =>
    simp only [c_result] at hv
    rw [Option.ite_none_left_eq_some, Option.some.injEq] at hv
    obtain ⟨-, rfl⟩ := hv
    refine ⟨by decide, by decide, ?_⟩
    rw [← BitVec.toInt_srem, BitVec.ofInt_toInt]
    rfl
  | TOK_UDIV =>
    simp only [c_result] at hv
    rw [Option.ite_none_left_eq_some, Option.some.injEq] at hv
    obtain ⟨hy, rfl⟩ := hv
    refine ⟨by decide, by decide, ?_⟩
    rw [← BitVec.toNat_udiv, BitVec.ofNat_toNat, BitVec.setWidth_eq]
    exact if_neg hy
  | TOK_UMOD =>
    simp only [c_result] at hv
    rw [Option.ite_none_left_eq_some, Option.some.injEq] at hv
    obtain ⟨-, rfl⟩ := hv
    refine ⟨by decide, by decide, ?_⟩
    rw [← BitVec.toNat_umod, BitVec.ofNat_toNat, BitVec.setWidth_eq]
    rfl
  | TOK_SHL =>
    simp only [c_result] at hv
    rw [Option.ite_none_right_eq_some, Option.some.injEq] at hv
    obtain ⟨hy, rfl⟩ := hv
    refine ⟨by decide, by decide, BitVec.eq_of_toNat_eq ?_⟩
    change (x <<< (y.toNat % 32)).toNat = _
    rw [Nat.mod_eq_of_lt hy, BitVec.toNat_shiftLeft, Nat.shiftLeft_eq, BitVec.toNat_ofNat]
  | TOK_SHR =>
    simp only [c_result] at hv
    rw [Option.ite_none_right_eq_some, Option.some.injEq] at hv
    obtain ⟨hy, rfl⟩ := hv
    refine ⟨by decide, by decide, ?_⟩
    change x >>> (y.toNat % 32) = _
    rw [Nat.mod_eq_of_lt hy, ← Nat.shiftRight_eq_div_pow, ← BitVec.toNat_ushiftRight,
      BitVec.ofNat_toNat, BitVec.setWidth_eq]
  | TOK_SAR =>
    simp only [c_result] at hv
    rw [Option.ite_none_right_eq_some, Option.some.injEq] at hv
    obtain ⟨hy, rfl⟩ := hv
    refine ⟨by decide, by decide, ?_⟩
    change x.sshiftRight (y.toNat % 32) = _
    have hshift : (x.sshiftRight y.toNat).toInt = x.toInt / 2 ^ y.toNat :=
      BitVec.toInt_sshiftRight.trans (Int.shiftRight_eq_div_pow _ _)
    rw [Nat.mod_eq_of_lt hy, ← hshift, BitVec.ofInt_toInt]
  | _ =>
    cases hv
    exact ⟨by decide, by decide, rfl⟩

/-- A quotient of pointers is right as an unsigned one when it is not negative. -/
theorem pdiv_value_iff {x y v : BitVec 32} (hv : c_result TOK_PDIV x y = some v) :
    opi_value TOK_PDIV x y = v ↔ 0 ≤ x.toInt ∨ y = 1#32 := by
  simp only [c_result] at hv
  rw [Option.ite_none_right_eq_some, Option.some.injEq] at hv
  obtain ⟨⟨hpos, q, hq⟩, rfl⟩ := hv
  have hy : y ≠ 0#32 := by
    rintro rfl
    exact absurd hpos (by decide)
  have hquot : x.toInt / y.toInt = q := by
    rw [hq, Int.mul_ediv_cancel_left _ (by omega)]
  have hynat : y.toInt = y.toNat := by
    have hcond := BitVec.toInt_eq_toNat_cond y
    split at hcond <;> omega
  have hxlo := BitVec.le_toInt x
  have hxhi := BitVec.toInt_lt (x := x)
  change divU x y = _ ↔ _
  rw [divU, if_neg hy, hquot]
  constructor
  · intro heq
    by_contra hneg
    rw [not_or, not_le] at hneg
    have hone : y.toNat ≠ 1 := fun h1 => hneg.2 (BitVec.eq_of_toNat_eq h1)
    have hpos' : 2 ≤ y.toNat := by omega
    have hqneg : q < 0 := by
      by_contra hq0
      rw [hq] at hneg
      exact absurd hneg.1 (not_lt.mpr (Int.mul_nonneg hpos.le (not_lt.mp hq0)))
    have hqlo : x.toInt ≤ q := by
      rw [hq]
      nlinarith
    have hle : (x / y).toNat ≤ x.toNat / 2 := by
      rw [BitVec.toNat_udiv]
      exact Nat.div_le_div_left hpos' (by decide)
    have hlt := x.isLt
    have hint : (x / y).toInt = (x / y).toNat := by
      rw [BitVec.toInt_eq_toNat_cond, if_pos (by omega)]
    have hval := congrArg BitVec.toInt heq
    rw [hint, BitVec.toInt_ofInt, Int.bmod_eq_of_le (by omega) (by omega)] at hval
    omega
  · rintro (hx | rfl)
    · have hxnat : x.toInt = x.toNat := by
        have hcond := BitVec.toInt_eq_toNat_cond x
        split at hcond <;> omega
      have hqnat : q = (x.toNat / y.toNat : Nat) := by
        rw [← hquot, hxnat, hynat, Int.natCast_ediv]
      rw [hqnat, BitVec.ofInt_natCast, ← BitVec.toNat_udiv, BitVec.ofNat_toNat, BitVec.setWidth_eq]
    · have hqx : q = x.toInt := by
        rw [hq]
        exact (Int.one_mul q).symm
      rw [hqx, BitVec.ofInt_toInt, BitVec.udiv_one]

/-- The registers that the generator allocates, `a0` to `a7`. -/
def Allocatable (r : BitVec 5) : Prop := 10 ≤ r.toNat ∧ r.toNat < 18

instance (r : BitVec 5) : Decidable (Allocatable r) := inferInstanceAs (Decidable (_ ∧ _))

theorem Allocatable.ne_zero {r : BitVec 5} (hr : Allocatable r) : r ≠ 0#5 := by
  rintro rfl
  exact absurd hr (by decide)

/-- A hart that holds the operands of an operation and the registers that its code uses: `a` has
    the left operand and `b` the right one, or the room for a constant; `d` and `r` are where the
    result goes. -/
structure Operands (x : BitVec 32) (right : Right) (d r a b : BitVec 5) (h : Hart) : Prop where
  dest : Allocatable d
  loaded : Allocatable r
  first : Allocatable a
  second : Allocatable b
  left : h.get a = x
  right : match right with
    | .const _ _ => a ≠ b
    | .reg y => h.get b = y

/-- The registers that may change besides the result's. -/
def Right.scratch (right : Right) (b : BitVec 5) : List (BitVec 5) :=
  match right with
  | .const _ _ => [b]
  | .reg _ => []

/-- The code of `op` computes `v` from `x` and the right operand, whatever registers are chosen
    and whatever the others hold. -/
def Computes (op : Op) (x : BitVec 32) (right : Right) (v : BitVec 32) : Prop :=
  ∀ d r a b h, Operands x right d r a b h → ∃ ws q h', opi_code op right d r a b = some (ws, q) ∧
    run ws h = some h' ∧ h'.get q = v ∧ Only (d :: r :: right.scratch b) h h'

/-- Operands in `a1` and `a2`. -/
theorem operands_exist (x : BitVec 32) (right : Right) : ∃ h, Operands x right 10 10 11 12 h := by
  refine ⟨⟨fun q => if q = 11 then x else right.value, fun _ => 0#8, 0#32⟩, by decide, by decide,
    by decide, by decide, rfl, ?_⟩
  cases right with
  | const y u => exact (by decide : (11 : BitVec 5) ≠ 12)
  | reg y => rfl

/-- Every operator but an arithmetic shift by a constant computes its value. -/
theorem opi_code_value {op : Op} (hland : op ≠ TOK_LAND) (hlor : op ≠ TOK_LOR) {right : Right}
    (hsar : op = TOK_SAR → ∃ y, right = .reg y) (x : BitVec 32) :
    Computes op x right (opi_value op x right.value) := by
  intro d r a b h ho
  cases right with
  | const y u =>
    have hne : op ≠ TOK_SAR := fun heq => by
      obtain ⟨y, hy⟩ := hsar heq
      cases hy
    have hc : ConstOperand d a b (if u then y.setWidth 64 else y.signExtend 64) y := by
      refine ⟨ho.dest.ne_zero, ho.second.ne_zero, ho.right, ?_⟩
      cases u
      · exact .inl rfl
      · exact .inr rfl
    obtain ⟨res, hgen, hleaves⟩ := gen_opil_leaves h hc hland hlor hne
    obtain ⟨h', hrun, hkeep, hval⟩ := hleaves.result_code ho.loaded.ne_zero
    rw [ho.left] at hval
    refine ⟨_, _, h', ?_, hrun, hval, hkeep⟩
    rw [opi_code, hgen]
    rfl
  | reg y =>
    obtain ⟨res, hgen, hleaves⟩ := gen_opil_reg_leaves hland hlor ho.dest.ne_zero a b d h
    obtain ⟨h', hrun, hkeep, hval⟩ := hleaves.result_code ho.loaded.ne_zero
    rw [ho.left, show h.get b = y from ho.right] at hval
    refine ⟨_, _, h', ?_, hrun, hval, hkeep.mono (by simp)⟩
    rw [opi_code, hgen]
    rfl

theorem Computes.unique {op : Op} {x v w : BitVec 32} {right : Right}
    (hv : Computes op x right v) (hw : Computes op x right w) : v = w := by
  obtain ⟨h, ho⟩ := operands_exist x right
  obtain ⟨ws, q, h₁, hcode₁, hrun₁, hval₁, -⟩ := hv _ _ _ _ h ho
  obtain ⟨ws', q', h₂, hcode₂, hrun₂, hval₂, -⟩ := hw _ _ _ _ h ho
  rw [hcode₁, Option.some.injEq, Prod.mk.injEq] at hcode₂
  obtain ⟨rfl, rfl⟩ := hcode₂
  rw [hrun₁, Option.some.injEq] at hrun₂
  rw [← hval₁, ← hval₂, hrun₂]

/-- The immediate code of an arithmetic shift is one shift by the register whose number is the
    constant. -/
theorem gen_opil_sar {c : BitVec 64} {y : BitVec 32} (hy : y.toNat < 32)
    (hc : c = y.signExtend 64 ∨ c = y.setWidth 64) (d a b : BitVec 5) :
    gen_opil TOK_SAR c d a b = some ([emit_SRA (d.setWidth 32) (a.setWidth 32)
      ((y.setWidth 5).setWidth 32)], .reg d) := by
  have hlow : c.setWidth 32 = y := by
    obtain rfl | rfl := hc
    · exact setWidth_signExtend y
    · rw [BitVec.setWidth_setWidth_of_le _ (by decide), BitVec.setWidth_eq]
  have hmsb : y.msb = false := by
    rw [BitVec.msb_eq_decide, decide_eq_false]
    omega
  have hsmall : IsSmall c := by
    rw [IsSmall, hlow]
    constructor
    · obtain rfl | rfl := hc
      · rfl
      · exact BitVec.signExtend_eq_setWidth_of_msb_false hmsb
    · rw [tcc.riscv64.imm12_iff, BitVec.toInt_eq_toNat_of_msb hmsb]
      omega
  unfold gen_opil
  rw [if_pos hsmall]
  change gen_opil_const TOK_SAR c d a b = _
  rw [gen_opil_const, if_pos hsmall, hlow]
  change some ([emit_SRA _ _ (1024#32 ||| y &&& 31#32)], Result.reg d) = _
  rw [emit_SRA_marked]

theorem sar_run {x y v : BitVec 32} {u : Bool} (hv : c_result TOK_SAR x y = some v)
    {d r a b : BitVec 5} {h : Hart} (ho : Operands x (.const y u) d r a b h) :
    ∃ w h', opi_code TOK_SAR (.const y u) d r a b = some ([w], d) ∧ run [w] h = some h' ∧
      Sets h d (x.sshiftRight ((h.get (y.setWidth 5)).toNat % 32)) h' := by
  simp only [c_result] at hv
  rw [Option.ite_none_right_eq_some] at hv
  have hc : (if u then y.setWidth 64 else y.signExtend 64) = y.signExtend 64 ∨
      (if u then y.setWidth 64 else y.signExtend 64) = y.setWidth 64 := by
    cases u
    · exact .inl rfl
    · exact .inr rfl
  have hexec := exec_emit_op (v := x.sshiftRight ((h.get (y.setWidth 5)).toNat % 32)) 0x20#7 5#3 d a
    (y.setWidth 5) h (by rw [ho.left]; rfl)
  refine ⟨emit_SRA (d.setWidth 32) (a.setWidth 32) ((y.setWidth 5).setWidth 32), _, ?_, ?_,
    Sets.set_next h ho.dest.ne_zero _⟩
  · rw [opi_code, gen_opil_sar hv.1 hc]
    rfl
  · rw [run_cons]
    exact congrArg (·.bind (run [])) hexec

theorem allOnes_sshiftRight (n : Nat) : (BitVec.allOnes 32).sshiftRight n = BitVec.allOnes 32 := by
  ext i hi
  rw [BitVec.getElem_sshiftRight]
  split
  · rw [BitVec.getElem_allOnes, BitVec.getElem_allOnes]
  · rw [BitVec.getElem_allOnes, BitVec.msb_allOnes (by decide)]

/-- Shifting by any number of bits does not matter to copies of a sign. -/
theorem sshiftRight_sign {x : BitVec 32} (hx : x = 0#32 ∨ x = -1#32) (n : Nat) : x.sshiftRight n = x := by
  obtain rfl | rfl := hx
  · exact BitVec.zero_sshiftRight
  · rw [BitVec.neg_one_eq_allOnes, allOnes_sshiftRight]

theorem sign_of_sshiftRight {x : BitVec 32} {n : Nat} (hn : 0 < n) (hx : x.sshiftRight n = x) :
    x = 0#32 ∨ x = -1#32 := by
  have hint : x.toInt / 2 ^ n = x.toInt := by
    have hshift : (x.sshiftRight n).toInt = x.toInt / 2 ^ n :=
      BitVec.toInt_sshiftRight.trans (Int.shiftRight_eq_div_pow _ _)
    rw [← hshift, hx]
  have hpow : (2 : Int) ≤ 2 ^ n := by
    calc (2 : Int) = 2 ^ 1 := rfl
      _ ≤ 2 ^ n := pow_le_pow_right₀ (by decide) hn
  have hdm := Int.emod_add_mul_ediv x.toInt (2 ^ n)
  have hmod := Int.emod_nonneg x.toInt (show (2 : Int) ^ n ≠ 0 by omega)
  have hmodlt := Int.emod_lt_of_pos x.toInt (show (0 : Int) < 2 ^ n by omega)
  rw [hint] at hdm
  have hsign : x.toInt = 0 ∨ x.toInt = -1 := by
    rcases lt_trichotomy x.toInt 0 with hneg | hzero | hpos
    · right
      nlinarith
    · exact Or.inl hzero
    · nlinarith
  obtain h0 | h1 := hsign
  · exact Or.inl (BitVec.eq_of_toInt_eq h0)
  · exact Or.inr (BitVec.eq_of_toInt_eq h1)

/-- Shifting by the register instead of the constant is right when the constant is zero or there
    is nothing to shift. -/
theorem sar_computes_iff {x y v : BitVec 32} {u : Bool} (hv : c_result TOK_SAR x y = some v) :
    Computes TOK_SAR x (.const y u) v ↔ y = 0#32 ∨ x = 0#32 ∨ x = -1#32 := by
  obtain ⟨-, -, hval⟩ := c_result_value (by decide) hv
  have hv' := hv
  simp only [c_result] at hv'
  rw [Option.ite_none_right_eq_some, Option.some.injEq] at hv'
  obtain ⟨hy, hdiv⟩ := hv'
  change x.sshiftRight (y.toNat % 32) = v at hval
  constructor
  · intro hcomp
    by_contra hne
    rw [not_or, not_or] at hne
    obtain ⟨a, ha, hay⟩ : ∃ a : BitVec 5, (a = 10#5 ∨ a = 11#5) ∧ a ≠ y.setWidth 5 := by
      by_cases h10 : y.setWidth 5 = 10#5
      · exact ⟨11#5, .inr rfl, by rw [h10]; decide⟩
      · exact ⟨10#5, .inl rfl, Ne.symm h10⟩
    let h : Hart := ⟨fun q => if q = a then x else 0#32, fun _ => 0#8, 0#32⟩
    have ho : Operands x (.const y u) 12 12 a 12 h := by
      refine ⟨by decide, by decide, ?_, by decide, ?_, ?_⟩
      · obtain rfl | rfl := ha <;> decide
      · have h0 : a ≠ 0#5 := by
          obtain rfl | rfl := ha <;> decide
        exact (if_neg h0).trans (if_pos rfl)
      · obtain rfl | rfl := ha
        · exact (by decide : (10#5 : BitVec 5) ≠ 12)
        · exact (by decide : (11#5 : BitVec 5) ≠ 12)
    have hzero : h.get (y.setWidth 5) = 0#32 := by
      rw [Hart.get]
      split
      · rfl
      · exact if_neg (Ne.symm hay)
    obtain ⟨w, h₁, hcode, hrun, hsets⟩ := sar_run hv ho
    obtain ⟨ws, q, h₂, hcode', hrun', hval', -⟩ := hcomp _ _ _ _ h ho
    rw [hcode, Option.some.injEq, Prod.mk.injEq] at hcode'
    obtain ⟨rfl, rfl⟩ := hcode'
    rw [hrun, Option.some.injEq] at hrun'
    rw [← hrun', hsets.value, hzero] at hval'
    have hsame : x = v := BitVec.sshiftRight_zero.symm.trans hval'
    have hy0 : y.toNat ≠ 0 := fun h0 => hne.1 (BitVec.eq_of_toNat_eq h0)
    rw [Nat.mod_eq_of_lt hy, ← hsame] at hval
    obtain hx0 | hx1 := sign_of_sshiftRight (Nat.pos_of_ne_zero hy0) hval
    · exact hne.2.1 hx0
    · exact hne.2.2 hx1
  · intro hcond d r a b h ho
    obtain ⟨w, h', hcode, hrun, hsets⟩ := sar_run hv ho
    refine ⟨_, _, h', hcode, hrun, ?_, Only.of_sets hsets (by simp)⟩
    rw [hsets.value, ← hval]
    obtain rfl | hsign := hcond
    · rfl
    · rw [sshiftRight_sign hsign, sshiftRight_sign hsign]

/-- The code of an integer operator computes what C defines, exactly when it is not an arithmetic
    shift by a constant, other than by zero or of 0 or -1, and not the division of a negative
    difference of pointers by more than one. -/
theorem int_op_computes_iff {op : Op} {x v : BitVec 32} {right : Right}
    (hv : c_result op x right.value = some v) :
    Computes op x right v ↔
      (∀ y u, op = TOK_SAR → right = .const y u → y = 0#32 ∨ x = 0#32 ∨ x = -1#32) ∧
      (op = TOK_PDIV → 0 ≤ x.toInt ∨ right.value = 1#32) := by
  by_cases hpdiv : op = TOK_PDIV
  · subst hpdiv
    have hreg : TOK_PDIV = TOK_SAR → ∃ y, right = .reg y := nofun
    have hcode := opi_code_value (by decide) (by decide) hreg x
    have hiff := pdiv_value_iff hv
    constructor
    · intro hcomp
      exact ⟨nofun, fun _ => hiff.mp (hcode.unique hcomp)⟩
    · rintro ⟨-, hcond⟩
      rw [← hiff.mpr (hcond rfl)]
      exact hcode
  obtain ⟨hland, hlor, hval⟩ := c_result_value hpdiv hv
  by_cases hsar : op = TOK_SAR ∧ ∃ y u, right = .const y u
  · obtain ⟨rfl, y, u, rfl⟩ := hsar
    have hiff : Computes TOK_SAR x (.const y u) v ↔ _ := sar_computes_iff hv
    rw [hiff]
    constructor
    · intro hcond
      refine ⟨?_, nofun⟩
      rintro y' u' - heq
      cases heq
      exact hcond
    · rintro ⟨hcond, -⟩
      exact hcond y u rfl rfl
  · have hreg : op = TOK_SAR → ∃ y, right = .reg y := by
      rintro rfl
      cases right with
      | const y u => exact absurd ⟨rfl, y, u, rfl⟩ hsar
      | reg y => exact ⟨y, rfl⟩
    have hcode := opi_code_value hland hlor hreg x
    rw [hval] at hcode
    refine iff_of_true hcode ⟨?_, fun h => absurd h hpdiv⟩
    rintro y u rfl rfl
    exact absurd ⟨rfl, y, u, rfl⟩ hsar

/-- `-7 / 2` with both operands in registers, and `x <= 2047`, whose constant has no immediate
    form. -/
theorem int_op_computes_div :
    (c_result .div (BitVec.ofInt 32 (-7)) 2#32 = some (BitVec.ofInt 32 (-3)) ∧
      Computes .div (BitVec.ofInt 32 (-7)) (.reg 2#32) (BitVec.ofInt 32 (-3))) ∧
    (c_result TOK_LE 5#32 2047#32 = some 1#32 ∧
      Computes TOK_LE 5#32 (.const 2047#32 false) 1#32) :=
  ⟨⟨by decide, (int_op_computes_iff (by decide)).mpr ⟨nofun, nofun⟩⟩,
    ⟨by decide, (int_op_computes_iff (by decide)).mpr ⟨nofun, nofun⟩⟩⟩

/-- `x >> 3` of `x = 64` in `a0`, when `x3` is zero: the shift is by `x3`, and 64 comes out. -/
theorem sar_constant_shifts_by_register :
    c_result TOK_SAR 64#32 3#32 = some 8#32 ∧ ¬Computes TOK_SAR 64#32 (.const 3#32 false) 8#32 := by
  refine ⟨by decide, fun hcomp => ?_⟩
  let h : Hart := ⟨fun q => if q = 10#5 then 64#32 else 0#32, fun _ => 0#8, 0#32⟩
  have hcode : opi_code TOK_SAR (.const 3#32 false) 10 10 10 11 =
      some ([emit_SRA 10#32 10#32 1027#32], 10) := by decide
  have hout : (run [emit_SRA 10#32 10#32 1027#32] h).map (·.get 10) = some 64#32 := by decide
  obtain ⟨ws, q, h', hcode', hrun, hval, -⟩ := hcomp 10 10 10 11 h
    ⟨by decide, by decide, by decide, by decide, rfl, by decide⟩
  rw [hcode, Option.some.injEq, Prod.mk.injEq] at hcode'
  obtain ⟨rfl, rfl⟩ := hcode'
  rw [hrun, Option.map_some, hval] at hout
  exact absurd hout (by decide)

end tcc.riscv32
