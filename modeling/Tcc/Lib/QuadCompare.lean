import Tcc.Lib.QuadAdd
import Tcc.Gen.Riscv64.ImmediateForms
import Tcc.Gen.Riscv64.Reach

/-! The comparisons of `lib/lib-arm64.c`, and the code that `gen_opf` generates for those of `long double`. -/

namespace tcc.lib.quad

open machine.ieee machine.rv64 tcc.riscv64 tcc.Op

/-- The sign bit as a number. -/
def sign_bit (x : U128) : Int := (x.x1 >>> 63).toNat

def f3_cmp (a b : U128) : Int :=
  if a.x0 ||| a.x1 <<< 1 ||| b.x0 ||| b.x1 <<< 1 = 0 then 0
  else if a.x1 <<< 1 >>> 49 = 0x7fff#64 ∧ a.x0 ||| a.x1 <<< 16 ≠ 0 ∨
      b.x1 <<< 1 >>> 49 = 0x7fff#64 ∧ b.x0 ||| b.x1 <<< 16 ≠ 0 then 2
  else if a.x1 >>> 63 ≠ b.x1 >>> 63 then sign_bit b - sign_bit a
  else if a.x1 < b.x1 then (a.x1 >>> 63 <<< 1).toNat - 1
  else if a.x1 > b.x1 then 1 - (a.x1 >>> 63 <<< 1).toNat
  else if a.x0 < b.x0 then (a.x1 >>> 63 <<< 1).toNat - 1
  else if b.x0 < a.x0 then 1 - (a.x1 >>> 63 <<< 1).toNat
  else 0

def eqtf2 (a b : U128) : Int := if f3_cmp a b ≠ 0 then 1 else 0

def netf2 (a b : U128) : Int := if f3_cmp a b ≠ 0 then 1 else 0

def lttf2 (a b : U128) : Int := f3_cmp a b

def letf2 (a b : U128) : Int := f3_cmp a b

def gttf2 (a b : U128) : Int := -f3_cmp b a

def getf2 (a b : U128) : Int := -f3_cmp b a

/-- The helper function of `gen_opf` for a comparison of `long double`. -/
def gen_opf_func (op : Op) : Option (U128 → U128 → Int) :=
  match op with
  | TOK_EQ => some eqtf2
  | TOK_NE => some netf2
  | TOK_LT => some lttf2
  | TOK_GE => some getf2
  | TOK_LE => some letf2
  | TOK_GT => some gttf2
  | _ => none

/-- The register `a0`, in which a function returns an integer: `ireg(REG_IRET)`. -/
def ireg_REG_IRET : BitVec 5 := 10#5

/-- After the call, what the helper function returns is compared with the constant zero: `gen_opil(op, 1)`. -/
def gen_opf_test (op : Op) (d b : Reg) : Option (List Word × Result) :=
  gen_opil_const op true .int 0#64 (ireg d) ireg_REG_IRET (ireg b)

/-- The comparisons of IEEE 754. All but one are false if there is a NaN. -/
def IeeeCompares (op : Op) (a b : Pattern) : Prop :=
  match op with
  | TOK_EQ => ¬ binary128.IsNan a ∧ ¬ binary128.IsNan b ∧ binary128.number a = binary128.number b
  | TOK_NE => ¬ (¬ binary128.IsNan a ∧ ¬ binary128.IsNan b ∧ binary128.number a = binary128.number b)
  | TOK_LT => ¬ binary128.IsNan a ∧ ¬ binary128.IsNan b ∧ binary128.number a < binary128.number b
  | TOK_GE => ¬ binary128.IsNan a ∧ ¬ binary128.IsNan b ∧ binary128.number b ≤ binary128.number a
  | TOK_LE => ¬ binary128.IsNan a ∧ ¬ binary128.IsNan b ∧ binary128.number a ≤ binary128.number b
  | TOK_GT => ¬ binary128.IsNan a ∧ ¬ binary128.IsNan b ∧ binary128.number b < binary128.number a
  | _ => False

section cmp

variable {a b : U128}

theorem isNan_words (x : U128) : (x.x1 <<< 1 >>> 49 = 0x7fff#64 ∧ x.x0 ||| x.x1 <<< 16 ≠ 0) ↔ binary128.IsNan x.pattern := by
  have hlow := x.x0.isLt
  have hhigh := x.x1.isLt
  have hmag : x.pattern.magnitude = x.toNat % 2 ^ 127 := rfl
  have hexp : x.x1 <<< 1 >>> 49 = 0x7fff#64 ↔ x.x1.toNat / 2 ^ 48 % 2 ^ 15 = 0x7fff := by
    rw [← BitVec.toNat_inj, toNat_shr, toNat_shl]
    have hfull : (0x7fff#64).toNat = 0x7fff := rfl
    rw [hfull]
    omega
  rw [hexp, Ne, or_eq_zero_iff, eq_zero_iff, eq_zero_iff, toNat_shl, Format.IsNan,
    Unpacked.Represents.infinity_eq, hmag, U128.toNat_eq]
  omega

theorem zero_words (a b : U128) : a.x0 ||| a.x1 <<< 1 ||| b.x0 ||| b.x1 <<< 1 = 0 ↔
    a.pattern.magnitude = 0 ∧ b.pattern.magnitude = 0 := by
  have hword : ∀ x : U128, x.pattern.magnitude = 0 ↔ x.x0.toNat = 0 ∧ x.x1.toNat * 2 % 2 ^ 64 = 0 := by
    intro x
    have hlow := x.x0.isLt
    have hmag : x.pattern.magnitude = x.toNat % 2 ^ 127 := rfl
    rw [hmag, U128.toNat_eq]
    omega
  rw [or_eq_zero_iff, or_eq_zero_iff (a.x0 ||| a.x1 <<< 1), or_eq_zero_iff a.x0, eq_zero_iff, eq_zero_iff, eq_zero_iff,
    eq_zero_iff, toNat_shl, toNat_shl, hword, hword, pow_one, and_assoc]

theorem f3_cmp_of_isNan (h : binary128.IsNan a.pattern ∨ binary128.IsNan b.pattern) : f3_cmp a b = 2 := by
  have hpos := binary128.infinity_pos
  have hne : ¬ (a.pattern.magnitude = 0 ∧ b.pattern.magnitude = 0) := by
    unfold Format.IsNan at h
    omega
  rw [f3_cmp, if_neg (mt (zero_words a b).mp hne), if_pos (h.imp (isNan_words a).mpr (isNan_words b).mpr)]

theorem position_eq (x : U128) : x.pattern.position =
    if 2 ^ 63 ≤ x.x1.toNat then -(((x.x1.toNat - 2 ^ 63 : Nat) * 2 ^ 64 : Int) + x.x0.toNat)
    else (x.x1.toNat * 2 ^ 64 : Int) + x.x0.toNat := by
  have hlow := x.x0.isLt
  have hhigh := x.x1.isLt
  have hmag : x.pattern.magnitude = x.toNat % 2 ^ 127 := rfl
  have hneg : x.pattern.neg = x.x1.msb := rfl
  rw [Pattern.position, hneg, hmag, U128.toNat_eq, BitVec.msb_eq_decide]
  by_cases hsign : 2 ^ 63 ≤ x.x1.toNat
  · rw [decide_eq_true (by exact hsign), if_pos rfl, if_pos hsign]
    omega
  · rw [decide_eq_false (by exact hsign), if_neg (by decide), if_neg hsign]
    omega

/-- Without NaNs, the sign of the result is the order of the positions. -/
theorem f3_cmp_of_not_isNan (ha : ¬ binary128.IsNan a.pattern) (hb : ¬ binary128.IsNan b.pattern) :
    (f3_cmp a b < 0 ↔ a.pattern.position < b.pattern.position) ∧
    (f3_cmp a b = 0 ↔ a.pattern.position = b.pattern.position) := by
  have hlow_a := a.x0.isLt
  have hlow_b := b.x0.isLt
  have hhigh_a := a.x1.isLt
  have hhigh_b := b.x1.isLt
  have hbit : ∀ x : U128, (x.x1 >>> 63).toNat = x.x1.toNat / 2 ^ 63 := fun x => toNat_shr _ _
  have hbit' : ∀ x : U128, (x.x1 >>> 63 <<< 1).toNat = x.x1.toNat / 2 ^ 63 * 2 := by
    intro x
    have hlt := x.x1.isLt
    rw [toNat_shl, hbit]
    omega
  have hzero : a.pattern.magnitude = 0 ∧ b.pattern.magnitude = 0 → a.pattern.position = b.pattern.position := by
    rintro ⟨hza, hzb⟩
    rw [Pattern.position, Pattern.position, hza, hzb]
    simp
  have hnonzero : ¬ (a.pattern.magnitude = 0 ∧ b.pattern.magnitude = 0) →
      a.pattern.position ≠ 0 ∨ b.pattern.position ≠ 0 := by
    intro h
    unfold Pattern.position
    split <;> split <;> omega
  unfold f3_cmp
  by_cases hz : a.pattern.magnitude = 0 ∧ b.pattern.magnitude = 0
  · rw [if_pos ((zero_words a b).mpr hz), hzero hz]
    simp
  · have hne := hnonzero hz
    rw [if_neg (mt (zero_words a b).mp hz),
      if_neg (not_or.mpr ⟨mt (isNan_words a).mp ha, mt (isNan_words b).mp hb⟩)]
    rw [position_eq, position_eq] at hne ⊢
    simp only [sign_bit, gt_iff_lt, BitVec.lt_def, ne_eq, ← BitVec.toNat_inj, hbit, hbit']
    by_cases hsa : 2 ^ 63 ≤ a.x1.toNat <;> by_cases hsb : 2 ^ 63 ≤ b.x1.toNat <;>
      simp only [hsa, hsb, if_true, if_false] at hne ⊢ <;> split_ifs <;> omega

theorem f3_cmp_lt_iff (a b : U128) : f3_cmp a b < 0 ↔ ¬ binary128.IsNan a.pattern ∧ ¬ binary128.IsNan b.pattern ∧
    binary128.number a.pattern < binary128.number b.pattern := by
  by_cases hnan : binary128.IsNan a.pattern ∨ binary128.IsNan b.pattern
  · rw [f3_cmp_of_isNan hnan]
    exact iff_of_false (by decide) fun h => hnan.elim h.1 h.2.1
  · obtain ⟨ha, hb⟩ := not_or.mp hnan
    rw [(f3_cmp_of_not_isNan ha hb).1, Format.number_lt_iff ha hb]
    exact ⟨fun h => ⟨ha, hb, h⟩, fun h => h.2.2⟩

theorem f3_cmp_eq_iff (a b : U128) : f3_cmp a b = 0 ↔ ¬ binary128.IsNan a.pattern ∧ ¬ binary128.IsNan b.pattern ∧
    binary128.number a.pattern = binary128.number b.pattern := by
  by_cases hnan : binary128.IsNan a.pattern ∨ binary128.IsNan b.pattern
  · rw [f3_cmp_of_isNan hnan]
    exact iff_of_false (by decide) fun h => hnan.elim h.1 h.2.1
  · obtain ⟨ha, hb⟩ := not_or.mp hnan
    rw [(f3_cmp_of_not_isNan ha hb).2, Format.number_eq_iff ha hb]
    exact ⟨fun h => ⟨ha, hb, h⟩, fun h => h.2.2⟩

theorem f3_cmp_le_iff (a b : U128) : f3_cmp a b ≤ 0 ↔ ¬ binary128.IsNan a.pattern ∧ ¬ binary128.IsNan b.pattern ∧
    binary128.number a.pattern ≤ binary128.number b.pattern := by
  rw [le_iff_lt_or_eq, f3_cmp_lt_iff, f3_cmp_eq_iff, le_iff_lt_or_eq]
  constructor
  · rintro (⟨ha, hb, h⟩ | ⟨ha, hb, h⟩)
    · exact ⟨ha, hb, Or.inl h⟩
    · exact ⟨ha, hb, Or.inr h⟩
  · rintro ⟨ha, hb, h | h⟩
    · exact Or.inl ⟨ha, hb, h⟩
    · exact Or.inr ⟨ha, hb, h⟩

theorem f3_cmp_bounds (a b : U128) : -1 ≤ f3_cmp a b ∧ f3_cmp a b ≤ 2 := by
  by_cases hnan : binary128.IsNan a.pattern ∨ binary128.IsNan b.pattern
  · rw [f3_cmp_of_isNan hnan]
    decide
  · have hbit : ∀ x : U128, (x.x1 >>> 63).toNat ≤ 1 := by
      intro x
      have hlt := x.x1.isLt
      rw [toNat_shr]
      omega
    have hbit' : ∀ x : U128, (x.x1 >>> 63 <<< 1).toNat ≤ 2 := by
      intro x
      have hle := hbit x
      rw [toNat_shl]
      omega
    have ha := hbit a
    have hb := hbit b
    have ha' := hbit' a
    unfold f3_cmp sign_bit
    split_ifs <;> omega

end cmp

section test

variable {op : Op} {func : U128 → U128 → Int}

/-- What the helper function returns, compared with zero as integers. -/
theorem func_meaning (hop : gen_opf_func op = some func) (a b : U128) :
    op.Meaning (BitVec.ofInt 64 (func a b)) 0#64 ↔ IeeeCompares op a.pattern b.pattern := by
  have hzero : (0#64).toInt = 0 := rfl
  have hword : ∀ v : Int, -2 ≤ v ∧ v ≤ 2 → (BitVec.ofInt 64 v).toInt = v := by
    intro v hv
    rw [BitVec.toInt_ofInt, Int.bmod_eq_of_le] <;> omega
  have hinj : ∀ v : Int, -2 ≤ v ∧ v ≤ 2 → (BitVec.ofInt 64 v = 0#64 ↔ v = 0) := by
    intro v hv
    rw [← BitVec.toInt_inj, hword v hv, hzero]
  have hab := f3_cmp_bounds a b
  have hba := f3_cmp_bounds b a
  have hne : (if f3_cmp a b ≠ 0 then (1 : Int) else 0) = 0 ↔ f3_cmp a b = 0 := by
    by_cases hcmp : f3_cmp a b = 0
    · rw [if_neg (not_not.mpr hcmp), hcmp]
    · rw [if_pos hcmp]
      exact iff_of_false (by decide) hcmp
  have hsmall : -2 ≤ (if f3_cmp a b ≠ 0 then (1 : Int) else 0) ∧ (if f3_cmp a b ≠ 0 then (1 : Int) else 0) ≤ 2 := by
    split_ifs <;> decide
  cases op with
  | TOK_EQ =>
    cases hop
    change BitVec.ofInt 64 (if f3_cmp a b ≠ 0 then 1 else 0) = 0#64 ↔ _
    rw [hinj _ hsmall, hne, f3_cmp_eq_iff]
    rfl
  | TOK_NE =>
    cases hop
    change BitVec.ofInt 64 (if f3_cmp a b ≠ 0 then 1 else 0) ≠ 0#64 ↔ _
    rw [Ne, hinj _ hsmall, hne, f3_cmp_eq_iff]
    rfl
  | TOK_LT =>
    cases hop
    change (BitVec.ofInt 64 (f3_cmp a b)).toInt < (0#64).toInt ↔ _
    rw [hword _ (by omega), hzero, f3_cmp_lt_iff]
    rfl
  | TOK_LE =>
    cases hop
    change (BitVec.ofInt 64 (f3_cmp a b)).toInt ≤ (0#64).toInt ↔ _
    rw [hword _ (by omega), hzero, f3_cmp_le_iff]
    rfl
  | TOK_GT =>
    cases hop
    change (0#64).toInt < (BitVec.ofInt 64 (-f3_cmp b a)).toInt ↔ _
    rw [hword _ (by omega), hzero, Int.neg_pos, f3_cmp_lt_iff, IeeeCompares]
    exact ⟨fun ⟨hb, ha, hlt⟩ => ⟨ha, hb, hlt⟩, fun ⟨ha, hb, hlt⟩ => ⟨hb, ha, hlt⟩⟩
  | TOK_GE =>
    cases hop
    change (0#64).toInt ≤ (BitVec.ofInt 64 (-f3_cmp b a)).toInt ↔ _
    rw [hword _ (by omega), hzero, Int.neg_nonneg, f3_cmp_le_iff, IeeeCompares]
    exact ⟨fun ⟨hb, ha, hle⟩ => ⟨ha, hb, hle⟩, fun ⟨ha, hb, hle⟩ => ⟨hb, ha, hle⟩⟩
  | _ => cases hop

/-- The generated comparison of what the helper function returned gives the truth of the IEEE comparison. -/
theorem gen_opf_compare (hop : gen_opf_func op = some func) (a b : U128) {h : Hart}
    (hreturned : h.get (ireg 0) = BitVec.ofInt 64 (func a b)) {d r c : Reg} (hc : c ≠ 0) :
    ∃ res h' t, gen_opf_test op d c = some res ∧ run (result_code (ireg r) res).1 h = some h' ∧
      h'.get (result_code (ireg r) res).2 = boolWord t ∧ (t = true ↔ IeeeCompares op a.pattern b.pattern) := by
  have hland : op ≠ TOK_LAND := by
    rintro rfl
    cases hop
  have hlor : op ≠ TOK_LOR := by
    rintro rfl
    cases hop
  have hcmp : op.isCmp = true := by
    cases op <;> first | rfl | cases hop
  have hreg : ireg 0 ≠ ireg c := fun heq => hc (ireg_inj.mp heq).symm
  obtain ⟨res, hgen, hres⟩ : ∃ res, gen_opil_const op true .int 0#64 (ireg d) (ireg 0) (ireg c) = some res ∧
      Computes op true (h.get (ireg 0)) (loaded .int 0#64) (ireg d) (ireg c) h res :=
    gen_opil_const_computes hland hlor (ireg_ne_zero d) (ireg_ne_zero c) hreg (fun hll => absurd hll (by decide))
  obtain ⟨h', hrun, -, hval⟩ := hres.result_code (ireg_ne_zero r)
  have hloaded : loaded .int 0#64 = 0#64 := rfl
  rw [opil_value, if_pos hcmp, hloaded, hreturned] at hval
  refine ⟨res, h', _, hgen, hrun, hval, ?_⟩
  rw [Op.holds_iff hcmp, func_meaning hop]

/-- Zero and its negative are equal. -/
theorem gen_opf_compare_zeros : IeeeCompares TOK_EQ (U128.mk 0 0).pattern (U128.mk 0 (1 <<< 63)).pattern ∧
    ∃ res h' t, gen_opf_test TOK_EQ 1 2 = some res ∧
      run (result_code (ireg 3) res).1 ⟨fun _ => 0#64, fun _ => 0#8, 0#64⟩ = some h' ∧
      h'.get (result_code (ireg 3) res).2 = boolWord t ∧
      (t = true ↔ IeeeCompares TOK_EQ (U128.mk 0 0).pattern (U128.mk 0 (1 <<< 63)).pattern) := by
  have hcmp : eqtf2 ⟨0, 0⟩ ⟨0, 1 <<< 63⟩ = 0 := by decide
  constructor
  · rw [← func_meaning rfl, hcmp]
    rfl
  · refine gen_opf_compare rfl _ _ ?_ (by decide)
    rw [hcmp]
    rfl

end test

end tcc.lib.quad
