import Tcc.Gen.Riscv32.OplSteps
import Tcc.Gen.Riscv64.SignExtension

open tcc.riscv64 (commutative constantShift constantResult noOperation addAddress constantResult_isCmp
  noOperation_isCmp)

/-! What `gen_op` makes of two words, with the simplifications of `gen_opic`. -/

namespace tcc.riscv32

open tcc.Op BType

theorem addAddress_reg (op : Op) (t : Scalar) (r : Reg) (l : BitVec 64) :
    addAddress op ⟨t, .reg r, 0⟩ l = none := by
  simp [addAddress]

section

variable {op : Op} {t t' : Scalar} {x y : BitVec 32} {c : BitVec 64} {res : Held}

theorem folds_words : Folds op ⟨t, .word x⟩ ⟨t', .word y⟩ res ↔ Emits op (.word x) (.word y) res := by
  simp [Folds, gen_opic_one, gen_opic_branches, Entry.svalue, SValue.const?, kept]

/-- An operation with a constant on the right, where it does not become another one. -/
theorem folds_word_const (hmul : (op == .mul || op == TOK_PDIV || op == TOK_UDIV) = false) :
    Folds op ⟨t, .word x⟩ ⟨t', .const c⟩ res ↔
      if constantResult op t' (trunc_const 4 t' c) then
        res = .const (if trunc_const 4 t' c = 1#64 then 0#64 else c)
      else if noOperation op t' (trunc_const 4 t' c) then res = .word x
      else Emits op (.word x) (.const c) res := by
  simp only [Folds, gen_opic_one, gen_opic_branches, Entry.svalue, SValue.const?, kept, hmul,
    addAddress_reg, Option.isSome_none, Option.isSome_some, Option.getD_some, Bool.false_and,
    Bool.and_false, Bool.true_and, Bool.not_false, Bool.false_eq_true, if_false, if_true]
  by_cases hconst : constantResult op t' (trunc_const 4 t' c) = true
  · rw [hconst, if_pos rfl, if_pos rfl, @eq_comm _ res]
    by_cases hone : trunc_const 4 t' c = 1#64 <;> simp [hone]
  · rw [if_neg hconst, if_neg hconst]
    by_cases hnone : noOperation op t' (trunc_const 4 t' c) = true
    · rw [if_pos hnone, if_pos hnone, @eq_comm _ res]
      simp
    · rw [if_neg hnone, if_neg hnone]
      simp

/-- With the constant on the left, which `gen_opic` moves to the right if it may. -/
theorem folds_const_word (hmul : (op == .mul || op == TOK_PDIV || op == TOK_UDIV) = false)
    (hshift : op.isShift = false) :
    Folds op ⟨t, .const c⟩ ⟨t, .word x⟩ res ↔
      if commutative op then Folds op ⟨t, .word x⟩ ⟨t, .const c⟩ res
      else Emits op (.const c) (.word x) res := by
  have hno : constantShift op (trunc_const 4 t c) = false := by
    have hsar : (op == TOK_SAR) = false := by cases op <;> first | rfl | cases hshift
    rw [constantShift, hshift, hsar, Bool.and_false, Bool.and_false, Bool.or_self]
  by_cases hcomm : commutative op = true
  · rw [if_pos hcomm, folds_word_const hmul]
    simp only [Folds, gen_opic_one, gen_opic_branches, Entry.svalue, SValue.const?, kept, hmul, hno, hcomm,
      addAddress_reg, Option.isSome_none, Option.isSome_some, Option.getD_some, Bool.false_and,
      Bool.and_false, Bool.true_and, Bool.not_false, Bool.false_eq_true, if_false, if_true]
    by_cases hconst : constantResult op t (trunc_const 4 t c) = true
    · rw [hconst, if_pos rfl, if_pos rfl, @eq_comm _ res]
      by_cases hone : trunc_const 4 t c = 1#64 <;> simp [hone]
    · rw [if_neg hconst, if_neg hconst]
      by_cases hnone : noOperation op t (trunc_const 4 t c) = true
      · rw [if_pos hnone, if_pos hnone, @eq_comm _ res]
        simp
      · rw [if_neg hnone, if_neg hnone]
        simp
  · rw [if_neg hcomm]
    simp [Folds, gen_opic_one, gen_opic_branches, Entry.svalue, SValue.const?, kept, hcomm, hno]

end
theorem gen_op_unsigned_eq {t : Scalar} {op : Op} (hsigned : op.signed = true → t.unsigned = false) :
    gen_op_unsigned t op = op := by
  unfold gen_op_unsigned
  split
  · rename_i hu
    cases op <;> first | rfl | exact absurd (hu.symm.trans (hsigned rfl)) (by decide)
  · rfl

/-- A constant or a word can be loaded. -/
def Held.Loadable (v : Held) : Prop :=
  match v with
  | .const _ | .word _ => True
  | _ => False

theorem loadsWord_iff {v : Held} (hv : v.Loadable) {x : BitVec 32} : LoadsWord v x ↔ x = v.got := by
  cases v with
  | const c => exact loadsWord_const_iff
  | word y => exact Iff.rfl
  | pair lo hi | cmp o p q jtrue jfalse => exact absurd hv id

theorem loaded_const_zero {c : BitVec 64} (hc : c.setWidth 32 = 0#32) : loaded_const c = 0#32 := by
  unfold loaded_const
  rw [hc]
  exact ite_self _

/-- The constant that `gen_opic` compares with is the low word. -/
theorem trunc_const_int {t : Scalar} (ht : t.bt = VT_INT) (c : BitVec 64) :
    trunc_const 4 t c =
      if t.unsigned then (c.setWidth 32).setWidth 64 else (c.setWidth 32).signExtend 64 := by
  rw [trunc_const_eq, if_neg]
  simp [width, ht]

theorem trunc_const_eq_zero_iff {t : Scalar} (ht : t.bt = VT_INT) {c : BitVec 64} :
    trunc_const 4 t c = 0#64 ↔ c.setWidth 32 = 0#32 := by
  rw [trunc_const_int ht]
  constructor
  · intro hzero
    have hlow := congrArg (BitVec.setWidth 32) hzero
    split at hlow
    · rwa [BitVec.setWidth_setWidth_of_le _ (by decide), BitVec.setWidth_eq] at hlow
    · rwa [machine.setWidth_signExtend] at hlow
  · intro hzero
    rw [hzero]
    split <;> rfl

theorem trunc_const_ones_iff {t : Scalar} (ht : t.bt = VT_INT) {c : BitVec 64} :
    (trunc_const 4 t c = -1#64 ∨ trunc_const 4 t c = 0xffffffff#64 ∧ t.bt ≠ VT_LLONG) ↔
      c.setWidth 32 = -1#32 := by
  rw [trunc_const_int ht]
  constructor
  · intro hones
    have hlow : ∀ l : BitVec 64, l = -1#64 ∨ l = 0xffffffff#64 ∧ t.bt ≠ VT_LLONG →
        l.setWidth 32 = -1#32 := by
      rintro l (rfl | ⟨rfl, -⟩) <;> rfl
    have hset := hlow _ hones
    split at hset
    · rwa [BitVec.setWidth_setWidth_of_le _ (by decide), BitVec.setWidth_eq] at hset
    · rwa [machine.setWidth_signExtend] at hset
  · intro hones
    rw [hones]
    split
    · exact Or.inr ⟨rfl, by rw [ht]; decide⟩
    · exact Or.inl (by decide)

/-- `x op c` for a bitwise operator, with the constant `c` as it is loaded, if it is. -/
def bitwise_word (op : Op) (x : BitVec 32) (c : BitVec 64) : BitVec 32 :=
  if op = .or ∧ c.setWidth 32 = -1#32 then loaded_const c
  else if op = .and ∧ c.setWidth 32 = -1#32 then x
  else op.alu x (loaded_const c)

def bitwise_got (op : Op) (v1 v2 : Held) : BitVec 32 :=
  match v1, v2 with
  | .word x, .const c | .const c, .word x => bitwise_word op x c
  | v1, v2 => op.alu v1.got v2.got

section

variable {op : Op} {t : Scalar} {v1 v2 : Held}

theorem folds_emitted (hop : op = .and ∨ op = .or ∨ op = .xor) {x : BitVec 32} {c : BitVec 64}
    (hconst : constantResult op t (trunc_const 4 t c) = false)
    (hnone : noOperation op t (trunc_const 4 t c) = false) (v : Held) :
    Folds op ⟨t, .word x⟩ ⟨t, .const c⟩ v ↔ v = .word (op.alu x (loaded_const c)) := by
  have hv : Operable (.word x) (.const c) := trivial
  have hemits : op.isCmp = false ∧ op ≠ TOK_LAND ∧ op ≠ TOK_LOR ∧ op ≠ TOK_SAR ∧
      (op == .mul || op == TOK_PDIV || op == TOK_UDIV) = false := by
    obtain rfl | rfl | rfl := hop <;> decide
  obtain ⟨hcmp, hland, hlor, hsar, hmul⟩ := hemits
  rw [folds_word_const hmul, hconst, hnone]
  exact emits_value_iff hcmp hland hlor hv fun heq => absurd heq hsar

/-- A bitwise operation with a constant leaves one value. -/
theorem folds_bitwise_const (hop : op = .and ∨ op = .or ∨ op = .xor) (ht : t.bt = VT_INT) (x : BitVec 32)
    (c : BitVec 64) : ∃ w : Held, w.Loadable ∧ w.got = bitwise_word op x c ∧
      ∀ v, Folds op ⟨t, .word x⟩ ⟨t, .const c⟩ v ↔ v = w := by
  have hnll : t.bt ≠ VT_LLONG := by
    rw [ht]
    decide
  by_cases h1 : c.setWidth 32 = -1#32
  · have hones := (trunc_const_ones_iff ht).mpr h1
    obtain rfl | rfl | rfl := hop
    · refine ⟨.word x, trivial, ?_, fun v => ?_⟩
      · rw [bitwise_word, if_neg (by simp), if_pos ⟨rfl, h1⟩]
        rfl
      · rw [folds_word_const rfl]
        obtain htrunc | ⟨htrunc, -⟩ := hones <;> rw [htrunc] <;> simp [constantResult, noOperation, hnll]
    · refine ⟨.const c, trivial, ?_, fun v => ?_⟩
      · rw [bitwise_word, if_pos ⟨rfl, h1⟩]
        rfl
      · rw [folds_word_const rfl]
        obtain htrunc | ⟨htrunc, -⟩ := hones <;> rw [htrunc] <;> simp [constantResult, hnll]
    · refine ⟨.word (x ^^^ loaded_const c), trivial, ?_, folds_emitted (Or.inr (Or.inr rfl)) ?_ ?_⟩
      · rw [bitwise_word, if_neg (by simp), if_neg (by simp)]
        rfl
      · obtain htrunc | ⟨htrunc, -⟩ := hones <;> rw [htrunc] <;> rfl
      · obtain htrunc | ⟨htrunc, -⟩ := hones <;> rw [htrunc] <;> rfl
  have hword : bitwise_word op x c = op.alu x (loaded_const c) := by
    rw [bitwise_word, if_neg fun heq => h1 heq.2, if_neg fun heq => h1 heq.2]
  rw [hword]
  by_cases h0 : c.setWidth 32 = 0#32
  · rw [loaded_const_zero h0]
    have htrunc := (trunc_const_eq_zero_iff ht).mpr h0
    obtain rfl | rfl | rfl := hop
    · refine ⟨.const c, trivial, ?_, fun v => ?_⟩
      · exact (loaded_const_zero h0).trans BitVec.and_zero.symm
      · rw [folds_word_const rfl, htrunc]
        rfl
    · refine ⟨.word x, trivial, BitVec.or_zero.symm, fun v => ?_⟩
      rw [folds_word_const rfl, htrunc]
      rfl
    · refine ⟨.word x, trivial, BitVec.xor_zero.symm, fun v => ?_⟩
      rw [folds_word_const rfl, htrunc]
      rfl
  · have hzero := mt (trunc_const_eq_zero_iff ht).mp h0
    have hones := mt (trunc_const_ones_iff ht).mp h1
    rw [not_or, not_and, not_not] at hones
    have hfull : ¬trunc_const 4 t c = 18446744073709551615#64 := hones.1
    have hlow : ¬trunc_const 4 t c = 0xffffffff#64 := fun heq => hnll (hones.2 heq)
    refine ⟨.word (op.alu x (loaded_const c)), trivial, rfl, folds_emitted hop ?_ ?_⟩
    · obtain rfl | rfl | rfl := hop <;> simp [constantResult, hzero, hfull, hlow]
    · obtain rfl | rfl | rfl := hop <;> simp [noOperation, Op.isShift, hzero, hfull, hlow]

end

section

variable {op : Op} {t : Scalar} {v1 v2 : Held}

/-- The bitwise operators are the same at all types. -/
theorem genOp_of_folds (hop : op = .and ∨ op = .or ∨ op = .xor) (ht : t.bt = VT_INT) {w : Held}
    (hfolds : ∀ v, Folds op ⟨t, v1⟩ ⟨t, v2⟩ v ↔ v = w) (e : Entry) :
    GenOp op ⟨t, v1⟩ ⟨t, v2⟩ e ↔ e = ⟨t, w⟩ := by
  have hsame : gen_op_unsigned t op = op ∧ op.isShift = false ∧ op.isCmp = false := by
    refine ⟨gen_op_unsigned_eq fun h => ?_, ?_⟩
    · obtain rfl | rfl | rfl := hop <;> cases h
    · obtain rfl | rfl | rfl := hop <;> decide
  obtain ⟨hunsigned, hshift, hcmp⟩ := hsame
  obtain ⟨te, ve⟩ := e
  simp only [GenOp, hunsigned, hshift, hcmp, hfolds, ht, Entry.mk.injEq]
  simp

theorem genOp_bitwise_words (hop : op = .and ∨ op = .or ∨ op = .xor) (ht : t.bt = VT_INT) (x y : BitVec 32)
    (e : Entry) : GenOp op ⟨t, .word x⟩ ⟨t, .word y⟩ e ↔ e = ⟨t, .word (op.alu x y)⟩ := by
  have hemits : op.isCmp = false ∧ op ≠ TOK_LAND ∧ op ≠ TOK_LOR ∧ op ≠ TOK_SAR := by
    obtain rfl | rfl | rfl := hop <;> decide
  obtain ⟨hcmp, hland, hlor, hsar⟩ := hemits
  have hv : Operable (.word x) (.word y) := trivial
  refine genOp_of_folds hop ht (fun v => ?_) e
  rw [folds_words]
  exact emits_value_iff hcmp hland hlor hv fun heq => absurd heq hsar

/-- What `gen_op` makes of a bitwise operation on words and constants. -/
theorem genOp_bitwise (hop : op = .and ∨ op = .or ∨ op = .xor) (ht : t.bt = VT_INT)
    (hv : Operable v1 v2) : ∃ w : Held, w.Loadable ∧ w.got = bitwise_got op v1 v2 ∧
      ∀ e, GenOp op ⟨t, v1⟩ ⟨t, v2⟩ e ↔ e = ⟨t, w⟩ := by
  obtain ⟨x, y, rfl, rfl⟩ | ⟨x, c, rfl, rfl⟩ | ⟨c, x, rfl, rfl⟩ := hv.cases
  · exact ⟨.word (op.alu x y), trivial, rfl, genOp_bitwise_words hop ht x y⟩
  · obtain ⟨w, hload, hgot, hiff⟩ := folds_bitwise_const hop ht x c
    exact ⟨w, hload, hgot, genOp_of_folds hop ht hiff⟩
  · obtain ⟨w, hload, hgot, hiff⟩ := folds_bitwise_const hop ht x c
    have hswap : op.isShift = false ∧ commutative op = true ∧
        (op == .mul || op == TOK_PDIV || op == TOK_UDIV) = false := by
      obtain rfl | rfl | rfl := hop <;> decide
    obtain ⟨hshift, hcomm, hmul⟩ := hswap
    refine ⟨w, hload, hgot, genOp_of_folds hop ht fun v => ?_⟩
    rw [folds_const_word hmul hshift, if_pos hcomm]
    exact hiff v

/-- The number of a shift as a constant of the compiler. -/
theorem count_setWidth {n : Nat} (hn : n ≤ 32) :
    BitVec.ofNat 64 n = (BitVec.ofNat 32 n).setWidth 64 ∧ trunc_const 4 .int (BitVec.ofNat 64 n) = BitVec.ofNat 64 n ∧
      (BitVec.ofNat 64 n = 0#64 ↔ n = 0) := by
  have hlow : (BitVec.ofNat 64 n).setWidth 32 = BitVec.ofNat 32 n := by
    rw [BitVec.setWidth_ofNat_of_le (by decide)]
  have hwide : BitVec.ofNat 64 n = (BitVec.ofNat 32 n).setWidth 64 := by
    apply BitVec.eq_of_toNat_eq
    rw [BitVec.toNat_setWidth, BitVec.toNat_ofNat, BitVec.toNat_ofNat]
    omega
  have hmsb : (BitVec.ofNat 32 n).msb = false := by
    rw [BitVec.msb_eq_decide, BitVec.toNat_ofNat, decide_eq_false]
    omega
  refine ⟨hwide, ?_, ?_⟩
  · rw [trunc_const_int rfl, hlow]
    exact (BitVec.signExtend_eq_setWidth_of_msb_false hmsb).trans hwide.symm
  · rw [← BitVec.toNat_inj, BitVec.toNat_ofNat, BitVec.toNat_ofNat]
    omega

/-- A shift by a constant that is not zero is left to the back end. -/
theorem folds_shift (hop : op.isShift = true) (x : BitVec 32) {n : Nat} (hn : n ≤ 32) (v : Held) :
    Folds op ⟨t, .word x⟩ ⟨.int, .const (BitVec.ofNat 64 n)⟩ v ↔
      if n = 0 then v = .word x else Emits op (.word x) (.const (BitVec.ofNat 64 n)) v := by
  obtain ⟨-, htrunc, hzero⟩ := count_setWidth hn
  have hsimple : (op == .mul || op == TOK_PDIV || op == TOK_UDIV) = false ∧
      (∀ l, constantResult op .int l = false) ∧ ∀ l, noOperation op .int l = (l == 0#64) := by
    obtain rfl | rfl | rfl := isShift_cases hop
    all_goals
      refine ⟨rfl, fun l => ?_, fun l => ?_⟩
      · simp [constantResult]
      · unfold noOperation
        cases l == 0#64 <;> rfl
  obtain ⟨hmul, hconst, hnone⟩ := hsimple
  rw [folds_word_const hmul, htrunc, hconst, hnone, if_neg (by decide)]
  simp only [beq_iff_eq, hzero]

/-- A shift by a constant, other than an arithmetic one. -/
theorem genOp_shift (hop : op = TOK_SHL ∨ op = TOK_SHR) (ht : t.bt = VT_INT) (x : BitVec 32) {n : Nat}
    (hn : n ≤ 32) (e : Entry) :
    GenOp op ⟨t, .word x⟩ ⟨.int, .const (BitVec.ofNat 64 n)⟩ e ↔
      e = ⟨t, .word (op.alu x (BitVec.ofNat 32 n))⟩ := by
  have hsame : gen_op_unsigned t op = op ∧ op.isShift = true ∧ op.isCmp = false ∧ op ≠ TOK_LAND ∧
      op ≠ TOK_LOR ∧ op ≠ TOK_SAR := by
    refine ⟨gen_op_unsigned_eq fun h => ?_, ?_⟩
    · obtain rfl | rfl := hop <;> cases h
    · obtain rfl | rfl := hop <;> decide
  obtain ⟨hunsigned, hshift, hcmp, hland, hlor, hsar⟩ := hsame
  obtain ⟨hwide, -, -⟩ := count_setWidth hn
  have hv : Operable (.word x) (.const (BitVec.ofNat 64 n)) := trivial
  have hfolds (v : Held) : Folds op ⟨t, .word x⟩ ⟨.int, .const (BitVec.ofNat 64 n)⟩ v ↔
      v = .word (op.alu x (BitVec.ofNat 32 n)) := by
    rw [folds_shift hshift x hn]
    split
    · rename_i h0
      subst h0
      obtain rfl | rfl := hop
      · simp [Op.alu]
      · simp [Op.alu]
    · rw [emits_value_iff hcmp hland hlor hv fun heq => absurd heq hsar]
      rw [Held.got, Held.got, loaded_const_of_extended (Or.inr hwide)]
  obtain ⟨te, ve⟩ := e
  simp only [GenOp, hunsigned, hshift, hcmp, hfolds, ht, Entry.mk.injEq]
  simp

/-- An arithmetic shift by a constant: by any number of bits, unless by zero. -/
theorem genOp_sar (ht : t.bt = VT_INT) (hu : t.unsigned = false) (x : BitVec 32) {n : Nat}
    (hn : n < 32) (e : Entry) : GenOp TOK_SAR ⟨t, .word x⟩ ⟨.int, .const (BitVec.ofNat 64 n)⟩ e ↔
      ∃ m < 32, (n = 0 → m = 0) ∧ e = ⟨t, .word (x.sshiftRight m)⟩ := by
  have hunsigned : gen_op_unsigned t TOK_SAR = TOK_SAR := gen_op_unsigned_eq fun _ => hu
  obtain ⟨hwide, -, -⟩ := count_setWidth hn.le
  have hfolds (v : Held) : Folds TOK_SAR ⟨t, .word x⟩ ⟨.int, .const (BitVec.ofNat 64 n)⟩ v ↔
      ∃ m < 32, (n = 0 → m = 0) ∧ v = .word (x.sshiftRight m) := by
    rw [folds_shift (rfl : TOK_SAR.isShift = true) x hn.le]
    split
    · rename_i h0
      constructor
      · rintro rfl
        exact ⟨0, by decide, fun _ => rfl, by rw [BitVec.sshiftRight_zero]⟩
      · rintro ⟨m, -, hm, rfl⟩
        rw [hm h0, BitVec.sshiftRight_zero]
    · rename_i h0
      have hnat : (BitVec.ofNat 32 n).toNat = n := by
        rw [BitVec.toNat_ofNat]
        omega
      have hne : BitVec.ofNat 32 n ≠ 0#32 := by
        rw [ne_eq, ← BitVec.toNat_inj, hnat]
        exact h0
      rw [hwide, emits_sar_iff (by rw [hnat]; exact hn) hne]
      constructor
      · rintro ⟨m, hm, rfl⟩
        exact ⟨m, hm, fun h => absurd h h0, rfl⟩
      · rintro ⟨m, hm, -, rfl⟩
        exact ⟨m, hm, rfl⟩
  obtain ⟨te, ve⟩ := e
  simp only [GenOp, hunsigned, hfolds, ht, Entry.mk.injEq]
  constructor
  · rintro ⟨-, -, rfl, m, hm, hm0, rfl⟩
    exact ⟨m, hm, hm0, rfl, rfl⟩
  · rintro ⟨m, hm, hm0, rfl, rfl⟩
    exact ⟨trivial, rfl, rfl, m, hm, hm0, rfl⟩

theorem Held.Means.symm {x y : BitVec 32} {v : Held} (hop : op = TOK_EQ ∨ op = TOK_NE) (hv : v.Means op x y) :
    v.Means op y x := by
  have hcomm : op.holds x y = op.holds y x := by
    obtain rfl | rfl := hop
    · exact Bool.beq_comm
    · exact congrArg not Bool.beq_comm
  cases v with
  | cmp o p q jtrue jfalse =>
    obtain ⟨hcmp, ho, hholds, hjumps⟩ := hv
    exact ⟨hcmp, ho, hholds.trans hcomm, hjumps⟩
  | word z =>
    obtain rfl | rfl := hop <;> cases hv.1
  | const c | pair lo hi => exact hv

/-- What `gen_op` makes of a comparison of words. -/
theorem genOp_cmp (hop : op.isCmp = true) (hsigned : op.signed = true → t.unsigned = false)
    (ht : t.bt = VT_INT) (hv : Operable v1 v2) : (∃ e, GenOp op ⟨t, v1⟩ ⟨t, v2⟩ e) ∧
      ∀ e, GenOp op ⟨t, v1⟩ ⟨t, v2⟩ e → ∃ o p q, e = ⟨.int, .cmp o p q [] []⟩ ∧ o.isCmp = true ∧
        o.holds p q = op.holds v1.got v2.got := by
  have hunsigned := gen_op_unsigned_eq hsigned
  have hsame : op.isShift = false ∧ (op == .mul || op == TOK_PDIV || op == TOK_UDIV) = false ∧
      op ≠ TOK_LAND ∧ op ≠ TOK_LOR ∧ op ≠ TOK_SAR := by
    cases op <;> first | decide | cases hop
  obtain ⟨hshift, hmul, hland, hlor, hsar⟩ := hsame
  have hword {x : BitVec 32} {c : BitVec 64} {v : Held} :
      Folds op ⟨t, .word x⟩ ⟨t, .const c⟩ v ↔ Emits op (.word x) (.const c) v := by
    rw [folds_word_const hmul, if_neg, if_neg]
    · intro hno
      rw [noOperation_isCmp hno] at hop
      cases hop
    · intro hconst
      rw [constantResult_isCmp hconst] at hop
      cases hop
  have hfolds : (∃ v, Folds op ⟨t, v1⟩ ⟨t, v2⟩ v) ∧
      ∀ v, Folds op ⟨t, v1⟩ ⟨t, v2⟩ v → v.Means op v1.got v2.got := by
    obtain ⟨x, y, rfl, rfl⟩ | ⟨x, c, rfl, rfl⟩ | ⟨c, x, rfl, rfl⟩ := hv.cases
    · simp only [folds_words]
      exact ⟨emits_exists hland hlor hv fun heq => absurd heq hsar,
        fun v hemits => hemits.means hland hlor hv fun heq => absurd heq hsar⟩
    · simp only [hword]
      exact ⟨emits_exists hland hlor hv fun heq => absurd heq hsar,
        fun v hemits => hemits.means hland hlor hv fun heq => absurd heq hsar⟩
    · simp only [folds_const_word hmul hshift]
      by_cases hcomm : commutative op = true
      · have hv' : Operable (.word x) (.const c) := trivial
        have heq : op = TOK_EQ ∨ op = TOK_NE := by
          cases op with
          | TOK_EQ => exact Or.inl rfl
          | TOK_NE => exact Or.inr rfl
          | _ => first | (cases hop; done) | cases hcomm
        simp only [hcomm, if_true, hword]
        exact ⟨emits_exists hland hlor hv' fun heq => absurd heq hsar,
          fun v hemits => (hemits.means hland hlor hv' fun heq => absurd heq hsar).symm heq⟩
      · simp only [if_neg hcomm]
        exact ⟨emits_exists hland hlor hv fun heq => absurd heq hsar,
          fun v hemits => hemits.means hland hlor hv fun heq => absurd heq hsar⟩
  obtain ⟨⟨v, hfold⟩, hmeans⟩ := hfolds
  constructor
  · refine ⟨⟨.int, v⟩, ht, ?_, ?_, ?_⟩
    · rw [hunsigned, hshift]
      rfl
    · rw [hunsigned, hop]
      rfl
    · rw [hunsigned]
      exact hfold
  · rintro e ⟨-, -, htype, hfold⟩
    rw [hunsigned] at hfold htype
    rw [hop] at htype
    have hmean := hmeans _ hfold
    obtain ⟨te, ve⟩ := e
    cases ve with
    | cmp o p q jtrue jfalse =>
      obtain ⟨-, ho, hholds, rfl, rfl⟩ := hmean
      exact ⟨o, p, q, congrArg (Entry.mk · _) htype, ho, hholds⟩
    | word z => exact absurd (hop.symm.trans hmean.1) (by decide)
    | const c | pair lo hi => exact absurd hmean id

end

end tcc.riscv32
