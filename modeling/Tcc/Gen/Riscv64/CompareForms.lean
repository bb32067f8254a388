import Tcc.Gen.Riscv64.Branch
import Tcc.Gen.Riscv64.Load

open machine.rv64

namespace tcc

open Op

/-- What C says a comparison of two integers means. -/
def Op.Meaning {w : Nat} (op : Op) (x y : BitVec w) : Prop :=
  match op with
  | TOK_ULT => x.toNat < y.toNat
  | TOK_UGE => y.toNat ≤ x.toNat
  | TOK_ULE => x.toNat ≤ y.toNat
  | TOK_UGT => y.toNat < x.toNat
  | TOK_LT => x.toInt < y.toInt
  | TOK_GE => y.toInt ≤ x.toInt
  | TOK_LE => x.toInt ≤ y.toInt
  | TOK_GT => y.toInt < x.toInt
  | TOK_EQ => x = y
  | TOK_NE => x ≠ y
  | _ => False

theorem Op.holds_iff {w : Nat} {op : Op} (hop : op.isCmp = true) (x y : BitVec w) :
    op.holds x y = true ↔ op.Meaning x y := by
  cases op with
  | TOK_ULT => exact BitVec.ult_iff_lt
  | TOK_UGT => exact BitVec.ult_iff_lt
  | TOK_UGE | TOK_ULE =>
    refine Bool.not_eq_true' _ ▸ ?_
    rw [← Bool.not_eq_true, BitVec.ult_iff_lt, BitVec.lt_def, not_lt]
    rfl
  | TOK_LT => exact BitVec.slt_iff_toInt_lt
  | TOK_GT => exact BitVec.slt_iff_toInt_lt
  | TOK_GE | TOK_LE =>
    refine Bool.not_eq_true' _ ▸ ?_
    rw [← Bool.not_eq_true, BitVec.slt_iff_toInt_lt, not_lt]
    rfl
  | TOK_EQ => exact beq_iff_eq
  | TOK_NE => exact bne_iff_ne
  | _ => cases hop

end tcc

namespace tcc.riscv64

open tcc.Op

/-- `load` of a pending comparison, with the token rewritten as the source does it. -/
def load_VT_CMP (rr : BitVec 5) (op : Op) (a b : BitVec 5) : List Word :=
  match op with
  | TOK_NE | TOK_EQ =>
    (if rr ≠ a ∨ b ≠ 0#5 then [ER 0x33#7 0 rr a b 0x20] else []) ++
      [if op = TOK_NE then ER 0x33#7 3 rr 0 rr 0 else EIu 0x13#7 3 rr rr 1#32]
  | TOK_ULT | TOK_UGE | TOK_ULE | TOK_UGT | TOK_LT | TOK_GE | TOK_LE | TOK_GT =>
    let inv := op.code &&& 1 != 0
    let code := if inv then op.code - 1 else op.code
    let swap := code &&& 7 == 6
    let f3 : BitVec 3 := if code > TOK_UGT.code then 2 else 3
    (if swap then ER 0x33#7 f3 rr b a 0 else ER 0x33#7 f3 rr a b 0) ::
      if inv ^^ swap then [EIu 0x13#7 4 rr rr 1#32] else []
  | _ => []

theorem load_VT_CMP_eq (rr : BitVec 5) (op : Op) (a b : BitVec 5) :
    load_VT_CMP rr op a b = load_cmp rr op a b := by
  cases op <;> rfl

/-- `gvtst` jumps on the truth value `!inv` of the comparison. -/
def gvtst_op (op : Op) (inv : Bool) : Op := if inv then op.xor1 else op

/-- The jump of the comparison of two registers is taken exactly when the value that `load`
    makes of it is the tested one, and that value is what C says. -/
theorem jump_matches_value (op : Op) (hop : op.isCmp = true) (inv : Bool) (a b : BitVec 5)
    (r : Reg) (h : Hart) :
    (∀ ll d, gen_opil_reg op ll d a b = some ([], .cmp op a b)) ∧
    ∃ w h' t, gjmp_cond (gvtst_op op inv) a b = some w ∧
      run (load_VT_CMP (ireg r) op a b) h = some h' ∧ Sets h (ireg r) (boolWord t) h' ∧
      (t = true ↔ op.Meaning (h.get a) (h.get b)) ∧
      exec w h = some { h with pc := h.pc + if t = !inv then 4#64 else 8#64 } := by
  have hrr : ireg r ≠ 0#5 := by
    revert r
    decide
  obtain ⟨h', hrun, hsets⟩ := load_cmp_run h hrr op hop a b
  have hop' : (gvtst_op op inv).isCmp = true := by
    cases inv with
    | false => exact hop
    | true => exact isCmp_xor1 hop
  obtain ⟨w, hcond, hexec⟩ := gjmp_cond_exec hop' a b h
  refine ⟨fun ll d => gen_opil_reg_cmp op ll d a b hop, w, h', _, hcond, ?_, hsets,
    holds_iff hop _ _, ?_⟩
  · rw [load_VT_CMP_eq, hrun]
  · have htest : (gvtst_op op inv).holds (h.get a) (h.get b) =
        decide (op.holds (h.get a) (h.get b) = !inv) := by
      cases inv with
      | false => exact Bool.decide_eq_true.symm
      | true =>
        refine (holds_xor1 hop _ _).trans ?_
        cases op.holds (h.get a) (h.get b) <;> rfl
    rw [hexec, htest]
    simp only [decide_eq_true_eq]

/-- A hart whose registers all hold 5. -/
def fives : Hart := ⟨fun _ => 5#64, fun _ => 0#8, 0#64⟩

/-- `5 <= 0` on unsigned numbers, tested for falsity, with the zero register on the right. -/
theorem jump_matches_value_ule :
    (∀ ll d, gen_opil_reg TOK_ULE ll d 11 0 = some ([], .cmp TOK_ULE 11 0)) ∧
    ∃ w h' t, gjmp_cond (gvtst_op TOK_ULE true) 11 0 = some w ∧
      run (load_VT_CMP (ireg 0) TOK_ULE 11 0) fives = some h' ∧
      Sets fives (ireg 0) (boolWord t) h' ∧
      (t = true ↔ TOK_ULE.Meaning (fives.get 11) (fives.get 0)) ∧
      exec w fives = some { fives with pc := fives.pc + if t = !true then 4#64 else 8#64 } :=
  jump_matches_value TOK_ULE rfl true 11 0 0 fives

end tcc.riscv64
