import Tcc.Gen.Riscv64.Fold

open machine machine.rv64

namespace tcc.riscv64

open tcc.Op

/-- The conditional branch of `gjmp_cond`, over the jump that follows it. -/
def branchOver (op : BitVec 3) (a b : BitVec 5) : Word :=
  0x63#32 ||| (op ^^^ 1#3).setWidth 32 <<< 12 ||| a.setWidth 32 <<< 15 |||
    b.setWidth 32 <<< 20 ||| 8#32 <<< 7

/-- `gjmp_cond`: the branch that skips the jump when the comparison does not hold. -/
def gjmp_cond (op : Op) (a b : BitVec 5) : Option Word :=
  match op with
  | TOK_ULT => some (branchOver 6 a b)
  | TOK_UGE => some (branchOver 7 a b)
  | TOK_ULE => some (branchOver 7 b a)
  | TOK_UGT => some (branchOver 6 b a)
  | TOK_LT => some (branchOver 4 a b)
  | TOK_GE => some (branchOver 5 a b)
  | TOK_LE => some (branchOver 5 b a)
  | TOK_GT => some (branchOver 4 b a)
  | TOK_NE => some (branchOver 1 a b)
  | TOK_EQ => some (branchOver 0 a b)
  | _ => none

section

variable (op : BitVec 3) (a b : BitVec 5)

attribute [local simp] branchOver in
@[simp] theorem opcode_branchOver : opcode (branchOver op a b) = 0x63#7 := by
  ext i hi
  interval_cases i <;> simp [opcode, branchOver]

@[simp] theorem funct3_branchOver : funct3 (branchOver op a b) = op ^^^ 1#3 := by
  ext i hi
  interval_cases i <;> simp [funct3, branchOver]

@[simp] theorem rs1_branchOver : rs1 (branchOver op a b) = a := by
  ext i hi
  interval_cases i <;> simp [rs1, branchOver]

@[simp] theorem rs2_branchOver : rs2 (branchOver op a b) = b := by
  ext i hi
  interval_cases i <;> simp [rs2, branchOver]

@[simp] theorem immB_branchOver : immB (branchOver op a b) = 8#64 := by
  rw [immB, show (8#64 : BitVec 64) = (8#13).signExtend 64 from by decide]
  congr 1
  ext i hi
  interval_cases i <;> simp [branchOver]

/-- The branch continues at the jump exactly when its condition fails. -/
theorem exec_branchOver {h : Hart} {t : Bool}
    (ht : branchTaken (op ^^^ 1#3) (h.get a) (h.get b) = some (!t)) :
    exec (branchOver op a b) h = some { h with pc := h.pc + if t then 4#64 else 8#64 } := by
  simp only [exec, opcode_branchOver, funct3_branchOver, rs1_branchOver, rs2_branchOver,
    immB_branchOver]
  change (branchTaken _ _ _).map _ = _
  rw [ht]
  cases t <;> rfl

end

/-- Control reaches the jump after the branch exactly when the comparison of the
    two registers holds. -/
theorem gjmp_cond_exec {op : Op} (hop : op.isCmp = true) (a b : BitVec 5) (h : Hart) :
    ∃ w, gjmp_cond op a b = some w ∧
      exec w h = some { h with pc := h.pc + if op.holds (h.get a) (h.get b) then 4#64 else 8#64 } := by
  cases op with
  | TOK_EQ => exact ⟨_, rfl, exec_branchOver _ _ _ rfl⟩
  | TOK_NE =>
    refine ⟨_, rfl, exec_branchOver _ _ _ ?_⟩
    exact congrArg some (Bool.not_not _).symm
  | TOK_ULT | TOK_LT => exact ⟨_, rfl, exec_branchOver _ _ _ rfl⟩
  | TOK_UGT | TOK_GT => exact ⟨_, rfl, exec_branchOver _ _ _ rfl⟩
  | TOK_UGE | TOK_GE | TOK_ULE | TOK_LE =>
    refine ⟨_, rfl, exec_branchOver _ _ _ ?_⟩
    exact congrArg some (Bool.not_not _).symm
  | _ => cases hop

/-- The result of an operation on two 32-bit operands, as a register holds it. -/
def wordResult (op : Op) (x y : BitVec 32) : BitVec 64 :=
  if op.isCmp then boolWord (op.holds x y) else (op.alu x y).signExtend 64

theorem opil_value_words (op : Op) (x y : BitVec 32) :
    opil_value op false (x.signExtend 64) (y.signExtend 64) = wordResult op x y := by
  unfold wordResult
  split
  · rename_i hop
    rw [opil_value_cmp hop, holds_signExtend]
  · rename_i hop
    exact opil_value_word (Bool.not_eq_true _ ▸ hop) x y

end tcc.riscv64
