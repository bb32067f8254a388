import Tcc.Gen.Riscv32.AddressBase
import Tcc.Gen.Riscv32.OperatorValues
import Tcc.Gen.Riscv64.Branch

open machine.rv64 (Word opcode funct3 rs1 rs2)
open machine machine.rv32
open tcc.riscv64 (Result branchOver)

/-! Operations on the words of a `long long`: with constants of any upper word, and the jumps over
    their comparisons. -/

namespace tcc.riscv32

open tcc.Op

/-- What `load` makes of a constant of an integer type. -/
def loaded_const (c : BitVec 64) : BitVec 32 :=
  let fc : BitVec 32 := c.setWidth 32
  if fc.signExtend 64 ≠ c ∧ c.sshiftRight 32 ≠ 0#64 then large_formed fc + (fc &&& 0xff#32) else fc

theorem loaded_const_of_extended {c : BitVec 64} {y : BitVec 32}
    (hc : c = y.signExtend 64 ∨ c = y.setWidth 64) : loaded_const c = y := by
  obtain ⟨hlow, hsmall⟩ := extended_narrow hc
  exact (if_neg hsmall).trans hlow

/-- A constant is loaded as `loaded_const` says. -/
theorem load_const_sets (h : Hart) {b : BitVec 5} (hb : b ≠ 0#5) (c : BitVec 64) :
    ∃ h', run (load_const (b.setWidth 32) c) h = some h' ∧ Sets h b (loaded_const c) h' := by
  by_cases hlarge : (c.setWidth 32).signExtend 64 ≠ c ∧ c.sshiftRight 32 ≠ 0#64
  · obtain ⟨h₁, hrun, hsets⟩ :=
      load_large_constant_run h hb (c.setWidth 32) ((c.sshiftRight 32).setWidth 32)
    simp only [load_const, loaded_const, if_pos hlarge]
    split
    · have hadd := exec_emit_ADDI b b (IMM_LOW (c.setWidth 32 &&& 0xff#32)) h₁
      rw [low_IMM_LOW, low_byte, hsets.value] at hadd
      refine ⟨_, ?_, hsets.trans (Sets.set_next h₁ hb _)⟩
      rw [run_append, hrun]
      exact congrArg (·.bind (run [])) hadd
    · rename_i hbyte
      rw [not_not] at hbyte
      rw [hbyte, BitVec.add_zero, List.append_nil]
      exact ⟨h₁, hrun, hsets⟩
  · obtain ⟨h', hrun, hsets⟩ := load_narrow_run h hb hlarge
    refine ⟨h', hrun, ?_⟩
    rw [loaded_const, if_neg hlarge]
    exact hsets

/-- The code of an operator and any constant, but for the arithmetic shift. -/
theorem gen_opil_any_leaves {op : Op} (hland : op ≠ TOK_LAND) (hlor : op ≠ TOK_LOR) (hsar : op ≠ TOK_SAR)
    {d a b : BitVec 5} (hd : d ≠ 0#5) (hb : b ≠ 0#5) (hab : a ≠ b) (c : BitVec 64) (h : Hart) :
    ∃ res, gen_opil op c d a b = some res ∧ Leaves op (h.get a) (loaded_const c) d b h res := by
  by_cases hsmall : IsSmall c
  · have hc : ConstOperand d a b c (c.setWidth 32) := ⟨hd, hb, hab, Or.inl hsmall.1.symm⟩
    rw [loaded_const_of_extended hc.value]
    exact gen_opil_leaves h hc hland hlor hsar
  · unfold gen_opil
    rw [if_neg hsmall]
    exact gen_opil_loaded_of_load hland hlor hd hab (load_const_sets h hb c)

/-- The conditional branch over a jump; `gjmp_cond` has the same text in both back ends. -/
def gjmp_cond (op : Op) (a b : BitVec 5) : Option Word := tcc.riscv64.gjmp_cond op a b

section

variable (op : BitVec 3) (a b : BitVec 5)

theorem fields_branchOver : fields .B (branchOver op a b) = .B 0x63#7 (op ^^^ 1#3) a b 8#32 := by
  rw [fields, immB, Fields.B.injEq, show (8#32 : BitVec 32) = (8#13).signExtend 32 by decide]
  refine ⟨riscv64.opcode_branchOver op a b, riscv64.funct3_branchOver op a b,
    riscv64.rs1_branchOver op a b, riscv64.rs2_branchOver op a b, congrArg (BitVec.signExtend 32) ?_⟩
  ext i hi
  interval_cases i <;> simp [branchOver]

/-- The branch continues at the jump exactly when its condition fails. -/
theorem exec_branchOver {h : Hart} {t : Bool}
    (ht : branchTaken (op ^^^ 1#3) (h.get a) (h.get b) = some (!t)) :
    exec (branchOver op a b) h = some { h with pc := h.pc + if t then 4#32 else 8#32 } := by
  have hfields := fields_branchOver op a b
  rw [fields, Fields.B.injEq] at hfields
  obtain ⟨hopc, hf3, ha, hb, himm⟩ := hfields
  simp only [exec, hopc, hf3, ha, hb, himm]
  change (branchTaken _ _ _).map _ = _
  rw [ht]
  cases t <;> rfl

end

/-- Control reaches the jump after the branch exactly when the comparison of the two registers
    holds. -/
theorem gjmp_cond_exec {op : Op} (hop : op.isCmp = true) (a b : BitVec 5) (h : Hart) :
    ∃ w, gjmp_cond op a b = some w ∧
      exec w h = some { h with pc := h.pc + if op.holds (h.get a) (h.get b) then 4#32 else 8#32 } := by
  cases op with
  | TOK_EQ => exact ⟨_, rfl, exec_branchOver _ _ _ rfl⟩
  | TOK_NE =>
    refine ⟨_, rfl, exec_branchOver _ _ _ ?_⟩
    exact congrArg some (Bool.not_not _).symm
  | TOK_ULT | TOK_LT => exact ⟨_, rfl, exec_branchOver _ _ _ rfl⟩
  | TOK_UGT | TOK_GT => exact ⟨_, rfl, exec_branchOver _ _ _ rfl⟩
  | TOK_UGE | TOK_GE | TOK_ULE | TOK_LE =>
    refine ⟨_, rfl, exec_branchOver _ _ _ ?_⟩
    exact congrArg some (Bool.not_not _).symm
  | _ => cases hop

end tcc.riscv32
