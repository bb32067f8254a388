import Tcc.Gen.Riscv32.Arithmetic

open machine.rv64 (Word divU divS)
open machine machine.rv32
open tcc.riscv64 (Result imm12 imm12_iff imm12_signExtend32)

namespace tcc.riscv32

open tcc.Op

theorem Leaves.of_exec {op : Op} {x y : BitVec 32} {d b : BitVec 5} {h : Hart} {w : Word}
    (hop : op.isCmp = false) (hd : d ≠ 0#5) (hexec : exec w h = some (h.set d (op.alu x y)).next) :
    Leaves op x y d b h ([w], .reg d) := by
  refine ⟨_, ?_, Only.of_sets (Sets.set_next h hd (op.alu x y)) (by simp), hop, rfl,
    h.get_set_self hd _⟩
  rw [run_cons, hexec]
  rfl

/-- The register code of an operator works on the values of its registers. -/
theorem gen_opil_reg_leaves {op : Op} (hland : op ≠ TOK_LAND) (hlor : op ≠ TOK_LOR) {d : BitVec 5}
    (hd : d ≠ 0#5) (a b q : BitVec 5) (h : Hart) :
    ∃ res, gen_opil_reg op d a b = some res ∧ Leaves op (h.get a) (h.get b) d q h res := by
  cases op with
  | TOK_LAND => exact absurd rfl hland
  | TOK_LOR => exact absurd rfl hlor
  | add => exact ⟨_, rfl, .of_exec rfl hd (exec_emit_op 0#7 0#3 d a b h rfl)⟩
  | sub => exact ⟨_, rfl, .of_exec rfl hd (exec_emit_op 0x20#7 0#3 d a b h rfl)⟩
  | mul => exact ⟨_, rfl, .of_exec rfl hd (exec_emit_op 1#7 0#3 d a b h rfl)⟩
  | div => exact ⟨_, rfl, .of_exec rfl hd (exec_emit_op 1#7 4#3 d a b h rfl)⟩
  | mod => exact ⟨_, rfl, .of_exec rfl hd (exec_emit_op 1#7 6#3 d a b h rfl)⟩
  | and => exact ⟨_, rfl, .of_exec rfl hd (exec_emit_op 0#7 7#3 d a b h rfl)⟩
  | xor => exact ⟨_, rfl, .of_exec rfl hd (exec_emit_op 0#7 4#3 d a b h rfl)⟩
  | or => exact ⟨_, rfl, .of_exec rfl hd (exec_emit_op 0#7 6#3 d a b h rfl)⟩
  | TOK_SHL => exact ⟨_, rfl, .of_exec rfl hd (exec_emit_op 0#7 1#3 d a b h rfl)⟩
  | TOK_SHR => exact ⟨_, rfl, .of_exec rfl hd (exec_emit_op 0#7 5#3 d a b h rfl)⟩
  | TOK_SAR => exact ⟨_, rfl, .of_exec rfl hd (exec_emit_op 0x20#7 5#3 d a b h rfl)⟩
  | TOK_UDIV | TOK_PDIV => exact ⟨_, rfl, .of_exec rfl hd (exec_emit_op 1#7 5#3 d a b h rfl)⟩
  | TOK_UMOD => exact ⟨_, rfl, .of_exec rfl hd (exec_emit_op 1#7 7#3 d a b h rfl)⟩
  | _ => exact ⟨_, rfl, h, rfl, ⟨fun _ _ => rfl, rfl⟩, rfl, rfl, rfl⟩

/-- The registers of an operation with a constant, and the constant `y` as the compiler holds
    it. -/
structure ConstOperand (d a b : BitVec 5) (c : BitVec 64) (y : BitVec 32) : Prop where
  dest : d ≠ 0#5
  loaded : b ≠ 0#5
  apart : a ≠ b
  value : c = y.signExtend 64 ∨ c = y.setWidth 64

theorem ConstOperand.setWidth {d a b : BitVec 5} {c : BitVec 64} {y : BitVec 32}
    (hc : ConstOperand d a b c y) : c.setWidth 32 = y := by
  obtain rfl | rfl := hc.value
  · exact setWidth_signExtend y
  · rw [BitVec.setWidth_setWidth_of_le _ (by decide), BitVec.setWidth_eq]

/-- The register code of an operator after its constant has been loaded as `y`. -/
theorem gen_opil_loaded_of_load {op : Op} (hland : op ≠ TOK_LAND) (hlor : op ≠ TOK_LOR)
    {d a b : BitVec 5} (hd : d ≠ 0#5) (hab : a ≠ b) {c : BitVec 64} {y : BitVec 32} {h : Hart}
    (hload : ∃ h₁, run (load_const (b.setWidth 32) c) h = some h₁ ∧ Sets h b y h₁) :
    ∃ res, gen_opil_loaded op c d a b = some res ∧ Leaves op (h.get a) y d b h res := by
  obtain ⟨h₁, hload, hsets⟩ := hload
  obtain ⟨res, hgen, h₂, hrun, hkeep, hval⟩ := gen_opil_reg_leaves hland hlor hd a b b h₁
  rw [hsets.value, hsets.frame a hab] at hval
  refine ⟨(load_const (b.setWidth 32) c ++ res.1, res.2), ?_, h₂, ?_, ?_, hval⟩
  · rw [gen_opil_loaded, hgen]
    rfl
  · rw [run_append, hload]
    exact hrun
  · exact (Only.of_sets hsets (by simp)).trans hkeep

theorem gen_opil_loaded_leaves {op : Op} (hland : op ≠ TOK_LAND) (hlor : op ≠ TOK_LOR)
    {d a b : BitVec 5} {c : BitVec 64} {y : BitVec 32} (hc : ConstOperand d a b c y) (h : Hart) :
    ∃ res, gen_opil_loaded op c d a b = some res ∧ Leaves op (h.get a) y d b h res :=
  gen_opil_loaded_of_load hland hlor hc.dest hc.apart (load_const_run h hc.loaded hc.value)

/-- A truth value set by a comparison with a constant, tested against zero. -/
theorem Leaves.of_set {op : Op} (hop : op.isCmp = true) {x y : BitVec 32} {d b : BitVec 5}
    {h : Hart} {w : Word} (hd : d ≠ 0#5)
    (hexec : exec w h = some (h.set d (truth (op.holds x y))).next) :
    Leaves op x y d b h ([w], .cmp TOK_NE d 0) := by
  have hsets := Sets.set_next h hd (truth (op.holds x y))
  refine ⟨_, ?_, Only.of_sets hsets (by simp), hop, rfl, ?_⟩
  · rw [run_cons, hexec]
    rfl
  · change TOK_NE.holds _ 0#32 = _
    rw [hsets.value]
    cases op.holds x y <;> rfl

theorem imm12_succ {fc : BitVec 32} (hfc : imm12 fc) (hlt : ¬(2047#32).sle fc) : imm12 (fc + 1#32) := by
  rw [imm12_iff] at hfc ⊢
  rw [BitVec.sle_iff_toInt_le, show (2047#32).toInt = 2047 from rfl] at hlt
  rw [BitVec.toInt_add, show (1#32).toInt = 1 from rfl, Int.bmod_eq_of_le] <;> omega

/-- The immediate code of every operator but the arithmetic shift works on the value of its
    register and the constant. -/
theorem gen_opi_immediate_leaves {op : Op} (hsar : op ≠ TOK_SAR) {fc : BitVec 32} (hfc : imm12 fc)
    {d a b : BitVec 5} (hd : d ≠ 0#5) (h : Hart) {res : List Word × Result}
    (hgen : gen_opi_immediate op fc d a = some res) : Leaves op (h.get a) fc d b h res := by
  have hfit := (imm12_iff fc).mp hfc
  have hsext := imm12_signExtend32 hfc
  have hshift : ((0#7).setWidth 12 <<< 5 ||| (fc.setWidth 5).setWidth 12 : BitVec 12).toNat =
      fc.toNat % 32 := by
    simp [BitVec.toNat_setWidth]
    omega
  have hlt : fc.toNat % 32 < 32 := Nat.mod_lt _ (by decide)
  cases op with
  | add =>
    cases hgen
    refine .of_exec rfl hd (exec_emit_imm 0#3 d a fc h (congrArg some ?_))
    rw [hsext]
    rfl
  | sub =>
    simp only [gen_opi_immediate] at hgen
    split at hgen
    · cases hgen
    · rename_i hbound
      cases hgen
      refine .of_exec rfl hd (exec_emit_imm 0#3 d a (-fc) h (congrArg some ?_))
      rw [BitVec.sle_iff_toInt_le, show (-2048#32).toInt = -2048 from rfl] at hbound
      have hneg : imm12 (-fc) := by
        rw [imm12_iff, BitVec.toInt_neg, Int.bmod_eq_of_le] <;> omega
      rw [imm12_signExtend32 hneg, ← BitVec.sub_eq_add_neg]
      rfl
  | TOK_LT =>
    cases hgen
    refine .of_set rfl hd (exec_emit_imm 2#3 d a fc h (congrArg some ?_))
    rw [hsext]
    rfl
  | TOK_ULT =>
    cases hgen
    refine .of_set rfl hd (exec_emit_imm 3#3 d a fc h (congrArg some ?_))
    rw [hsext]
    rfl
  | TOK_LE =>
    simp only [gen_opi_immediate] at hgen
    split at hgen
    · cases hgen
    · rename_i hbound
      cases hgen
      refine .of_set rfl hd (exec_emit_imm 2#3 d a (fc + 1#32) h (congrArg some ?_))
      rw [imm12_signExtend32 (imm12_succ hfc hbound), slt_succ (by decide) (by omega)]
      rfl
  | TOK_ULE =>
    simp only [gen_opi_immediate] at hgen
    split at hgen
    · cases hgen
    · rename_i hbound
      rw [not_or] at hbound
      cases hgen
      refine .of_set rfl hd (exec_emit_imm 3#3 d a (fc + 1#32) h (congrArg some ?_))
      rw [imm12_signExtend32 (imm12_succ hfc hbound.1), ult_succ (by decide) hbound.2]
      rfl
  | xor =>
    cases hgen
    refine .of_exec rfl hd (exec_emit_imm 4#3 d a fc h (congrArg some ?_))
    rw [hsext]
    rfl
  | or =>
    cases hgen
    refine .of_exec rfl hd (exec_emit_imm 6#3 d a fc h (congrArg some ?_))
    rw [hsext]
    rfl
  | and =>
    cases hgen
    refine .of_exec rfl hd (exec_emit_imm 7#3 d a fc h (congrArg some ?_))
    rw [hsext]
    rfl
  | TOK_SHL =>
    cases hgen
    rw [and_31]
    refine .of_exec rfl hd (exec_emit_shift 0#7 1#3 d a h _ ?_)
    refine (if_pos (hshift.trans_lt hlt)).trans ?_
    rw [hshift]
    rfl
  | TOK_SHR =>
    cases hgen
    rw [and_31]
    refine .of_exec rfl hd (exec_emit_shift 0#7 5#3 d a h _ ?_)
    refine (if_pos (hshift.trans_lt hlt)).trans ?_
    rw [hshift]
    rfl
  | TOK_SAR => exact absurd rfl hsar
  | _ => cases hgen

section

variable {d a b : BitVec 5} {c : BitVec 64} {y : BitVec 32} (h : Hart)

theorem gen_opil_const_leaves {op : Op} (hc : ConstOperand d a b c y) (hland : op ≠ TOK_LAND) (hlor : op ≠ TOK_LOR)
    (hsar : op ≠ TOK_SAR) :
    ∃ res, gen_opil_const op c d a b = some res ∧ Leaves op (h.get a) y d b h res := by
  have hloaded := gen_opil_loaded_leaves hland hlor hc h
  rw [gen_opil_const]
  split
  · rename_i hsmall
    split
    · rename_i res hgen
      have hleaves := gen_opi_immediate_leaves hsar hsmall.2 (b := b) hc.dest h hgen
      rw [hc.setWidth] at hleaves
      exact ⟨res, rfl, hleaves⟩
    · exact hloaded
  · exact hloaded

theorem Leaves.invert {op op' : Op} {x y : BitVec 32} {res : List Word × Result}
    (hres : Leaves op x y d b h res) (hop : op.isCmp = true) (hop' : op' = op.xor1) :
    ∃ res', invert res = some res' ∧ Leaves op' x y d b h res' := by
  obtain ⟨ws, result⟩ := res
  obtain ⟨h', hrun, hkeep, hval⟩ := hres
  cases result with
  | reg q => exact absurd (hval.1.symm.trans hop) (by decide)
  | cmp o p q =>
    obtain ⟨-, ho, hval⟩ := hval
    subst hop'
    refine ⟨(ws, .cmp o.xor1 p q), rfl, h', hrun, hkeep, isCmp_xor1 hop, isCmp_xor1 ho, ?_⟩
    rw [holds_xor1 ho, holds_xor1 hop, hval]

theorem Leaves.compare_result {op' : Op} {x y : BitVec 32} {res : List Word × Result}
    (hres : Leaves .sub x y d b h res) (hop' : op' = TOK_NE ∨ op' = TOK_EQ) :
    ∃ res', compare_result op' res = some res' ∧ Leaves op' x y d b h res' := by
  obtain ⟨ws, result⟩ := res
  obtain ⟨h', hrun, hkeep, hval⟩ := hres
  cases result with
  | cmp o p q => exact absurd hval.1 (by decide)
  | reg q =>
    obtain ⟨-, rfl, hval⟩ := hval
    refine ⟨(ws, .cmp op' q 0), rfl, h', hrun, hkeep, ?_, ?_, ?_⟩
    · obtain rfl | rfl := hop' <;> rfl
    · obtain rfl | rfl := hop' <;> rfl
    · change op'.holds _ 0#32 = _
      rw [hval]
      have hsub := sub_bne_zero x y
      obtain rfl | rfl := hop'
      · exact hsub
      · exact Bool.not_inj (by simpa [Op.holds, Op.alu, bne] using hsub)

/-- The code of an operator and a constant, but for the arithmetic shift. -/
theorem gen_opil_leaves {op : Op} (hc : ConstOperand d a b c y) (hland : op ≠ TOK_LAND) (hlor : op ≠ TOK_LOR)
    (hsar : op ≠ TOK_SAR) :
    ∃ res, gen_opil op c d a b = some res ∧ Leaves op (h.get a) y d b h res := by
  have hinv {o : Op} (ho : o.isCmp = true) (hland : o ≠ TOK_LAND) (hlor : o ≠ TOK_LOR)
      (hsar : o ≠ TOK_SAR) (hop : op = o.xor1) :
      ∃ res, (gen_opil_const o c d a b).bind invert = some res ∧
        Leaves op (h.get a) y d b h res := by
    obtain ⟨res, hgen, hres⟩ := gen_opil_const_leaves h hc hland hlor hsar
    rw [hgen]
    exact hres.invert h ho hop
  have heq (hop : op = TOK_NE ∨ op = TOK_EQ) :
      ∃ res, (if c.setWidth 32 ≠ 0#32 then (gen_opil_const .sub c d a b).bind (compare_result op)
        else some ([], .cmp op a 0)) = some res ∧ Leaves op (h.get a) y d b h res := by
    have hcmp : op.isCmp = true := by
      obtain rfl | rfl := hop <;> rfl
    rw [hc.setWidth]
    split
    · obtain ⟨res, hgen, hres⟩ : ∃ res, gen_opil_const .sub c d a b = some res ∧
          Leaves .sub (h.get a) y d b h res :=
        gen_opil_const_leaves h hc (by decide) (by decide) (by decide)
      rw [hgen]
      exact hres.compare_result h hop
    · rename_i hy
      rw [not_not] at hy
      refine ⟨_, rfl, h, rfl, ⟨fun _ _ => rfl, rfl⟩, hcmp, hcmp, ?_⟩
      rw [hy]
      rfl
  unfold gen_opil
  by_cases hsmall : IsSmall c
  · rw [if_pos hsmall]
    cases op with
    | TOK_UGE => exact hinv (o := TOK_ULT) rfl (by decide) (by decide) (by decide) rfl
    | TOK_UGT => exact hinv (o := TOK_ULE) rfl (by decide) (by decide) (by decide) rfl
    | TOK_GE => exact hinv (o := TOK_LT) rfl (by decide) (by decide) (by decide) rfl
    | TOK_GT => exact hinv (o := TOK_LE) rfl (by decide) (by decide) (by decide) rfl
    | TOK_NE => exact heq (.inl rfl)
    | TOK_EQ => exact heq (.inr rfl)
    | _ => exact gen_opil_const_leaves h hc hland hlor hsar
  · rw [if_neg hsmall]
    exact gen_opil_loaded_leaves hland hlor hc h

end

end tcc.riscv32
