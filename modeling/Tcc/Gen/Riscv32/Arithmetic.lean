import Tcc.Gen.Riscv32.Opi
import Tcc.Machine.Words

open machine.rv64 (Word opcode rd funct3 rs1 divU divS)
open machine machine.rv32
open tcc.riscv64 (Result imm12 imm12_iff imm12_signExtend32)

namespace tcc.riscv32

open tcc.Op

section

variable (f7 : BitVec 7) (f3 : BitVec 3) (d a b : BitVec 5) (imm : BitVec 32) (h : Hart)
variable {v : BitVec 32}

theorem exec_emit_op (hv : aluR f7 f3 (h.get a) (h.get b) = some v) :
    exec (emit_R (f7.setWidth 32) (b.setWidth 32) (a.setWidth 32) (f3.setWidth 32) (d.setWidth 32)
      0x33#32) h = some (h.set d v).next :=
  exec_op (fields_emit_R 0x33#7 f3 d a b f7) h hv

theorem exec_emit_imm (hv : aluI f3 (h.get a) (imm.setWidth 12) = some v) :
    exec (emit_I imm (a.setWidth 32) (f3.setWidth 32) (d.setWidth 32) 0x13#32) h =
      some (h.set d v).next := by
  have hfields := fields_emit_I 0x13#7 f3 d a imm
  rw [fields, Fields.I.injEq] at hfields
  obtain ⟨hopc, hd, hf3, ha, -⟩ := hfields
  refine exec_op_imm hopc hd hf3 ha ?_ h hv
  ext i hi
  interval_cases i <;> simp [emit_I]

theorem exec_emit_shift (k : BitVec 5)
    (hv : aluI f3 (h.get a) (f7.setWidth 12 <<< 5 ||| k.setWidth 12) = some v) :
    exec (emit_R (f7.setWidth 32) (k.setWidth 32) (a.setWidth 32) (f3.setWidth 32) (d.setWidth 32)
      0x13#32) h = some (h.set d v).next := by
  have hfields := fields_emit_R 0x13#7 f3 d a k f7
  rw [fields, Fields.R.injEq] at hfields
  obtain ⟨hopc, hd, hf3, ha, -, -⟩ := hfields
  refine exec_op_imm hopc hd hf3 ha ?_ h hv
  ext i hi
  interval_cases i <;> simp [emit_R]

theorem exec_emit_LUI : exec (emit_LUI (d.setWidth 32) imm) h = some (h.set d (imm <<< 12)).next :=
  exec_lui (fields_emit_U 0x37#7 d imm) h

end

/-- The shift count of the immediate code. -/
theorem and_31 (fc : BitVec 32) : fc &&& 31#32 = (fc.setWidth 5).setWidth 32 := by
  ext i hi
  interval_cases i <;> simp

/-- The mark of an arithmetic shift is lost in the function code of a register shift. -/
theorem emit_SRA_marked (rd ra fc : BitVec 32) :
    emit_SRA rd ra (1024#32 ||| fc &&& 31#32) = emit_SRA rd ra ((fc.setWidth 5).setWidth 32) := by
  have hmark : 0x20#32 <<< 25 ||| (1024#32 ||| fc &&& 31#32) <<< 20 =
      0x20#32 <<< 25 ||| ((fc.setWidth 5).setWidth 32) <<< 20 := by
    ext i hi
    interval_cases i <;> simp
  rw [emit_SRA, emit_SRA, emit_R, emit_R, hmark]

/-- A truth value in a register. -/
def truth (t : Bool) : BitVec 32 := if t then 1#32 else 0#32

/-- A set-less-than, followed by an inversion of the result. -/
theorem run_not (h : Hart) {r : BitVec 5} (hr : r ≠ 0#5) {t : Bool} (ht : h.get r = truth t) :
    ∃ h', run [emit_XORI (r.setWidth 32) (r.setWidth 32) 1#32] h = some h' ∧
      Sets h r (truth !t) h' := by
  have hx : aluI 4 (h.get r) ((1#32).setWidth 12) = some (truth !t) := by
    rw [ht]
    cases t <;> decide
  refine ⟨_, ?_, Sets.set_next h hr (truth !t)⟩
  rw [run_cons]
  exact congrArg (·.bind (run [])) (exec_emit_imm 4#3 r r 1#32 h hx)

theorem run_slt (h : Hart) {r : BitVec 5} (hr : r ≠ 0#5) (a b : BitVec 5) :
    ∃ h', run [emit_SLT (r.setWidth 32) (a.setWidth 32) (b.setWidth 32)] h = some h' ∧
      Sets h r (truth ((h.get a).slt (h.get b))) h' := by
  refine ⟨_, ?_, Sets.set_next h hr _⟩
  rw [run_cons]
  exact congrArg (·.bind (run [])) (exec_emit_op 0#7 2#3 r a b h rfl)

theorem run_sltu (h : Hart) {r : BitVec 5} (hr : r ≠ 0#5) (a b : BitVec 5) :
    ∃ h', run [emit_SLTU (r.setWidth 32) (a.setWidth 32) (b.setWidth 32)] h = some h' ∧
      Sets h r (truth ((h.get a).ult (h.get b))) h' := by
  refine ⟨_, ?_, Sets.set_next h hr _⟩
  rw [run_cons]
  exact congrArg (·.bind (run [])) (exec_emit_op 0#7 3#3 r a b h rfl)

/-- A test and the inversion of its result. -/
theorem run_inverted {h : Hart} {r : BitVec 5} (hr : r ≠ 0#5) {w : Word} {t : Bool}
    (htest : ∃ h', run [w] h = some h' ∧ Sets h r (truth t) h') :
    ∃ h', run [w, emit_XORI (r.setWidth 32) (r.setWidth 32) 1#32] h = some h' ∧
      Sets h r (truth !t) h' := by
  obtain ⟨h₁, hrun₁, hsets₁⟩ := htest
  obtain ⟨h₂, hrun₂, hsets₂⟩ := run_not h₁ hr hsets₁.value
  refine ⟨h₂, ?_, hsets₁.trans hsets₂⟩
  rw [← List.singleton_append, run_append, hrun₁]
  exact hrun₂

/-- The subtraction before an equality test, left out when it would copy a register to
    itself. -/
theorem run_difference (h : Hart) {r : BitVec 5} (hr : r ≠ 0#5) (a b : BitVec 5) :
    ∃ h', run (if r ≠ a ∨ b ≠ 0#5 then [emit_SUB (r.setWidth 32) (a.setWidth 32) (b.setWidth 32)]
        else []) h = some h' ∧ Sets h r (h.get a - h.get b) h' := by
  split
  · refine ⟨_, ?_, Sets.set_next h hr _⟩
    rw [run_cons]
    exact congrArg (·.bind (run [])) (exec_emit_op 0x20#7 0#3 r a b h rfl)
  · rename_i hsame
    push Not at hsame
    obtain ⟨rfl, rfl⟩ := hsame
    exact ⟨h, rfl, by rw [Hart.get_zero, BitVec.sub_zero], fun _ _ => rfl, rfl⟩

theorem sub_bne_zero (x y : BitVec 32) : (x - y != 0#32) = (x != y) := by
  rw [Bool.eq_iff_iff, bne_iff_ne, bne_iff_ne, ne_eq, BitVec.sub_eq_iff_eq_add, BitVec.zero_add]

theorem run_snez (h : Hart) {r : BitVec 5} (hr : r ≠ 0#5) :
    ∃ h', run [emit_SLTU (r.setWidth 32) 0#32 (r.setWidth 32)] h = some h' ∧
      Sets h r (truth (h.get r != 0#32)) h' := by
  have hult : (0#32).ult (h.get r) = (h.get r != 0#32) := by
    rw [Bool.eq_iff_iff, BitVec.ult_iff_lt, BitVec.lt_def]
    simp [← BitVec.toNat_inj, Nat.pos_iff_ne_zero]
  obtain ⟨h', hrun, hsets⟩ := run_sltu h hr 0#5 r
  rw [Hart.get_zero, hult] at hsets
  exact ⟨h', hrun, hsets⟩

theorem run_seqz (h : Hart) {r : BitVec 5} (hr : r ≠ 0#5) :
    ∃ h', run [emit_SLTIU (r.setWidth 32) (r.setWidth 32) 1#32] h = some h' ∧
      Sets h r (truth !(h.get r != 0#32)) h' := by
  have hult : (h.get r).ult 1#32 = !(h.get r != 0#32) := by
    rw [Bool.eq_iff_iff, BitVec.ult_iff_lt, BitVec.lt_def]
    simp [← BitVec.toNat_inj]
  have hx : aluI 3 (h.get r) ((1#32).setWidth 12) = some (truth !(h.get r != 0#32)) := by
    rw [← hult]
    rfl
  refine ⟨_, ?_, Sets.set_next h hr _⟩
  rw [run_cons]
  exact congrArg (·.bind (run [])) (exec_emit_imm 3#3 r r 1#32 h hx)

/-- The truth of a pending comparison gets into the register it is loaded to. -/
theorem load_cmp_run (h : Hart) {r : BitVec 5} (hr : r ≠ 0#5) {op : Op} (hop : op.isCmp = true)
    (a b : BitVec 5) : ∃ h', run (load_cmp r op a b) h = some h' ∧
      Sets h r (truth (op.holds (h.get a) (h.get b))) h' := by
  cases op with
  | TOK_ULT => exact run_sltu h hr a b
  | TOK_UGE => exact run_inverted hr (run_sltu h hr a b)
  | TOK_ULE => exact run_inverted hr (run_sltu h hr b a)
  | TOK_UGT => exact run_sltu h hr b a
  | TOK_LT => exact run_slt h hr a b
  | TOK_GE => exact run_inverted hr (run_slt h hr a b)
  | TOK_LE => exact run_inverted hr (run_slt h hr b a)
  | TOK_GT => exact run_slt h hr b a
  | TOK_NE =>
    obtain ⟨h₁, hrun₁, hsets₁⟩ := run_difference h hr a b
    obtain ⟨h₂, hrun₂, hsets₂⟩ := run_snez h₁ hr
    rw [hsets₁.value, sub_bne_zero] at hsets₂
    refine ⟨h₂, ?_, hsets₁.trans hsets₂⟩
    simp only [load_cmp]
    rw [run_append, hrun₁]
    exact hrun₂
  | TOK_EQ =>
    obtain ⟨h₁, hrun₁, hsets₁⟩ := run_difference h hr a b
    obtain ⟨h₂, hrun₂, hsets₂⟩ := run_seqz h₁ hr
    rw [hsets₁.value, sub_bne_zero, bne, Bool.not_not] at hsets₂
    refine ⟨h₂, ?_, hsets₁.trans hsets₂⟩
    simp only [load_cmp]
    rw [run_append, hrun₁]
    exact hrun₂
  | _ => exact absurd hop (by decide)

theorem LARGE_IMM_eq_false {y : BitVec 32} (hy : LARGE_IMM y = false) : imm12 y := by
  have hhigh : ((y + 0x800#32) &&& 0xfffff000#32) >>> 12 = (y + 0x800#32) >>> 12 := by
    generalize y + 0x800#32 = x
    ext i hi
    interval_cases i <;> simp
  rw [LARGE_IMM, bne_eq_false_iff_eq, IMM_HIGH, hhigh] at hy
  exact hy

theorem IMM_LOW_setWidth (y : BitVec 32) : (IMM_LOW y).setWidth 12 = y.setWidth 12 := by
  ext i hi
  interval_cases i <;> simp [IMM_LOW]

/-- The code for a constant whose upper word is the sign or zero. -/
theorem load_narrow_run (h : Hart) {b : BitVec 5} (hb : b ≠ 0#5) {c : BitVec 64}
    (hsmall : ¬((c.setWidth 32).signExtend 64 ≠ c ∧ c.sshiftRight 32 ≠ 0#64)) :
    ∃ h', run (load_const (b.setWidth 32) c) h = some h' ∧ Sets h b (c.setWidth 32) h' := by
  simp only [load_const, if_neg hsmall]
  generalize c.setWidth 32 = y
  split
  · rename_i hlarge
    obtain ⟨h₁, hexec, hsets₁⟩ : ∃ h₁, exec (emit_LUI (b.setWidth 32) (IMM_HIGH (y + 0x800#32))) h =
        some h₁ ∧ Sets h b ((y + 0x800#32) &&& ~~~0xfff#32) h₁ := by
      refine ⟨_, exec_emit_LUI b _ h, ?_⟩
      have hshift : IMM_HIGH (y + 0x800#32) <<< 12 = (y + 0x800#32) &&& ~~~0xfff#32 := by
        generalize y + 0x800#32 = x
        ext i hi
        interval_cases i <;> simp [IMM_HIGH]
      rw [hshift]
      exact Sets.set_next h hb _
    have hadd : aluI 0 (h₁.get b) ((IMM_LOW y).setWidth 12) = some y := by
      rw [hsets₁.value, IMM_LOW_setWidth]
      exact congrArg some (hi_add_lo y)
    refine ⟨_, ?_, hsets₁.trans (Sets.set_next h₁ hb y)⟩
    rw [run_cons, hexec, Option.bind_some, run_cons]
    exact congrArg (·.bind (run [])) (exec_emit_imm 0#3 b b _ h₁ hadd)
  · rename_i hlarge
    have hfit := LARGE_IMM_eq_false (Bool.not_eq_true _ ▸ hlarge)
    have hadd : aluI 0 (h.get 0#5) ((IMM_LOW y).setWidth 12) = some y := by
      rw [Hart.get_zero, IMM_LOW_setWidth]
      refine congrArg some ?_
      rw [imm12_signExtend32 hfit, BitVec.zero_add]
    refine ⟨_, ?_, Sets.set_next h hb y⟩
    rw [run_cons]
    exact congrArg (·.bind (run [])) (exec_emit_imm 0#3 b 0#5 _ h hadd)

/-- The upper word of an extended constant is its sign or zero. -/
theorem extended_narrow {c : BitVec 64} {y : BitVec 32} (hc : c = y.signExtend 64 ∨ c = y.setWidth 64) :
    c.setWidth 32 = y ∧ ¬((c.setWidth 32).signExtend 64 ≠ c ∧ c.sshiftRight 32 ≠ 0#64) := by
  obtain rfl | rfl := hc
  · refine ⟨setWidth_signExtend y, fun hlarge => hlarge.1 ?_⟩
    rw [setWidth_signExtend]
  · have hlow : (y.setWidth 64).setWidth 32 = y := by
      rw [BitVec.setWidth_setWidth_of_le _ (by decide), BitVec.setWidth_eq]
    refine ⟨hlow, fun hlarge => hlarge.2 ?_⟩
    have hlt := y.isLt
    have hnat : (y.setWidth 64).toNat = y.toNat := by
      rw [BitVec.toNat_setWidth, Nat.mod_eq_of_lt (by omega)]
    have hmsb : (y.setWidth 64).msb = false := by
      rw [BitVec.msb_eq_decide, hnat, decide_eq_false]
      omega
    apply BitVec.eq_of_toNat_eq
    rw [BitVec.sshiftRight_eq_of_msb_false hmsb, BitVec.toNat_ushiftRight, hnat,
      Nat.shiftRight_eq_div_pow]
    exact Nat.div_eq_of_lt hlt

/-- The code for a 32-bit constant, extended either way. -/
theorem load_const_run (h : Hart) {b : BitVec 5} (hb : b ≠ 0#5) {c : BitVec 64} {y : BitVec 32}
    (hc : c = y.signExtend 64 ∨ c = y.setWidth 64) :
    ∃ h', run (load_const (b.setWidth 32) c) h = some h' ∧ Sets h b y h' := by
  obtain ⟨hlow, hsmall⟩ := extended_narrow hc
  obtain ⟨h', hrun, hsets⟩ := load_narrow_run h hb hsmall
  rw [hlow] at hsets
  exact ⟨h', hrun, hsets⟩

/-- `h'` differs from `h` at most in the registers of `rs`. -/
structure Only (rs : List (BitVec 5)) (h h' : Hart) : Prop where
  get : ∀ q, q ∉ rs → h'.get q = h.get q
  mem : h'.mem = h.mem

theorem Only.of_sets {rs : List (BitVec 5)} {h h' : Hart} {r : BitVec 5} {v : BitVec 32}
    (hsets : Sets h r v h') (hr : r ∈ rs) : Only rs h h' where
  get q hq := hsets.frame q fun heq => hq (heq ▸ hr)
  mem := hsets.mem

theorem Only.trans {rs : List (BitVec 5)} {h₁ h₂ h₃ : Hart} (h₁₂ : Only rs h₁ h₂)
    (h₂₃ : Only rs h₂ h₃) : Only rs h₁ h₃ where
  get q hq := (h₂₃.get q hq).trans (h₁₂.get q hq)
  mem := h₂₃.mem.trans h₁₂.mem

theorem Only.mono {rs qs : List (BitVec 5)} {h h' : Hart} (hsub : rs ⊆ qs) (hkeep : Only rs h h') :
    Only qs h h' where
  get q hq := hkeep.get q fun hmem => hq (hsub hmem)
  mem := hkeep.mem

/-- The code of a result of `op` on `x` and `y`: in register `d` the value, or for a comparison
    two registers that compare as `x` and `y` do. -/
def Leaves (op : Op) (x y : BitVec 32) (d b : BitVec 5) (h : Hart) (res : List Word × Result) :
    Prop :=
  ∃ h', run res.1 h = some h' ∧ Only [d, b] h h' ∧
    match res.2 with
    | .reg q => op.isCmp = false ∧ q = d ∧ h'.get d = op.alu x y
    | .cmp o p q => op.isCmp = true ∧ o.isCmp = true ∧ o.holds (h'.get p) (h'.get q) = op.holds x y

/-- The value of an operator's code. -/
def opi_value (op : Op) (x y : BitVec 32) : BitVec 32 :=
  if op.isCmp then truth (op.holds x y) else op.alu x y

theorem Leaves.result_code {op : Op} {x y : BitVec 32} {d b r : BitVec 5} {h : Hart}
    {res : List Word × Result} (hres : Leaves op x y d b h res) (hr : r ≠ 0#5) :
    ∃ h', run (result_code r res).1 h = some h' ∧ Only [d, r, b] h h' ∧
      h'.get (result_code r res).2 = opi_value op x y := by
  obtain ⟨ws, result⟩ := res
  obtain ⟨h₁, hrun, hkeep, hval⟩ := hres
  have hkeep' : Only [d, r, b] h h₁ := hkeep.mono (by simp)
  cases result with
  | reg q =>
    obtain ⟨hop, rfl, hval⟩ := hval
    refine ⟨h₁, hrun, hkeep', ?_⟩
    rw [opi_value, hop]
    exact hval
  | cmp o p q =>
    obtain ⟨hop, ho, hval⟩ := hval
    obtain ⟨h₂, hload, hsets⟩ := load_cmp_run h₁ hr ho p q
    refine ⟨h₂, ?_, hkeep'.trans (Only.of_sets hsets (by simp)), ?_⟩
    · change run (ws ++ load_cmp r o p q) h = _
      rw [run_append, hrun]
      exact hload
    · rw [opi_value, if_pos hop, ← hval]
      exact hsets.value

end tcc.riscv32
