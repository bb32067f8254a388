import Tcc.Link.Relocate.Target
import Tcc.Link.Riscv32.Relocate
import Tcc.Machine.Rv32.Decode

open machine machine.rv64

namespace tcc.link.riscv32

open RelocType

section

variable (w off : Word)

/-- The masks of `R_RISCV_BRANCH` take the bits of half a displacement. -/
theorem immB_patchBranch : rv32.immB (patchBranch w off) = ((off <<< 1).setWidth 13).signExtend 32 := by
  rw [rv32.immB]
  congr 1
  ext i hi
  interval_cases i <;> simp [patchBranch]

theorem immJ_patchJal : rv32.immJ (patchJal w off) =
    (((off &&& ~~~1#32)).setWidth 21).signExtend 32 := by
  rw [rv32.immJ]
  congr 1
  ext i hi
  interval_cases i <;> simp [patchJal]

theorem immU_patchCallHi : rv32.immU (patchCallHi w off) = (off + 0x800#32) &&& ~~~0xfff#32 := by
  rw [rv32.immU]
  ext i hi
  interval_cases i <;> simp [patchCallHi]

theorem patchCallHi_opcode : Format.U.SameOpcode w (patchCallHi w off) := by
  rw [Format.SameOpcode]
  ext i hi
  interval_cases i <;> simp [patchCallHi, Format.immMask]

theorem immI_patchLoI : rv32.immI (patchLoI w off) = (off.setWidth 12).signExtend 32 := by
  rw [rv32.immI]
  congr 1
  ext i hi
  interval_cases i <;> simp [patchLoI]

theorem patchLoI_opcode : Format.I.SameOpcode w (patchLoI w off) := by
  rw [Format.SameOpcode]
  ext i hi
  interval_cases i <;> simp [patchLoI, Format.immMask]

theorem immS_patchLoS : rv32.immS (patchLoS w off) = (off.setWidth 12).signExtend 32 := by
  rw [rv32.immS]
  congr 1
  ext i hi
  interval_cases i <;> simp [patchLoS]

theorem patchHi20_pages : patchHi20 w (pages off) = patchCallHi w off := by
  ext i hi
  interval_cases i <;> simp [patchHi20, patchCallHi, pages, BitVec.getElem_sshiftRight]

end

/-- The check of a relocation: a displacement that has been extended with zeros passes it
    only if it is not negative. -/
theorem zero_extended_check_iff {k : Nat} (hlo : 2 ≤ k) (hhi : k ≤ 33) {d : BitVec 32} {b m : BitVec 64}
    (hb : b.toNat = 2 ^ (k - 1))
    (hm : ∀ i < 64, m.getLsbD i = (decide (0 < i) && decide (i < k))) :
    (d.setWidth 64 + b) &&& ~~~m = 0#64 ↔ d.getLsbD 0 = false ∧ d.toNat < 2 ^ (k - 1) := by
  have hnat : (d.setWidth 64).toNat = d.toNat := by
    rw [BitVec.toNat_setWidth, Nat.mod_eq_of_lt (d.isLt.trans (by decide))]
  have hint : (d.setWidth 64).toInt = d.toNat := by
    have hlt := d.isLt
    rw [BitVec.toInt_eq_toNat_cond, hnat, if_pos (by omega)]
  have hbit : (d.setWidth 64).getLsbD 0 = d.getLsbD 0 := by
    rw [BitVec.getLsbD_setWidth, decide_eq_true (by decide), Bool.true_and]
  have hcast : (2 : Int) ^ (k - 1) = ((2 ^ (k - 1) : Nat) : Int) := by push_cast; rfl
  rw [biased_check_iff hlo (by omega) hb hm, hbit, hint, hcast]
  refine and_congr_right fun _ => ?_
  generalize 2 ^ (k - 1) = q
  omega

/-- The address the instructions at `ptr` designate when they execute at `addr`. -/
def target (k : PcRel) (data : Bytes) (ptr : Nat) (addr : BitVec 32) : BitVec 32 :=
  match k with
  | .branch => addr + rv32.immB (read32le data ptr)
  | .jal => addr + rv32.immJ (read32le data ptr)
  | .call | .call_plt => addr + rv32.immU (read32le data ptr) + rv32.immI (read32le data (ptr + 4))
  | .rvc_branch => addr + rv32.immCB (read16le data ptr)
  | .rvc_jump => addr + rv32.immCJ (read16le data ptr)

/-- The displacements that the instructions can encode. -/
def Encodable (k : PcRel) (d : BitVec 32) : Prop :=
  match k with
  | .branch => d.getLsbD 0 = false ∧ -2 ^ 12 ≤ d.toInt ∧ d.toInt < 2 ^ 12
  | .jal => d.getLsbD 0 = false ∧ -2 ^ 20 ≤ d.toInt ∧ d.toInt < 2 ^ 20
  | .call | .call_plt => True
  | .rvc_branch => d.getLsbD 0 = false ∧ -2 ^ 8 ≤ d.toInt ∧ d.toInt < 2 ^ 8
  | .rvc_jump => d.getLsbD 0 = false ∧ -2 ^ 11 ≤ d.toInt ∧ d.toInt < 2 ^ 11

/-- `relocate` leaves instructions that designate `val`, or reports an error for a
    displacement that they cannot encode. -/
def Exact (k : PcRel) (s : LinkState) (rel : Rel) (ptr : Nat) (addr val : BitVec 32) : Prop :=
  match relocate s rel k.type ptr addr val with
  | .error _ => ¬Encodable k (val - addr)
  | .ok s' => target k s'.data ptr addr = val ∧ k.SameOpcode s.data s'.data ptr

/-- The displacements with which `relocate` is exact: a branch only reaches itself, `jal`
    only goes forward, but for those that are rejected for good reason. -/
def Accurate (k : PcRel) (d : BitVec 32) : Prop :=
  match k with
  | .branch => d = 0#32 ∨ ¬Encodable .branch d
  | .jal => d.getLsbD 0 = true ∨ d.toInt < -2 ^ 20 ∨ (0 ≤ d.toInt ∧ d.toInt < 2 ^ 20) ∨ 2 ^ 21 ≤ d.toInt
  | .call | .call_plt => True
  | .rvc_branch => 0 ≤ d.toInt ∨ ¬Encodable .rvc_branch d
  | .rvc_jump => 0 ≤ d.toInt ∨ ¬Encodable .rvc_jump d

section

variable {d : BitVec 32}

theorem toInt_nonneg_iff (k : Nat) (hk : k ≤ 31) :
    d.toNat < 2 ^ k ↔ 0 ≤ d.toInt ∧ d.toInt < ((2 ^ k : Nat) : Int) := by
  have hlt := d.isLt
  have hle : 2 ^ k ≤ 2 ^ 31 := Nat.pow_le_pow_right (by decide) hk
  rw [BitVec.toInt_eq_toNat_cond]
  generalize 2 ^ k = q at *
  split <;> omega

theorem setWidth_signExtend_setWidth {k : Nat} (hpos : 0 < k) (hk : k ≤ 32) :
    (((d.setWidth 64).setWidth k).signExtend 64).setWidth 32 = (d.setWidth k).signExtend 32 := by
  rw [BitVec.setWidth_setWidth_of_le _ (by omega)]
  apply BitVec.eq_of_getLsbD_eq
  intro i hi
  rw [BitVec.getLsbD_setWidth, decide_eq_true hi, Bool.true_and, BitVec.getLsbD_signExtend,
    BitVec.getLsbD_signExtend, decide_eq_true hi, decide_eq_true (show i < 64 by omega)]

theorem setWidth_64_32 : (d.setWidth 64).setWidth 32 = d := by
  rw [BitVec.setWidth_setWidth_of_le _ (by decide), BitVec.setWidth_eq]

/-- A branch that passes the check gets twice its displacement. -/
theorem double_eq_iff (hlt : d.toNat < 2 ^ 12) :
    ((d <<< 1).setWidth 13).signExtend 32 = d ↔ d = 0#32 := by
  constructor
  · intro heq
    have hint := congrArg BitVec.toInt heq
    have hnat : ((d <<< 1).setWidth 13).toNat = 2 * d.toNat := by
      rw [BitVec.toNat_setWidth, BitVec.toNat_shiftLeft, Nat.shiftLeft_eq]
      omega
    have hd := (toInt_nonneg_iff 12 (by decide)).mp hlt
    have hdnat : d.toInt = d.toNat := by
      rw [BitVec.toInt_eq_toNat_cond, if_pos (by omega)]
    rw [BitVec.toInt_signExtend_of_le (by decide), BitVec.toInt_eq_toNat_cond, hnat, hdnat] at hint
    apply BitVec.eq_of_toNat_eq
    rw [BitVec.toNat_ofNat]
    split at hint <;> omega
  · rintro rfl
    decide

end

/-- A relocation that checks its range, by the displacements that pass. -/
theorem exact_check_iff {k : PcRel} {s s' : LinkState} {rel : Rel} {ptr : Nat}
    {addr val : BitVec 32} {x : BitVec 64} {p : Prop} {e : RelocError} (hcheck : x = 0#64 ↔ p)
    (hrel : relocate s rel k.type ptr addr val = if x ≠ 0#64 then .error e else .ok s') :
    Exact k s rel ptr addr val ↔ (¬p ∧ ¬Encodable k (val - addr)) ∨
      (p ∧ target k s'.data ptr addr = val ∧ k.SameOpcode s.data s'.data ptr) := by
  rw [Exact, hrel, ← hcheck]
  by_cases hx : x = 0#64
  · simp [hx]
  · simp [hx]

section

variable (s : LinkState) (rel : Rel) (ptr : Nat) (addr val : BitVec 32)

theorem branch_exact_iff : Exact .branch s rel ptr addr val ↔ Accurate .branch (val - addr) := by
  have hcheck := @zero_extended_check_iff 13 (by decide) (by decide) (val - addr) 0x1000#64 0x1ffe#64
    (by decide) (by decide)
  have hrange := @toInt_nonneg_iff (val - addr) 12 (by decide)
  rw [exact_check_iff hcheck rfl]
  simp only [target, PcRel.SameOpcode, read32le_write32le, setWidth_64_32, add_imm_eq_iff,
    immB_patchBranch, patchBranch_opcode, and_true]
  generalize val - addr = d at *
  rw [Accurate]
  by_cases hpass : d.getLsbD 0 = false ∧ d.toNat < 2 ^ 12
  · have hin : Encodable .branch d := ⟨hpass.1, by omega, by omega⟩
    simp only [hpass, and_self, not_true_eq_false, true_and, false_or,
      double_eq_iff hpass.2, hin, or_false]
  · have hne : d ≠ 0#32 := by
      rintro rfl
      exact hpass ⟨rfl, by decide⟩
    simp only [hpass, not_false_eq_true, true_and, false_and, or_false, hne, false_or]

theorem jal_exact_iff : Exact .jal s rel ptr addr val ↔ Accurate .jal (val - addr) := by
  have hcheck := @zero_extended_check_iff 22 (by decide) (by decide) (val - addr) 0x200000#64
    0x3ffffe#64 (by decide) (by decide)
  have hrange := @toInt_nonneg_iff (val - addr) 21 (by decide)
  rw [exact_check_iff hcheck rfl]
  simp only [target, PcRel.SameOpcode, read32le_write32le, setWidth_64_32, add_imm_eq_iff,
    immJ_patchJal, patchJal_opcode, and_true]
  generalize val - addr = d at *
  rw [Accurate, Encodable]
  cases heven : d.getLsbD 0 with
  | true => simp
  | false =>
    rw [rv32.and_not_one_of_even heven, signExtend_setWidth_iff (by decide) (by decide)]
    simp only [true_and, Bool.false_eq_true, false_or]
    omega

theorem rvc_branch_exact_iff :
    Exact .rvc_branch s rel ptr addr val ↔ Accurate .rvc_branch (val - addr) := by
  have hcheck := @zero_extended_check_iff 9 (by decide) (by decide) (val - addr) 0x100#64 0x1fe#64
    (by decide) (by decide)
  have hrange := @toInt_nonneg_iff (val - addr) 8 (by decide)
  rw [exact_check_iff hcheck rfl]
  simp only [target, PcRel.SameOpcode, read16le_write16le, add_imm_eq_iff, rv32.immCB,
    patchRvcBranch_opcode, and_true]
  generalize val - addr = d at *
  rw [Accurate, Encodable]
  cases heven : d.getLsbD 0 with
  | true => simp
  | false =>
    have heven' : (d.setWidth 64).getLsbD 0 = false := by
      rw [BitVec.getLsbD_setWidth, heven, Bool.and_false]
    rw [patchRvcBranch_imm _ heven', setWidth_signExtend_setWidth (by decide) (by decide),
      signExtend_setWidth_iff (by decide) (by decide)]
    simp only [true_and]
    omega

theorem rvc_jump_exact_iff :
    Exact .rvc_jump s rel ptr addr val ↔ Accurate .rvc_jump (val - addr) := by
  have hcheck := @zero_extended_check_iff 12 (by decide) (by decide) (val - addr) 0x800#64 0xffe#64
    (by decide) (by decide)
  have hrange := @toInt_nonneg_iff (val - addr) 11 (by decide)
  rw [exact_check_iff hcheck rfl]
  simp only [target, PcRel.SameOpcode, read16le_write16le, add_imm_eq_iff, rv32.immCJ,
    patchRvcJump_opcode, and_true]
  generalize val - addr = d at *
  rw [Accurate, Encodable]
  cases heven : d.getLsbD 0 with
  | true => simp
  | false =>
    have heven' : (d.setWidth 64).getLsbD 0 = false := by
      rw [BitVec.getLsbD_setWidth, heven, Bool.and_false]
    rw [patchRvcJump_imm _ heven', setWidth_signExtend_setWidth (by decide) (by decide),
      signExtend_setWidth_iff (by decide) (by decide)]
    simp only [true_and]
    omega

/-- The two words of a call reach every address. -/
theorem call_exact : Exact .call s rel ptr addr val := by
  have hhi (w x : Word) : read32le (write32le (write32le s.data ptr w) (ptr + 4) x) ptr = w := by
    rw [(write32le_sameOutside _ (ptr + 4) x).read32le_eq (Or.inl (Nat.le_refl _)), read32le_write32le]
  have hlo (w : Word) : read32le (write32le s.data ptr w) (ptr + 4) = read32le s.data (ptr + 4) :=
    (write32le_sameOutside s.data ptr w).read32le_eq (Or.inr (Nat.le_refl _))
  rw [Exact]
  change target .call _ ptr addr = val ∧ PcRel.call.SameOpcode s.data _ ptr
  rw [target, PcRel.SameOpcode]
  simp only [hhi, hlo, read32le_write32le, immU_patchCallHi, immI_patchLoI]
  refine ⟨?_, patchCallHi_opcode _ _, patchLoI_opcode _ _⟩
  rw [BitVec.add_assoc, rv32.hi_add_lo, BitVec.add_comm, BitVec.sub_add_cancel]

theorem exact_iff_accurate (k : PcRel) : Exact k s rel ptr addr val ↔ Accurate k (val - addr) := by
  cases k with
  | branch => exact branch_exact_iff s rel ptr addr val
  | jal => exact jal_exact_iff s rel ptr addr val
  | call => exact iff_of_true (call_exact s rel ptr addr val) trivial
  | call_plt => exact iff_of_true (call_exact s rel ptr addr val) trivial
  | rvc_branch => exact rvc_branch_exact_iff s rel ptr addr val
  | rvc_jump => exact rvc_jump_exact_iff s rel ptr addr val

end

end tcc.link.riscv32
