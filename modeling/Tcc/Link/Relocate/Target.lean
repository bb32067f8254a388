import Mathlib.Data.BitVec
import Mathlib.Data.Nat.SuccPred
import Tcc.Link.Relocate
import Tcc.Machine.Bits
import Tcc.Machine.Rv64.Decode

open machine machine.rv64

namespace tcc.link

theorem patchBranch_imm (w : Word) {d : BitVec 64} (heven : d.getLsbD 0 = false) :
    immB (patchBranch w ((d >>> 1).setWidth 32)) = (d.setWidth 13).signExtend 64 := by
  rw [immB]
  congr 1
  have heven' : d[0] = false := heven
  ext i hi
  interval_cases i <;> simp [patchBranch, heven']

theorem patchBranch_opcode (w off32 : Word) :
    Format.B.SameOpcode w (patchBranch w off32) := by
  rw [Format.SameOpcode]
  ext i hi
  interval_cases i <;> simp [patchBranch, Format.immMask]

theorem patchJal_imm (w : Word) {d : BitVec 64} (heven : d.getLsbD 0 = false) :
    immJ (patchJal w (d.setWidth 32)) = (d.setWidth 21).signExtend 64 := by
  rw [immJ]
  congr 1
  have heven' : d[0] = false := heven
  ext i hi
  interval_cases i <;> simp [patchJal, heven']

theorem patchJal_opcode (w off32 : Word) :
    Format.J.SameOpcode w (patchJal w off32) := by
  rw [Format.SameOpcode]
  ext i hi
  interval_cases i <;> simp [patchJal, Format.immMask]

theorem patchCallHi_imm (w : Word) (d : BitVec 64) :
    immU (patchCallHi w d) =
      (((d + 0x800#64) &&& ~~~0xfff#64).setWidth 32).signExtend 64 := by
  rw [immU]
  congr 1
  ext i hi
  interval_cases i <;> simp [patchCallHi]

theorem patchCallHi_opcode (w : Word) (d : BitVec 64) :
    Format.U.SameOpcode w (patchCallHi w d) := by
  rw [Format.SameOpcode]
  ext i hi
  interval_cases i <;> simp [patchCallHi, Format.immMask]

theorem patchHi20_eq_patchCallHi (w : Word) (d : BitVec 64) :
    patchHi20 w ((d + 0x800#64).sshiftRight 12) = patchCallHi w d := by
  ext i hi
  interval_cases i <;> simp [patchHi20, patchCallHi, BitVec.getElem_sshiftRight]

theorem patchLoI_imm (w : Word) (d : BitVec 64) :
    immI (patchLoI w d) = (d.setWidth 12).signExtend 64 := by
  rw [immI]
  congr 1
  ext i hi
  interval_cases i <;> simp [patchLoI]

theorem patchLoI_opcode (w : Word) (d : BitVec 64) :
    Format.I.SameOpcode w (patchLoI w d) := by
  rw [Format.SameOpcode]
  ext i hi
  interval_cases i <;> simp [patchLoI, Format.immMask]

theorem patchLoS_imm (w : Word) (d : BitVec 64) :
    immS (patchLoS w (d.setWidth 32)) = (d.setWidth 12).signExtend 64 := by
  rw [immS]
  congr 1
  ext i hi
  interval_cases i <;> simp [patchLoS]

theorem patchLoS_opcode (w off32 : Word) :
    Format.S.SameOpcode w (patchLoS w off32) := by
  rw [Format.SameOpcode]
  ext i hi
  interval_cases i <;> simp [patchLoS, Format.immMask]

theorem patchRvcBranch_imm (w : HalfWord) {d : BitVec 64} (heven : d.getLsbD 0 = false) :
    immCB (patchRvcBranch w (d.setWidth 32)) = (d.setWidth 9).signExtend 64 := by
  rw [immCB]
  congr 1
  have heven' : d[0] = false := heven
  ext i hi
  interval_cases i <;> simp [patchRvcBranch, heven']

theorem patchRvcBranch_opcode (w : HalfWord) (off32 : Word) :
    CFormat.CB.SameOpcode w (patchRvcBranch w off32) := by
  rw [CFormat.SameOpcode]
  ext i hi
  interval_cases i <;> simp [patchRvcBranch, CFormat.immMask]

theorem patchRvcJump_imm (w : HalfWord) {d : BitVec 64} (heven : d.getLsbD 0 = false) :
    immCJ (patchRvcJump w (d.setWidth 32)) = (d.setWidth 12).signExtend 64 := by
  rw [immCJ]
  congr 1
  have heven' : d[0] = false := heven
  ext i hi
  interval_cases i <;> simp [patchRvcJump, heven']

theorem patchRvcJump_opcode (w : HalfWord) (off32 : Word) :
    CFormat.CJ.SameOpcode w (patchRvcJump w off32) := by
  rw [CFormat.SameOpcode]
  ext i hi
  interval_cases i <;> simp [patchRvcJump, CFormat.immMask]

open RelocType

/-- The relocations of one transfer of control, whose place holds the whole
    pc-relative displacement. -/
inductive PcRel where
  | branch | jal | call | call_plt | rvc_branch | rvc_jump
  deriving DecidableEq, Repr

def PcRel.type : PcRel → RelocType
  | .branch => R_RISCV_BRANCH
  | .jal => R_RISCV_JAL
  | .call => R_RISCV_CALL
  | .call_plt => R_RISCV_CALL_PLT
  | .rvc_branch => R_RISCV_RVC_BRANCH
  | .rvc_jump => R_RISCV_RVC_JUMP

/-- The address the instructions at `ptr` designate when they execute at `addr`:
    the immediates, sign-extended and added to the program counter. -/
def PcRel.target (k : PcRel) (data : Bytes) (ptr : Nat) (addr : BitVec 64) : BitVec 64 :=
  match k with
  | .branch => addr + immB (read32le data ptr)
  | .jal => addr + immJ (read32le data ptr)
  | .call | .call_plt => addr + immU (read32le data ptr) + immI (read32le data (ptr + 4))
  | .rvc_branch => addr + immCB (read16le data ptr)
  | .rvc_jump => addr + immCJ (read16le data ptr)

/-- The instructions at `ptr` differ at most in their immediate fields. -/
def PcRel.SameOpcode (k : PcRel) (before after : Bytes) (ptr : Nat) : Prop :=
  match k with
  | .branch => Format.B.SameOpcode (read32le before ptr) (read32le after ptr)
  | .jal => Format.J.SameOpcode (read32le before ptr) (read32le after ptr)
  | .call | .call_plt =>
    Format.U.SameOpcode (read32le before ptr) (read32le after ptr) ∧
      Format.I.SameOpcode (read32le before (ptr + 4)) (read32le after (ptr + 4))
  | .rvc_branch => CFormat.CB.SameOpcode (read16le before ptr) (read16le after ptr)
  | .rvc_jump => CFormat.CJ.SameOpcode (read16le before ptr) (read16le after ptr)

/-- `relocate` reports an error or leaves instructions that designate `val`. -/
def PcRel.Faithful (k : PcRel) (s : LinkState) (rel : Rel) (ptr : Nat) (addr val : BitVec 64) :
    Prop :=
  ∀ s', relocate s rel k.type ptr addr val = .ok s' →
    k.target s'.data ptr addr = val ∧ k.SameOpcode s.data s'.data ptr

/-- The displacements that no relocation silently cuts: `jal` must avoid the
    even ones between one and two megabytes, which pass its check but not its
    encoding, and a call must reach its target with 32 rounded bits. -/
def PcRel.InRange (k : PcRel) (off : BitVec 64) : Prop :=
  match k with
  | .branch | .rvc_branch | .rvc_jump => True
  | .jal => ¬ (off.getLsbD 0 = false ∧
      (2 ^ 20 ≤ off.toInt ∧ off.toInt < 2 ^ 21 ∨ -2 ^ 21 ≤ off.toInt ∧ off.toInt < -2 ^ 20))
  | .call | .call_plt =>
    -2 ^ 31 ≤ (off + 0x800#64).toInt ∧ (off + 0x800#64).toInt < 2 ^ 31

/-- An immediate reaches the target exactly when it is the displacement. -/
theorem add_imm_eq_iff {w : Nat} (addr imm val : BitVec w) : addr + imm = val ↔ imm = val - addr := by
  constructor
  · rintro rfl
    rw [BitVec.add_comm, BitVec.add_sub_cancel]
  · rintro rfl
    rw [BitVec.add_comm, BitVec.sub_add_cancel]

theorem if_error_else_ok_eq_ok {α ε : Type} {c : Prop} [Decidable c] {e : ε} {x y : α} :
    (if c then Except.error e else Except.ok x) = .ok y ↔ ¬ c ∧ y = x := by
  by_cases h : c <;> simp [h, eq_comm]

section

variable (s : LinkState) (rel : Rel) (ptr : Nat) (addr val : BitVec 64)

theorem PcRel.branch_faithful : PcRel.branch.Faithful s rel ptr addr val := by
  intro s' hok
  rw [PcRel.type, relocate, if_error_else_ok_eq_ok, not_not] at hok
  obtain ⟨hcheck, rfl⟩ := hok
  obtain ⟨heven, hlo, hhi⟩ :=
    (biased_check_iff (k := 13) (by decide) (by decide) (by decide) (by decide)).mp hcheck
  simp only [PcRel.target, PcRel.SameOpcode, read32le_write32le]
  refine ⟨?_, patchBranch_opcode _ _⟩
  rw [add_imm_eq_iff, patchBranch_imm _ heven, signExtend_setWidth_iff (by decide) (by decide)]
  exact ⟨hlo, hhi⟩

theorem PcRel.rvc_branch_faithful : PcRel.rvc_branch.Faithful s rel ptr addr val := by
  intro s' hok
  rw [PcRel.type, relocate, if_error_else_ok_eq_ok, not_not] at hok
  obtain ⟨hcheck, rfl⟩ := hok
  obtain ⟨heven, hlo, hhi⟩ :=
    (biased_check_iff (k := 9) (by decide) (by decide) (by decide) (by decide)).mp hcheck
  simp only [PcRel.target, PcRel.SameOpcode, read16le_write16le]
  refine ⟨?_, patchRvcBranch_opcode _ _⟩
  rw [add_imm_eq_iff, patchRvcBranch_imm _ heven, signExtend_setWidth_iff (by decide) (by decide)]
  exact ⟨hlo, hhi⟩

theorem PcRel.rvc_jump_faithful : PcRel.rvc_jump.Faithful s rel ptr addr val := by
  intro s' hok
  rw [PcRel.type, relocate, if_error_else_ok_eq_ok, not_not] at hok
  obtain ⟨hcheck, rfl⟩ := hok
  obtain ⟨heven, hlo, hhi⟩ :=
    (biased_check_iff (k := 12) (by decide) (by decide) (by decide) (by decide)).mp hcheck
  simp only [PcRel.target, PcRel.SameOpcode, read16le_write16le]
  refine ⟨?_, patchRvcJump_opcode _ _⟩
  rw [add_imm_eq_iff, patchRvcJump_imm _ heven, signExtend_setWidth_iff (by decide) (by decide)]
  exact ⟨hlo, hhi⟩

/-- The check of `R_RISCV_JAL` accepts twice the range its immediate can hold,
    so the patched jump is right on the inner half only. -/
theorem PcRel.jal_faithful_iff :
    PcRel.jal.Faithful s rel ptr addr val ↔ PcRel.jal.InRange (val - addr) := by
  have hrange := biased_check_iff (k := 22) (d := val - addr) (b := 0x200000#64) (m := 0x3ffffe#64)
    (by decide) (by decide) (by decide) (by decide)
  have htarget (heven : (val - addr).getLsbD 0 = false) :
      addr + immJ (patchJal (read32le s.data ptr) ((val - addr).setWidth 32)) = val ↔
        -2 ^ 20 ≤ (val - addr).toInt ∧ (val - addr).toInt < 2 ^ 20 := by
    rw [add_imm_eq_iff, patchJal_imm _ heven, signExtend_setWidth_iff (by decide) (by decide)]
  constructor
  · rintro hfaithful ⟨heven, hband⟩
    have hcheck := hrange.mpr ⟨heven, by omega, by omega⟩
    obtain ⟨hval, _⟩ := hfaithful _ (by
      rw [PcRel.type, relocate, if_error_else_ok_eq_ok, not_not]
      exact ⟨hcheck, rfl⟩)
    simp only [PcRel.target, read32le_write32le] at hval
    have hfit := (htarget heven).mp hval
    omega
  · intro hinside s' hok
    rw [PcRel.type, relocate, if_error_else_ok_eq_ok, not_not] at hok
    obtain ⟨hcheck, rfl⟩ := hok
    obtain ⟨heven, hlo, hhi⟩ := hrange.mp hcheck
    simp only [PcRel.target, PcRel.SameOpcode, read32le_write32le]
    refine ⟨(htarget heven).mpr ?_, patchJal_opcode _ _⟩
    rw [PcRel.InRange] at hinside
    by_contra hout
    exact hinside ⟨heven, by omega⟩

end

/-- The two parts of a rounded displacement reach the target exactly when the
    rounded displacement fits in 32 bits. -/
theorem hi_lo_target_iff (addr val : BitVec 64) :
    addr + (((val - addr + 0x800#64) &&& ~~~0xfff#64).setWidth 32).signExtend 64 +
        ((val - addr).setWidth 12).signExtend 64 = val ↔
      -2 ^ 31 ≤ (val - addr + 0x800#64).toInt ∧ (val - addr + 0x800#64).toInt < 2 ^ 31 := by
  have hsum := hi_add_lo (val - addr)
  rw [BitVec.add_assoc, add_imm_eq_iff, ← hi_fits_iff]
  constructor
  · intro h
    exact add_right_cancel (h.trans hsum.symm)
  · intro h
    rw [h, hsum]

theorem PcRel.call_faithful_iff (s : LinkState) (rel : Rel) (ptr : Nat) (addr val : BitVec 64) :
    PcRel.call.Faithful s rel ptr addr val ↔ PcRel.call.InRange (val - addr) := by
  have hhi (w x : Word) : read32le (write32le (write32le s.data ptr w) (ptr + 4) x) ptr = w := by
    rw [(write32le_sameOutside _ (ptr + 4) x).read32le_eq (by omega), read32le_write32le]
  rw [PcRel.InRange, ← hi_lo_target_iff]
  constructor
  · intro hfaithful
    obtain ⟨hval, _⟩ := hfaithful _ rfl
    simpa only [PcRel.target, hhi, read32le_write32le, patchCallHi_imm, patchLoI_imm] using hval
  · rintro hval s' hok
    rw [PcRel.type, relocate, Except.ok.injEq] at hok
    subst hok
    simp only [PcRel.target, PcRel.SameOpcode, hhi, read32le_write32le, patchCallHi_imm,
      patchLoI_imm, hval, true_and]
    rw [(write32le_sameOutside s.data ptr _).read32le_eq (k := ptr + 4) (by omega)]
    exact ⟨patchCallHi_opcode _ _, patchLoI_opcode _ _⟩

end tcc.link
