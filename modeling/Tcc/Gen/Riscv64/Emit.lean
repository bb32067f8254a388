import Tcc.Machine.Rv64.Exec

open machine.rv64

namespace tcc.riscv64

/-- A register-register instruction; callers pass values that fit their fields. -/
def ER (opcode : BitVec 7) (func3 : BitVec 3) (rd rs1 rs2 : BitVec 5) (func7 : BitVec 7) : Word :=
  opcode.setWidth 32 ||| func3.setWidth 32 <<< 12 ||| rd.setWidth 32 <<< 7 |||
    rs1.setWidth 32 <<< 15 ||| rs2.setWidth 32 <<< 20 ||| func7.setWidth 32 <<< 25

/-- A register-immediate instruction without a check of the immediate. -/
def EIu (opcode : BitVec 7) (func3 : BitVec 3) (rd rs1 : BitVec 5) (imm : BitVec 32) : Word :=
  opcode.setWidth 32 ||| func3.setWidth 32 <<< 12 ||| rd.setWidth 32 <<< 7 |||
    rs1.setWidth 32 <<< 15 ||| imm <<< 20

/-- The assertion of `EI` and `ES`: the immediate fits in twelve signed bits. -/
def imm12 (imm : BitVec 32) : Prop := (imm + 0x800#32) >>> 12 = 0#32

instance (imm : BitVec 32) : Decidable (imm12 imm) := inferInstanceAs (Decidable (_ = _))

/-- A register-immediate instruction; `none` is a failed assertion. -/
def EI (opcode : BitVec 7) (func3 : BitVec 3) (rd rs1 : BitVec 5) (imm : BitVec 32) :
    Option Word :=
  if imm12 imm then some (EIu opcode func3 rd rs1 imm) else none

/-- A store; `none` is a failed assertion. -/
def ES (opcode : BitVec 7) (func3 : BitVec 3) (rs1 rs2 : BitVec 5) (imm : BitVec 32) :
    Option Word :=
  if imm12 imm then
    some (opcode.setWidth 32 ||| func3.setWidth 32 <<< 12 ||| (imm &&& 0x1f#32) <<< 7 |||
      rs1.setWidth 32 <<< 15 ||| rs2.setWidth 32 <<< 20 ||| (imm >>> 5) <<< 25)
  else none

theorem imm12_iff (imm : BitVec 32) : imm12 imm ↔ -2048 ≤ imm.toInt ∧ imm.toInt < 2048 := by
  rw [imm12, ← BitVec.toNat_inj, BitVec.toNat_ushiftRight, Nat.shiftRight_eq_div_pow,
    BitVec.toNat_add, BitVec.toInt_eq_toNat_cond]
  have := imm.isLt
  simp only [BitVec.toNat_ofNat]
  split <;> omega

theorem imm12_signExtend32 {imm : BitVec 32} (h : imm12 imm) :
    (imm.setWidth 12).signExtend 32 = imm :=
  (machine.signExtend_setWidth_iff (by decide) (by decide) imm).mpr ((imm12_iff imm).mp h)

theorem imm12_signExtend64 {imm : BitVec 32} (h : imm12 imm) :
    (imm.setWidth 12).signExtend 64 = imm.signExtend 64 := by
  have hval : (imm.setWidth 12).toInt = imm.toInt := by
    rw [← BitVec.toInt_signExtend_of_le (by decide : 12 ≤ 32), imm12_signExtend32 h]
  apply BitVec.eq_of_toInt_eq
  rw [BitVec.toInt_signExtend_of_le (by decide), BitVec.toInt_signExtend_of_le (by decide), hval]

/-- `lui rd, up` as the generator writes it inline. -/
def lui (rd : BitVec 5) (up : BitVec 32) : Word :=
  0x37#32 ||| rd.setWidth 32 <<< 7 ||| up &&& 0xfffff000#32

section

variable (opc : BitVec 7) (f3 : BitVec 3) (d a b : BitVec 5) (f7 : BitVec 7) (imm : BitVec 32)

@[simp] theorem opcode_ER : opcode (ER opc f3 d a b f7) = opc := by
  ext i hi
  interval_cases i <;> simp [opcode, ER]

@[simp] theorem rd_ER : rd (ER opc f3 d a b f7) = d := by
  ext i hi
  interval_cases i <;> simp [rd, ER]

@[simp] theorem funct3_ER : funct3 (ER opc f3 d a b f7) = f3 := by
  ext i hi
  interval_cases i <;> simp [funct3, ER]

@[simp] theorem rs1_ER : rs1 (ER opc f3 d a b f7) = a := by
  ext i hi
  interval_cases i <;> simp [rs1, ER]

@[simp] theorem rs2_ER : rs2 (ER opc f3 d a b f7) = b := by
  ext i hi
  interval_cases i <;> simp [rs2, ER]

@[simp] theorem funct7_ER : funct7 (ER opc f3 d a b f7) = f7 := by
  ext i hi
  interval_cases i <;> simp [funct7, ER]

@[simp] theorem opcode_EIu : opcode (EIu opc f3 d a imm) = opc := by
  ext i hi
  interval_cases i <;> simp [opcode, EIu]

@[simp] theorem rd_EIu : rd (EIu opc f3 d a imm) = d := by
  ext i hi
  interval_cases i <;> simp [rd, EIu]

@[simp] theorem funct3_EIu : funct3 (EIu opc f3 d a imm) = f3 := by
  ext i hi
  interval_cases i <;> simp [funct3, EIu]

@[simp] theorem rs1_EIu : rs1 (EIu opc f3 d a imm) = a := by
  ext i hi
  interval_cases i <;> simp [rs1, EIu]

@[simp] theorem imm_EIu : ((EIu opc f3 d a imm) >>> 20).setWidth 12 = imm.setWidth 12 := by
  ext i hi
  interval_cases i <;> simp [EIu]

theorem exec_ER {h : Hart} {v : BitVec 64} (hv : aluR f7 f3 (h.get a) (h.get b) = some v) :
    exec (ER 0x33#7 f3 d a b f7) h = some (h.set d v).next := by
  simp [exec, hv]

theorem exec_EIu {h : Hart} {v : BitVec 64}
    (hv : aluI f3 (h.get a) (imm.setWidth 12) = some v) :
    exec (EIu 0x13#7 f3 d a imm) h = some (h.set d v).next := by
  simp [exec, hv]

theorem exec_EIuW {h : Hart} {v : BitVec 32}
    (hv : aluIW f3 ((h.get a).setWidth 32) (imm.setWidth 12) = some v) :
    exec (EIu 0x1b#7 f3 d a imm) h = some (h.set d (v.signExtend 64)).next := by
  simp [exec, hv]

end

theorem writesOnly_ER {f3 : BitVec 3} {f7 : BitVec 7} {d a b : BitVec 5}
    (h : ∀ x y, ∃ v, aluR f7 f3 x y = some v) : WritesOnly d [ER 0x33#7 f3 d a b f7] :=
  writesOnly_of_exec fun s => (h (s.get a) (s.get b)).imp fun _ hv => exec_ER _ _ _ _ _ hv

theorem writesOnly_EIu {f3 : BitVec 3} {d a : BitVec 5} {imm : BitVec 32}
    (h : ∀ x, ∃ v, aluI f3 x (imm.setWidth 12) = some v) : WritesOnly d [EIu 0x13#7 f3 d a imm] :=
  writesOnly_of_exec fun s => (h (s.get a)).imp fun _ hv => exec_EIu _ _ _ _ hv

theorem writesOnly_EIuW {f3 : BitVec 3} {d a : BitVec 5} {imm : BitVec 32}
    (h : ∀ x, ∃ v, aluIW f3 x (imm.setWidth 12) = some v) :
    WritesOnly d [EIu 0x1b#7 f3 d a imm] := by
  apply writesOnly_of_exec
  intro s
  obtain ⟨v, hv⟩ := h ((s.get a).setWidth 32)
  exact ⟨_, exec_EIuW _ _ _ _ hv⟩

theorem loadValue_isSome {f3 : BitVec 3} (h : f3 ≠ 7#3) (mem : BitVec 64 → BitVec 8)
    (addr : BitVec 64) : ∃ v, loadValue f3 mem addr = some v := by
  have hcases : f3 = 0#3 ∨ f3 = 1#3 ∨ f3 = 2#3 ∨ f3 = 3#3 ∨ f3 = 4#3 ∨ f3 = 5#3 ∨ f3 = 6#3 := by
    revert h
    revert f3
    decide
  obtain rfl | rfl | rfl | rfl | rfl | rfl | rfl := hcases <;> exact ⟨_, rfl⟩

theorem exec_load {f3 : BitVec 3} {d a : BitVec 5} {imm : BitVec 32} {s : Hart} {v : BitVec 64}
    (hv : loadValue f3 s.mem (s.get a + immI (EIu 0x03#7 f3 d a imm)) = some v) :
    exec (EIu 0x03#7 f3 d a imm) s = some (s.set d v).next := by
  simp [exec, hv]

theorem writesOnly_load {f3 : BitVec 3} {d a : BitVec 5} {imm : BitVec 32}
    (h : f3 ≠ 7#3) : WritesOnly d [EIu 0x03#7 f3 d a imm] :=
  writesOnly_of_exec fun _ => (loadValue_isSome h _ _).imp fun _ hv => exec_load hv

theorem opcode_lui (d : BitVec 5) (up : BitVec 32) : opcode (lui d up) = 0x37#7 := by
  ext i hi
  interval_cases i <;> simp [opcode, lui]

theorem rd_lui (d : BitVec 5) (up : BitVec 32) : rd (lui d up) = d := by
  ext i hi
  interval_cases i <;> simp [rd, lui]

theorem writesOnly_lui (d : BitVec 5) (up : BitVec 32) : WritesOnly d [lui d up] := by
  apply writesOnly_of_exec
  intro s
  exact ⟨immU (lui d up), by simp [exec, opcode_lui, rd_lui]⟩

/-- `auipc rd, hi`. -/
def auipc (rd : BitVec 5) (hi : BitVec 20) : Word :=
  0x17#32 ||| rd.setWidth 32 <<< 7 ||| hi.setWidth 32 <<< 12

theorem opcode_auipc (d : BitVec 5) (hi : BitVec 20) : opcode (auipc d hi) = 0x17#7 := by
  ext i hi
  interval_cases i <;> simp [opcode, auipc]

theorem rd_auipc (d : BitVec 5) (hi : BitVec 20) : rd (auipc d hi) = d := by
  ext i hi
  interval_cases i <;> simp [rd, auipc]

theorem writesOnly_auipc (d : BitVec 5) (hi : BitVec 20) : WritesOnly d [auipc d hi] := by
  apply writesOnly_of_exec
  intro s
  exact ⟨s.pc + immU (auipc d hi), by simp [exec, opcode_auipc, rd_auipc]⟩

theorem EI_eq_some {opc : BitVec 7} {f3 : BitVec 3} {d a : BitVec 5} {imm : BitVec 32} {w : Word}
    (h : EI opc f3 d a imm = some w) : w = EIu opc f3 d a imm := by
  rw [EI, Option.ite_none_right_eq_some] at h
  exact (Option.some.inj h.2).symm

/-- A store changes no register. -/
theorem run_ES {f3 : BitVec 3} (hf3 : f3.toNat < 4) {a b : BitVec 5} {imm : BitVec 32} {w : Word}
    (h : ES 0x23#7 f3 a b imm = some w) (s : Hart) :
    ∃ s', run [w] s = some s' ∧ ∀ q, s'.get q = s.get q := by
  rw [ES, Option.ite_none_right_eq_some] at h
  obtain ⟨-, h⟩ := h
  have hopc : opcode w = 0x23#7 := by
    rw [← Option.some.inj h]
    ext i hi
    interval_cases i <;> simp [opcode]
  have hfun : funct3 w = f3 := by
    rw [← Option.some.inj h]
    ext i hi
    interval_cases i <;> simp [funct3]
  refine ⟨{ s with mem := storeLE s.mem (s.get (rs1 w) + immS w) (s.get (rs2 w)) (2 ^ f3.toNat) }.next,
    ?_, fun q => rfl⟩
  simp [run_cons, exec, hopc, hfun, hf3]

end tcc.riscv64
