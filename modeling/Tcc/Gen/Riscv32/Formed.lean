import Tcc.Gen.Riscv32.Access

open machine.rv64 (Word rs1)
open machine.rv32
open tcc.link.riscv32 (PcrelHi patchCallHi patchLoI immU_patchCallHi immI_patchLoI immS_patchLoS
  patchCallHi_opcode patchLoI_opcode)
open tcc.link (patchLoS)

/-! The addresses that the code of `load` and `store` forms. -/

namespace tcc.riscv32

/-- The signed low part of a word. -/
def low (c : BitVec 32) : BitVec 32 := (c.setWidth 12).signExtend 32

/-- The high part, rounded for a signed low part. -/
def rounded (c : BitVec 32) : BitVec 32 := (c + 0x800#32) &&& ~~~0xfff#32

theorem rounded_add_low (c : BitVec 32) : rounded c + low c = c := hi_add_lo c

theorem IMM_HIGH_shift (c : BitVec 32) : IMM_HIGH c <<< 12 = c &&& ~~~0xfff#32 := by
  ext i hi
  interval_cases i <;> simp [IMM_HIGH]

theorem low_IMM_LOW (c : BitVec 32) : low (IMM_LOW c) = low c := by
  rw [low, IMM_LOW_setWidth, low]

theorem low_of_small {c : BitVec 32} (h : LARGE_IMM c = false) : low c = c :=
  tcc.riscv64.imm12_signExtend32 (LARGE_IMM_eq_false h)

/-- Without rounding, bit 11 costs a page. -/
theorem truncated_add_low (c : BitVec 32) :
    (c &&& ~~~0xfff#32) + low c = c - if c.getLsbD 11 then 0x1000#32 else 0#32 := by
  have hlow : low c = (c &&& 0xfff#32) - if c.getLsbD 11 then 0x1000#32 else 0#32 := by
    have hmsb : (c.setWidth 12).msb = c.getLsbD 11 := by
      rw [BitVec.msb_eq_getLsbD_last]
      simp
    have hmask : c &&& 0xfff#32 = (c.setWidth 12).setWidth 32 := by
      ext i hi
      interval_cases i <;> simp
    rw [low, BitVec.signExtend, BitVec.toInt_eq_msb_cond, hmsb, hmask]
    generalize c.setWidth 12 = x
    have hlt := x.isLt
    apply BitVec.eq_of_toInt_eq
    split
    · rw [BitVec.toInt_ofInt, BitVec.toInt_sub]
      have hx : (x.setWidth 32).toInt = x.toNat := by
        rw [BitVec.toInt_eq_toNat_cond, BitVec.toNat_setWidth, Nat.mod_eq_of_lt (by omega), if_pos (by omega)]
      rw [hx]
      rfl
    · rw [BitVec.sub_zero, BitVec.toInt_ofInt, BitVec.toInt_eq_toNat_cond, BitVec.toNat_setWidth,
        Nat.mod_eq_of_lt (by omega), if_pos (by omega)]
      exact Int.bmod_eq_of_le (by omega) (by omega)
  have hsplit : (c &&& ~~~0xfff#32) + (c &&& 0xfff#32) = c := by
    rw [BitVec.add_eq_or_of_and_eq_zero]
    · ext i hi
      interval_cases i <;> simp
    · ext i hi
      interval_cases i <;> simp
  rw [hlow, BitVec.sub_eq_add_neg, ← BitVec.add_assoc, hsplit, BitVec.sub_eq_add_neg]

section

variable (d a b : BitVec 5) (imm : BitVec 32) (h : Hart)

theorem exec_emit_ADDI : exec (emit_ADDI (d.setWidth 32) (a.setWidth 32) imm) h =
    some (h.set d (h.get a + low imm)).next :=
  exec_emit_imm 0#3 d a imm h rfl

theorem exec_emit_ADD : exec (emit_ADD (d.setWidth 32) (a.setWidth 32) (b.setWidth 32)) h =
    some (h.set d (h.get a + h.get b)).next :=
  exec_emit_op 0#7 0#3 d a b h rfl

theorem exec_emit_SLLI (k : BitVec 5) :
    exec (emit_SLLI (d.setWidth 32) (a.setWidth 32) (k.setWidth 32)) h =
      some (h.set d (h.get a <<< k.toNat)).next := by
  refine exec_emit_shift 0#7 1#3 d a h k ?_
  have hfield : (BitVec.setWidth 12 0#7 <<< 5 ||| k.setWidth 12).toNat = k.toNat := by
    rw [show (BitVec.setWidth 12 0#7 <<< 5 : BitVec 12) = 0#12 by decide, BitVec.zero_or, BitVec.toNat_setWidth,
      Nat.mod_eq_of_lt (by omega)]
  rw [aluI]
  change (if _ then some _ else none) = _
  rw [hfield, if_pos (by omega)]

theorem exec_emit_AUIPC : exec (emit_AUIPC (d.setWidth 32) imm) h =
    some (h.set d (h.pc + imm <<< 12)).next :=
  exec_auipc (fields_emit_U 0x17#7 d imm) h

theorem exec_fields_addi {w : Word} {d a : BitVec 5} {v : BitVec 32}
    (hw : fields .I w = .I 0x13#7 d 0#3 a v) : exec w h = some (h.set d (h.get a + v)).next := by
  rw [fields, Fields.I.injEq] at hw
  obtain ⟨hopc, hd, hf3, ha, rfl⟩ := hw
  exact exec_op_imm hopc hd hf3 ha rfl h rfl

theorem exec_emit_JALR : exec (emit_JALR (d.setWidth 32) (a.setWidth 32) imm) h =
    some { h.set d (h.pc + 4#32) with pc := (h.get a + low imm) &&& ~~~1#32 } :=
  exec_jalr (fields_emit_I 0x67#7 0#3 d a imm) h

end

/-- What a constant with an upper word is worth once it is loaded: the upper word is shifted
    out, and the low part comes twice. -/
def large_formed (c : BitVec 32) : BitVec 32 := low c <<< 20 + low c <<< 8

theorem load_large_constant_run (h : Hart) {d : BitVec 5} (hd : d ≠ 0#5) (fc pi : BitVec 32) :
    ∃ h', run (load_large_constant (d.setWidth 32) fc pi) h = some h' ∧ Sets h d (large_formed fc) h' := by
  have hload (p : BitVec 32) : ∃ h', run [emit_LUI (d.setWidth 32) (IMM_HIGH p),
      emit_ADDI (d.setWidth 32) (d.setWidth 32) (IMM_LOW p),
      emit_SLLI (d.setWidth 32) (d.setWidth 32) ((12#5).setWidth 32),
      emit_ADDI (d.setWidth 32) (d.setWidth 32) (IMM_LOW fc),
      emit_SLLI (d.setWidth 32) (d.setWidth 32) ((12#5).setWidth 32),
      emit_ADDI (d.setWidth 32) (d.setWidth 32) (IMM_LOW fc),
      emit_SLLI (d.setWidth 32) (d.setWidth 32) ((8#5).setWidth 32)] h = some h' ∧
      Sets h d (large_formed fc) h' := by
    have hset (g : Hart) (v : BitVec 32) : Sets g d v (g.set d v).next := Sets.set_next g hd v
    have hget (g : Hart) (v : BitVec 32) : (g.set d v).next.get d = v := (hset g v).value
    have hvalue (x y : BitVec 32) :
        ((((x <<< 12) + y) <<< 12) + y) <<< 8 = y <<< 20 + y <<< 8 := by
      apply BitVec.eq_of_toNat_eq
      simp only [BitVec.toNat_add, BitVec.toNat_shiftLeft, Nat.shiftLeft_eq]
      omega
    simp only [run_cons, run_nil, exec_emit_LUI, exec_emit_ADDI, exec_emit_SLLI, Option.bind_some]
    refine ⟨_, rfl, ?_⟩
    simp only [hget, low_IMM_LOW]
    rw [large_formed, ← hvalue (IMM_HIGH p <<< 12 + low p) (low fc)]
    exact (hset h _).trans ((hset _ _).trans ((hset _ _).trans ((hset _ _).trans
      ((hset _ _).trans ((hset _ _).trans (hset _ _))))))
  unfold load_large_constant
  split
  · exact hload _
  · exact hload _

section

variable {w : Word} (off : BitVec 32)

theorem fields_patchCallHi {opc : BitVec 7} {d : BitVec 5} {imm : BitVec 32}
    (hw : fields .U w = .U opc d imm) : fields .U (patchCallHi w off) = .U opc d (rounded off) := by
  rw [fields, Fields.U.injEq] at hw
  obtain ⟨rfl, rfl, -⟩ := hw
  rw [fields, immU_patchCallHi, Fields.U.injEq]
  refine ⟨?_, ?_, rfl⟩ <;> ext i hi <;> interval_cases i <;>
    simp [patchCallHi, machine.rv64.opcode, machine.rv64.rd]

theorem fields_patchLoI {opc : BitVec 7} {d a : BitVec 5} {f3 : BitVec 3} {imm : BitVec 32}
    (hw : fields .I w = .I opc d f3 a imm) : fields .I (patchLoI w off) = .I opc d f3 a (low off) := by
  rw [fields, Fields.I.injEq] at hw
  obtain ⟨rfl, rfl, rfl, rfl, -⟩ := hw
  rw [fields, immI_patchLoI, Fields.I.injEq]
  refine ⟨?_, ?_, ?_, ?_, rfl⟩ <;> ext i hi <;> interval_cases i <;>
    simp [patchLoI, machine.rv64.opcode, machine.rv64.rd, machine.rv64.funct3, rs1]

theorem fields_patchLoS {opc : BitVec 7} {a b : BitVec 5} {f3 : BitVec 3} {imm : BitVec 32}
    (hw : fields .S w = .S opc f3 a b imm) : fields .S (patchLoS w off) = .S opc f3 a b (low off) := by
  rw [fields, Fields.S.injEq] at hw
  obtain ⟨rfl, rfl, rfl, rfl, -⟩ := hw
  rw [fields, immS_patchLoS, Fields.S.injEq]
  refine ⟨?_, ?_, ?_, ?_, rfl⟩ <;> ext i hi <;> interval_cases i <;>
    simp [patchLoS, machine.rv64.opcode, machine.rv64.funct3, rs1, machine.rv64.rs2]

end

/-- The offset of a linked instruction. -/
def displacement (offset : BitVec 32) (fixup : Fixup) (hi : PcrelHi) : BitVec 32 :=
  match fixup with
  | .R_RISCV_PCREL_LO12_I | .R_RISCV_PCREL_LO12_S => hi.val - hi.addr
  | _ => offset

section

variable {opc : BitVec 7} {f3 : BitVec 3} {a : BitVec 5} {offset : BitVec 32} {fixup : Fixup}

theorem fields_patch_I (hfixup : fixup = .none ∨ fixup = .R_RISCV_PCREL_LO12_I) {d : BitVec 5} (addr : BitVec 32)
    (hi : PcrelHi) :
    fields .I ((Insn.mk (emit_I offset (a.setWidth 32) (f3.setWidth 32) (d.setWidth 32)
      (opc.setWidth 32)) fixup).patch addr hi).1 = .I opc d f3 a (low (displacement offset fixup hi)) := by
  have hw := fields_emit_I opc f3 d a offset
  obtain rfl | rfl := hfixup
  · exact hw
  · exact fields_patchLoI _ hw

theorem fields_patch_S (hfixup : fixup = .none ∨ fixup = .R_RISCV_PCREL_LO12_S) {b : BitVec 5} (addr : BitVec 32)
    (hi : PcrelHi) :
    fields .S ((Insn.mk (emit_S offset (b.setWidth 32) (a.setWidth 32) (f3.setWidth 32)
      (opc.setWidth 32)) fixup).patch addr hi).1 = .S opc f3 a b (low (displacement offset fixup hi)) := by
  have hw := fields_emit_S opc f3 a b offset
  obtain rfl | rfl := hfixup
  · exact hw
  · exact fields_patchLoS _ hw

end

/-- The address that the code of `load_symofs` and an offset form. -/
def symofs_formed (a : Lvalue) (h : Hart) : BitVec 32 :=
  match a with
  | .VT_SYM s => s.addr + s.c.setWidth 32
  | .VT_LOCAL c | .VT_LLOCAL c =>
    let c : BitVec 32 := c.setWidth 32
    if LARGE_IMM c then rounded c + c else h.get 8 + c
  | .VT_CONST _ | .reg _ => 0

/-- The registers that the code of `load_symofs` changes. -/
def symofs_changes (rd : BitVec 5) (a : Lvalue) : List (BitVec 5) :=
  match a with
  | .VT_LOCAL c | .VT_LLOCAL c => if LARGE_IMM (c.setWidth 32) then [8] else []
  | _ => [rd]

/-- What `load_symofs` leaves in the frame pointer, when it overwrites that. -/
def symofs_s0 (a : Lvalue) : Option (BitVec 32) :=
  match a with
  | .VT_LOCAL c | .VT_LLOCAL c =>
    let c : BitVec 32 := c.setWidth 32
    if LARGE_IMM c then some (rounded c + rounded c) else none
  | _ => none

theorem Only.refl (rs : List (BitVec 5)) (h : Hart) : Only rs h h := ⟨fun _ _ => rfl, rfl⟩

/-- The base of a far local variable is twice its high part, in `s0`. -/
theorem run_far_base (c : BitVec 32) (h : Hart) :
    ∃ h', run [emit_LUI 8#32 (IMM_HIGH (c + 0x800#32)), emit_ADD 8#32 8#32 8#32] h = some h' ∧
      Sets h 8 (rounded c + rounded c) h' := by
  have hset (g : Hart) (v : BitVec 32) : Sets g 8 v (g.set 8 v).next := Sets.set_next g (by decide) v
  have hlui : exec (emit_LUI 8#32 (IMM_HIGH (c + 0x800#32))) h = some (h.set 8 (rounded c)).next := by
    rw [rounded, ← IMM_HIGH_shift]
    exact exec_emit_LUI 8 (IMM_HIGH (c + 0x800#32)) h
  have hadd : exec (emit_ADD 8#32 8#32 8#32) (h.set 8 (rounded c)).next =
      some ((h.set 8 (rounded c)).next.set 8 (rounded c + rounded c)).next := by
    have hexec := exec_emit_ADD 8 8 8 (h.set 8 (rounded c)).next
    rwa [(hset h _).value] at hexec
  refine ⟨_, ?_, (hset h (rounded c)).trans (hset _ _)⟩
  rw [run_cons, hlui, Option.bind_some, run_cons, hadd]
  rfl

theorem add_rounded_low (val pc : BitVec 32) : pc + rounded (val - pc) + low (val - pc) = val := by
  rw [BitVec.add_assoc, rounded_add_low, BitVec.add_comm, BitVec.sub_add_cancel]

section

variable {rd : BitVec 5}

theorem exec_high_part (hrd : rd ≠ 0#5) (val : BitVec 32) (h : Hart) (hi : PcrelHi) :
    ∃ h', exec ((Insn.mk (emit_AUIPC (rd.setWidth 32) 0#32) (.R_RISCV_PCREL_HI20 val)).patch h.pc hi).1 h =
      some h' ∧ Sets h rd (h.pc + rounded (val - h.pc)) h' :=
  ⟨_, exec_auipc (fields_patchCallHi _ (fields_emit_U 0x17#7 rd 0#32)) h, Sets.set_next h hrd _⟩

/-- The address of a symbol, from a high part and a low part. -/
theorem run_symbol_address (hrd : rd ≠ 0#5) (val : BitVec 32) (h : Hart) (hi : PcrelHi) :
    ∃ h', run (linked h.pc hi [⟨emit_AUIPC (rd.setWidth 32) 0#32, .R_RISCV_PCREL_HI20 val⟩,
      ⟨emit_ADDI (rd.setWidth 32) (rd.setWidth 32) 0#32, .R_RISCV_PCREL_LO12_I⟩]) h = some h' ∧
      Sets h rd val h' := by
  obtain ⟨h₁, hexec, hsets⟩ := exec_high_part hrd val h hi
  have hfields := fields_patchLoI (val - h.pc) (fields_emit_I 0x13#7 0#3 rd rd 0#32)
  have hadd := exec_fields_addi h₁ hfields
  rw [hsets.value, add_rounded_low] at hadd
  refine ⟨_, ?_, hsets.trans (Sets.set_next h₁ hrd val)⟩
  rw [linked, run_cons, hexec, Option.bind_some, linked, run_cons]
  exact congrArg (·.bind (run [])) hadd

end

theorem symofs_local {c : BitVec 64} {pre : List Insn} {base : BitVec 5} {offset : BitVec 32}
    {fixup : Fixup} {rd : BitVec 5} {forstore : Bool}
    (hsym : load_symofs rd (.VT_LOCAL c) forstore = some (pre, base, offset, fixup)) :
    fixup = .none ∧ ∀ h hi, ∃ h', run (linked h.pc hi pre) h = some h' ∧
      Only (symofs_changes rd (.VT_LOCAL c)) h h' ∧
      h'.get base + low offset = symofs_formed (.VT_LOCAL c) h ∧
      ∀ v, symofs_s0 (.VT_LOCAL c) = some v → h'.get 8 = v := by
  simp only [load_symofs, Option.ite_none_left_eq_some] at hsym
  obtain ⟨-, hsym⟩ := hsym
  simp only [symofs_changes, symofs_formed, symofs_s0]
  split at hsym
  · rename_i hlarge
    cases hsym
    refine ⟨rfl, fun h hi => ?_⟩
    obtain ⟨h', hrun, hsets⟩ := run_far_base (c.setWidth 32) h
    rw [linked_plain, if_pos hlarge, if_pos hlarge, if_pos hlarge]
    refine ⟨h', hrun, Only.of_sets hsets List.mem_cons_self, ?_, fun v hv => ?_⟩
    · rw [hsets.value, low_IMM_LOW, BitVec.add_assoc, rounded_add_low]
    · rw [hsets.value, Option.some.inj hv]
  · rename_i hsmall
    cases hsym
    rw [if_neg hsmall]
    refine ⟨rfl, fun h hi => ⟨h, rfl, Only.refl _ h, ?_, fun v hv => ?_⟩⟩
    · rw [if_neg hsmall, low_of_small (Bool.not_eq_true _ ▸ hsmall)]
    · rw [if_neg hsmall] at hv
      cases hv

/-- What `load_symofs` prepares: a base that together with the linked offset forms the address. -/
theorem load_symofs_spec {rd base : BitVec 5} (hrd : rd ≠ 0#5) {a : Lvalue} {forstore : Bool}
    {pre : List Insn} {offset : BitVec 32} {fixup : Fixup}
    (hsym : load_symofs rd a forstore = some (pre, base, offset, fixup)) :
    (fixup = .none ∨ fixup = if forstore then .R_RISCV_PCREL_LO12_S else .R_RISCV_PCREL_LO12_I) ∧
      ∀ h hi, ∃ h', run (linked h.pc hi pre) h = some h' ∧ Only (symofs_changes rd a) h h' ∧
        h'.get base + low (displacement offset fixup (last_hi h.pc hi pre)) = symofs_formed a h ∧
        ∀ v, symofs_s0 a = some v → h'.get 8 = v := by
  cases a with
  | VT_LOCAL c =>
    obtain ⟨rfl, hrun⟩ := symofs_local hsym
    exact ⟨Or.inl rfl, hrun⟩
  | VT_LLOCAL c =>
    have hsym : load_symofs rd (.VT_LOCAL c) forstore = some (pre, base, offset, fixup) := hsym
    obtain ⟨rfl, hrun⟩ := symofs_local hsym
    exact ⟨Or.inl rfl, hrun⟩
  | VT_CONST c => cases hsym
  | reg v => cases hsym
  | VT_SYM s =>
    simp only [load_symofs, Option.ite_none_left_eq_some] at hsym
    obtain ⟨hsmall, hsym⟩ := hsym
    split at hsym
    · cases hsym
      refine ⟨Or.inr rfl, fun h hi => ?_⟩
      obtain ⟨h', hexec, hsets⟩ := exec_high_part hrd (s.addr + s.c.setWidth 32) h hi
      refine ⟨h', ?_, Only.of_sets hsets List.mem_cons_self, ?_, fun v hv => by cases hv⟩
      · rw [linked, linked, run_cons, hexec]
        rfl
      · have hdisp : displacement 0#32 (if forstore then .R_RISCV_PCREL_LO12_S else .R_RISCV_PCREL_LO12_I)
            ⟨h.pc, s.addr + s.c.setWidth 32⟩ = s.addr + s.c.setWidth 32 - h.pc := by
          cases forstore <;> rfl
        rw [hsets.value]
        exact (congrArg (_ + low ·) hdisp).trans (add_rounded_low _ _)
    · cases hsym
      refine ⟨Or.inl rfl, fun h hi => ?_⟩
      obtain ⟨h', hrun, hsets⟩ := run_symbol_address hrd s.addr h hi
      refine ⟨h', hrun, Only.of_sets hsets List.mem_cons_self, ?_, fun v hv => by cases hv⟩
      rw [hsets.value]
      exact congrArg (s.addr + ·) (low_of_small (Bool.not_eq_true _ ▸ hsmall))

end tcc.riscv32
