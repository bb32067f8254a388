import Tcc.Gen.Riscv32.Formed

open machine.rv64 (Word)
open machine.rv32
open tcc.link.riscv32 (PcrelHi)

/-! The accesses of `load` and `store`, with the addresses that they go to. -/

namespace tcc.riscv32

/-- The base and the offset of an access: the address of a symbol is prepared in `rd`, a
    constant one in `rc`. -/
def address_base (rd rc : BitVec 5) (a : Lvalue) (forstore : Bool) :
    Option (List Insn × BitVec 5 × BitVec 32 × Fixup) :=
  match a with
  | .VT_CONST c =>
    let y : BitVec 32 := c.setWidth 32
    let si := c.sshiftRight 32
    if si ≠ 0#64 then
      some (plain (load_large_constant (rc.setWidth 32) y (si.setWidth 32)), rc, y &&& 0xff#32, .none)
    else some (plain [emit_LUI (rc.setWidth 32) (IMM_HIGH y)], rc, IMM_LOW y, .none)
  | .reg v => some ([], ireg v, 0#32, .none)
  | _ => load_symofs rd a forstore

/-- The address that a constant becomes. -/
def const_formed (c : BitVec 64) : BitVec 32 :=
  let y : BitVec 32 := c.setWidth 32
  if c.sshiftRight 32 ≠ 0#64 then large_formed y + (y &&& 0xff#32)
  else y - if y.getLsbD 11 then 0x1000#32 else 0#32

/-- The address that `load` and `store` access; for a spilled pointer, that of the pointer. -/
def formed (a : Lvalue) (h : Hart) : BitVec 32 :=
  match a with
  | .VT_CONST c => const_formed c
  | .reg v => h.get (ireg v)
  | a => symofs_formed a h

/-- The registers that change before the access. -/
def changes (rd rc : BitVec 5) (a : Lvalue) : List (BitVec 5) :=
  match a with
  | .VT_CONST _ => [rc]
  | .reg _ => []
  | a => symofs_changes rd a

/-- What the frame pointer becomes, when it is overwritten. -/
def overwritten (rc : BitVec 5) (a : Lvalue) : Option (BitVec 32) :=
  match a with
  | .VT_CONST c =>
    let y : BitVec 32 := c.setWidth 32
    if rc = 8 then some (if c.sshiftRight 32 ≠ 0#64 then large_formed y else y &&& ~~~0xfff#32) else none
  | .reg _ => none
  | a => symofs_s0 a

theorem low_byte (y : BitVec 32) : low (y &&& 0xff#32) = y &&& 0xff#32 := by
  rw [low]
  ext i hi
  interval_cases i <;> simp [BitVec.getElem_signExtend, BitVec.msb_eq_getLsbD_last]

/-- The base and the offset of an access form its address. -/
theorem address_base_spec {rd rc base : BitVec 5} (hrd : rd ≠ 0#5) (hrc : rc ≠ 0#5) {a : Lvalue}
    {forstore : Bool} {pre : List Insn} {offset : BitVec 32} {fixup : Fixup}
    (hbase : address_base rd rc a forstore = some (pre, base, offset, fixup)) :
    (fixup = .none ∨ fixup = if forstore then .R_RISCV_PCREL_LO12_S else .R_RISCV_PCREL_LO12_I) ∧
      ∀ h hi, ∃ h', run (linked h.pc hi pre) h = some h' ∧ Only (changes rd rc a) h h' ∧
        h'.get base + low (displacement offset fixup (last_hi h.pc hi pre)) = formed a h ∧
        ∀ v, overwritten rc a = some v → h'.get 8 = v := by
  cases a with
  | VT_LOCAL c =>
    have hsym : load_symofs rd (.VT_LOCAL c) forstore = some (pre, base, offset, fixup) := hbase
    exact load_symofs_spec hrd hsym
  | VT_LLOCAL c =>
    have hsym : load_symofs rd (.VT_LLOCAL c) forstore = some (pre, base, offset, fixup) := hbase
    exact load_symofs_spec hrd hsym
  | VT_SYM s =>
    have hsym : load_symofs rd (.VT_SYM s) forstore = some (pre, base, offset, fixup) := hbase
    exact load_symofs_spec hrd hsym
  | reg v =>
    cases hbase
    refine ⟨Or.inl rfl, fun h hi => ⟨h, rfl, Only.refl _ h, ?_, fun v hv => by cases hv⟩⟩
    exact BitVec.add_zero _
  | VT_CONST c =>
    simp only [address_base] at hbase
    simp only [formed, const_formed, changes, overwritten]
    split at hbase
    · rename_i hsi
      cases hbase
      refine ⟨Or.inl rfl, fun h hi => ?_⟩
      obtain ⟨h', hrun, hsets⟩ := load_large_constant_run h hrc (c.setWidth 32) ((c.sshiftRight 32).setWidth 32)
      refine ⟨h', by rw [linked_plain, hrun], Only.of_sets hsets List.mem_cons_self, ?_, fun v hv => ?_⟩
      · rw [hsets.value, if_pos hsi]
        exact congrArg (_ + ·) (low_byte _)
      · rw [Option.ite_none_right_eq_some, if_pos hsi] at hv
        obtain ⟨rfl, hv⟩ := hv
        rw [hsets.value, Option.some.inj hv]
    · rename_i hsi
      cases hbase
      refine ⟨Or.inl rfl, fun h hi => ?_⟩
      have hsets := Sets.set_next h hrc (IMM_HIGH (c.setWidth 32) <<< 12)
      refine ⟨_, ?_, Only.of_sets hsets List.mem_cons_self, ?_, fun v hv => ?_⟩
      · rw [linked_plain, run_cons, exec_emit_LUI]
        rfl
      · rw [hsets.value, if_neg hsi, ← truncated_add_low, IMM_HIGH_shift]
        exact congrArg (_ + ·) (low_IMM_LOW _)
      · rw [Option.ite_none_right_eq_some, if_neg hsi] at hv
        obtain ⟨rfl, hv⟩ := hv
        rw [hsets.value, IMM_HIGH_shift, Option.some.inj hv]

/-- The types of at most 32 bits that live in an integer register. -/
def in_register (t : Scalar) : Bool :=
  match t.bt with
  | .VT_BYTE | .VT_SHORT | .VT_INT | .VT_PTR => true
  | _ => false

theorem in_register_cases {t : Scalar} (ht : in_register t = true) :
    t.bt = .VT_BYTE ∨ t.bt = .VT_SHORT ∨ t.bt = .VT_INT ∨ t.bt = .VT_PTR := by
  rw [in_register] at ht
  split at ht
  · exact Or.inl ‹_›
  · exact Or.inr (Or.inl ‹_›)
  · exact Or.inr (Or.inr (Or.inl ‹_›))
  · exact Or.inr (Or.inr (Or.inr ‹_›))
  · cases ht

abbrev RegType := { t : Scalar // in_register t = true }

/-- The field `funct3` of the access. -/
def access_f3 (t : RegType) : BitVec 3 :=
  match t.val.bt with
  | .VT_BYTE => 0
  | .VT_SHORT => 1
  | _ => 2

theorem load_insn_eq (t : RegType) (rd rs1 : BitVec 5) (offset : BitVec 32) : load_insn t.val rd rs1 offset =
    some (emit_I offset (rs1.setWidth 32) ((access_f3 t).setWidth 32) (rd.setWidth 32) (BitVec.setWidth 32 0x03#7)) := by
  obtain ⟨⟨bt, u⟩, ht⟩ := t
  cases bt <;> first | rfl | cases ht

theorem store_insn_eq (t : RegType) (loc_reg src_reg : BitVec 5) (offset : BitVec 32) :
    store_insn t.val loc_reg src_reg offset = some (emit_S offset (src_reg.setWidth 32) (loc_reg.setWidth 32)
      ((access_f3 t).setWidth 32) (BitVec.setWidth 32 0x23#7)) := by
  obtain ⟨⟨bt, u⟩, ht⟩ := t
  cases bt <;> first | rfl | cases ht

theorem load_lvalue_eq (r : Treg) (t : RegType) {a : Lvalue} (ha : ∀ c, a ≠ .VT_LLOCAL c) :
    load_lvalue r t.val a = (address_base (ireg r) (ireg r) a false).map fun (pre, rs1, offset, fixup) =>
      pre ++ [⟨emit_I offset (rs1.setWidth 32) ((access_f3 t).setWidth 32) ((ireg r).setWidth 32)
        (BitVec.setWidth 32 0x03#7), fixup⟩] := by
  cases a with
  | VT_LLOCAL c => exact absurd rfl (ha c)
  | VT_LOCAL c =>
    simp only [load_lvalue, address_base, load_insn_eq]
    cases load_symofs (ireg r) (.VT_LOCAL c) false <;> rfl
  | VT_SYM s =>
    simp only [load_lvalue, address_base, load_insn_eq]
    cases load_symofs (ireg r) (.VT_SYM s) false <;> rfl
  | reg v =>
    simp only [load_lvalue, address_base, load_insn_eq]
    rfl
  | VT_CONST c =>
    simp only [load_lvalue, address_base, load_insn_eq]
    split
    · simp [plain]
    · rfl

theorem load_llocal_eq (r : Treg) (t : RegType) (c : BitVec 64) :
    load_lvalue r t.val (.VT_LLOCAL c) = (load_lvalue r ⟨.VT_PTR, false⟩ (.VT_LOCAL c)).map fun code =>
      code ++ [⟨emit_I 0#32 ((ireg r).setWidth 32) ((access_f3 t).setWidth 32) ((ireg r).setWidth 32)
        (BitVec.setWidth 32 0x03#7), .none⟩] := by
  have hsym : load_symofs (ireg r) (.VT_LLOCAL c) false = load_symofs (ireg r) (.VT_LOCAL c) false := rfl
  simp only [load_lvalue, load_insn_eq, hsym]
  cases load_symofs (ireg r) (.VT_LOCAL c) false with
  | none => rfl
  | some p =>
    obtain ⟨pre, rs1, offset, fixup⟩ := p
    simp [load_insn, is_float, type_size, emit_LW]

/-- A shift of the signed and one of the unsigned word are zero together. -/
theorem upper_word (c : BitVec 64) : (c >>> 32 ≠ 0#64 ↔ c.sshiftRight 32 ≠ 0#64) ∧
    (c >>> 32).setWidth 32 = (c.sshiftRight 32).setWidth 32 := by
  have hlogical : c >>> 32 = ((c.sshiftRight 32).setWidth 32).setWidth 64 := by
    ext i hi
    interval_cases i <;> simp [BitVec.getElem_sshiftRight]
  have harith : c.sshiftRight 32 = ((c >>> 32).setWidth 32).signExtend 64 := by
    ext i hi
    interval_cases i <;>
      simp [BitVec.getElem_sshiftRight, BitVec.getElem_signExtend, BitVec.msb_eq_getLsbD_last]
  refine ⟨not_congr ⟨fun hzero => ?_, fun hzero => ?_⟩, ?_⟩
  · rw [harith, hzero]
    rfl
  · rw [hlogical, hzero]
    rfl
  · rw [hlogical, BitVec.setWidth_setWidth_of_le _ (by decide), BitVec.setWidth_eq]

theorem store_eq (r : Treg) (t : RegType) {a : Lvalue} (ha : ∀ c, a ≠ .VT_LLOCAL c) :
    store r t.val a = (address_base 5 8 a true).map fun (pre, loc_reg, offset, fixup) =>
      pre ++ [⟨emit_S offset ((ireg r).setWidth 32) (loc_reg.setWidth 32) ((access_f3 t).setWidth 32)
        (BitVec.setWidth 32 0x23#7), fixup⟩] := by
  have hguard : ¬(is_float t.val.bt ∨ t.val.bt = .VT_STRUCT) := by
    obtain hbt | hbt | hbt | hbt := in_register_cases t.property <;> rw [hbt] <;> decide
  simp only [store, if_neg hguard, address_base, store_insn_eq]
  cases a with
  | VT_LLOCAL c => exact absurd rfl (ha c)
  | VT_LOCAL c => cases load_symofs 5 (.VT_LOCAL c) true <;> rfl
  | VT_SYM s => cases load_symofs 5 (.VT_SYM s) true <;> rfl
  | reg v => rfl
  | VT_CONST c =>
    obtain ⟨hiff, hpi⟩ := upper_word c
    dsimp only
    rw [hpi]
    by_cases hsi : c.sshiftRight 32 ≠ 0#64
    · rw [if_pos (hiff.mpr hsi), if_pos hsi]
      simp [plain]
    · rw [if_neg (mt hiff.mp hsi), if_neg hsi]
      rfl

theorem store_llocal_eq (r : Treg) (t : RegType) (c : BitVec 64) : store r t.val (.VT_LLOCAL c) = none := by
  rw [store]
  split <;> rfl

/-- The address that an lvalue denotes. -/
def denoted (a : Lvalue) (h : Hart) : BitVec 32 :=
  match a with
  | .VT_LOCAL c => h.get 8 + c.setWidth 32
  | .VT_LLOCAL c => loadLE h.mem (h.get 8 + c.setWidth 32) 4
  | .VT_SYM s => s.addr + s.c.setWidth 32
  | .VT_CONST c => c.setWidth 32
  | .reg v => h.get (ireg v)

theorem ireg_ne_zero (r : Treg) : ireg r ≠ 0#5 := by
  cases r with
  | R x => revert x; decide
  | TREG_RA => decide
  | TREG_SP => decide

section

variable {r : Treg} {t : RegType} {a : Lvalue} {code : List Insn}

/-- The code of a load is what forms the address, and the load there. -/
theorem load_lvalue_reaches (ha : ∀ c, a ≠ .VT_LLOCAL c) (hcode : load_lvalue r t.val a = some code)
    (h : Hart) (hi : PcrelHi) :
    ∃ pre w h₁ base imm, linked h.pc hi code = pre ++ [w] ∧ run pre h = some h₁ ∧
      Only (changes (ireg r) (ireg r) a) h h₁ ∧ fields .I w = .I 0x03#7 (ireg r) (access_f3 t) base imm ∧
      h₁.get base + imm = formed a h ∧ ∀ v, overwritten (ireg r) a = some v → h₁.get 8 = v := by
  rw [load_lvalue_eq r t ha, Option.map_eq_some_iff] at hcode
  obtain ⟨⟨pre, base, offset, fixup⟩, hbase, rfl⟩ := hcode
  obtain ⟨hfixup, hrun⟩ := address_base_spec (ireg_ne_zero r) (ireg_ne_zero r) hbase
  obtain ⟨h₁, hpre, honly, hsum⟩ := hrun h hi
  exact ⟨_, _, h₁, base, _, linked_append _ _ _ _, hpre, honly, fields_patch_I hfixup _ _, hsum⟩

theorem store_reaches (ha : ∀ c, a ≠ .VT_LLOCAL c) (hcode : store r t.val a = some code)
    (h : Hart) (hi : PcrelHi) :
    ∃ pre w h₁ base imm, linked h.pc hi code = pre ++ [w] ∧ run pre h = some h₁ ∧
      Only (changes 5 8 a) h h₁ ∧ fields .S w = .S 0x23#7 (access_f3 t) base (ireg r) imm ∧
      h₁.get base + imm = formed a h ∧ ∀ v, overwritten 8 a = some v → h₁.get 8 = v := by
  rw [store_eq r t ha, Option.map_eq_some_iff] at hcode
  obtain ⟨⟨pre, base, offset, fixup⟩, hbase, rfl⟩ := hcode
  obtain ⟨hfixup, hrun⟩ := address_base_spec (by decide) (by decide) hbase
  obtain ⟨h₁, hpre, honly, hsum⟩ := hrun h hi
  exact ⟨_, _, h₁, base, _, linked_append _ _ _ _, hpre, honly, fields_patch_S hfixup _ _, hsum⟩

end

end tcc.riscv32
