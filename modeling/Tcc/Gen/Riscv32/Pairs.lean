import Tcc.Gen.Riscv32.AddressBase

open machine machine.rv32
open machine.rv64 (Word)
open tcc.link.riscv32 (PcrelHi patchCallHi patchLoI)

/-! The pairs of instructions that form an address or a constant of 32 bits. -/

namespace tcc.riscv32

def emit_LI (rd imm : BitVec 32) : List Word :=
  [emit_LUI rd (IMM_HIGH (imm + 0x800#32)), emit_ADDI rd rd (IMM_LOW imm)]

/-- `emit_LA` is the same. -/
def emit_LLA (rd imm : BitVec 32) : List Word :=
  [emit_AUIPC rd (IMM_HIGH imm), emit_ADDI rd rd (IMM_LOW imm)]

def emit_CALL (offset : BitVec 32) : List Word :=
  [emit_AUIPC 6#32 (IMM_HIGH offset), emit_JALR 1#32 6#32 (IMM_LOW offset)]

def emit_TAIL (offset : BitVec 32) : List Word :=
  [emit_AUIPC 6#32 (IMM_HIGH offset), emit_JALR 0#32 6#32 (IMM_LOW offset)]

/-- The jumps that `gjmp_addr` emits as a pair. -/
def is_far (rel_jmp : BitVec 32) : Bool :=
  (rel_jmp + 0x200000#32) &&& ~~~(0x400000#32 - 2#32) != 0#32

def gjmp_addr (a ind : BitVec 32) : List Word :=
  let rel_jmp := a - ind
  if is_far rel_jmp then
    [emit_LUI 5#32 (IMM_HIGH (rel_jmp + 0x800#32)), emit_JALR 0#32 5#32 ((IMM_LOW rel_jmp <<< 20) >>> 20)]
  else [emit_JAL 0#32 rel_jmp]

/-- The words of a call once its relocation is applied at `addr`. -/
def relocate_call (addr val : BitVec 32) (ws : List Word) : List Word :=
  match ws with
  | [w, w'] => [patchCallHi w (val - addr), patchLoI w' (val - addr)]
  | ws => ws

/-- An address that takes more than one instruction. -/
inductive Place where
  | local_offset (c : BitVec 32)
  | symbol (isStatic : Bool) (addr c : BitVec 32)
  | constant (c : BitVec 32)
  deriving DecidableEq, Repr

def Place.lvalue (p : Place) : Lvalue :=
  match p with
  | .local_offset c => .VT_LOCAL (c.signExtend 64)
  | .symbol isStatic addr c => .VT_SYM ⟨isStatic, addr, c.signExtend 64⟩
  | .constant c => .VT_CONST (c.setWidth 64)

/-- The places of the backend and the assembler that emit a pair, each with what it gets.
    A destination register is not `x0`. -/
inductive Site where
  | emit_LI (rd : { d : BitVec 5 // d ≠ 0#5 }) (imm : BitVec 32)
  | emit_LLA (rd : { d : BitVec 5 // d ≠ 0#5 }) (imm : BitVec 32)
  | emit_CALL (offset : BitVec 32)
  | emit_TAIL (offset : BitVec 32)
  | relocated_call (tail : Bool) (offset val : BitVec 32)
  | gjmp_addr (a ind : BitVec 32)
  | constant (r : Treg) (t : RegType) (y : BitVec 32) (unsigned : Bool)
  | local_address (r : Treg) (t : RegType) (c : BitVec 32)
  | symbol_address (r : Treg) (t : RegType) (isStatic : Bool) (addr c : BitVec 32)
  | load (r : Treg) (t : RegType) (p : Place)
  | load_pointer (r : Treg) (t : RegType) (c : BitVec 32)
  | store (r : Treg) (t : RegType) (p : Place)

/-- The linked words of the pair, in code that is at `h.pc`. A spilled pointer is loaded by
    the pair and the instruction before the last one. -/
def Site.words (s : Site) (h : Hart) (hi : PcrelHi) : Option (List Word) :=
  match s with
  | .emit_LI rd imm => some (riscv32.emit_LI (rd.val.setWidth 32) imm)
  | .emit_LLA rd imm => some (riscv32.emit_LLA (rd.val.setWidth 32) imm)
  | .emit_CALL offset => some (riscv32.emit_CALL offset)
  | .emit_TAIL offset => some (riscv32.emit_TAIL offset)
  | .relocated_call tail offset val => some (relocate_call h.pc val
      (if tail then riscv32.emit_TAIL offset else riscv32.emit_CALL offset))
  | .gjmp_addr a ind => if is_far (a - ind) then some (riscv32.gjmp_addr a ind) else none
  | .constant r t y unsigned =>
    (riscv32.load r t.val (.VT_CONST (if unsigned then y.setWidth 64 else y.signExtend 64))).map
      (linked h.pc hi)
  | .local_address r t c => (riscv32.load r t.val (.VT_LOCAL (c.signExtend 64))).map (linked h.pc hi)
  | .symbol_address r t isStatic addr c =>
    (riscv32.load r t.val (.VT_SYM ⟨isStatic, addr, c.signExtend 64⟩)).map (linked h.pc hi)
  | .load r t p => (riscv32.load r t.val (.lval p.lvalue)).map (linked h.pc hi)
  | .load_pointer r t c => (riscv32.load r t.val (.lval (.VT_LLOCAL (c.signExtend 64)))).map fun code =>
      linked h.pc hi code.dropLast
  | .store r t p => (riscv32.store r t.val p.lvalue).map (linked h.pc hi)

/-- What a pair is for: a value in a register, a jump, or an access of memory by its last
    instruction. -/
inductive Purpose where
  | value (rd : BitVec 5) (v : BitVec 32)
  | jump (target : BitVec 32)
  | access (f : Format) (addr : BitVec 32)

def Site.purpose (s : Site) (h : Hart) : Purpose :=
  match s with
  | .emit_LI rd imm => .value rd imm
  | .emit_LLA rd imm => .value rd (h.pc + imm)
  | .emit_CALL offset | .emit_TAIL offset => .jump (h.pc + offset)
  | .relocated_call _ _ val => .jump val
  | .gjmp_addr a ind => .jump (h.pc + (a - ind))
  | .constant r _ y _ => .value (ireg r) y
  | .local_address r _ c => .value (ireg r) (h.get 8 + c)
  | .symbol_address r _ _ addr c => .value (ireg r) (addr + c)
  | .load _ _ p => .access .I (denoted p.lvalue h)
  | .load_pointer _ _ c => .access .I (h.get 8 + c)
  | .store _ _ p => .access .S (denoted p.lvalue h)

def Purpose.Met (p : Purpose) (ws : List Word) (h : Hart) : Prop :=
  match p with
  | .value rd v => ∃ h', run ws h = some h' ∧ h'.get rd = v
  | .jump target => ∃ h', run ws h = some h' ∧ h'.pc = target
  | .access f addr => ∃ pre w h', ws = pre ++ [w] ∧ run pre h = some h' ∧ effective f w h' = addr

/-- The pair of the site, if one is emitted, does what it is for. -/
def Site.Exact (s : Site) (h : Hart) : Prop :=
  ∀ ws hi, s.words h hi = some ws → (s.purpose h).Met ws h

/-- A local variable is near the frame pointer, or the frame pointer happens to be the high
    part of the offset. -/
def local_fits (c : BitVec 32) (h : Hart) : Prop := LARGE_IMM c → h.get 8 = rounded c

def Place.fits (p : Place) (h : Hart) : Prop :=
  match p with
  | .local_offset c => local_fits c h
  | .symbol _ _ _ => True
  | .constant c => c.getLsbD 11 = false

/-- When a pair is exact: where the high part is not rounded, bit 11 has to be clear. The
    target of a jump has to be even. -/
def Site.fits (s : Site) (h : Hart) : Prop :=
  match s with
  | .emit_LI _ _ | .constant _ _ _ _ | .symbol_address _ _ _ _ _ => True
  | .emit_LLA _ imm => imm.getLsbD 11 = false
  | .emit_CALL offset | .emit_TAIL offset => offset.getLsbD 11 = false ∧ (h.pc + offset).getLsbD 0 = false
  | .relocated_call _ _ val => val.getLsbD 0 = false
  | .gjmp_addr a ind => is_far (a - ind) → h.pc + ((a - ind) &&& 1#32) = 0#32
  | .local_address _ _ c | .load_pointer _ _ c => local_fits c h
  | .load _ _ p | .store _ _ p => p.fits h

theorem page_eq_zero_iff (c : BitVec 32) :
    (if c.getLsbD 11 then 0x1000#32 else 0#32) = 0#32 ↔ c.getLsbD 11 = false := by
  cases c.getLsbD 11 <;> simp

theorem sub_page_eq_iff (x c : BitVec 32) :
    (x - if c.getLsbD 11 then 0x1000#32 else 0#32) = x ↔ c.getLsbD 11 = false := by
  rw [← page_eq_zero_iff, BitVec.sub_eq_iff_eq_add]
  exact BitVec.self_eq_add_right

theorem getLsbD_zero_eq (x : BitVec 32) : x.getLsbD 0 = decide (x.toNat % 2 = 1) := by
  rw [BitVec.getLsbD, Nat.testBit_zero]

theorem and_not_one_eq_iff (x : BitVec 32) : x &&& ~~~1#32 = x ↔ x.getLsbD 0 = false := by
  constructor
  · intro heq
    rw [← heq, BitVec.getLsbD_and]
    simp
  · exact and_not_one_of_even

/-- A jump that may miss its target by a page goes there only if it does not, and if the
    target is even. -/
theorem jump_page_iff (x c : BitVec 32) :
    (x - if c.getLsbD 11 then 0x1000#32 else 0#32) &&& ~~~1#32 = x ↔
      c.getLsbD 11 = false ∧ x.getLsbD 0 = false := by
  cases hbit : c.getLsbD 11 with
  | false =>
    rw [if_neg (by decide), BitVec.sub_zero, and_not_one_eq_iff]
    simp
  | true =>
    rw [if_pos rfl]
    refine iff_of_false (fun heq => ?_) (fun h => by cases h.1)
    have heven : (x - 0x1000#32).getLsbD 0 = x.getLsbD 0 := by
      rw [getLsbD_zero_eq, getLsbD_zero_eq, BitVec.toNat_sub]
      have := x.isLt
      exact decide_eq_decide.mpr (by simp only [BitVec.toNat_ofNat]; omega)
    have hzero : x.getLsbD 0 = false := by
      rw [← heq, BitVec.getLsbD_and]
      simp
    rw [and_not_one_of_even (heven.trans hzero), BitVec.sub_eq_iff_eq_add] at heq
    exact absurd (BitVec.self_eq_add_right.mp heq) (by decide)

/-- An absolute jump is a relative one only from address 0. -/
theorem absolute_eq_relative_iff (rel pc : BitVec 32) :
    rel &&& ~~~1#32 = pc + rel ↔ pc + (rel &&& 1#32) = 0#32 := by
  have hsplit : rel = (rel &&& ~~~1#32) + (rel &&& 1#32) := by
    rw [BitVec.add_eq_or_of_and_eq_zero]
    · ext i hi
      interval_cases i <;> simp
    · ext i hi
      interval_cases i <;> simp
  have hsum : pc + rel = (rel &&& ~~~1#32) + (pc + (rel &&& 1#32)) := by
    conv_lhs => rw [hsplit]
    rw [← BitVec.add_assoc, ← BitVec.add_assoc, BitVec.add_comm pc]
  rw [hsum]
  exact BitVec.self_eq_add_right

section

variable (h : Hart)

theorem run_emit_LI {d : BitVec 5} (hd : d ≠ 0#5) (imm : BitVec 32) :
    ∃ h', run (emit_LI (d.setWidth 32) imm) h = some h' ∧ h'.get d = imm := by
  have hlui := exec_emit_LUI d (IMM_HIGH (imm + 0x800#32)) h
  rw [IMM_HIGH_shift] at hlui
  have hadd := exec_emit_ADDI d d (IMM_LOW imm) (h.set d (rounded imm)).next
  rw [(Sets.set_next h hd _).value, low_IMM_LOW, rounded_add_low] at hadd
  exact ⟨_, run_pair hlui hadd, (Sets.set_next _ hd _).value⟩

theorem run_emit_LLA {d : BitVec 5} (hd : d ≠ 0#5) (imm : BitVec 32) :
    ∃ h', run (emit_LLA (d.setWidth 32) imm) h = some h' ∧
      h'.get d = h.pc + imm - if imm.getLsbD 11 then 0x1000#32 else 0#32 := by
  have hauipc := exec_emit_AUIPC d (IMM_HIGH imm) h
  rw [IMM_HIGH_shift] at hauipc
  have hadd := exec_emit_ADDI d d (IMM_LOW imm) (h.set d (h.pc + (imm &&& ~~~0xfff#32))).next
  rw [(Sets.set_next h hd _).value, low_IMM_LOW, BitVec.add_assoc, truncated_add_low, ← add_sub_assoc] at hadd
  exact ⟨_, run_pair hauipc hadd, (Sets.set_next _ hd _).value⟩

/-- An `auipc` and the `jalr` behind it, with whatever immediates they have. -/
theorem run_auipc_jalr {w w' : Word} {d d' : BitVec 5} {f3 : BitVec 3} {hi lo : BitVec 32} (hd : d ≠ 0#5)
    (hw : fields .U w = .U 0x17#7 d hi) (hw' : fields .I w' = .I 0x67#7 d' f3 d lo) :
    ∃ h', run [w, w'] h = some h' ∧ h'.pc = (h.pc + hi + lo) &&& ~~~1#32 := by
  refine ⟨_, run_pair (exec_auipc hw h) (exec_jalr hw' _), ?_⟩
  rw [(Sets.set_next h hd _).value]

theorem run_call (link offset : BitVec 32) {d : BitVec 5} (hlink : link = d.setWidth 32) :
    ∃ h', run [emit_AUIPC 6#32 (IMM_HIGH offset), emit_JALR link 6#32 (IMM_LOW offset)] h = some h' ∧
      h'.pc = (h.pc + offset - if offset.getLsbD 11 then 0x1000#32 else 0#32) &&& ~~~1#32 := by
  subst hlink
  have hhi := fields_emit_U 0x17#7 6 (IMM_HIGH offset)
  have hlo := fields_emit_I 0x67#7 0#3 d 6 (IMM_LOW offset)
  obtain ⟨h', hrun, hpc⟩ := run_auipc_jalr h (by decide) hhi hlo
  refine ⟨h', hrun, ?_⟩
  rw [hpc, IMM_HIGH_shift, BitVec.add_assoc]
  change (h.pc + ((offset &&& ~~~0xfff#32) + low (IMM_LOW offset))) &&& ~~~1#32 = _
  rw [low_IMM_LOW, truncated_add_low, ← add_sub_assoc]

theorem run_relocated_call (link offset val : BitVec 32) {d : BitVec 5} (hlink : link = d.setWidth 32) :
    ∃ h', run (relocate_call h.pc val [emit_AUIPC 6#32 (IMM_HIGH offset),
      emit_JALR link 6#32 (IMM_LOW offset)]) h = some h' ∧ h'.pc = val &&& ~~~1#32 := by
  subst hlink
  have hhi := fields_patchCallHi (val - h.pc) (fields_emit_U 0x17#7 6 (IMM_HIGH offset))
  have hlo := fields_patchLoI (val - h.pc) (fields_emit_I 0x67#7 0#3 d 6 (IMM_LOW offset))
  obtain ⟨h', hrun, hpc⟩ := run_auipc_jalr h (by decide) hhi hlo
  exact ⟨h', hrun, by rw [hpc, add_rounded_low]⟩

/-- The far jump goes to the displacement itself. -/
theorem run_gjmp_addr {a ind : BitVec 32} (hfar : is_far (a - ind) = true) :
    ∃ h', run (gjmp_addr a ind) h = some h' ∧ h'.pc = (a - ind) &&& ~~~1#32 := by
  simp only [gjmp_addr, if_pos hfar]
  generalize a - ind = rel
  have hlui := exec_emit_LUI 5#5 (IMM_HIGH (rel + 0x800#32)) h
  have hset := Sets.set_next h (show (5#5 : BitVec 5) ≠ 0#5 by decide) (rounded rel)
  have hjalr := exec_emit_JALR 0#5 5#5 ((IMM_LOW rel <<< 20) >>> 20) (h.set 5#5 (rounded rel)).next
  have hlow : low ((IMM_LOW rel <<< 20) >>> 20) = low rel := by
    rw [low, low]
    congr 1
    ext i hi
    interval_cases i <;> simp [IMM_LOW]
  rw [IMM_HIGH_shift] at hlui
  rw [hlow, hset.value, rounded_add_low] at hjalr
  exact ⟨_, run_pair hlui hjalr, rfl⟩

end

section

variable (r : Treg) (t : RegType) (h : Hart)

theorem setWidth_signExtend_64 (c : BitVec 32) : (c.signExtend 64).setWidth 32 = c := setWidth_signExtend c

/-- Without `VT_LVAL`, `load` leaves the address of a local variable. -/
theorem run_local_address (c : BitVec 32) (hi : PcrelHi) : ∃ code,
    load r t.val (.VT_LOCAL (c.signExtend 64)) = some code ∧
      ∃ h', run (linked h.pc hi code) h = some h' ∧
        h'.get (ireg r) = symofs_formed (.VT_LOCAL (c.signExtend 64)) h := by
  obtain ⟨pre, base, offset, fixup, hsym⟩ : ∃ pre base offset fixup,
      load_symofs (ireg r) (.VT_LOCAL (c.signExtend 64)) false = some (pre, base, offset, fixup) := by
    simp only [load_symofs, setWidth_signExtend_64, ne_eq, not_true_eq_false, if_false]
    split <;> exact ⟨_, _, _, _, rfl⟩
  obtain ⟨rfl, hrun⟩ := symofs_local hsym
  obtain ⟨h₁, hpre, -, hsum, -⟩ := hrun h hi
  refine ⟨pre ++ [⟨emit_ADDI ((ireg r).setWidth 32) (base.setWidth 32) offset, .none⟩], ?_, ?_⟩
  · simp only [load, hsym]
    rfl
  · refine ⟨_, ?_, (Sets.set_next h₁ (ireg_ne_zero r) _).value⟩
    rw [linked_append, run_append, hpre, Option.bind_some]
    change (exec (emit_ADDI _ _ _) h₁).bind _ = _
    rw [exec_emit_ADDI, hsum]
    rfl

theorem run_symbol_value {isStatic : Bool} {addr c : BitVec 32} {code : List Insn} (hi : PcrelHi)
    (hcode : load r t.val (.VT_SYM ⟨isStatic, addr, c.signExtend 64⟩) = some code) :
    ∃ h', run (linked h.pc hi code) h = some h' ∧ h'.get (ireg r) = addr + c := by
  simp only [load, setWidth_signExtend_64, ne_eq, not_true_eq_false, false_and, and_false, if_false] at hcode
  rw [Option.ite_none_left_eq_some] at hcode
  obtain ⟨-, hcode⟩ := hcode
  obtain ⟨⟨pre, base, offset, fixup⟩, hsym, hcode⟩ := Option.bind_eq_some_iff.mp hcode
  cases hcode
  obtain ⟨hfixup, hrun⟩ := load_symofs_spec (ireg_ne_zero r) hsym
  obtain ⟨h₁, hpre, -, hsum, -⟩ := hrun h hi
  rw [symofs_formed, setWidth_signExtend_64] at hsum
  have hlow : low (displacement (IMM_LOW offset) fixup (last_hi h.pc hi pre)) =
      low (displacement offset fixup (last_hi h.pc hi pre)) := by
    obtain rfl | rfl := hfixup
    · exact low_IMM_LOW offset
    · rfl
  have hfields (addr : BitVec 32) : fields .I ((Insn.mk (emit_ADDI ((ireg r).setWidth 32) (base.setWidth 32)
      (IMM_LOW offset)) fixup).patch addr (last_hi h.pc hi pre)).1 = .I 0x13#7 (ireg r) 0#3 base
        (low (displacement offset fixup (last_hi h.pc hi pre))) := by
    rw [← hlow]
    exact @fields_patch_I 0x13#7 0#3 base (IMM_LOW offset) fixup hfixup (ireg r) addr (last_hi h.pc hi pre)
  refine ⟨_, ?_, (Sets.set_next h₁ (ireg_ne_zero r) _).value⟩
  rw [linked_append, run_append, hpre, Option.bind_some, linked, run_cons,
    exec_fields_addi h₁ (hfields _), hsum]
  rfl

theorem run_constant (y : BitVec 32) (unsigned : Bool) (hi : PcrelHi) : ∃ code,
    load r t.val (.VT_CONST (if unsigned then y.setWidth 64 else y.signExtend 64)) = some code ∧
      ∃ h', run (linked h.pc hi code) h = some h' ∧ h'.get (ireg r) = y := by
  have hc : (if unsigned then y.setWidth 64 else y.signExtend 64) = y.signExtend 64 ∨
      (if unsigned then y.setWidth 64 else y.signExtend 64) = y.setWidth 64 := by
    cases unsigned
    · exact Or.inl rfl
    · exact Or.inr rfl
  have hfloat : ¬is_float t.val.bt = true := by
    obtain hbt | hbt | hbt | hbt := in_register_cases t.property <;> rw [hbt] <;> decide
  obtain ⟨h', hrun, hsets⟩ := load_const_run h (ireg_ne_zero r) hc
  refine ⟨_, if_neg hfloat, h', ?_, hsets.value⟩
  rw [linked_plain, hrun]

end

/-- The address that is formed is the one denoted. -/
theorem formed_eq_denoted_iff (p : Place) (h : Hart) :
    formed p.lvalue h = denoted p.lvalue h ↔ p.fits h := by
  cases p with
  | local_offset c =>
    simp only [formed, symofs_formed, Place.lvalue, denoted, setWidth_signExtend_64, Place.fits, local_fits]
    cases LARGE_IMM c with
    | true => simp [eq_comm]
    | false => simp
  | symbol isStatic addr c => exact iff_of_true rfl trivial
  | constant c =>
    have hupper : (c.setWidth 64).sshiftRight 32 = 0#64 := by
      ext i hi
      interval_cases i <;> simp [BitVec.getElem_sshiftRight, BitVec.msb_eq_getLsbD_last]
    have hlower : (c.setWidth 64).setWidth 32 = c := by
      rw [BitVec.setWidth_setWidth_of_le _ (by decide), BitVec.setWidth_eq]
    simp only [formed, const_formed, Place.lvalue, denoted, hupper, hlower, ne_eq, not_true_eq_false, if_false]
    exact sub_page_eq_iff c c

/-- A pair that is emitted, with a result that can be told. -/
theorem exact_iff_of_met {s : Site} {h : Hart} {p : Prop} (hemitted : (∃ ws hi, s.words h hi = some ws) ∨ p)
    (hmet : ∀ ws hi, s.words h hi = some ws → ((s.purpose h).Met ws h ↔ p)) : s.Exact h ↔ p := by
  constructor
  · intro hexact
    obtain ⟨ws, hi, hws⟩ | hp := hemitted
    · exact (hmet ws hi hws).mp (hexact ws hi hws)
    · exact hp
  · exact fun hp ws hi hws => (hmet ws hi hws).mpr hp

theorem met_value_iff {ws : List Word} {h : Hart} {rd : BitVec 5} {v v' : BitVec 32}
    (hrun : ∃ h', run ws h = some h' ∧ h'.get rd = v') : (Purpose.value rd v).Met ws h ↔ v' = v := by
  obtain ⟨h', hrun, hval⟩ := hrun
  constructor
  · rintro ⟨h'', hrun', hval'⟩
    obtain rfl := Option.some.inj (hrun.symm.trans hrun')
    exact hval.symm.trans hval'
  · rintro rfl
    exact ⟨h', hrun, hval⟩

theorem met_jump_iff {ws : List Word} {h : Hart} {v v' : BitVec 32}
    (hrun : ∃ h', run ws h = some h' ∧ h'.pc = v') : (Purpose.jump v).Met ws h ↔ v' = v := by
  obtain ⟨h', hrun, hval⟩ := hrun
  constructor
  · rintro ⟨h'', hrun', hval'⟩
    obtain rfl := Option.some.inj (hrun.symm.trans hrun')
    exact hval.symm.trans hval'
  · rintro rfl
    exact ⟨h', hrun, hval⟩

theorem met_access_iff {f : Format} {ws pre : List Word} {w : Word} {h h' : Hart} {v : BitVec 32}
    (hws : ws = pre ++ [w]) (hrun : run pre h = some h') :
    (Purpose.access f v).Met ws h ↔ effective f w h' = v := by
  subst hws
  constructor
  · rintro ⟨pre', w', h'', heq, hrun', haddr⟩
    obtain ⟨rfl, hw⟩ := List.append_inj' heq rfl
    obtain rfl := List.singleton_inj.mp hw
    obtain rfl := Option.some.inj (hrun.symm.trans hrun')
    exact haddr
  · exact fun haddr => ⟨pre, w, h', rfl, hrun, haddr⟩

theorem lvalue_ne_llocal (p : Place) (c : BitVec 64) : p.lvalue ≠ .VT_LLOCAL c := by
  cases p <;> exact Lvalue.noConfusion

theorem load_met_iff {r : Treg} {t : RegType} {a : Lvalue} (ha : ∀ c, a ≠ .VT_LLOCAL c) {code : List Insn}
    (hcode : load_lvalue r t.val a = some code) (h : Hart) (hi : PcrelHi) (v : BitVec 32) :
    (Purpose.access .I v).Met (linked h.pc hi code) h ↔ formed a h = v := by
  obtain ⟨pre, w, h₁, base, imm, hws, hrun, -, hfields, hsum, -⟩ := load_lvalue_reaches ha hcode h hi
  rw [met_access_iff hws hrun, effective_I hfields, hsum]

theorem store_met_iff {r : Treg} {t : RegType} {a : Lvalue} (ha : ∀ c, a ≠ .VT_LLOCAL c) {code : List Insn}
    (hcode : store r t.val a = some code) (h : Hart) (hi : PcrelHi) (v : BitVec 32) :
    (Purpose.access .S v).Met (linked h.pc hi code) h ↔ formed a h = v := by
  obtain ⟨pre, w, h₁, base, imm, hws, hrun, -, hfields, hsum, -⟩ := store_reaches ha hcode h hi
  rw [met_access_iff hws hrun, effective_S hfields, hsum]

/-- The address of a local variable and a constant one are always formed somehow. -/
theorem address_base_emitted (rd rc : BitVec 5) (p : Place) (forstore : Bool) (h : Hart) :
    (∃ x, address_base rd rc p.lvalue forstore = some x) ∨ p.fits h := by
  cases p with
  | local_offset c =>
    refine Or.inl ?_
    simp only [address_base, Place.lvalue, load_symofs, setWidth_signExtend_64, ne_eq, not_true_eq_false, if_false]
    split <;> exact ⟨_, rfl⟩
  | symbol isStatic addr c => exact Or.inr trivial
  | constant c =>
    refine Or.inl ?_
    simp only [address_base, Place.lvalue]
    split <;> exact ⟨_, rfl⟩

theorem load_exact_iff (r : Treg) (t : RegType) (p : Place) (h : Hart) :
    (Site.load r t p).Exact h ↔ p.fits h := by
  refine exact_iff_of_met ?_ fun ws hi hws => ?_
  · obtain ⟨x, hx⟩ | hfits := address_base_emitted (ireg r) (ireg r) p false h
    · obtain ⟨code, hcode⟩ : ∃ code, load_lvalue r t.val p.lvalue = some code :=
        ⟨_, by rw [load_lvalue_eq r t (lvalue_ne_llocal p), hx, Option.map_some]⟩
      exact Or.inl ⟨_, ⟨0, 0⟩, congrArg (Option.map _) hcode⟩
    · exact Or.inr hfits
  · obtain ⟨code, hcode, rfl⟩ := Option.map_eq_some_iff.mp hws
    exact (load_met_iff (lvalue_ne_llocal p) hcode h hi _).trans (formed_eq_denoted_iff p h)

theorem store_exact_iff (r : Treg) (t : RegType) (p : Place) (h : Hart) :
    (Site.store r t p).Exact h ↔ p.fits h := by
  refine exact_iff_of_met ?_ fun ws hi hws => ?_
  · obtain ⟨x, hx⟩ | hfits := address_base_emitted 5 8 p true h
    · obtain ⟨code, hcode⟩ : ∃ code, store r t.val p.lvalue = some code :=
        ⟨_, by rw [store_eq r t (lvalue_ne_llocal p), hx, Option.map_some]⟩
      exact Or.inl ⟨_, ⟨0, 0⟩, congrArg (Option.map _) hcode⟩
    · exact Or.inr hfits
  · obtain ⟨code, hcode, rfl⟩ := Option.map_eq_some_iff.mp hws
    exact (store_met_iff (lvalue_ne_llocal p) hcode h hi _).trans (formed_eq_denoted_iff p h)

/-- The pointer of a spilled one is loaded like a local variable. -/
theorem load_pointer_exact_iff (r : Treg) (t : RegType) (c : BitVec 32) (h : Hart) :
    (Site.load_pointer r t c).Exact h ↔ local_fits c h := by
  have hwords (hi : PcrelHi) : (Site.load_pointer r t c).words h hi =
      (Site.load r ⟨⟨.VT_PTR, false⟩, rfl⟩ (.local_offset c)).words h hi := by
    change (load_lvalue r t.val (.VT_LLOCAL _)).map _ = (load_lvalue r ⟨.VT_PTR, false⟩ (.VT_LOCAL _)).map _
    rw [load_llocal_eq, Option.map_map]
    congr 1
    funext code
    exact congrArg (linked h.pc hi) List.dropLast_concat
  have hpurpose : (Site.load_pointer r t c).purpose h =
      (Site.load r ⟨⟨.VT_PTR, false⟩, rfl⟩ (.local_offset c)).purpose h := by
    simp only [Site.purpose, denoted, Place.lvalue, setWidth_signExtend_64]
  refine Iff.trans ?_ (load_exact_iff r ⟨⟨.VT_PTR, false⟩, rfl⟩ (.local_offset c) h)
  simp only [Site.Exact, hwords, hpurpose]

theorem local_address_exact_iff (r : Treg) (t : RegType) (c : BitVec 32) (h : Hart) :
    (Site.local_address r t c).Exact h ↔ local_fits c h := by
  have hwords (hi : PcrelHi) := run_local_address r t h c hi
  refine exact_iff_of_met ?_ fun ws hi hws => ?_
  · obtain ⟨code, hcode, -⟩ := hwords ⟨0, 0⟩
    exact Or.inl ⟨_, ⟨0, 0⟩, congrArg (Option.map _) hcode⟩
  · obtain ⟨code, hcode, hrun⟩ := hwords hi
    obtain ⟨code', hcode', rfl⟩ := Option.map_eq_some_iff.mp hws
    obtain rfl := Option.some.inj (hcode.symm.trans hcode')
    refine (met_value_iff hrun).trans ?_
    have hformed := formed_eq_denoted_iff (.local_offset c) h
    simp only [denoted, Place.lvalue, setWidth_signExtend_64] at hformed
    exact hformed

/-- The pairs that round their high part form every address and constant, the others those
    with bit 11 clear; a far local variable has the frame pointer replaced by the high part
    of its offset, and a far jump is taken as absolute. -/
theorem pair_exact_iff (s : Site) (h : Hart) : s.Exact h ↔ s.fits h := by
  cases s with
  | emit_LI rd imm =>
    refine exact_iff_of_met (Or.inr trivial) fun ws hi hws => ?_
    cases hws
    exact iff_of_true (run_emit_LI h rd.property imm) trivial
  | emit_LLA rd imm =>
    refine exact_iff_of_met (Or.inl ⟨_, ⟨0, 0⟩, rfl⟩) fun ws hi hws => ?_
    cases hws
    exact (met_value_iff (run_emit_LLA h rd.property imm)).trans (sub_page_eq_iff _ imm)
  | emit_CALL offset =>
    refine exact_iff_of_met (Or.inl ⟨_, ⟨0, 0⟩, rfl⟩) fun ws hi hws => ?_
    cases hws
    exact (met_jump_iff (run_call h 1#32 offset (d := 1#5) rfl)).trans (jump_page_iff _ offset)
  | emit_TAIL offset =>
    refine exact_iff_of_met (Or.inl ⟨_, ⟨0, 0⟩, rfl⟩) fun ws hi hws => ?_
    cases hws
    exact (met_jump_iff (run_call h 0#32 offset (d := 0#5) rfl)).trans (jump_page_iff _ offset)
  | relocated_call tail offset val =>
    refine exact_iff_of_met (Or.inl ⟨_, ⟨0, 0⟩, rfl⟩) fun ws hi hws => ?_
    cases hws
    refine (met_jump_iff ?_).trans (and_not_one_eq_iff val)
    cases tail with
    | true => exact run_relocated_call h 0#32 offset val (d := 0#5) rfl
    | false => exact run_relocated_call h 1#32 offset val (d := 1#5) rfl
  | gjmp_addr a ind =>
    cases hfar : is_far (a - ind) with
    | false =>
      refine iff_of_true (fun ws hi hws => ?_) (fun hfar' => absurd (hfar.symm.trans hfar') (by decide))
      rw [Site.words, hfar] at hws
      cases hws
    | true =>
      refine exact_iff_of_met (Or.inl ⟨_, ⟨0, 0⟩, if_pos hfar⟩) fun ws hi hws => ?_
      rw [Site.words, if_pos hfar] at hws
      cases hws
      refine (met_jump_iff (run_gjmp_addr h hfar)).trans ((absolute_eq_relative_iff _ _).trans ?_)
      exact ⟨fun hpc _ => hpc, fun hpc => hpc hfar⟩
  | constant r t y unsigned =>
    refine exact_iff_of_met (Or.inr trivial) fun ws hi hws => ?_
    obtain ⟨code, hcode, hrun⟩ := run_constant r t h y unsigned hi
    obtain ⟨code', hcode', rfl⟩ := Option.map_eq_some_iff.mp hws
    obtain rfl := Option.some.inj (hcode.symm.trans hcode')
    exact iff_of_true hrun trivial
  | local_address r t c => exact local_address_exact_iff r t c h
  | symbol_address r t isStatic addr c =>
    refine exact_iff_of_met (Or.inr trivial) fun ws hi hws => ?_
    obtain ⟨code, hcode, rfl⟩ := Option.map_eq_some_iff.mp hws
    exact iff_of_true (run_symbol_value r t h hi hcode) trivial
  | load r t p => exact load_exact_iff r t p h
  | load_pointer r t c => exact load_pointer_exact_iff r t c h
  | store r t p => exact store_exact_iff r t p h

/-- `la` with an offset of 0x800 leaves an address that is a page too low. -/
theorem la_misses_page : ¬(Site.emit_LLA ⟨10#5, by decide⟩ 0x800#32).Exact ⟨fun _ => 0, fun _ => 0, 0x1000⟩ := by
  intro hexact
  obtain ⟨h', hrun, hval⟩ := hexact _ ⟨0, 0⟩ rfl
  cases hrun
  exact absurd hval (by decide)

end tcc.riscv32
