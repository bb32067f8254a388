import Tcc.Gen.Riscv64.Emit
import Tcc.Machine.Rv64.Memory
import Tcc.Machine.Rv64.Program

open machine.rv64

namespace tcc.riscv64

/-- `jal x0, r`. -/
def jal (r : BitVec 32) : Word :=
  0x6f#32 ||| ((r >>> 12) &&& 0xff#32) <<< 12 ||| ((r >>> 11) &&& 1#32) <<< 20 |||
    ((r >>> 1) &&& 0x3ff#32) <<< 21 ||| ((r >>> 20) &&& 1#32) <<< 31

/-- `gjmp_addr`: a jump from `ind` to `a`, through `t0` when it is far. -/
def gjmp_addr (a ind : BitVec 32) : Option (List Word) :=
  let r := a - ind
  if (r + 1#32 <<< 21) &&& ~~~((1#32 <<< 22) - 2#32) ≠ 0#32 then do
    let hi : Word := 0x17#32 ||| 5#32 <<< 7 ||| (r + 0x800#32) &&& 0xfffff000#32
    let lo ← EI 0x67 0 0 5 ((r <<< 20).sshiftRight 20)
    return [hi, lo]
  else return [jal r]

/-- The size of the frame, a multiple of 16. -/
def frame_size (loc num_va_regs : BitVec 32) : BitVec 32 :=
  (-(loc - num_va_regs * 8#32) + 15#32) &&& -16#32

/-- The instructions that put the size of a large frame, less 16, into `t0`. -/
def load_size (v : BitVec 32) : Option (List Word) := do
  let lo ← EI 0x13 0 5 5 (((v - 16#32) <<< 20).sshiftRight 20)
  return [lui 5 (0x800#32 + (v - 16#32)), lo]

/-- The part of the header of a large frame that stands after the epilogue, at `ind`. -/
def large_header (v num_va_regs func_sub_sp_offset ind : BitVec 32) : Option (List Word) := do
  let set_s0 ← EI 0x13 0 8 2 (16#32 - num_va_regs * 8#32)
  let size ← load_size v
  let back ← gjmp_addr (func_sub_sp_offset + 20#32) (ind + 16#32)
  return set_s0 :: size ++ ER 0x33 0 2 2 5 0x20 :: back

/-- `gfunc_epilog`: the header patched in at `func_sub_sp_offset`, the epilogue, emitted
    at `ind`, and the part of a large frame's header that follows it. -/
def gfunc_epilog (loc num_va_regs func_sub_sp_offset ind : BitVec 32) :
    Option (List Word × List Word × List Word) := do
  let v := frame_size loc num_va_regs
  let large := (1#32 <<< 11).sle v
  let d := if large then 16#32 else v
  let restore ←
    if large then (load_size v).map (· ++ [ER 0x33 0 2 2 5 0]) else some []
  let ld_ra ← EI 0x03 3 1 2 (d - 8#32 - num_va_regs * 8#32)
  let ld_s0 ← EI 0x03 3 8 2 (d - 16#32 - num_va_regs * 8#32)
  let add_sp ← EI 0x13 0 2 2 d
  let ret ← EI 0x67 0 0 1 0
  let epilog := restore ++ [ld_ra, ld_s0, add_sp, ret]
  let large_ofs_ind := ind + BitVec.ofNat 32 (4 * epilog.length)
  let enlarge ←
    if large then large_header v num_va_regs func_sub_sp_offset large_ofs_ind else some []
  let sub_sp ← EI 0x13 0 2 2 (-d)
  let sd_ra ← ES 0x23 3 2 1 (d - 8#32 - num_va_regs * 8#32)
  let sd_s0 ← ES 0x23 3 2 8 (d - 16#32 - num_va_regs * 8#32)
  let last ←
    if large then gjmp_addr large_ofs_ind (func_sub_sp_offset + 12#32)
    else (EI 0x13 0 8 2 (d - num_va_regs * 8#32)).map ([·])
  let header := [sub_sp, sd_ra, sd_s0] ++ last
  let nop ← EI 0x13 0 0 0 0
  return (if header.length = 5 then header else header ++ [nop], epilog, enlarge)

/-- The stores with which `gfunc_prolog` saves the argument registers a variadic
    function has left, from register `areg` on. -/
def va_saves (areg : Nat) : Option (List Word) :=
  (List.range (8 - areg)).mapM fun k =>
    ES 0x23 3 8 (BitVec.ofNat 5 (10 + areg + k)) (BitVec.ofNat 32 (8 * (k + 1)) - 8#32)

theorem Hart.get_set_next (h : Hart) (d q : BitVec 5) (v : BitVec 64) :
    (h.set d v).next.get q = if q = 0#5 then 0#64 else if q = d then v else h.get q := by
  rw [Hart.get_next]
  by_cases hq : q = 0#5
  · rw [if_pos hq, hq, Hart.get_zero]
  · rw [if_neg hq]
    by_cases hd : q = d
    · subst hd
      rw [if_pos rfl, h.get_set_self hq]
    · rw [if_neg hd, h.get_set_of_ne hd]

theorem Hart.get_set_zero (h : Hart) (v : BitVec 64) (q : BitVec 5) :
    (h.set 0#5 v).get q = h.get q := by
  by_cases hq : q = 0#5
  · rw [hq, Hart.get_zero, Hart.get_zero]
  · exact Hart.get_set_of_ne h hq v

section

variable {d a b : BitVec 5} {imm : BitVec 32} {w : Word}

theorem immI_EI {opc : BitVec 7} {f3 : BitVec 3} (hw : EI opc f3 d a imm = some w) :
    w = EIu opc f3 d a imm ∧ immI w = imm.signExtend 64 := by
  have himm : imm12 imm := by
    rw [EI, Option.ite_none_right_eq_some] at hw
    exact hw.1
  have heq := EI_eq_some hw
  refine ⟨heq, ?_⟩
  rw [heq, immI, imm_EIu, imm12_signExtend64 himm]

theorem exec_addi (hw : EI 0x13 0 d a imm = some w) (h : Hart) :
    exec w h = some (h.set d (h.get a + imm.signExtend 64)).next := by
  obtain ⟨rfl, himm⟩ := immI_EI hw
  refine exec_EIu 0 d a imm ?_
  rw [immI, imm_EIu] at himm
  rw [← himm]
  rfl

theorem exec_ld (hw : EI 0x03 3 d a imm = some w) (h : Hart) :
    exec w h = some (h.set d (loadLE h.mem (h.get a + imm.signExtend 64) 8)).next := by
  obtain ⟨rfl, himm⟩ := immI_EI hw
  refine exec_load ?_
  change loadValue 3 h.mem (h.get a + immI (EIu 0x03 3 d a imm)) = _
  rw [himm]
  rfl

theorem exec_sd (hw : ES 0x23 3 a b imm = some w) (h : Hart) : exec w h =
    some { h with mem := storeLE h.mem (h.get a + imm.signExtend 64) (h.get b) 8 }.next := by
  rw [ES, Option.ite_none_right_eq_some, Option.some.injEq] at hw
  obtain ⟨himm, rfl⟩ := hw
  generalize hword : (0x23 : BitVec 7).setWidth 32 ||| (3 : BitVec 3).setWidth 32 <<< 12 |||
    (imm &&& 0x1f#32) <<< 7 ||| a.setWidth 32 <<< 15 ||| b.setWidth 32 <<< 20 |||
    (imm >>> 5) <<< 25 = w
  have hopc : opcode w = 0x23#7 := by
    rw [← hword]
    ext i hi
    interval_cases i <;> simp [opcode]
  have hfun : funct3 w = 3#3 := by
    rw [← hword]
    ext i hi
    interval_cases i <;> simp [funct3]
  have ha : rs1 w = a := by
    rw [← hword]
    ext i hi
    interval_cases i <;> simp [rs1]
  have hb : rs2 w = b := by
    rw [← hword]
    ext i hi
    interval_cases i <;> simp [rs2]
  have himmS : immS w = imm.signExtend 64 := by
    rw [← imm12_signExtend64 himm, immS, ← hword]
    congr 1
    ext i hi
    interval_cases i <;> simp
  simp [exec, hopc, hfun, ha, hb, himmS]

theorem step_sd (hw : ES 0x23 3 a b imm = some w) (h : Hart) : ∃ h', exec w h = some h' ∧
    (∀ q, h'.get q = h.get q) ∧
    h'.mem = storeLE h.mem (h.get a + imm.signExtend 64) (h.get b) 8 :=
  ⟨_, exec_sd hw h, fun _ => rfl, rfl⟩

theorem step_addi (hw : EI 0x13 0 d a imm = some w) (hd : d ≠ 0#5) (h : Hart) :
    ∃ h', exec w h = some h' ∧ Sets h d (h.get a + imm.signExtend 64) h' :=
  ⟨_, exec_addi hw h, Sets.set_next h hd _⟩

theorem step_ld (hw : EI 0x03 3 d a imm = some w) (hd : d ≠ 0#5) (h : Hart) :
    ∃ h', exec w h = some h' ∧ Sets h d (loadLE h.mem (h.get a + imm.signExtend 64) 8) h' :=
  ⟨_, exec_ld hw h, Sets.set_next h hd _⟩

theorem exec_lui (d : BitVec 5) (up : BitVec 32) (h : Hart) :
    exec (lui d up) h = some (h.set d ((up &&& 0xfffff000#32).signExtend 64)).next := by
  have himm : immU (lui d up) = (up &&& 0xfffff000#32).signExtend 64 := by
    rw [immU]
    congr 1
    ext i hi
    interval_cases i <;> simp [lui]
  simp [exec, opcode_lui, rd_lui, himm]

theorem exec_add (h : Hart) :
    exec (ER 0x33 0 d a b 0) h = some (h.set d (h.get a + h.get b)).next :=
  exec_ER _ _ _ _ _ rfl

theorem exec_sub (h : Hart) :
    exec (ER 0x33 0 d a b 0x20) h = some (h.set d (h.get a - h.get b)).next :=
  exec_ER _ _ _ _ _ rfl

theorem exec_jalr (hw : EI 0x67 0 d a imm = some w) (h : Hart) : exec w h =
    some { h.set d (h.pc + 4#64) with pc := (h.get a + imm.signExtend 64) &&& ~~~1#64 } := by
  obtain ⟨rfl, himm⟩ := immI_EI hw
  rw [← himm]
  simp [exec]

/-- `auipc` of the upper part of a word. -/
theorem exec_auipc_hi (d : BitVec 5) (u : BitVec 32) (h : Hart) :
    exec (0x17#32 ||| d.setWidth 32 <<< 7 ||| u &&& 0xfffff000#32) h =
      some (h.set d (h.pc + (u &&& 0xfffff000#32).signExtend 64)).next := by
  generalize hw : 0x17#32 ||| d.setWidth 32 <<< 7 ||| u &&& 0xfffff000#32 = w
  have hopc : opcode w = 0x17#7 := by
    rw [← hw]
    ext i hi
    interval_cases i <;> simp [opcode]
  have hrd : rd w = d := by
    rw [← hw]
    ext i hi
    interval_cases i <;> simp [rd]
  have himm : immU w = (u &&& 0xfffff000#32).signExtend 64 := by
    rw [immU, ← hw]
    congr 1
    ext i hi
    interval_cases i <;> simp
  simp [exec, hopc, hrd, himm]

theorem straight_of_set {w : Word} {v : Hart → BitVec 64}
    (hw : ∀ h, exec w h = some (h.set d (v h)).next) : Straight w := by
  intro h h' hexec
  rw [hw h] at hexec
  cases hexec
  rfl

theorem straight_sd (hw : ES 0x23 3 a b imm = some w) : Straight w := by
  intro h h' hexec
  rw [exec_sd hw h] at hexec
  cases hexec
  rfl

end

/-- The upper and the lower part of a word as they are loaded and added. -/
def splitSum (u : BitVec 32) : BitVec 64 :=
  ((u + 0x800#32) &&& 0xfffff000#32).signExtend 64 + (u.setWidth 12).signExtend 64

theorem shl_sshiftRight (u : BitVec 32) :
    (u <<< 20).sshiftRight 20 = (u.setWidth 12).signExtend 32 := by
  ext i hi
  interval_cases i <;> simp [BitVec.getElem_sshiftRight, BitVec.getElem_signExtend, BitVec.msb_eq_getLsbD_last]

theorem imm12_low (u : BitVec 32) : imm12 ((u <<< 20).sshiftRight 20) := by
  rw [imm12_iff, shl_sshiftRight, BitVec.toInt_signExtend_of_le (by decide)]
  exact ⟨BitVec.le_toInt _, BitVec.toInt_lt⟩

theorem low_signExtend (u : BitVec 32) :
    ((u <<< 20).sshiftRight 20).signExtend 64 = (u.setWidth 12).signExtend 64 := by
  rw [shl_sshiftRight]
  apply BitVec.eq_of_toInt_eq
  rw [BitVec.toInt_signExtend_of_le (by decide), BitVec.toInt_signExtend_of_le (by decide),
    BitVec.toInt_signExtend_of_le (by decide)]

/-- The split adds up to the word unless rounding it carries into the sign. -/
theorem splitSum_eq_iff (u : BitVec 32) :
    splitSum u = u.signExtend 64 ↔ u.toInt + 2048 < 2 ^ 31 := by
  generalize hd : u.signExtend 64 = d
  have hsetWidth : d.setWidth 32 = u := by
    rw [← hd, machine.setWidth_signExtend]
  have hlow : u.setWidth 12 = d.setWidth 12 := by
    rw [← hsetWidth, BitVec.setWidth_setWidth_of_le _ (by decide)]
  have hhigh : (u + 0x800#32) &&& 0xfffff000#32 = ((d + 0x800#64) &&& ~~~0xfff#64).setWidth 32 := by
    rw [BitVec.setWidth_and, BitVec.setWidth_add _ _ (by decide), hsetWidth]
    rfl
  have hint : (d + 0x800#64).toInt = u.toInt + 2048 := by
    have hbound := u.toInt_lt
    have hbound' := u.le_toInt
    rw [BitVec.toInt_add, ← hd, machine.toInt_signExtend]
    apply Int.bmod_eq_of_le_mul_two <;> simp at * <;> omega
  have hsum := hi_add_lo d
  have hcancel (x : BitVec 64) : x + (d.setWidth 12).signExtend 64 = d ↔
      x = (d + 0x800#64) &&& ~~~0xfff#64 := by
    constructor
    · intro heq
      exact (BitVec.add_left_inj _).mp (heq.trans hsum.symm)
    · rintro rfl
      exact hsum
  rw [splitSum, hlow, hhigh, hcancel, hi_fits_iff, hint]
  have := u.le_toInt
  constructor
  · exact And.right
  · intro hlt
    exact ⟨by simp at this; omega, hlt⟩

/-- When the rounding carries, the sum is too small by `2 ^ 32`. -/
theorem splitSum_of_carry {u : BitVec 32} (hu : 2 ^ 31 ≤ u.toInt + 2048) :
    splitSum u = BitVec.ofInt 64 (u.toInt - 2 ^ 32) := by
  have hlt := u.toInt_lt
  have hnat : u.toInt = u.toNat := by
    have hcond := BitVec.toInt_eq_toNat_cond u
    have := u.isLt
    split at hcond <;> omega
  have hhigh : (u + 0x800#32) &&& 0xfffff000#32 = 0x80000000#32 := by
    have hmask : (u + 0x800#32) &&& 0xfffff000#32 = (u + 0x800#32) >>> 12 <<< 12 := by
      generalize u + 0x800#32 = x
      ext i hi
      interval_cases i <;> simp
    apply BitVec.eq_of_toNat_eq
    rw [hmask, BitVec.toNat_shiftLeft, BitVec.toNat_ushiftRight, Nat.shiftRight_eq_div_pow,
      Nat.shiftLeft_eq, BitVec.toNat_add]
    simp only [BitVec.toNat_ofNat]
    omega
  have hlow : (u.setWidth 12).toInt = u.toInt - 2 ^ 31 := by
    rw [BitVec.toInt_setWidth, hnat, Int.bmod]
    split <;> omega
  rw [splitSum, hhigh, BitVec.signExtend, BitVec.signExtend, hlow, ← BitVec.ofInt_add]
  congr 1
  change -2 ^ 31 + (u.toInt - 2 ^ 31) = _
  omega

theorem run_load_size (v : BitVec 32) : ∃ ws, load_size v = some ws ∧ ws.length = 2 ∧
    (∀ w ∈ ws, Straight w) ∧ ∀ h, ∃ h', run ws h = some h' ∧ Sets h 5 (splitSum (v - 16#32)) h' := by
  obtain ⟨w, hw⟩ : ∃ w, EI 0x13 0 5 5 (((v - 16#32) <<< 20).sshiftRight 20) = some w :=
    ⟨_, if_pos (imm12_low _)⟩
  refine ⟨[lui 5 (0x800#32 + (v - 16#32)), w], by rw [load_size, hw]; rfl, rfl, ?_, fun h => ?_⟩
  · intro w' hw'
    obtain rfl | hw' := List.mem_cons.mp hw'
    · exact straight_of_set (exec_lui 5 _)
    · obtain rfl := List.mem_singleton.mp hw'
      exact straight_of_set (exec_addi hw)
  · have hfirst := Sets.set_next h (r := 5) (by decide)
      (((0x800#32 + (v - 16#32)) &&& 0xfffff000#32).signExtend 64)
    generalize hh₁ : (h.set 5 (((0x800#32 + (v - 16#32)) &&& 0xfffff000#32).signExtend 64)).next = h₁
      at hfirst
    refine ⟨_, ?_, hfirst.trans (Sets.set_next h₁ (by decide) (splitSum (v - 16#32)))⟩
    rw [run_cons, exec_lui, Option.bind_some, hh₁, run_cons, exec_addi hw, Option.bind_some, run_nil,
      hfirst.value, low_signExtend, splitSum, BitVec.add_comm 0x800#32]

/-- The displacement a `jal` reaches. -/
def jalOffset (r : BitVec 32) : BitVec 64 := ((r &&& ~~~1#32).setWidth 21).signExtend 64

theorem opcode_jal (r : BitVec 32) : opcode (jal r) = 0x6f#7 := by
  ext i hi
  interval_cases i <;> simp [opcode, jal]

theorem rd_jal (r : BitVec 32) : rd (jal r) = 0#5 := by
  ext i hi
  interval_cases i <;> simp [rd, jal]

theorem immJ_jal (r : BitVec 32) : immJ (jal r) = jalOffset r := by
  rw [immJ, jalOffset]
  congr 1
  ext i hi
  interval_cases i <;> simp [jal]

theorem exec_jal (r : BitVec 32) (h : Hart) :
    exec (jal r) h = some { h.set 0 (h.pc + 4#64) with pc := h.pc + jalOffset r } := by
  simp only [exec, opcode_jal, rd_jal, immJ_jal]
  rfl

theorem and_not_one_eq {r : BitVec 32} (heven : r.getLsbD 0 = false) : r &&& ~~~1#32 = r := by
  apply BitVec.eq_of_getLsbD_eq
  intro i hi
  rw [BitVec.getLsbD_and]
  by_cases h0 : i = 0
  · rw [h0, heven, Bool.false_and]
  · have hmask : ∀ i : Fin 32, i.val ≠ 0 → (~~~1#32).getLsbD i = true := by decide
    rw [hmask ⟨i, hi⟩ h0, Bool.and_true]

theorem jalOffset_eq_iff {r : BitVec 32} (heven : r.getLsbD 0 = false) :
    jalOffset r = r.signExtend 64 ↔ -2 ^ 20 ≤ r.toInt ∧ r.toInt < 2 ^ 20 := by
  rw [jalOffset, and_not_one_eq heven]
  have hlow : r.setWidth 21 = (r.signExtend 64).setWidth 21 := by
    rw [← BitVec.setWidth_setWidth_of_le (r.signExtend 64) (show 21 ≤ 32 by decide),
      machine.setWidth_signExtend]
  rw [hlow, machine.signExtend_setWidth_iff (by decide) (by decide), machine.toInt_signExtend]

theorem gjmp_addr_eq_some (a ind : BitVec 32) :
    ∃ ws, gjmp_addr a ind = some ws ∧ (ws.length = 1 ∨ ws.length = 2) := by
  unfold gjmp_addr
  generalize a - ind = r
  obtain ⟨lo, hlo⟩ : ∃ w, EI 0x67 0 0 5 ((r <<< 20).sshiftRight 20) = some w :=
    ⟨_, if_pos (imm12_low _)⟩
  simp only [hlo]
  split
  · exact ⟨_, rfl, Or.inr rfl⟩
  · exact ⟨_, rfl, Or.inl rfl⟩

/-- Beyond its reach a `jal` goes the other way. -/
theorem jalOffset_of_bmod {r : BitVec 32} (heven : r.getLsbD 0 = false) {z : Int}
    (hz : (r.toNat : Int).bmod (2 ^ 21) = z) : jalOffset r = BitVec.ofInt 64 z := by
  rw [jalOffset, and_not_one_eq heven, BitVec.signExtend, BitVec.toInt_setWidth, hz]

/-- The displacements that are taken for near ones: even, of 21 bits and a sign. -/
def Near (r : BitVec 32) : Prop := r.getLsbD 0 = false ∧ -2 ^ 21 ≤ r.toInt ∧ r.toInt < 2 ^ 21

theorem near_sum_iff (r : BitVec 32) :
    (r + 1#32 <<< 21).toNat < 2 ^ 22 ↔ -2 ^ 21 ≤ r.toInt ∧ r.toInt < 2 ^ 21 := by
  have hlt := r.isLt
  rw [BitVec.toInt_eq_toNat_cond, BitVec.toNat_add]
  simp only [BitVec.toNat_shiftLeft, BitVec.toNat_ofNat]
  split <;> omega

theorem near_sum_even (r : BitVec 32) : (r + 1#32 <<< 21).getLsbD 0 = r.getLsbD 0 := by
  rw [BitVec.getLsbD, BitVec.getLsbD, Nat.testBit_zero, Nat.testBit_zero, BitVec.toNat_add]
  simp only [BitVec.toNat_shiftLeft, BitVec.toNat_ofNat, decide_eq_decide]
  omega

theorem near_iff (r : BitVec 32) :
    (r + 1#32 <<< 21) &&& ~~~((1#32 <<< 22) - 2#32) = 0#32 ↔ Near r := by
  rw [Near, ← near_sum_iff, ← near_sum_even]
  generalize r + 1#32 <<< 21 = x
  have hmask : ∀ i : Fin 32, (~~~((1#32 <<< 22) - 2#32)).getLsbD i =
      decide (i.val = 0 ∨ 22 ≤ i.val) := by decide
  constructor
  · intro hzero
    have hbit (i : Fin 32) (hi : i.val = 0 ∨ 22 ≤ i.val) : x.getLsbD i = false := by
      have := congrArg (BitVec.getLsbD · i) hzero
      simpa only [BitVec.getLsbD_and, hmask i, hi, decide_true, Bool.and_true,
        BitVec.getLsbD_zero] using this
    refine ⟨hbit 0 (Or.inl rfl), Nat.lt_pow_two_of_testBit _ fun i hi => ?_⟩
    change x.getLsbD i = false
    by_cases h32 : i < 32
    · exact hbit ⟨i, h32⟩ (Or.inr hi)
    · exact BitVec.getLsbD_of_ge _ i (by omega)
  · rintro ⟨heven, hlt⟩
    apply BitVec.eq_of_getLsbD_eq
    intro i hi
    rw [BitVec.getLsbD_and, BitVec.getLsbD_zero, hmask ⟨i, hi⟩]
    by_cases hi' : i = 0 ∨ 22 ≤ i
    · have hclear : x.getLsbD i = false := by
        obtain rfl | hhigh := hi'
        · exact heven
        · exact Nat.testBit_lt_two_pow (hlt.trans_le (Nat.pow_le_pow_right (by decide) hhigh))
      rw [hclear, Bool.false_and]
    · rw [decide_eq_false hi', Bool.and_false]

/-- `gjmp_addr` takes displacements of 21 bits and a sign for near. -/
theorem gjmp_addr_near {a ind : BitVec 32} (heven : (a - ind).getLsbD 0 = false)
    (hlo : -2 ^ 21 ≤ (a - ind).toInt) (hhi : (a - ind).toInt < 2 ^ 21) :
    gjmp_addr a ind = some [jal (a - ind)] := by
  unfold gjmp_addr
  have hcheck := (near_iff (a - ind)).mpr ⟨heven, hlo, hhi⟩
  simp only [hcheck, ne_eq, not_true_eq_false, if_false]
  rfl

/-- Other jumps go through `t0`. -/
theorem gjmp_addr_far {a ind : BitVec 32} (hfar : ¬Near (a - ind)) :
    ∃ hi lo, gjmp_addr a ind = some [hi, lo] ∧ Straight hi ∧ ∀ h, ∃ h₁, exec hi h = some h₁ ∧
      ∃ h₂, exec lo h₁ = some h₂ ∧ h₂.pc = (h.pc + splitSum (a - ind)) &&& ~~~1#64 ∧
        h₂.mem = h.mem ∧ ∀ q, q ≠ 5#5 → h₂.get q = h.get q := by
  unfold gjmp_addr
  have hcheck := mt (near_iff (a - ind)).mp hfar
  generalize a - ind = r at *
  obtain ⟨lo, hlo⟩ : ∃ w, EI 0x67 0 0 5 ((r <<< 20).sshiftRight 20) = some w :=
    ⟨_, if_pos (imm12_low _)⟩
  have hauipc := exec_auipc_hi 5 (r + 0x800#32)
  refine ⟨0x17#32 ||| 5#32 <<< 7 ||| (r + 0x800#32) &&& 0xfffff000#32, lo, ?_,
    straight_of_set hauipc, fun h => ⟨_, hauipc h, _, exec_jalr hlo _, ?_, rfl, fun q hq => ?_⟩⟩
  · simp only [hcheck, ne_eq, not_false_eq_true, if_true, hlo]
    rfl
  · rw [low_signExtend, Hart.get_set_next, if_neg (by decide), if_pos rfl, splitSum,
      BitVec.add_assoc]
  · exact (Hart.get_set_zero _ _ q).trans (Hart.get_set_of_ne h hq _)

end tcc.riscv64
