import Mathlib.Data.BitVec
import Tcc.Gen.Riscv64.Arguments
import Tcc.Gen.Riscv64.Constant

open machine machine.rv64

namespace tcc.riscv64

open BType

/-- The code of `gfunc_call` that adds `v` to the stack pointer, `none` for an assertion. -/
def add_to_sp (large : Bool) (v : BitVec 32) : Option (List Word) :=
  if large then (EI 0x13#7 0 5 5 (low12 v)).map fun w => [lui 5 v, w, ER 0x33#7 0 2 2 5 0]
  else (EI 0x13#7 0 2 2 v).map fun w => [w]

/-- The code before the call. -/
def call_enter (stack_add : BitVec 32) : Option (List Word) :=
  if stack_add = 0#32 then some [] else add_to_sp ((0x1000#32).sle stack_add) (-stack_add)

/-- The code after the call. -/
def call_leave (stack_add : BitVec 32) : Option (List Word) :=
  if stack_add = 0#32 then some [] else add_to_sp ((0x1000#32).sle stack_add) stack_add

/-- The size that `gfunc_call` computes for a list of arguments, as an `int`. -/
def outgoing (args : List CallArg) : Option (BitVec 32) :=
  (size_args args .start).map fun r => BitVec.ofNat 32 r.2.stack_add

/-- There is code to add `v` to the stack pointer, and it does. -/
def Adds (ws : Option (List Word)) (v : BitVec 64) : Prop :=
  ∃ code, ws = some code ∧ ∀ h, ∃ h', run code h = some h' ∧ h'.get 2 = h.get 2 + v

/-- The code before a call lowers the stack pointer by the size, the code after it raises it by
    the same. -/
structure Balanced (stack_add : BitVec 32) : Prop where
  enter : Adds (call_enter stack_add) (-stack_add.signExtend 64)
  leave : Adds (call_leave stack_add) (stack_add.signExtend 64)

theorem Balanced.restored {s : BitVec 32} (hs : Balanced s) :
    ∃ pre post, call_enter s = some pre ∧ call_leave s = some post ∧
      ∀ h, ∃ h₁, run pre h = some h₁ ∧ ∀ h₂, h₂.get 2 = h₁.get 2 →
        ∃ h₃, run post h₂ = some h₃ ∧ h₃.get 2 = h.get 2 := by
  obtain ⟨pre, hpre, hrun⟩ := hs.enter
  obtain ⟨post, hpost, hrun'⟩ := hs.leave
  refine ⟨pre, post, hpre, hpost, fun h => ?_⟩
  obtain ⟨h₁, hrun₁, hsp₁⟩ := hrun h
  refine ⟨h₁, hrun₁, fun h₂ hsp => ?_⟩
  obtain ⟨h₃, hrun₃, hsp₃⟩ := hrun' h₂
  refine ⟨h₃, hrun₃, ?_⟩
  rw [hsp₃, hsp, hsp₁, BitVec.add_assoc, BitVec.add_comm (-_), ← BitVec.sub_eq_add_neg,
    BitVec.sub_self, BitVec.add_zero]

theorem run_addi_sp (v : BitVec 32) (hv : imm12 v) (h : Hart) :
    ∃ h', run [EIu 0x13#7 0 2 2 v] h = some h' ∧ h'.get 2 = h.get 2 + v.signExtend 64 := by
  have hadd : aluI 0 (h.get 2) (v.setWidth 12) = some (h.get 2 + v.signExtend 64) := by
    rw [← imm12_signExtend64 hv]
    rfl
  refine ⟨_, by rw [run_cons, exec_EIu _ _ _ _ hadd]; rfl, ?_⟩
  exact h.get_set_self (by decide) _

theorem Adds.unique {ws : Option (List Word)} {v w : BitVec 64} (hv : Adds ws v) (hw : Adds ws w) :
    v = w := by
  obtain ⟨code, hcode, hrun⟩ := hv
  obtain ⟨code', hcode', hrun'⟩ := hw
  obtain rfl := Option.some.inj (hcode.symm.trans hcode')
  obtain ⟨h₁, hrun₁, hsp₁⟩ := hrun ⟨fun _ => 0#64, fun _ => 0#8, 0#64⟩
  obtain ⟨h₂, hrun₂, hsp₂⟩ := hrun' ⟨fun _ => 0#64, fun _ => 0#8, 0#64⟩
  obtain rfl := Option.some.inj (hrun₁.symm.trans hrun₂)
  exact add_left_cancel (hsp₁.symm.trans hsp₂)

theorem adds_small_iff (v : BitVec 32) (w : BitVec 64) :
    Adds (add_to_sp false v) w ↔ imm12 v ∧ v.signExtend 64 = w := by
  have hadds (hv : imm12 v) : Adds (add_to_sp false v) (v.signExtend 64) := by
    refine ⟨[EIu 0x13#7 0 2 2 v], ?_, fun h => run_addi_sp v hv h⟩
    change (EI _ _ _ _ _).map _ = _
    rw [EI, if_pos hv]
    rfl
  constructor
  · intro hw
    have hv : imm12 v := by
      obtain ⟨code, hcode, -⟩ := hw
      by_contra hv
      change (EI _ _ _ _ _).map _ = _ at hcode
      rw [EI, if_neg hv] at hcode
      cases hcode
    exact ⟨hv, (hadds hv).unique hw⟩
  · rintro ⟨hv, rfl⟩
    exact hadds hv

/-- The upper part of a word and its signed lower part, as they are, miss it by 4 KiB when the
    lower part is negative. -/
theorem upper_add_low (v : BitVec 32) :
    (v &&& 0xfffff000#32).signExtend 64 + (low12 v).signExtend 64 =
      v.signExtend 64 - BitVec.ofInt 64 (if 2048 ≤ v.toNat % 4096 then 4096 else 0) := by
  have hlt := v.isLt
  have hupper : (v &&& 0xfffff000#32).toNat = v.toNat / 4096 * 4096 :=
    toNat_and_neg_twoPow (w := 32) 12 v
  have hlow : (v.setWidth 12).toNat = v.toNat % 4096 := BitVec.toNat_setWidth 12 v
  have hv := BitVec.toInt_eq_toNat_cond v
  have hu := BitVec.toInt_eq_toNat_cond (v &&& 0xfffff000#32)
  have hl := BitVec.toInt_eq_toNat_cond (v.setWidth 12)
  rw [hupper] at hu
  rw [hlow] at hl
  rw [low12_signExtend, signExtend_eq_ofInt, signExtend_eq_ofInt, signExtend_eq_ofInt,
    ← BitVec.ofInt_add, ← ofInt_sub]
  congr 1
  split at hv <;> split at hu <;> split at hl <;> split <;> omega

theorem run_large (v : BitVec 32) : ∃ code, add_to_sp true v = some code ∧ ∀ h, ∃ h',
    run code h = some h' ∧
      h'.get 2 = h.get 2 + ((v &&& 0xfffff000#32).signExtend 64 + (low12 v).signExtend 64) := by
  have hw : EI 0x13#7 0 5 5 (low12 v) = some (EIu 0x13#7 0 5 5 (low12 v)) := if_pos (imm12_low12 v)
  refine ⟨_, by rw [add_to_sp, if_pos rfl, hw]; rfl, fun h => ?_⟩
  have hset₁ := Sets.set_next h (by decide : (5 : BitVec 5) ≠ 0) ((v &&& 0xfffff000#32).signExtend 64)
  obtain ⟨h₂, hexec₂, hset₂⟩ := step_addi hw (by decide)
    (h.set 5 ((v &&& 0xfffff000#32).signExtend 64)).next
  rw [hset₁.value] at hset₂
  refine ⟨(h₂.set 2 (h₂.get 2 + h₂.get 5)).next, ?_, ?_⟩
  · change run [lui 5 v, EIu 0x13#7 0 5 5 (low12 v), ER 0x33#7 0 2 2 5 0] h = _
    rw [run_cons, exec_lui, Option.bind_some, run_cons, hexec₂, Option.bind_some, run_cons]
    exact congrArg (Option.bind · (run [])) (exec_add h₂)
  · have hset₃ := Sets.set_next h₂ (by decide : (2 : BitVec 5) ≠ 0) (h₂.get 2 + h₂.get 5)
    rw [hset₃.value, hset₂.value, hset₂.frame 2 (by decide), hset₁.frame 2 (by decide)]

theorem adds_large_iff (v : BitVec 32) :
    Adds (add_to_sp true v) (v.signExtend 64) ↔ v.toNat % 4096 < 2048 := by
  obtain ⟨code, hcode, hrun⟩ := run_large v
  have hadds : Adds (add_to_sp true v) _ := ⟨code, hcode, hrun⟩
  rw [upper_add_low] at hadds
  constructor
  · intro hv
    by_contra hlow
    rw [if_pos (by omega)] at hadds
    have heq := hv.unique hadds
    rw [BitVec.eq_sub_iff_add_eq, add_eq_left] at heq
    exact absurd heq (by decide)
  · intro hlow
    rw [if_neg (by omega)] at hadds
    simpa using hadds

theorem toNat_neg_mod (s : BitVec 32) : (-s).toNat % 4096 = (4096 - s.toNat % 4096) % 4096 := by
  have hlt := s.isLt
  rw [BitVec.toNat_neg]
  omega

theorem signExtend_neg_of_ne {s : BitVec 32} (hs : s.toInt ≠ -2 ^ 31) :
    (-s).signExtend 64 = -s.signExtend 64 := by
  have hlo := BitVec.le_toInt s
  have hhi := BitVec.toInt_lt (x := s)
  have hval := toInt_signExtend s
  apply BitVec.eq_of_toInt_eq
  rw [toInt_signExtend, BitVec.toInt_neg, BitVec.toInt_neg, hval, Int.bmod_eq_of_le,
    Int.bmod_eq_of_le] <;> omega

/-- The size of the area may be small, or large with its low twelve bits clear. -/
theorem balanced_iff (s : BitVec 32) :
    Balanced s ↔ (-2048 < s.toInt ∧ s.toInt < 2048) ∨ (4096 ≤ s.toInt ∧ 4096 ∣ s.toInt) := by
  have hlt := s.isLt
  have hcond := BitVec.toInt_eq_toNat_cond s
  have hneg := toNat_neg_mod s
  have hsplit : Balanced s ↔ Adds (call_enter s) (-s.signExtend 64) ∧
      Adds (call_leave s) (s.signExtend 64) := ⟨fun h => ⟨h.enter, h.leave⟩, fun h => ⟨h.1, h.2⟩⟩
  rw [hsplit, call_enter, call_leave]
  by_cases hzero : s = 0#32
  · subst hzero
    have hnil : Adds (some []) 0#64 := ⟨[], rfl, fun h => ⟨h, rfl, (BitVec.add_zero _).symm⟩⟩
    exact iff_of_true ⟨hnil, hnil⟩ (by decide)
  rw [if_neg hzero, if_neg hzero]
  by_cases hlarge : 4096 ≤ s.toInt
  · have hsle : (0x1000#32).sle s = true := BitVec.sle_iff_toInt_le.mpr hlarge
    rw [hsle, ← signExtend_neg_of_ne (by omega), adds_large_iff, adds_large_iff]
    split at hcond <;> omega
  · have hsle : (0x1000#32).sle s = false := by
      rw [← Bool.not_eq_true, BitVec.sle_iff_toInt_le]
      exact hlarge
    rw [hsle, adds_small_iff, adds_small_iff, imm12_iff, imm12_iff]
    constructor
    · rintro ⟨⟨henter, -⟩, hleave, -⟩
      by_cases hmin : s.toInt = -2 ^ 31
      · omega
      · rw [BitVec.toInt_neg, Int.bmod_eq_of_le (by omega) (by omega)] at henter
        omega
    · intro hfit
      refine ⟨⟨?_, signExtend_neg_of_ne (by omega)⟩, by omega, rfl⟩
      rw [BitVec.toInt_neg, Int.bmod_eq_of_le (by omega) (by omega)]
      omega

/-- The stack pointer is lowered and raised by the size of the outgoing area exactly when this
    is less than 2 KiB, or a multiple of 4 KiB. -/
theorem call_balanced_iff (args : List CallArg) :
    (∀ s, outgoing args = some s → Balanced s) ↔
      ∀ s, outgoing args = some s →
        (-2048 < s.toInt ∧ s.toInt < 2048) ∨ (4096 ≤ s.toInt ∧ 4096 ∣ s.toInt) :=
  forall_congr' fun s => imp_congr_right fun _ => balanced_iff s

/-- A structure of 4112 bytes by value: the stack pointer is lowered by 8208 and raised by 4112. -/
theorem large_struct_unbalanced :
    let arg : CallArg := ⟨.struct false 4112 8 (.cons 0 (.array (.basic .llong) 514) .nil), true,
      ⟨3, rfl⟩, ⟨514, rfl⟩⟩
    outgoing [arg] = some 4112#32 ∧ Adds (call_enter 4112#32) (-8208#64) ∧
      Adds (call_leave 4112#32) 4112#64 ∧ ¬Balanced 4112#32 := by
  intro arg
  have henter : call_enter 4112#32 = add_to_sp true (-4112#32) := rfl
  have hleave : call_leave 4112#32 = add_to_sp true 4112#32 := rfl
  obtain ⟨code, hcode, hrun⟩ := run_large (-4112#32)
  obtain ⟨code', hcode', hrun'⟩ := run_large 4112#32
  have hpre : Adds (call_enter 4112#32) (-8208#64) := ⟨code, henter.trans hcode, hrun⟩
  refine ⟨by decide, hpre, ⟨code', hleave.trans hcode', hrun'⟩, fun hbalanced => ?_⟩
  exact absurd (hpre.unique hbalanced.enter) (by decide)

end tcc.riscv64
