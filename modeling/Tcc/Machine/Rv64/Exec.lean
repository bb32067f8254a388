import Mathlib.Data.Nat.SuccPred
import Mathlib.Tactic.Ring
import Tcc.Machine.Rv64.Decode
import Tcc.Machine.Words

namespace machine.rv64

/-- The integer part of a hart: registers, memory and program counter. -/
structure Hart where
  x : BitVec 5 → BitVec 64
  mem : BitVec 64 → BitVec 8
  pc : BitVec 64

/-- Register `x0` always reads as zero. -/
def Hart.get (h : Hart) (r : BitVec 5) : BitVec 64 := if r = 0#5 then 0#64 else h.x r

def Hart.set (h : Hart) (r : BitVec 5) (v : BitVec 64) : Hart :=
  { h with x := Function.update h.x r v }

def Hart.next (h : Hart) : Hart := { h with pc := h.pc + 4#64 }

@[simp] theorem Hart.get_zero (h : Hart) : h.get 0#5 = 0#64 := rfl

@[simp] theorem Hart.get_next (h : Hart) (r : BitVec 5) : h.next.get r = h.get r := rfl

@[simp] theorem Hart.mem_next (h : Hart) : h.next.mem = h.mem := rfl

@[simp] theorem Hart.mem_set (h : Hart) (r : BitVec 5) (v : BitVec 64) : (h.set r v).mem = h.mem :=
  rfl

theorem Hart.get_set_self (h : Hart) {r : BitVec 5} (hr : r ≠ 0#5) (v : BitVec 64) :
    (h.set r v).get r = v := by
  simp [Hart.get, Hart.set, hr]

theorem Hart.get_set_of_ne (h : Hart) {r q : BitVec 5} (hne : q ≠ r) (v : BitVec 64) :
    (h.set r v).get q = h.get q := by
  simp [Hart.get, Hart.set, hne]

/-- `h'` is `h` with the value `v` in register `r`, somewhere later in the code. -/
structure Sets (h : Hart) (r : BitVec 5) (v : BitVec 64) (h' : Hart) : Prop where
  value : h'.get r = v
  frame : ∀ q, q ≠ r → h'.get q = h.get q
  mem : h'.mem = h.mem

theorem Sets.set_next (h : Hart) {r : BitVec 5} (hr : r ≠ 0#5) (v : BitVec 64) :
    Sets h r v (h.set r v).next :=
  ⟨h.get_set_self hr v, fun _ hq => h.get_set_of_ne hq v, rfl⟩

theorem Sets.trans {h₁ h₂ h₃ : Hart} {r : BitVec 5} {v w : BitVec 64}
    (h₁₂ : Sets h₁ r v h₂) (h₂₃ : Sets h₂ r w h₃) : Sets h₁ r w h₃ where
  value := h₂₃.value
  frame q hq := (h₂₃.frame q hq).trans (h₁₂.frame q hq)
  mem := h₂₃.mem.trans h₁₂.mem

/-- The low 32 bits of a register, sign-extended. -/
def sext32 (v : BitVec 64) : BitVec 64 := (v.setWidth 32).signExtend 64

def divS {w : Nat} (a b : BitVec w) : BitVec w := if b = 0#w then BitVec.allOnes w else a.sdiv b

def divU {w : Nat} (a b : BitVec w) : BitVec w := if b = 0#w then BitVec.allOnes w else a / b

/-- The register-register operations (`OP`). -/
def aluR (f7 : BitVec 7) (f3 : BitVec 3) (a b : BitVec 64) : Option (BitVec 64) :=
  match f7.toNat, f3.toNat with
  | 0, 0 => some (a + b)
  | 0x20, 0 => some (a - b)
  | 0, 1 => some (a <<< (b.toNat % 64))
  | 0, 2 => some (if a.slt b then 1#64 else 0#64)
  | 0, 3 => some (if a.ult b then 1#64 else 0#64)
  | 0, 4 => some (a ^^^ b)
  | 0, 5 => some (a >>> (b.toNat % 64))
  | 0x20, 5 => some (a.sshiftRight (b.toNat % 64))
  | 0, 6 => some (a ||| b)
  | 0, 7 => some (a &&& b)
  | 1, 0 => some (a * b)
  | 1, 4 => some (divS a b)
  | 1, 5 => some (divU a b)
  | 1, 6 => some (a.srem b)
  | 1, 7 => some (a % b)
  | _, _ => none

/-- The register-register operations on words (`OP-32`). -/
def aluRW (f7 : BitVec 7) (f3 : BitVec 3) (a b : BitVec 32) : Option (BitVec 32) :=
  match f7.toNat, f3.toNat with
  | 0, 0 => some (a + b)
  | 0x20, 0 => some (a - b)
  | 0, 1 => some (a <<< (b.toNat % 32))
  | 0, 5 => some (a >>> (b.toNat % 32))
  | 0x20, 5 => some (a.sshiftRight (b.toNat % 32))
  | 1, 0 => some (a * b)
  | 1, 4 => some (divS a b)
  | 1, 5 => some (divU a b)
  | 1, 6 => some (a.srem b)
  | 1, 7 => some (a % b)
  | _, _ => none

/-- The register-immediate operations (`OP-IMM`), with the whole 12-bit field. -/
def aluI (f3 : BitVec 3) (a : BitVec 64) (imm : BitVec 12) : Option (BitVec 64) :=
  match f3.toNat with
  | 0 => some (a + imm.signExtend 64)
  | 2 => some (if a.slt (imm.signExtend 64) then 1#64 else 0#64)
  | 3 => some (if a.ult (imm.signExtend 64) then 1#64 else 0#64)
  | 4 => some (a ^^^ imm.signExtend 64)
  | 6 => some (a ||| imm.signExtend 64)
  | 7 => some (a &&& imm.signExtend 64)
  | 1 => if imm.toNat < 64 then some (a <<< imm.toNat) else none
  | 5 =>
    if imm.toNat < 64 then some (a >>> imm.toNat)
    else if 1024 ≤ imm.toNat ∧ imm.toNat < 1024 + 64 then some (a.sshiftRight (imm.toNat - 1024))
    else none
  | _ => none

/-- The register-immediate operations on words (`OP-IMM-32`). -/
def aluIW (f3 : BitVec 3) (a : BitVec 32) (imm : BitVec 12) : Option (BitVec 32) :=
  match f3.toNat with
  | 0 => some (a + imm.signExtend 32)
  | 1 => if imm.toNat < 32 then some (a <<< imm.toNat) else none
  | 5 =>
    if imm.toNat < 32 then some (a >>> imm.toNat)
    else if 1024 ≤ imm.toNat ∧ imm.toNat < 1024 + 32 then some (a.sshiftRight (imm.toNat - 1024))
    else none
  | _ => none

/-- `n` bytes of memory from `addr` on, least significant first. -/
def loadLE (mem : BitVec 64 → BitVec 8) (addr : BitVec 64) : Nat → BitVec 64
  | 0 => 0#64
  | n + 1 => (mem addr).setWidth 64 ||| loadLE mem (addr + 1#64) n <<< 8

theorem loadLE_lt (mem : BitVec 64 → BitVec 8) (addr : BitVec 64) {n : Nat} (hn : n ≤ 8) :
    (loadLE mem addr n).toNat < 2 ^ (8 * n) := by
  induction n generalizing addr with
  | zero => simp [loadLE]
  | succ n ih =>
    have hbyte : ((mem addr).setWidth 64).toNat < 2 ^ (8 * (n + 1)) := by
      rw [BitVec.toNat_setWidth, Nat.mod_eq_of_lt (lt_of_lt_of_le (mem addr).isLt (by decide))]
      exact lt_of_lt_of_le (mem addr).isLt (Nat.pow_le_pow_right (by decide) (by omega))
    have hrest : (loadLE mem (addr + 1#64) n <<< 8).toNat < 2 ^ (8 * (n + 1)) := by
      rw [BitVec.toNat_shiftLeft, Nat.shiftLeft_eq]
      refine lt_of_le_of_lt (Nat.mod_le _ _) ?_
      rw [show 8 * (n + 1) = 8 * n + 8 by ring, pow_add]
      exact Nat.mul_lt_mul_of_pos_right (ih (addr + 1#64) (by omega)) (by decide)
    rw [loadLE, BitVec.toNat_or]
    exact Nat.or_lt_two_pow hbyte hrest

def storeLE (mem : BitVec 64 → BitVec 8) (addr v : BitVec 64) : Nat → BitVec 64 → BitVec 8
  | 0 => mem
  | n + 1 => storeLE (Function.update mem addr (v.setWidth 8)) (addr + 1#64) (v >>> 8) n

/-- The loads (`LOAD`). -/
def loadValue (f3 : BitVec 3) (mem : BitVec 64 → BitVec 8) (addr : BitVec 64) :
    Option (BitVec 64) :=
  match f3.toNat with
  | 0 => some (((loadLE mem addr 1).setWidth 8).signExtend 64)
  | 1 => some (((loadLE mem addr 2).setWidth 16).signExtend 64)
  | 2 => some (((loadLE mem addr 4).setWidth 32).signExtend 64)
  | 3 => some (loadLE mem addr 8)
  | 4 => some (loadLE mem addr 1)
  | 5 => some (loadLE mem addr 2)
  | 6 => some (loadLE mem addr 4)
  | _ => none

/-- The loads of at most a word, apart from `lwu`, leave a sign-extended word. -/
theorem loadValue_isWord {f3 : BitVec 3} {mem : BitVec 64 → BitVec 8} {addr v : BitVec 64}
    (hf3 : f3 ≠ 3#3 ∧ f3 ≠ 6#3) (h : loadValue f3 mem addr = some v) : machine.IsWord v := by
  have hcases : ∀ f : BitVec 3, f ≠ 3#3 ∧ f ≠ 6#3 →
      f = 0#3 ∨ f = 1#3 ∨ f = 2#3 ∨ f = 4#3 ∨ f = 5#3 ∨ f = 7#3 := by decide
  obtain rfl | rfl | rfl | rfl | rfl | rfl := hcases f3 hf3
  · cases h
    exact machine.isWord_signExtend (by decide) _
  · cases h
    exact machine.isWord_signExtend (by decide) _
  · cases h
    exact machine.isWord_signExtend (by decide) _
  · cases h
    exact machine.isWord_of_toNat_lt (lt_trans (loadLE_lt mem addr (by decide)) (by decide))
  · cases h
    exact machine.isWord_of_toNat_lt (lt_trans (loadLE_lt mem addr (by decide)) (by decide))
  · cases h

/-- The conditions of the conditional branches (`BRANCH`). -/
def branchTaken (f3 : BitVec 3) (a b : BitVec 64) : Option Bool :=
  match f3.toNat with
  | 0 => some (a == b)
  | 1 => some (a != b)
  | 4 => some (a.slt b)
  | 5 => some (!a.slt b)
  | 6 => some (a.ult b)
  | 7 => some (!a.ult b)
  | _ => none

/-- One instruction of the part of RV64IM that moves integers; `none` stands for
    the other instructions. -/
def exec (w : Word) (h : Hart) : Option Hart :=
  let a := h.get (rs1 w)
  let b := h.get (rs2 w)
  match (opcode w).toNat with
  | 0x33 => (aluR (funct7 w) (funct3 w) a b).map fun v => (h.set (rd w) v).next
  | 0x3b => (aluRW (funct7 w) (funct3 w) (a.setWidth 32) (b.setWidth 32)).map
      fun v => (h.set (rd w) (v.signExtend 64)).next
  | 0x13 => (aluI (funct3 w) a ((w >>> 20).setWidth 12)).map fun v => (h.set (rd w) v).next
  | 0x1b => (aluIW (funct3 w) (a.setWidth 32) ((w >>> 20).setWidth 12)).map
      fun v => (h.set (rd w) (v.signExtend 64)).next
  | 0x37 => some (h.set (rd w) (immU w)).next
  | 0x17 => some (h.set (rd w) (h.pc + immU w)).next
  | 0x03 => (loadValue (funct3 w) h.mem (a + immI w)).map fun v => (h.set (rd w) v).next
  | 0x23 =>
    if (funct3 w).toNat < 4 then
      some { h with mem := storeLE h.mem (a + immS w) b (2 ^ (funct3 w).toNat) }.next
    else none
  | 0x63 => (branchTaken (funct3 w) a b).map
      fun t => if t then { h with pc := h.pc + immB w } else h.next
  | 0x6f => some { h.set (rd w) (h.pc + 4#64) with pc := h.pc + immJ w }
  | 0x67 => some { h.set (rd w) (h.pc + 4#64) with pc := (a + immI w) &&& ~~~1#64 }
  | _ => none

/-- Straight-line execution of a sequence of instructions. -/
def run : List Word → Hart → Option Hart
  | [], h => some h
  | w :: ws, h => (exec w h).bind (run ws)

@[simp] theorem run_nil (h : Hart) : run [] h = some h := rfl

theorem run_cons (w : Word) (ws : List Word) (h : Hart) :
    run (w :: ws) h = (exec w h).bind (run ws) := rfl

theorem run_append (ws vs : List Word) (h : Hart) :
    run (ws ++ vs) h = (run ws h).bind (run vs) := by
  induction ws generalizing h with
  | nil => rfl
  | cons w ws ih =>
    simp only [List.cons_append, run_cons]
    cases exec w h with
    | none => rfl
    | some h' => exact ih h'

/-- The code runs and changes no register but `r`. -/
def WritesOnly (r : BitVec 5) (ws : List Word) : Prop :=
  ∀ h, ∃ h', run ws h = some h' ∧ ∀ q, q ≠ r → h'.get q = h.get q

theorem writesOnly_nil (r : BitVec 5) : WritesOnly r [] := fun h => ⟨h, rfl, fun _ _ => rfl⟩

theorem WritesOnly.append {r : BitVec 5} {ws vs : List Word} (hws : WritesOnly r ws)
    (hvs : WritesOnly r vs) : WritesOnly r (ws ++ vs) := by
  intro h
  obtain ⟨h₁, hrun₁, hkeep₁⟩ := hws h
  obtain ⟨h₂, hrun₂, hkeep₂⟩ := hvs h₁
  refine ⟨h₂, ?_, fun q hq => (hkeep₂ q hq).trans (hkeep₁ q hq)⟩
  rw [run_append, hrun₁, Option.bind_some, hrun₂]

theorem WritesOnly.cons {r : BitVec 5} {w : Word} {ws : List Word} (hw : WritesOnly r [w])
    (hws : WritesOnly r ws) : WritesOnly r (w :: ws) :=
  hw.append hws

/-- An instruction that sets its destination register. -/
theorem writesOnly_of_exec {r : BitVec 5} {w : Word}
    (hexec : ∀ h, ∃ v, exec w h = some (h.set r v).next) : WritesOnly r [w] := by
  intro h
  obtain ⟨v, hv⟩ := hexec h
  refine ⟨(h.set r v).next, ?_, fun q hq => h.get_set_of_ne hq v⟩
  rw [run_cons, hv, Option.bind_some, run_nil]

end machine.rv64
