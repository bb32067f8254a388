import Tcc.Machine.Rv32.Decode
import Tcc.Machine.Rv64.Exec

open machine.rv64 (Word opcode rd funct3 rs1 rs2 funct7 divS divU)

namespace machine.rv32

/-- The integer part of a hart: registers, memory and program counter. -/
structure Hart where
  x : BitVec 5 → BitVec 32
  mem : BitVec 32 → BitVec 8
  pc : BitVec 32

/-- Register `x0` always reads as zero. -/
def Hart.get (h : Hart) (r : BitVec 5) : BitVec 32 := if r = 0#5 then 0#32 else h.x r

def Hart.set (h : Hart) (r : BitVec 5) (v : BitVec 32) : Hart :=
  { h with x := Function.update h.x r v }

def Hart.next (h : Hart) : Hart := { h with pc := h.pc + 4#32 }

@[simp] theorem Hart.get_zero (h : Hart) : h.get 0#5 = 0#32 := rfl

@[simp] theorem Hart.get_next (h : Hart) (r : BitVec 5) : h.next.get r = h.get r := rfl

theorem Hart.get_set_self (h : Hart) {r : BitVec 5} (hr : r ≠ 0#5) (v : BitVec 32) :
    (h.set r v).get r = v := by
  simp [Hart.get, Hart.set, hr]

theorem Hart.get_set_of_ne (h : Hart) {r q : BitVec 5} (hne : q ≠ r) (v : BitVec 32) :
    (h.set r v).get q = h.get q := by
  simp [Hart.get, Hart.set, hne]

/-- `h'` is `h` with the value `v` in register `r`, somewhere later in the code. -/
structure Sets (h : Hart) (r : BitVec 5) (v : BitVec 32) (h' : Hart) : Prop where
  value : h'.get r = v
  frame : ∀ q, q ≠ r → h'.get q = h.get q
  mem : h'.mem = h.mem

theorem Sets.set_next (h : Hart) {r : BitVec 5} (hr : r ≠ 0#5) (v : BitVec 32) :
    Sets h r v (h.set r v).next :=
  ⟨h.get_set_self hr v, fun _ hq => h.get_set_of_ne hq v, rfl⟩

theorem Sets.trans {h₁ h₂ h₃ : Hart} {r : BitVec 5} {v w : BitVec 32}
    (h₁₂ : Sets h₁ r v h₂) (h₂₃ : Sets h₂ r w h₃) : Sets h₁ r w h₃ where
  value := h₂₃.value
  frame q hq := (h₂₃.frame q hq).trans (h₁₂.frame q hq)
  mem := h₂₃.mem.trans h₁₂.mem

/-- The upper half of a product, each factor extended to 64 bits by its sign or by zeros. -/
def mulHigh (signedA signedB : Bool) (a b : BitVec 32) : BitVec 32 :=
  let wide (s : Bool) (v : BitVec 32) : BitVec 64 := if s then v.signExtend 64 else v.setWidth 64
  ((wide signedA a * wide signedB b) >>> 32).setWidth 32

/-- The register-register operations (`OP`). -/
def aluR (f7 : BitVec 7) (f3 : BitVec 3) (a b : BitVec 32) : Option (BitVec 32) :=
  match f7.toNat, f3.toNat with
  | 0, 0 => some (a + b)
  | 0x20, 0 => some (a - b)
  | 0, 1 => some (a <<< (b.toNat % 32))
  | 0, 2 => some (if a.slt b then 1#32 else 0#32)
  | 0, 3 => some (if a.ult b then 1#32 else 0#32)
  | 0, 4 => some (a ^^^ b)
  | 0, 5 => some (a >>> (b.toNat % 32))
  | 0x20, 5 => some (a.sshiftRight (b.toNat % 32))
  | 0, 6 => some (a ||| b)
  | 0, 7 => some (a &&& b)
  | 1, 0 => some (a * b)
  | 1, 1 => some (mulHigh true true a b)
  | 1, 2 => some (mulHigh true false a b)
  | 1, 3 => some (mulHigh false false a b)
  | 1, 4 => some (divS a b)
  | 1, 5 => some (divU a b)
  | 1, 6 => some (a.srem b)
  | 1, 7 => some (a % b)
  | _, _ => none

/-- The register-immediate operations (`OP-IMM`), with the whole 12-bit field. -/
def aluI (f3 : BitVec 3) (a : BitVec 32) (imm : BitVec 12) : Option (BitVec 32) :=
  match f3.toNat with
  | 0 => some (a + imm.signExtend 32)
  | 2 => some (if a.slt (imm.signExtend 32) then 1#32 else 0#32)
  | 3 => some (if a.ult (imm.signExtend 32) then 1#32 else 0#32)
  | 4 => some (a ^^^ imm.signExtend 32)
  | 6 => some (a ||| imm.signExtend 32)
  | 7 => some (a &&& imm.signExtend 32)
  | 1 => if imm.toNat < 32 then some (a <<< imm.toNat) else none
  | 5 =>
    if imm.toNat < 32 then some (a >>> imm.toNat)
    else if 1024 ≤ imm.toNat ∧ imm.toNat < 1024 + 32 then some (a.sshiftRight (imm.toNat - 1024))
    else none
  | _ => none

/-- `n` bytes of memory from `addr` on, least significant first. -/
def loadLE (mem : BitVec 32 → BitVec 8) (addr : BitVec 32) : Nat → BitVec 32
  | 0 => 0#32
  | n + 1 => (mem addr).setWidth 32 ||| loadLE mem (addr + 1#32) n <<< 8

def storeLE (mem : BitVec 32 → BitVec 8) (addr v : BitVec 32) : Nat → BitVec 32 → BitVec 8
  | 0 => mem
  | n + 1 => storeLE (Function.update mem addr (v.setWidth 8)) (addr + 1#32) (v >>> 8) n

/-- The loads (`LOAD`). -/
def loadValue (f3 : BitVec 3) (mem : BitVec 32 → BitVec 8) (addr : BitVec 32) :
    Option (BitVec 32) :=
  match f3.toNat with
  | 0 => some (((loadLE mem addr 1).setWidth 8).signExtend 32)
  | 1 => some (((loadLE mem addr 2).setWidth 16).signExtend 32)
  | 2 => some (loadLE mem addr 4)
  | 4 => some (loadLE mem addr 1)
  | 5 => some (loadLE mem addr 2)
  | _ => none

/-- The conditions of the conditional branches (`BRANCH`). -/
def branchTaken (f3 : BitVec 3) (a b : BitVec 32) : Option Bool :=
  match f3.toNat with
  | 0 => some (a == b)
  | 1 => some (a != b)
  | 4 => some (a.slt b)
  | 5 => some (!a.slt b)
  | 6 => some (a.ult b)
  | 7 => some (!a.ult b)
  | _ => none

/-- One instruction of the part of RV32IM that moves integers; `none` stands for
    the other instructions. -/
def exec (w : Word) (h : Hart) : Option Hart :=
  let a := h.get (rs1 w)
  let b := h.get (rs2 w)
  match (opcode w).toNat with
  | 0x33 => (aluR (funct7 w) (funct3 w) a b).map fun v => (h.set (rd w) v).next
  | 0x13 => (aluI (funct3 w) a ((w >>> 20).setWidth 12)).map fun v => (h.set (rd w) v).next
  | 0x37 => some (h.set (rd w) (immU w)).next
  | 0x17 => some (h.set (rd w) (h.pc + immU w)).next
  | 0x03 => (loadValue (funct3 w) h.mem (a + immI w)).map fun v => (h.set (rd w) v).next
  | 0x23 =>
    if (funct3 w).toNat < 3 then
      some { h with mem := storeLE h.mem (a + immS w) b (2 ^ (funct3 w).toNat) }.next
    else none
  | 0x63 => (branchTaken (funct3 w) a b).map
      fun t => if t then { h with pc := h.pc + immB w } else h.next
  | 0x6f => some { h.set (rd w) (h.pc + 4#32) with pc := h.pc + immJ w }
  | 0x67 => some { h.set (rd w) (h.pc + 4#32) with pc := (a + immI w) &&& ~~~1#32 }
  | _ => none

/-- Straight-line execution of a sequence of instructions. -/
def run : List Word → Hart → Option Hart
  | [], h => some h
  | w :: ws, h => (exec w h).bind (run ws)

@[simp] theorem run_nil (h : Hart) : run [] h = some h := rfl

attribute [local simp] exec in
theorem run_cons (w : Word) (ws : List Word) (h : Hart) :
    run (w :: ws) h = (exec w h).bind (run ws) := rfl

theorem run_append (ws vs : List Word) (h : Hart) :
    run (ws ++ vs) h = (run ws h).bind (run vs) := by
  induction ws generalizing h with
  | nil => rfl
  | cons w ws ih =>
    simp only [List.cons_append, run_cons]
    cases exec w h with
    | none => rfl
    | some h' => exact ih h'

theorem run_pair {w w' : Word} {h h₁ h₂ : Hart} (hw : exec w h = some h₁) (hw' : exec w' h₁ = some h₂) :
    run [w, w'] h = some h₂ := by
  rw [run_cons, hw, Option.bind_some, run_cons, hw']
  rfl

attribute [local simp] fields in
/-- What an instruction does depends on its fields alone. -/
theorem exec_op {w : Word} {d a b : BitVec 5} {f3 : BitVec 3} {f7 : BitVec 7} {v : BitVec 32}
    (hw : fields .R w = .R 0x33#7 d f3 a b f7) (h : Hart) (hv : aluR f7 f3 (h.get a) (h.get b) = some v) :
    exec w h = some (h.set d v).next := by
  rw [fields, Fields.R.injEq] at hw
  obtain ⟨hopc, rfl, rfl, rfl, rfl, rfl⟩ := hw
  simp only [exec, hopc]
  change (aluR _ _ _ _).map _ = _
  rw [hv]
  rfl

theorem exec_op_imm {w : Word} {d a : BitVec 5} {f3 : BitVec 3} {imm : BitVec 12} {v : BitVec 32}
    (hopc : opcode w = 0x13#7) (hd : rd w = d) (hf3 : funct3 w = f3) (ha : rs1 w = a)
    (himm : (w >>> 20).setWidth 12 = imm) (h : Hart) (hv : aluI f3 (h.get a) imm = some v) :
    exec w h = some (h.set d v).next := by
  subst hd hf3 ha himm
  simp only [exec, hopc]
  change (aluI _ _ _).map _ = _
  rw [hv]
  rfl

theorem exec_lui {w : Word} {d : BitVec 5} {imm : BitVec 32} (hw : fields .U w = .U 0x37#7 d imm)
    (h : Hart) : exec w h = some (h.set d imm).next := by
  rw [fields, Fields.U.injEq] at hw
  obtain ⟨hopc, rfl, rfl⟩ := hw
  simp only [exec, hopc]
  rfl

theorem exec_auipc {w : Word} {d : BitVec 5} {imm : BitVec 32} (hw : fields .U w = .U 0x17#7 d imm)
    (h : Hart) : exec w h = some (h.set d (h.pc + imm)).next := by
  rw [fields, Fields.U.injEq] at hw
  obtain ⟨hopc, rfl, rfl⟩ := hw
  simp only [exec, hopc]
  rfl

theorem exec_jalr {w : Word} {d a : BitVec 5} {f3 : BitVec 3} {imm : BitVec 32}
    (hw : fields .I w = .I 0x67#7 d f3 a imm) (h : Hart) :
    exec w h = some { h.set d (h.pc + 4#32) with pc := (h.get a + imm) &&& ~~~1#32 } := by
  rw [fields, Fields.I.injEq] at hw
  obtain ⟨hopc, rfl, rfl, rfl, rfl⟩ := hw
  simp only [exec, hopc]
  rfl

theorem exec_load {w : Word} {d a : BitVec 5} {f3 : BitVec 3} {imm v : BitVec 32}
    (hw : fields .I w = .I 0x03#7 d f3 a imm) (h : Hart)
    (hv : loadValue f3 h.mem (h.get a + imm) = some v) : exec w h = some (h.set d v).next := by
  rw [fields, Fields.I.injEq] at hw
  obtain ⟨hopc, rfl, rfl, rfl, rfl⟩ := hw
  simp only [exec, hopc]
  change (loadValue _ _ _).map _ = _
  rw [hv]
  rfl

theorem exec_store {w : Word} {a b : BitVec 5} {f3 : BitVec 3} {imm : BitVec 32}
    (hw : fields .S w = .S 0x23#7 f3 a b imm) (hf3 : f3.toNat < 3) (h : Hart) :
    exec w h =
      some { h with mem := storeLE h.mem (h.get a + imm) (h.get b) (2 ^ f3.toNat) }.next := by
  rw [fields, Fields.S.injEq] at hw
  obtain ⟨hopc, rfl, rfl, rfl, rfl⟩ := hw
  simp only [exec, hopc]
  exact if_pos hf3

/-- The address that a load, a store or an indirect jump forms. -/
def effective (f : Format) (w : Word) (h : Hart) : BitVec 32 :=
  h.get (rs1 w) + if f = .S then immS w else immI w

theorem effective_I {w : Word} {opc : BitVec 7} {d a : BitVec 5} {f3 : BitVec 3} {imm : BitVec 32}
    (hw : fields .I w = .I opc d f3 a imm) (h : Hart) : effective .I w h = h.get a + imm := by
  rw [fields, Fields.I.injEq] at hw
  obtain ⟨-, -, -, rfl, rfl⟩ := hw
  rfl

theorem effective_S {w : Word} {opc : BitVec 7} {a b : BitVec 5} {f3 : BitVec 3} {imm : BitVec 32}
    (hw : fields .S w = .S opc f3 a b imm) (h : Hart) : effective .S w h = h.get a + imm := by
  rw [fields, Fields.S.injEq] at hw
  obtain ⟨-, -, rfl, -, rfl⟩ := hw
  rfl

end machine.rv32
