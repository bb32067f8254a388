import Mathlib.Tactic.IntervalCases
import Mathlib.Logic.Function.Basic

/-! The instructions of A64 that move an immediate to a register. -/

namespace machine.a64

/-- An instruction word. -/
abbrev Word := BitVec 32

/-- The registers `X0` to `X30`. -/
abbrev Regs := Nat → BitVec 64

/-- The `len` bits of a word from `start` on. -/
def field (w : Word) (start len : Nat) : Nat := w.toNat / 2 ^ start % 2 ^ len

/-- An element of `e` bits rotated to the right. -/
def ror (e x r : Nat) : Nat := x >>> r ||| x <<< (e - r) % 2 ^ e

/-- Copies of an element of `e` bits. -/
def replicate (e x : Nat) : Nat → Nat
  | 0 => 0
  | n + 1 => x + 2 ^ e * replicate e x n

/-- `DecodeBitMasks` for an immediate of 64 bits; `none` is a reserved value. -/
def DecodeBitMasks (N imms immr : Nat) : Option Nat :=
  let combined := 64 * N + (63 - imms)
  let len := combined.log2
  let levels := 2 ^ len - 1
  if len = 0 ∨ imms &&& levels = levels then none
  else
    let S := imms &&& levels
    let R := immr &&& levels
    let esize := 2 ^ len
    some (replicate esize (ror esize (2 ^ (S + 1) - 1) R) (64 / esize))

/-- A result of 64 or of 32 bits. -/
def result (sf v : Nat) : BitVec 64 := BitVec.ofNat 64 (if sf = 1 then v else v % 2 ^ 32)

/-- A register that is read; 31 is zero. -/
def Regs.read (x : Regs) (n : Nat) : BitVec 64 := if n = 31 then 0 else x n

/-- A register that is written; 31 is none. -/
def Regs.write (x : Regs) (d : Nat) (v : BitVec 64) : Regs := if d = 31 then x else Function.update x d v

/-- `MOVN`, `MOVZ`, `MOVK`. -/
def move_wide (w : Word) (x : Regs) : Option Regs :=
  let sf := field w 31 1
  let opc := field w 29 2
  let hw := field w 21 2
  let imm := field w 5 16
  let d := field w 0 5
  let pos := 16 * hw
  if sf = 0 ∧ 2 ≤ hw then none
  else if opc = 0 then some (x.write d (result sf (2 ^ 64 - 1 - imm * 2 ^ pos)))
  else if opc = 2 then some (x.write d (result sf (imm * 2 ^ pos)))
  else if opc = 3 then
    let v := (x.read d).toNat
    some (x.write d (result sf (v % 2 ^ pos + imm * 2 ^ pos + v / 2 ^ (pos + 16) * 2 ^ (pos + 16))))
  else none

/-- `ORR` with an immediate, to a register that is not the stack pointer. -/
def orr_immediate (w : Word) (x : Regs) : Option Regs := do
  let sf := field w 31 1
  let N := field w 22 1
  let n := field w 5 5
  let d := field w 0 5
  if field w 29 2 ≠ 1 ∨ sf = 0 ∧ N = 1 ∨ d = 31 then none
  else
    let imm ← DecodeBitMasks N (field w 10 6) (field w 16 6)
    some (x.write d (result sf ((x.read n).toNat ||| imm)))

def exec (w : Word) (x : Regs) : Option Regs :=
  if field w 23 6 = 0b100101 then move_wide w x
  else if field w 23 6 = 0b100100 then orr_immediate w x
  else none

def run : List Word → Regs → Option Regs
  | [], x => some x
  | w :: ws, x => (exec w x).bind (run ws)

theorem run_append (ws us : List Word) (x : Regs) : run (ws ++ us) x = (run ws x).bind (run us) := by
  induction ws generalizing x with
  | nil => rfl
  | cons w ws ih =>
    rw [List.cons_append, run, run]
    cases exec w x with
    | none => rfl
    | some y => exact ih y

/-- The word of a move of an immediate. -/
def move_word (sf opc hw imm d : Nat) : Nat :=
  sf * 2 ^ 31 + opc * 2 ^ 29 + 0b100101 * 2 ^ 23 + hw * 2 ^ 21 + imm * 2 ^ 5 + d

section fields

variable {w : Word} {sf opc hw imm d : Nat}

/-- The fields of the word of a move. -/
theorem field_move_word (hword : w.toNat = move_word sf opc hw imm d) (hsf : sf < 2) (hopc : opc < 4)
    (hhw : hw < 4)
    (himm : imm < 2 ^ 16) (hd : d < 31) :
    field w 23 6 = 0b100101 ∧ field w 31 1 = sf ∧ field w 29 2 = opc ∧ field w 21 2 = hw ∧
      field w 5 16 = imm ∧
      field w 0 5 = d := by
  unfold field
  rw [hword, move_word]
  refine ⟨?_, ?_, ?_, ?_, ?_, ?_⟩ <;> omega

/-- The move of an immediate that is not put into the old value. -/
theorem exec_move (hword : w.toNat = move_word sf opc hw imm d) (hsf : sf < 2) (hopc : opc = 0 ∨ opc = 2)
    (hhw : hw < 4) (hhalf : sf = 1 ∨ hw < 2) (himm : imm < 2 ^ 16) (hd : d < 31) (x : Regs) :
    exec w x = some (Function.update x d
      (result sf (if opc = 0 then 2 ^ 64 - 1 - imm * 2 ^ (16 * hw) else imm * 2 ^ (16 * hw)))) := by
  obtain ⟨hgroup, h31, h29, h21, h5, h0⟩ := field_move_word hword hsf (by omega) hhw himm hd
  have hdefined : ¬ (sf = 0 ∧ 2 ≤ hw) := by omega
  have hwrite : ∀ v, x.write d v = Function.update x d v := fun v => if_neg (by omega)
  rw [exec, if_pos hgroup, move_wide]
  simp only [h31, h29, h21, h5, h0, hdefined, if_false, hwrite]
  obtain rfl | rfl := hopc
  · rfl
  · rfl

theorem exec_movk (hword : w.toNat = move_word 1 3 hw imm d) (hhw : hw < 4) (himm : imm < 2 ^ 16)
    (hd : d < 31)
    (x : Regs) :
    exec w x = some (Function.update x d (BitVec.ofNat 64 ((x d).toNat % 2 ^ (16 * hw) + imm * 2 ^ (16 * hw) +
      (x d).toNat / 2 ^ (16 * hw + 16) * 2 ^ (16 * hw + 16)))) := by
  obtain ⟨hgroup, h31, h29, h21, h5, h0⟩ := field_move_word hword (by decide) (by decide) hhw himm hd
  have hwrite : ∀ v, x.write d v = Function.update x d v := fun v => if_neg (by omega)
  have hread : x.read d = x d := if_neg (by omega)
  rw [exec, if_pos hgroup, move_wide]
  simp only [h31, h29, h21, h5, h0, hwrite, hread]
  rfl

/-- `ORR` of the zero register and an immediate. -/
theorem exec_orr {N imms immr m : Nat}
    (hword : w.toNat =
      sf * 2 ^ 31 + 2 ^ 29 + 0b100100 * 2 ^ 23 + N * 2 ^ 22 + immr * 2 ^ 16 + imms * 2 ^ 10 + 31 * 2 ^ 5 + d)
    (hN : N < 2) (hdefined : sf = 1 ∨ N = 0) (himms : imms < 64) (himmr : immr < 64) (hd : d < 31)
    (hmask : DecodeBitMasks N imms immr = some m) (x : Regs) :
    exec w x = some (Function.update x d (result sf m)) := by
  have hfields : field w 23 6 = 0b100100 ∧ field w 31 1 = sf ∧ field w 29 2 = 1 ∧ field w 22 1 = N ∧
      field w 16 6 = immr ∧ field w 10 6 = imms ∧ field w 5 5 = 31 ∧ field w 0 5 = d := by
    unfold field
    rw [hword]
    refine ⟨?_, ?_, ?_, ?_, ?_, ?_, ?_, ?_⟩ <;> omega
  obtain ⟨hgroup, h31, h29, h22, h16, h10, h5, h0⟩ := hfields
  have hok : ¬ (1 ≠ 1 ∨ sf = 0 ∧ N = 1 ∨ d = 31) := by omega
  have hwrite : ∀ v, x.write d v = Function.update x d v := fun v => if_neg (by omega)
  rw [exec, hgroup, if_neg (by decide), if_pos rfl, orr_immediate]
  simp only [h31, h29, h22, h16, h10, h5, h0, hok, if_false, hmask, hwrite]
  rw [Regs.read, if_pos rfl]
  simp

end fields

end machine.a64
