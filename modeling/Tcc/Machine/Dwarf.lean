import Mathlib.Data.Nat.SuccPred
import Mathlib.Tactic.Ring

/-! The numbers of DWARF, of any size in bytes of seven bits, the lowest first, and its line-number programs: a
    program makes rows of a table that maps addresses to files and lines. -/

namespace machine.leb128

abbrev Byte := BitVec 8

/-- Reads an unsigned number. -/
def uleb : List Byte → Option (Nat × List Byte)
  | [] => none
  | b :: bs =>
    if b.toNat < 128 then some (b.toNat, bs)
    else (uleb bs).map fun (m, rest) => (b.toNat - 128 + 128 * m, rest)

/-- Reads a signed number, whose sign is the second highest bit of its last byte. -/
def sleb : List Byte → Option (Int × List Byte)
  | [] => none
  | b :: bs =>
    if b.toNat < 128 then some (if b.toNat < 64 then b.toNat else b.toNat - 128, bs)
    else (sleb bs).map fun (m, rest) => (b.toNat - 128 + 128 * m, rest)

/-- The high bit tells which byte is the last. -/
def Delimited (bytes : List Byte) : Prop :=
  ∃ front b, bytes = front ++ [b] ∧ b.toNat < 128 ∧ ∀ c ∈ front, 128 ≤ c.toNat

theorem toNat_ofNat {n : Nat} (h : n < 256) : (BitVec.ofNat 8 n).toNat = n := by
  rw [BitVec.toNat_ofNat]
  exact Nat.mod_eq_of_lt h

section

variable {b : Nat} {bs rest : List Byte}

theorem Delimited.last (hb : b < 128) : Delimited [BitVec.ofNat 8 b] := by
  refine ⟨[], _, rfl, ?_, fun c hc => absurd hc List.not_mem_nil⟩
  rw [toNat_ofNat (by omega)]
  exact hb

theorem Delimited.more (hb : b < 128) (h : Delimited bs) : Delimited (BitVec.ofNat 8 (b + 128) :: bs) := by
  obtain ⟨front, c, rfl, hc, hfront⟩ := h
  refine ⟨BitVec.ofNat 8 (b + 128) :: front, c, rfl, hc, fun d hd => ?_⟩
  rcases List.mem_cons.mp hd with rfl | hd
  · rw [toNat_ofNat (by omega)]
    omega
  · exact hfront d hd

attribute [local simp] uleb in
theorem uleb_last (hb : b < 128) : uleb (BitVec.ofNat 8 b :: bs) = some (b, bs) := by
  rw [uleb, toNat_ofNat (by omega), if_pos hb]

theorem uleb_more {m : Nat} (hb : b < 128) (h : uleb bs = some (m, rest)) :
    uleb (BitVec.ofNat 8 (b + 128) :: bs) = some (b + 128 * m, rest) := by
  rw [uleb, toNat_ofNat (by omega), if_neg (by omega), h, Option.map_some]
  have hsub : b + 128 - 128 = b := by omega
  rw [hsub]

theorem sleb_last (hb : b < 128) : sleb (BitVec.ofNat 8 b :: bs) =
    some (if b < 64 then (b : Int) else b - 128, bs) := by
  rw [sleb, toNat_ofNat (by omega), if_pos hb]

theorem sleb_more {m : Int} (hb : b < 128) (h : sleb bs = some (m, rest)) :
    sleb (BitVec.ofNat 8 (b + 128) :: bs) = some (b + 128 * m, rest) := by
  rw [sleb, toNat_ofNat (by omega), if_neg (by omega), h, Option.map_some]
  refine congrArg some (Prod.ext ?_ rfl)
  push_cast
  ring

end

end machine.leb128

open machine.leb128

namespace machine.dwarf

/-- The constants in a program's header that its instructions depend on. -/
structure Header where
  minimum_instruction_length : Nat
  line_base : Int
  line_range : Nat
  opcode_base : Nat
  standard_opcode_lengths : List Nat

/-- The instructions, without those that only set columns and flags of a row. -/
inductive Op where
  | special (opcode : Nat)
  | copy
  | advance_pc (n : Nat)
  | advance_line (d : Int)
  | set_file (n : Nat)
  | const_add_pc
  | fixed_advance_pc (n : Nat)
  | end_sequence
  | set_address (a : Nat)
  | skip
  deriving DecidableEq

/-- A number of bytes, the lowest first. -/
def le : List Byte → Nat
  | [] => 0
  | b :: bs => b.toNat + 256 * le bs

/-- The operands of an instruction that is not known. -/
def skip_operands : Nat → List Byte → Option (List Byte)
  | 0, bs => some bs
  | n + 1, bs => do
    let (_, bs) ← uleb bs
    skip_operands n bs

/-- An extended instruction, from its size on. -/
def next_extended (bs : List Byte) : Option (Op × List Byte) := do
  let (len, bs) ← uleb bs
  if bs.length < len then none
  else
    let rest := bs.drop len
    match bs.take len with
    | [] => some (.skip, rest)
    | opcode :: operand =>
      match opcode.toNat with
      | 1 => some (.end_sequence, rest)
      | 2 => some (.set_address (le operand), rest)
      | _ => some (.skip, rest)

def next_standard (header : Header) (opcode : Nat) (bs : List Byte) : Option (Op × List Byte) :=
  match opcode with
  | 0 => next_extended bs
  | 1 => some (.copy, bs)
  | 2 => (uleb bs).map fun (n, bs) => (.advance_pc n, bs)
  | 3 => (sleb bs).map fun (d, bs) => (.advance_line d, bs)
  | 4 => (uleb bs).map fun (n, bs) => (.set_file n, bs)
  | 8 => some (.const_add_pc, bs)
  | 9 =>
    match bs with
    | b₁ :: b₂ :: bs => some (.fixed_advance_pc (le [b₁, b₂]), bs)
    | _ => none
  | opcode =>
    (skip_operands (header.standard_opcode_lengths.getD (opcode - 1) 0) bs).map fun bs => (.skip, bs)

/-- The instructions of a program; there are at most as many as bytes. -/
def decode (header : Header) : Nat → List Byte → Option (List Op)
  | _, [] => some []
  | 0, _ :: _ => none
  | fuel + 1, b :: bs =>
    if header.opcode_base ≤ b.toNat then (decode header fuel bs).map (.special b.toNat :: ·)
    else do
      let (op, bs) ← next_standard header b.toNat bs
      let ops ← decode header fuel bs
      return op :: ops

structure Row where
  address : Nat
  file : Nat
  line : Int
  end_sequence : Bool
  deriving DecidableEq

/-- The registers of the state machine. -/
structure Registers where
  address : Nat
  file : Nat
  line : Int
  deriving DecidableEq

def Registers.initial : Registers := ⟨0, 1, 1⟩

def Registers.row (s : Registers) : Row := ⟨s.address, s.file, s.line, false⟩

/-- The effect of an instruction, with the row that it appends. -/
def Op.exec (header : Header) (op : Op) (s : Registers) : Registers × List Row :=
  match op with
  | special opcode =>
    let adjusted := opcode - header.opcode_base
    let s := { s with
      address := s.address + header.minimum_instruction_length * (adjusted / header.line_range)
      line := s.line + (header.line_base + (adjusted % header.line_range : Nat)) }
    (s, [s.row])
  | copy => (s, [s.row])
  | advance_pc n => ({ s with address := s.address + header.minimum_instruction_length * n }, [])
  | advance_line d => ({ s with line := s.line + d }, [])
  | set_file n => ({ s with file := n }, [])
  | const_add_pc =>
    ({ s with address := s.address +
      header.minimum_instruction_length * ((255 - header.opcode_base) / header.line_range) }, [])
  | fixed_advance_pc n => ({ s with address := s.address + n }, [])
  | end_sequence => (.initial, [⟨s.address, s.file, s.line, true⟩])
  | set_address a => ({ s with address := a }, [])
  | skip => (s, [])

def exec (header : Header) : List Op → Registers → Registers × List Row
  | [], s => (s, [])
  | op :: ops, s =>
    let (s, rows) := op.exec header s
    let (s, more) := exec header ops s
    (s, rows ++ more)

/-- The table of a program. -/
def table (header : Header) (program : List Byte) : Option (List Row) :=
  (decode header program.length program).map fun ops => (exec header ops .initial).2

/-- The file and the line of an address: those of the last row that is not above it, unless
    the sequence has ended there. -/
def lookup (rows : List Row) (a : Nat) : Option (Nat × Int) :=
  match rows.reverse.find? (fun row => row.address ≤ a) with
  | some row => if row.end_sequence then none else some (row.file, row.line)
  | none => none

theorem next_extended_eq {bs operand rest : List Byte} {opcode : Byte}
    (h : uleb bs = some (operand.length + 1, opcode :: (operand ++ rest))) : next_extended bs =
      some (match opcode.toNat with
        | 1 => .end_sequence
        | 2 => .set_address (le operand)
        | _ => .skip, rest) := by
  have htake : (operand ++ rest).take operand.length = operand := List.take_left' rfl
  have hdrop : (operand ++ rest).drop operand.length = rest := List.drop_left' rfl
  have hlen : ¬(opcode :: (operand ++ rest)).length < operand.length + 1 := by simp
  rw [next_extended, h]
  simp only [Option.bind_eq_bind, Option.bind_some, if_neg hlen, List.take_succ_cons,
    List.drop_succ_cons, htake, hdrop]
  split <;> rfl

theorem exec_cons (header : Header) (op : Op) (ops : List Op) (s : Registers) :
    exec header (op :: ops) s = ((exec header ops (op.exec header s).1).1,
      (op.exec header s).2 ++ (exec header ops (op.exec header s).1).2) := rfl

theorem exec_append (header : Header) (ops₁ ops₂ : List Op) (s : Registers) :
    exec header (ops₁ ++ ops₂) s = ((exec header ops₂ (exec header ops₁ s).1).1,
      (exec header ops₁ s).2 ++ (exec header ops₂ (exec header ops₁ s).1).2) := by
  induction ops₁ generalizing s with
  | nil => rfl
  | cons op ops ih =>
    rw [List.cons_append, exec_cons, exec_cons, ih, List.append_assoc]

/-- Bytes that are read as instructions, whatever follows them. -/
structure Reads (header : Header) (bytes : List Byte) (ops : List Op) : Prop where
  length_le : ops.length ≤ bytes.length
  decode : ∀ rest fuel, decode header (ops.length + fuel) (bytes ++ rest) =
    (decode header fuel rest).map (ops ++ ·)

namespace Reads

variable {header : Header} {bytes bytes₁ bytes₂ : List Byte} {op : Op} {ops ops₁ ops₂ : List Op}

theorem nil (header : Header) : Reads header [] [] := by
  refine ⟨le_rfl, fun rest fuel => ?_⟩
  simp

theorem append (h₁ : Reads header bytes₁ ops₁) (h₂ : Reads header bytes₂ ops₂) :
    Reads header (bytes₁ ++ bytes₂) (ops₁ ++ ops₂) := by
  have hlen₁ := h₁.length_le
  have hlen₂ := h₂.length_le
  refine ⟨by simp only [List.length_append]; omega, fun rest fuel => ?_⟩
  rw [List.append_assoc, List.length_append, Nat.add_assoc, h₁.decode, h₂.decode, Option.map_map]
  refine congrArg (Option.map · _) (funext fun more => ?_)
  simp

attribute [local simp] next_standard in
/-- An instruction below the special opcodes. -/
theorem standard {opcode : Nat} {operands : List Byte} (hbase : opcode < header.opcode_base)
    (hlt : opcode < 256)
    (hnext : ∀ rest, next_standard header opcode (operands ++ rest) = some (op, rest)) :
    Reads header (BitVec.ofNat 8 opcode :: operands) [op] := by
  refine ⟨by simp, fun rest fuel => ?_⟩
  have hfuel : [op].length + fuel = fuel + 1 := Nat.add_comm 1 fuel
  rw [hfuel, List.cons_append, machine.dwarf.decode, toNat_ofNat hlt, if_neg (by omega), hnext]
  change (machine.dwarf.decode header fuel rest >>= fun ops => some (op :: ops)) = _
  cases machine.dwarf.decode header fuel rest <;> rfl

theorem special {opcode : Nat} (hbase : header.opcode_base ≤ opcode) (hlt : opcode < 256) :
    Reads header [BitVec.ofNat 8 opcode] [.special opcode] := by
  refine ⟨by simp, fun rest fuel => ?_⟩
  have hfuel : [Op.special opcode].length + fuel = fuel + 1 := Nat.add_comm 1 fuel
  rw [hfuel, List.cons_append, machine.dwarf.decode, toNat_ofNat hlt, if_pos hbase]
  rfl

/-- The whole of a program. -/
theorem table_eq (h : Reads header bytes ops) :
    table header bytes = some (exec header ops .initial).2 := by
  obtain ⟨fuel, hfuel⟩ := Nat.exists_eq_add_of_le h.length_le
  have hdecode := h.decode [] fuel
  rw [List.append_nil, ← hfuel, machine.dwarf.decode] at hdecode
  rw [table, hdecode, Option.map_some, Option.map_some, List.append_nil]

end Reads

end machine.dwarf
