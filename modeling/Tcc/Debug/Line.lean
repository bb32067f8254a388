import Tcc.Machine.Dwarf

/-! The line-number program that is emitted along with the code. -/

open machine.leb128 machine.dwarf

namespace tcc.dwarf

def DWARF_LINE_BASE : Int := -5

def DWARF_LINE_RANGE : Nat := 14

def DWARF_OPCODE_BASE : Nat := 13

def DWARF_MIN_INSTR_LEN : Nat := 1

def dwarf_line_opcodes : List Nat := [0, 1, 1, 1, 1, 0, 0, 0, 1, 0, 0, 1]

/-- The header constants that `tcc_debug_start` writes. -/
def header : Header :=
  ⟨DWARF_MIN_INSTR_LEN, DWARF_LINE_BASE, DWARF_LINE_RANGE, DWARF_OPCODE_BASE, dwarf_line_opcodes⟩

def DW_LNS_copy : Int := 1

def DW_LNS_advance_pc : Int := 2

def DW_LNS_advance_line : Int := 3

def DW_LNS_set_file : Int := 4

def DW_LNE_end_sequence : Int := 1

def DW_LNE_set_address : Int := 2

/-- A value of type `int`. -/
def int (x : Int) : Int := x.bmod (2 ^ 32)

/-- `dwarf_line`, with `last_line_num` and `new_file`. -/
structure LineState where
  line_data : List Byte
  cur_file : Nat
  last_file : Nat
  last_pc : Nat
  last_line : Int
  last_line_num : Int
  new_file : Bool

def dwarf_line_op (op : Int) (s : LineState) : LineState :=
  { s with line_data := s.line_data ++ [BitVec.ofInt 8 op] }

/-- The number of bytes is bounded by the first argument. -/
def uleb128_bytes : Nat → Nat → List Byte
  | 0, _ => []
  | n + 1, value =>
    let byte := value % 128
    let value := value / 128
    if value ≠ 0 then BitVec.ofNat 8 (byte + 128) :: uleb128_bytes n value else [BitVec.ofNat 8 byte]

def dwarf_uleb128_op (value : Nat) (s : LineState) : LineState :=
  { s with line_data := s.line_data ++ uleb128_bytes (value + 1) value }

/-- `value_end` is -1 for a negative number and 0 otherwise. -/
def sleb128_bytes (value_end : Int) : Nat → Int → List Byte
  | 0, _ => []
  | n + 1, value =>
    let byte := (value % 128).toNat
    let value := value / 128
    let last := value_end ≠ 0
    let more := value ≠ value_end ∨ ¬(64 ≤ byte ↔ last)
    if more then BitVec.ofNat 8 (byte + 128) :: sleb128_bytes value_end n value
    else [BitVec.ofNat 8 byte]

def dwarf_sleb128_op (value : Int) (s : LineState) : LineState :=
  { s with line_data := s.line_data ++
      sleb128_bytes (if value < 0 then -1 else 0) (value.natAbs + 1) value }

/-- The data of a section is extended by `section_ptr_add`. -/
def dwarf_uleb128 (value : Nat) (data : List Byte) : List Byte := data ++ uleb128_bytes (value + 1) value

def dwarf_sleb128 (value : Int) (data : List Byte) : List Byte :=
  data ++ sleb128_bytes (if value < 0 then -1 else 0) (value.natAbs + 1) value

/-- The loop of `dwarf_sleb128_size`. -/
def sleb128_size (value_end : Int) : Nat → Int → Nat
  | 0, _ => 0
  | n + 1, value =>
    let byte := (value % 128).toNat
    let value := value / 128
    let last := value_end ≠ 0
    if value ≠ value_end ∨ ¬(64 ≤ byte ↔ last) then sleb128_size value_end n value + 1 else 1

def dwarf_sleb128_size (value : Int) : Nat :=
  sleb128_size (if value < 0 then -1 else 0) (value.natAbs + 1) value

/-- `found` is the number of the current file in the file table, if it is there. -/
def dwarf_file (found : Option Nat) (s : LineState) : LineState :=
  { s with cur_file := found.getD s.cur_file }

/-- The line part of `tcc_debug_start`: the program starts at the address of the section. -/
def tcc_debug_start : LineState :=
  let s : LineState := ⟨[], 1, 0, 0, 1, 0, false⟩
  let s := dwarf_line_op 0 s
  let s := dwarf_uleb128_op (1 + 8) s
  let s := dwarf_line_op DW_LNE_set_address s
  { s with line_data := s.line_data ++ List.replicate 8 0#8 }

/-- What a call of `tcc_debug_line` depends on: whether code goes to the text section, the
    position in it, and the line and the number of the current file. -/
structure Call where
  in_text : Bool
  ind : Nat
  line_num : Option Int
  found : Option Nat

def put_new_file (found : Option Nat) (s : LineState) : LineState :=
  if s.new_file then dwarf_file found { s with new_file := false, last_line_num := 0 } else s

/-- `tcc_debug_bincl`, `tcc_debug_eincl` and `tcc_debug_putfile`. -/
def tcc_debug_file (found : Option Nat) (s : LineState) : LineState :=
  { dwarf_file found s with new_file := true }

def in_special_range (len_line : Int) : Prop :=
  DWARF_LINE_BASE ≤ len_line ∧ len_line ≤ DWARF_OPCODE_BASE + DWARF_LINE_BASE

instance (len_line : Int) : Decidable (in_special_range len_line) :=
  inferInstanceAs (Decidable (_ ∧ _))

/-- `n` in `tcc_debug_line`. -/
def special_opcode (len_pc len_line : Int) : Int :=
  int (len_pc * DWARF_LINE_RANGE + len_line + DWARF_OPCODE_BASE - DWARF_LINE_BASE)

def is_special (n : Int) : Prop := DWARF_OPCODE_BASE ≤ n ∧ n ≤ 255

instance (n : Int) : Decidable (is_special n) := inferInstanceAs (Decidable (_ ∧ _))

/-- `tcc_debug_line`: the change of the file. -/
def debug_line_file (s : LineState) : LineState :=
  if s.cur_file ≠ s.last_file then
    dwarf_uleb128_op s.cur_file (dwarf_line_op DW_LNS_set_file { s with last_file := s.cur_file })
  else s

/-- `tcc_debug_line`: the advances of position and line. -/
def debug_line_row (len_pc len_line : Int) (s : LineState) : LineState :=
  let n := special_opcode len_pc len_line
  if len_pc ≠ 0 ∧ in_special_range len_line ∧ is_special n then dwarf_line_op n s
  else
    let s :=
      if len_pc ≠ 0 then
        let n := special_opcode len_pc 0
        if is_special n then dwarf_line_op n s
        else dwarf_uleb128_op (len_pc % 2 ^ 64).toNat (dwarf_line_op DW_LNS_advance_pc s)
      else s
    if len_line ≠ 0 then
      let n := special_opcode 0 len_line
      if in_special_range len_line ∧ is_special n then dwarf_line_op n s
      else dwarf_sleb128_op len_line (dwarf_line_op DW_LNS_advance_line s)
    else s

def tcc_debug_line (c : Call) (s : LineState) : LineState :=
  if ¬c.in_text then s
  else
    match c.line_num with
    | none => s
    | some line_num =>
      let s := put_new_file c.found s
      if s.last_line_num = line_num then s
      else
        let s := { s with last_line_num := line_num }
        let len_pc := int (c.ind - s.last_pc) / DWARF_MIN_INSTR_LEN
        let len_line := int (line_num - s.last_line)
        let s := debug_line_row len_pc len_line (debug_line_file s)
        { s with last_pc := c.ind, last_line := line_num }

/-- The line part of `tcc_debug_funcstart`. -/
def tcc_debug_funcstart (c : Call) (s : LineState) : LineState :=
  dwarf_line_op DW_LNS_copy (tcc_debug_line c s)

/-- The eight bytes of an address. -/
def address_bytes : Nat → Nat → List Byte
  | 0, _ => []
  | n + 1, a => BitVec.ofNat 8 (a % 256) :: address_bytes n (a / 256)

/-- The line part of `tcc_debug_end`, where `base` is the address that the relocation of the
    program's first operand puts there. -/
def tcc_debug_end (base : Nat) (s : LineState) : List Byte :=
  let s := dwarf_line_op 0 s
  let s := dwarf_uleb128_op 1 s
  let s := dwarf_line_op DW_LNE_end_sequence s
  s.line_data.take 3 ++ address_bytes 8 base ++ s.line_data.drop 11

inductive Event where
  | file (found : Option Nat)
  | line (c : Call)
  | funcstart (c : Call)

def Event.step : Event → LineState → LineState
  | file found, s => tcc_debug_file found s
  | line c, s => tcc_debug_line c s
  | funcstart c, s => tcc_debug_funcstart c s

def run (s : LineState) : List Event → LineState
  | [] => s
  | e :: es => run (e.step s) es

end tcc.dwarf
