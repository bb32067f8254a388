import Mathlib.Data.Nat.Bitwise
import Mathlib.Logic.Function.Basic
import Mathlib.Tactic.Linarith
import Tcc.Debug.LineTable

/-! The reader of the line-number program that prints the places of a backtrace. -/

open machine.leb128 machine.dwarf

namespace tcc.dwarf

def MAX_128 : Nat := (8 * 8 + 6) / 7

def FILE_TABLE_SIZE : Nat := 512

def DW_LNE_define_file : Nat := 3

def DW_LNE_hi_user : Nat := 255

/-- The bytes from `ln` to `end`; the macro reads 0 where there are none. -/
def dwarf_read_1 : List Byte → Byte × List Byte
  | [] => (0#8, [])
  | b :: ln => (b, ln)

def dwarf_read_2 (ln : List Byte) : Nat × List Byte :=
  if 2 < ln.length then (le (ln.take 2), ln.drop 2) else (0, ln)

def dwarf_read_8 (ln : List Byte) : Nat × List Byte :=
  if 8 < ln.length then (le (ln.take 8), ln.drop 8) else (0, ln)

/-- The loop of `dwarf_read_uleb128`, with the number of turns that are left. -/
def read_uleb128 : Nat → Nat → BitVec 64 → List Byte → BitVec 64 × List Byte
  | 0, _, retval, cp => (retval, cp)
  | n + 1, i, retval, cp =>
    let (b, cp) := dwarf_read_1 cp
    let byte := b.setWidth 64
    let retval := retval ||| (byte &&& 0x7f#64) <<< (i * 7)
    if byte &&& 0x80#64 = 0#64 then (retval, cp) else read_uleb128 n (i + 1) retval cp

def dwarf_read_uleb128 (ln : List Byte) : BitVec 64 × List Byte := read_uleb128 MAX_128 0 0#64 ln

def read_sleb128 : Nat → Nat → BitVec 64 → List Byte → BitVec 64 × List Byte
  | 0, _, retval, cp => (retval, cp)
  | n + 1, i, retval, cp =>
    let (b, cp) := dwarf_read_1 cp
    let byte := b.setWidth 64
    let retval := retval ||| (byte &&& 0x7f#64) <<< (i * 7)
    if byte &&& 0x80#64 = 0#64 then
      (if byte &&& 0x40#64 ≠ 0#64 ∧ (i + 1) * 7 < 64 then retval ||| (-1#64) <<< ((i + 1) * 7) else retval, cp)
    else read_sleb128 n (i + 1) retval cp

def dwarf_read_sleb128 (ln : List Byte) : BitVec 64 × List Byte := read_sleb128 MAX_128 0 0#64 ln

/-- A string up to its zero byte. -/
def c_string (cp : List Byte) : List Byte := cp.takeWhile (· ≠ 0#8)

/-- `while (dwarf_read_1(ln, end)) {}` -/
def skip_string : List Byte → List Byte
  | [] => []
  | b :: ln => if b = 0#8 then ln else skip_string ln

/-- The locals of `rt_printline_dwarf` that change in a unit's program. -/
structure Locals where
  ln : List Byte
  pc : BitVec 64
  opindex : Nat
  line : Int
  filename : Option (List Byte)
  filename_table : Nat → List Byte
  filename_size : Nat
  function : Option (List Byte)
  func_addr : BitVec 64

/-- What an instruction does: the loop goes on, or `goto found`, or `goto next_line`. -/
inductive Outcome where
  | next (s : Locals)
  | found (s : Locals)
  | next_line

section

variable (header : Header) (max_ops_per_insn : Nat) (wanted_pc : BitVec 64)

def check_pc (last_pc : BitVec 64) (i : Int) (s : Locals) : Outcome :=
  if wanted_pc ≤ s.pc ∧ last_pc ≤ wanted_pc then .found s
  else .next { s with line := int (s.line + i) }

/-- The advance of `pc` by an operation advance. -/
def advance (off : Nat) (s : Locals) : Locals :=
  if max_ops_per_insn = 1 then
    { s with pc := s.pc + BitVec.ofNat 64 (off * header.minimum_instruction_length) }
  else
    let sum := (s.opindex + off) % 2 ^ 64
    { s with
      pc := s.pc + BitVec.ofNat 64 (sum / max_ops_per_insn * header.minimum_instruction_length)
      opindex := sum % max_ops_per_insn }

/-- `DW_LNE_define_file`: `name` begins one byte before `ln`. -/
def define_file (name : List Byte) (s : Locals) : Locals :=
  let filename_size := (s.filename_size + 1) % 2 ^ 32
  let ln := (dwarf_read_uleb128 (skip_string s.ln)).2
  let ln := (dwarf_read_uleb128 (dwarf_read_uleb128 ln).2).2
  { s with
    ln := ln
    filename_size := filename_size
    filename_table :=
      if filename_size < FILE_TABLE_SIZE then Function.update s.filename_table (filename_size - 1) name
      else s.filename_table }

/-- An extended instruction, after its first byte. -/
def extended (s : Locals) : Outcome :=
  let (value, cp) := dwarf_read_uleb128 s.ln
  let len := value.toNat % 2 ^ 32
  let s := { s with ln := cp.drop len }
  if len = 0 then .next_line
  else
    let (opcode, operand) := dwarf_read_1 cp
    if opcode.toNat = DW_LNE_set_address then
      .next { s with pc := BitVec.ofNat 64 (dwarf_read_8 operand).1, opindex := 0 }
    else if opcode.toNat = DW_LNE_define_file then .next (define_file (c_string (cp.drop (len - 1))) s)
    else if opcode.toNat = DW_LNE_hi_user - 1 then
      .next { s with function := some (c_string operand), func_addr := s.pc }
    else .next s

/-- The operands of an instruction that the reader has no case for. -/
def ignore_operands : Nat → List Byte → List Byte
  | 0, ln => ln
  | n + 1, ln => ignore_operands n (dwarf_read_uleb128 ln).2

/-- A turn of the loop over the instructions of a unit. -/
def instruction (s : Locals) : Outcome :=
  let last_pc := s.pc
  let (b, ln) := dwarf_read_1 s.ln
  let i := b.toNat
  let s := { s with ln := ln }
  if header.opcode_base ≤ i then
    let adjusted := i - header.opcode_base
    check_pc wanted_pc last_pc ((adjusted % header.line_range : Nat) + header.line_base)
      (advance header max_ops_per_insn (adjusted / header.line_range) s)
  else
    match i with
    | 0 => extended s
    | 2 =>
      let (off, ln) := dwarf_read_uleb128 s.ln
      check_pc wanted_pc last_pc 0 (advance header max_ops_per_insn off.toNat { s with ln := ln })
    | 3 =>
      let (value, ln) := dwarf_read_sleb128 s.ln
      .next { s with ln := ln, line := int (s.line + value.toInt) }
    | 4 =>
      let (value, ln) := dwarf_read_uleb128 s.ln
      let i := value.toNat % 2 ^ 32
      .next { s with
        ln := ln
        filename :=
          if i < FILE_TABLE_SIZE ∧ i < s.filename_size then some (s.filename_table i) else s.filename }
    | 8 =>
      check_pc wanted_pc last_pc 0
        (advance header max_ops_per_insn ((255 - header.opcode_base) / header.line_range) s)
    | 9 =>
      let (i, ln) := dwarf_read_2 s.ln
      check_pc wanted_pc last_pc 0 { s with ln := ln, pc := s.pc + BitVec.ofNat 64 i, opindex := 0 }
    | i => .next { s with ln := ignore_operands (header.standard_opcode_lengths.getD (i - 1) 0) s.ln }

/-- The loop, which ends with the bytes; every turn reads one at least. -/
def instructions : Nat → Locals → Option Locals
  | 0, _ => none
  | fuel + 1, s =>
    if s.ln = [] then none
    else
      match instruction header max_ops_per_insn wanted_pc s with
      | .next s => instructions fuel s
      | .found s => some s
      | .next_line => none

end

/-- The locals before the program of a unit that has the file table `names`. -/
def unit_start (names : List (List Byte)) (program : List Byte) : Locals :=
  { ln := program
    pc := 0#64
    opindex := 0
    line := 1
    filename := names.head?
    filename_table := fun i => names.getD i []
    filename_size := names.length
    function := none
    func_addr := 0#64 }

/-- `rt_printline_dwarf` on the program of a unit: what is found for an address. The number of
    operations in an instruction is the one that `tcc_debug_start` writes. -/
def rt_printline_dwarf (names : List (List Byte)) (program : List Byte) (wanted_pc : BitVec 64) :
    Option Locals :=
  instructions header 1 wanted_pc program.length (unit_start names program)

/-- The file and the line that are printed. -/
def Locals.place (s : Locals) : Option (List Byte) × Int := (s.filename, s.line)

/-- `tcc_debug_funcstart` under `do_backtrace`: the name of the function. -/
def debug_funcname (funcname : List Byte) (s : LineState) : LineState :=
  let s := dwarf_line_op 0 s
  let s := dwarf_uleb128_op (funcname.length + 2) s
  let s := dwarf_line_op (DW_LNE_hi_user - 1 : Nat) s
  { s with line_data := s.line_data ++ (funcname ++ [0#8]) }

/-- The events of a unit whose functions are named for backtraces. -/
inductive Traced where
  | file (found : Option Nat)
  | line (c : Call)
  | funcstart (c : Call) (funcname : List Byte)

def Traced.step : Traced → LineState → LineState
  | file found, s => tcc_debug_file found s
  | line c, s => tcc_debug_line c s
  | funcstart c funcname, s => debug_funcname funcname (tcc_debug_funcstart c s)

def Traced.marks : Traced → LineState → List Mark
  | file _, _ => []
  | line c, s => c.marks s
  | funcstart c _, s => c.marks s

def run_traced (s : LineState) : List Traced → LineState
  | [] => s
  | e :: es => run_traced (e.step s) es

/-- The calls that are recorded, in order. -/
def recorded (s : LineState) : List Traced → List Mark
  | [] => []
  | e :: es => e.marks s ++ recorded (e.step s) es

def place_of (names : List (List Byte)) (program : List Byte) (wanted_pc : BitVec 64) :
    Option (Option (List Byte) × Int) :=
  (rt_printline_dwarf names program wanted_pc).map Locals.place

section

variable {rest : List Byte} {acc b k : Nat}

theorem toNat_setWidth_byte (x : Byte) : (x.setWidth 64).toNat = x.toNat := by
  rw [BitVec.toNat_setWidth]
  exact Nat.mod_eq_of_lt (lt_trans x.isLt (by decide))

theorem low_bits (x : Byte) : x.setWidth 64 &&& 0x7f#64 = BitVec.ofNat 64 (x.toNat % 128) := by
  have hlt := x.isLt
  apply BitVec.eq_of_toNat_eq
  have hmod : x.toNat &&& (0x7f#64).toNat = x.toNat % 2 ^ 7 := Nat.and_two_pow_sub_one_eq_mod x.toNat 7
  rw [BitVec.toNat_and, toNat_setWidth_byte, hmod, BitVec.toNat_ofNat]
  omega

theorem and_bit_eq_zero (x : Byte) {j : Nat} (hj : j < 64) :
    x.setWidth 64 &&& BitVec.ofNat 64 (2 ^ j) = 0#64 ↔ x.toNat / 2 ^ j % 2 = 0 := by
  have hpow : 2 ^ j % 2 ^ 64 = 2 ^ j := Nat.mod_eq_of_lt (Nat.pow_lt_pow_right (by decide) hj)
  rw [← BitVec.toNat_inj, BitVec.toNat_and, toNat_setWidth_byte, BitVec.toNat_ofNat, hpow, Nat.and_two_pow,
    Nat.testBit_eq_decide_div_mod_eq]
  have hpos : 0 < 2 ^ j := Nat.pow_pos (by decide)
  by_cases h : x.toNat / 2 ^ j % 2 = 1
  · simp [h]
  · have hzero : x.toNat / 2 ^ j % 2 = 0 := by omega
    simp [hzero]

theorem high_bit (x : Byte) : x.setWidth 64 &&& 0x80#64 = 0#64 ↔ x.toNat < 128 := by
  have hlt := x.isLt
  have hbit := @and_bit_eq_zero x 7 (by decide)
  exact hbit.trans ⟨fun h => by omega, fun h => by omega⟩

theorem sign_bit (x : Byte) : x.setWidth 64 &&& 0x40#64 = 0#64 ↔ x.toNat % 128 < 64 := by
  have hbit := @and_bit_eq_zero x 6 (by decide)
  exact hbit.trans ⟨fun h => by omega, fun h => by omega⟩

/-- Bits that are put above the ones that are there. -/
theorem or_shift (hacc : acc < 2 ^ k) (hb : b < 128) :
    BitVec.ofNat 64 acc ||| BitVec.ofNat 64 b <<< k = BitVec.ofNat 64 (acc + b * 2 ^ k) := by
  have hor : acc ||| b <<< k = acc + b * 2 ^ k := by
    rw [Nat.or_comm, ← Nat.shiftLeft_add_eq_or_of_lt hacc, Nat.shiftLeft_eq, Nat.add_comm]
  apply BitVec.eq_of_toNat_eq
  rw [BitVec.toNat_or, BitVec.toNat_shiftLeft, BitVec.toNat_ofNat, BitVec.toNat_ofNat, BitVec.toNat_ofNat, ← hor,
    Nat.or_mod_two_pow, Nat.mod_eq_of_lt (by omega : b < 2 ^ 64)]

theorem or_ones (hacc : acc < 2 ^ k) (hk : k < 64) :
    BitVec.ofNat 64 acc ||| (-1#64) <<< k = BitVec.ofInt 64 ((acc : Int) - 2 ^ k) := by
  have hpow : 2 ^ k * 2 ^ (64 - k) = 2 ^ 64 := by
    rw [← Nat.pow_add]
    exact congrArg (2 ^ ·) (by omega)
  have hlt : 2 ^ k < 2 ^ 64 := Nat.pow_lt_pow_right (by decide) hk
  have hones : ((2 ^ 64 - 1) <<< k) % 2 ^ 64 = (2 ^ (64 - k) - 1) <<< k := by
    rw [Nat.shiftLeft_eq, Nat.shiftLeft_eq, Nat.sub_mul, Nat.sub_mul, Nat.one_mul, Nat.mul_comm (2 ^ (64 - k)),
      hpow]
    have hsplit : 2 ^ 64 * 2 ^ k - 2 ^ k = (2 ^ 64 - 2 ^ k) + 2 ^ 64 * (2 ^ k - 1) := by
      have hpos : 0 < 2 ^ k := Nat.pow_pos (by decide)
      rw [Nat.mul_sub, Nat.mul_one]
      have hle : 2 ^ 64 * 1 ≤ 2 ^ 64 * 2 ^ k := Nat.mul_le_mul_left _ hpos
      omega
    rw [hsplit, Nat.add_mul_mod_self_left]
    exact Nat.mod_eq_of_lt (by have : 0 < 2 ^ k := Nat.pow_pos (by decide); omega)
  have hor : acc ||| (2 ^ (64 - k) - 1) <<< k = acc + (2 ^ 64 - 2 ^ k) := by
    rw [Nat.or_comm, ← Nat.shiftLeft_add_eq_or_of_lt hacc, Nat.shiftLeft_eq, Nat.sub_mul, Nat.one_mul,
      Nat.mul_comm (2 ^ (64 - k)), hpow, Nat.add_comm]
  apply BitVec.eq_of_toNat_eq
  rw [BitVec.toNat_or, BitVec.toNat_shiftLeft, BitVec.toNat_ofNat, BitVec.toNat_ofInt, Nat.mod_eq_of_lt (by omega)]
  have hneg : (-1#64).toNat = 2 ^ 64 - 1 := rfl
  rw [hneg, hones, hor]
  have hcast : ((2 : Int) ^ k) = ((2 ^ k : Nat) : Int) := by push_cast; rfl
  rw [hcast]
  omega

/-- A power of two that is out of the word. -/
theorem ofInt_add_pow (x : Int) (hk : 64 ≤ k) : BitVec.ofInt 64 (x + 2 ^ k) = BitVec.ofInt 64 x := by
  obtain ⟨j, rfl⟩ := Nat.exists_eq_add_of_le hk
  apply BitVec.eq_of_toInt_eq
  rw [BitVec.toInt_ofInt, BitVec.toInt_ofInt, Int.pow_add]
  exact Int.add_mul_bmod_self_left x (2 ^ 64) (2 ^ j)

theorem succ_mul_pow (i : Nat) : 2 ^ ((i + 1) * 7) = 128 * 2 ^ (i * 7) := by
  rw [Nat.add_mul, Nat.one_mul, Nat.pow_add, Nat.mul_comm]

theorem acc_lt {i : Nat} (hacc : acc < 2 ^ (i * 7)) (hb : b < 128) :
    acc + b * 2 ^ (i * 7) < 2 ^ ((i + 1) * 7) := by
  rw [succ_mul_pow]
  have hle : b * 2 ^ (i * 7) ≤ 127 * 2 ^ (i * 7) := Nat.mul_le_mul_right _ (by omega)
  omega

/-- What is read from the bytes of a number that fits in the turns that are left. -/
theorem read_uleb128_bytes {fuel m n i value : Nat} (hfuel : value < fuel) (hvalue : value < 128 ^ m)
    (hpos : 0 < m) (hn : m ≤ n) (hacc : acc < 2 ^ (i * 7)) :
    read_uleb128 n i (BitVec.ofNat 64 acc) (uleb128_bytes fuel value ++ rest) =
      (BitVec.ofNat 64 (acc + value * 2 ^ (i * 7)), rest) := by
  induction fuel generalizing value m n i acc with
  | zero => omega
  | succ fuel ih =>
    obtain ⟨n, rfl⟩ : ∃ n', n = n' + 1 := ⟨n - 1, by omega⟩
    obtain ⟨m, rfl⟩ : ∃ m', m = m' + 1 := ⟨m - 1, by omega⟩
    have hmod : value % 128 < 128 := Nat.mod_lt _ (by decide)
    rw [uleb128_bytes]
    split
    · rename_i hmore
      have hbyte : (BitVec.ofNat 8 (value % 128 + 128)).toNat = value % 128 + 128 := toNat_ofNat (by omega)
      have hnot : ¬(BitVec.ofNat 8 (value % 128 + 128)).toNat < 128 := by omega
      have hlow : (BitVec.ofNat 8 (value % 128 + 128)).toNat % 128 = value % 128 := by omega
      have hdiv : value / 128 < 128 ^ m := by
        rw [Nat.pow_succ] at hvalue
        exact Nat.div_lt_of_lt_mul (by rwa [Nat.mul_comm])
      have hm : 0 < m := by
        rcases Nat.eq_zero_or_pos m with rfl | h
        · simp only [Nat.pow_zero] at hdiv
          omega
        · exact h
      rw [List.cons_append, read_uleb128, dwarf_read_1]
      simp only [high_bit, if_neg hnot, low_bits, hlow]
      rw [or_shift hacc hmod, ih (by omega) hdiv hm (by omega) (acc_lt hacc hmod), succ_mul_pow]
      have hsum : acc + value % 128 * 2 ^ (i * 7) + value / 128 * (128 * 2 ^ (i * 7)) =
          acc + value * 2 ^ (i * 7) := by
        have hvalue : value * 2 ^ (i * 7) = (value % 128 + 128 * (value / 128)) * 2 ^ (i * 7) := by
          rw [Nat.mod_add_div]
        rw [hvalue]
        ring
      rw [hsum]
    · rename_i hlast
      have hlt : value % 128 = value := by omega
      rw [hlt] at hmod ⊢
      have hbyte : (BitVec.ofNat 8 value).toNat = value := toNat_ofNat (by omega)
      have hyes : (BitVec.ofNat 8 value).toNat < 128 := by omega
      have hlow : (BitVec.ofNat 8 value).toNat % 128 = value := by omega
      rw [List.singleton_append, read_uleb128, dwarf_read_1]
      simp only [high_bit, if_pos hyes, low_bits, hlow]
      rw [or_shift hacc hmod]

theorem dwarf_read_uleb128_bytes {fuel value : Nat} (hfuel : value < fuel) (hvalue : value < 2 ^ 64) :
    dwarf_read_uleb128 (uleb128_bytes fuel value ++ rest) = (BitVec.ofNat 64 value, rest) := by
  have hread := @read_uleb128_bytes rest 0 fuel 10 MAX_128 0 value hfuel (lt_trans hvalue (by decide)) (by decide)
    (by decide) (by decide)
  rw [Nat.zero_mul, Nat.pow_zero, Nat.mul_one, Nat.zero_add] at hread
  exact hread

/-- A number that is neither 0 nor -1 gets nearer to them. -/
theorem natAbs_div_lt {value e : Int} {fuel : Nat} (hfuel : value.natAbs < fuel + 1)
    (he : (0 ≤ value ∧ e = 0) ∨ (value < 0 ∧ e = -1))
    (hmore : value / 128 ≠ e ∨ ¬(64 ≤ (value % 128).toNat ↔ e ≠ 0)) : (value / 128).natAbs < fuel := by
  have hne : value ≠ 0 ∧ value ≠ -1 := by
    constructor
    · rintro rfl
      obtain ⟨-, rfl⟩ | ⟨hneg, -⟩ := he
      · simp at hmore
      · omega
    · rintro rfl
      obtain ⟨hpos, -⟩ | ⟨-, rfl⟩ := he
      · omega
      · simp at hmore
  omega

/-- What is read from the bytes of a number with a sign that fits in the turns that are left. -/
theorem read_sleb128_bytes {fuel m n i : Nat} {value e : Int} (hfuel : value.natAbs < fuel)
    (he : (0 ≤ value ∧ e = 0) ∨ (value < 0 ∧ e = -1)) (hlo : -128 ^ m ≤ 2 * value) (hhi : 2 * value < 128 ^ m)
    (hpos : 0 < m) (hn : m ≤ n) (hacc : acc < 2 ^ (i * 7)) :
    read_sleb128 n i (BitVec.ofNat 64 acc) (sleb128_bytes e fuel value ++ rest) =
      (BitVec.ofInt 64 (acc + value * 2 ^ (i * 7)), rest) := by
  induction fuel generalizing value m n i acc with
  | zero => omega
  | succ fuel ih =>
    obtain ⟨n, rfl⟩ : ∃ n', n = n' + 1 := ⟨n - 1, by omega⟩
    obtain ⟨m, rfl⟩ : ∃ m', m = m' + 1 := ⟨m - 1, by omega⟩
    have hbits : (value % 128).toNat < 128 := by omega
    rw [Int.pow_succ] at hlo hhi
    rw [sleb128_bytes]
    split
    · rename_i hmore
      have hbyte : (BitVec.ofNat 8 ((value % 128).toNat + 128)).toNat = (value % 128).toNat + 128 :=
        toNat_ofNat (by omega)
      have hnot : ¬(BitVec.ofNat 8 ((value % 128).toNat + 128)).toNat < 128 := by omega
      have hlow : (BitVec.ofNat 8 ((value % 128).toNat + 128)).toNat % 128 = (value % 128).toNat := by omega
      have hnear := natAbs_div_lt hfuel he hmore
      have hm : 0 < m := by
        rcases Nat.eq_zero_or_pos m with rfl | h
        · -- a number of seven bits has one byte
          obtain ⟨hvalue, rfl⟩ | ⟨hvalue, rfl⟩ := he
          · simp only [Int.pow_zero, ne_eq, not_true_eq_false, iff_false, not_not] at hlo hhi hmore
            omega
          · simp only [Int.pow_zero, ne_eq, Int.reduceNeg, neg_eq_zero, one_ne_zero, not_false_eq_true,
              iff_true] at hlo hhi hmore
            omega
        · exact h
      rw [List.cons_append, read_sleb128, dwarf_read_1]
      simp only [high_bit, if_neg hnot, low_bits, hlow]
      obtain ⟨m, rfl⟩ : ∃ m', m = m' + 1 := ⟨m - 1, by omega⟩
      rw [Int.pow_succ] at hlo hhi
      rw [or_shift hacc hbits, ih hnear (by omega) (by rw [Int.pow_succ]; omega) (by rw [Int.pow_succ]; omega)
        hm (by omega) (acc_lt hacc hbits)]
      have hpow : (2 : Int) ^ ((i + 1) * 7) = 128 * 2 ^ (i * 7) := by exact_mod_cast succ_mul_pow i
      have hdigit : ((value % 128).toNat : Int) = value % 128 := by omega
      have hsum : ((acc + (value % 128).toNat * 2 ^ (i * 7) : Nat) : Int) +
          value / 128 * 2 ^ ((i + 1) * 7) = acc + value * 2 ^ (i * 7) := by
        have hvalue : value * 2 ^ (i * 7) = (value % 128 + 128 * (value / 128)) * 2 ^ (i * 7) := by
          rw [Int.emod_add_mul_ediv]
        rw [hvalue, hpow]
        push_cast
        rw [hdigit]
        ring
      rw [hsum]
    · rename_i hlast
      rw [not_or, not_not, not_not] at hlast
      obtain ⟨hdiv, hsign⟩ := hlast
      have hbyte : (BitVec.ofNat 8 (value % 128).toNat).toNat = (value % 128).toNat := toNat_ofNat (by omega)
      have hyes : (BitVec.ofNat 8 (value % 128).toNat).toNat < 128 := by omega
      have hlow : (BitVec.ofNat 8 (value % 128).toNat).toNat % 128 = (value % 128).toNat := by omega
      rw [List.singleton_append, read_sleb128, dwarf_read_1]
      simp only [high_bit, if_pos hyes, low_bits, hlow, sign_bit, ne_eq]
      rw [or_shift hacc hbits]
      refine Prod.ext ?_ rfl
      simp only
      obtain ⟨hvalue, rfl⟩ | ⟨hvalue, rfl⟩ := he
      · have hsmall : (value % 128).toNat < 64 := by
          simp only [ne_eq, not_true_eq_false, iff_false] at hsign
          omega
        have hdigit : ((value % 128).toNat : Int) = value := by omega
        rw [if_neg (fun h => h.1 hsmall), ← BitVec.ofInt_natCast]
        push_cast
        rw [hdigit]
      · have hlarge : ¬(value % 128).toNat < 64 := by
          simp only [ne_eq, Int.reduceNeg, neg_eq_zero, one_ne_zero, not_false_eq_true, iff_true] at hsign
          omega
        have hdigit : ((value % 128).toNat : Int) = value + 128 := by omega
        have hpow : (2 : Int) ^ ((i + 1) * 7) = 128 * 2 ^ (i * 7) := by exact_mod_cast succ_mul_pow i
        by_cases hturn : (i + 1) * 7 < 64
        · rw [if_pos ⟨hlarge, hturn⟩, or_ones (acc_lt hacc hbits) hturn, hpow]
          push_cast
          rw [hdigit]
          refine congrArg (BitVec.ofInt 64) ?_
          ring
        · -- the sign is the highest bit of the word
          rw [if_neg (fun h => hturn h.2), ← BitVec.ofInt_natCast]
          push_cast
          rw [hdigit]
          have hsum : (acc : Int) + (value + 128) * 2 ^ (i * 7) = acc + value * 2 ^ (i * 7) + 2 ^ ((i + 1) * 7) := by
            rw [hpow]
            ring
          rw [hsum, ofInt_add_pow _ (by omega)]

theorem dwarf_read_sleb128_bytes {value : Int} (h : -2 ^ 63 ≤ value ∧ value < 2 ^ 63) :
    dwarf_read_sleb128 (sleb128_bytes (if value < 0 then -1 else 0) (value.natAbs + 1) value ++ rest) =
      (BitVec.ofInt 64 value, rest) := by
  have hread := @read_sleb128_bytes rest 0 (value.natAbs + 1) 10 MAX_128 0 value (if value < 0 then -1 else 0)
    (Nat.lt_succ_self _) (by split <;> omega) (by omega) (by omega) (by decide) (by decide) (by decide)
  simp only [Nat.zero_mul, Int.pow_zero, Int.mul_one, Nat.cast_zero, Int.zero_add] at hread
  exact hread

theorem delimited_uleb128_bytes {fuel value : Nat} (hfuel : value < fuel) : Delimited (uleb128_bytes fuel value) := by
  induction fuel generalizing value with
  | zero => omega
  | succ fuel ih =>
    have hmod : value % 128 < 128 := Nat.mod_lt _ (by decide)
    rw [uleb128_bytes]
    split
    · exact .more hmod (ih (by omega))
    · exact .last hmod

theorem delimited_sleb128_bytes {fuel : Nat} {value e : Int} (hfuel : value.natAbs < fuel)
    (he : (0 ≤ value ∧ e = 0) ∨ (value < 0 ∧ e = -1)) : Delimited (sleb128_bytes e fuel value) := by
  induction fuel generalizing value with
  | zero => omega
  | succ fuel ih =>
    have hbits : (value % 128).toNat < 128 := by omega
    rw [sleb128_bytes]
    split
    · rename_i hmore
      exact .more hbits (ih (natAbs_div_lt hfuel he hmore) (by omega))
    · exact .last hbits

theorem sleb128_size_eq (e : Int) (fuel : Nat) (value : Int) :
    sleb128_size e fuel value = (sleb128_bytes e fuel value).length := by
  induction fuel generalizing value with
  | zero => rfl
  | succ fuel ih =>
    rw [sleb128_size, sleb128_bytes]
    split
    · rw [List.length_cons, ih]
    · rfl

/-- Every number of 64 bits comes back, whatever follows its bytes. -/
theorem leb128_round_trip :
    (∀ value : BitVec 64, ∃ bytes, Delimited bytes ∧
      (∀ data, dwarf_uleb128 value.toNat data = data ++ bytes) ∧
      (∀ s : LineState, dwarf_uleb128_op value.toNat s = s.add bytes) ∧
      ∀ rest, dwarf_read_uleb128 (bytes ++ rest) = (value, rest)) ∧
    ∀ value : BitVec 64, ∃ bytes, Delimited bytes ∧
      (∀ data, dwarf_sleb128 value.toInt data = data ++ bytes) ∧
      (∀ s : LineState, dwarf_sleb128_op value.toInt s = s.add bytes) ∧
      (∀ rest, dwarf_read_sleb128 (bytes ++ rest) = (value, rest)) ∧
      dwarf_sleb128_size value.toInt = bytes.length := by
  constructor
  · intro value
    refine ⟨_, delimited_uleb128_bytes (Nat.lt_succ_self value.toNat), fun _ => rfl, fun _ => rfl, fun rest => ?_⟩
    rw [dwarf_read_uleb128_bytes (Nat.lt_succ_self _) value.isLt, BitVec.ofNat_toNat, BitVec.setWidth_eq]
  · intro value
    refine ⟨_, delimited_sleb128_bytes (Nat.lt_succ_self value.toInt.natAbs) ?_, fun _ => rfl, fun _ => rfl,
      fun rest => ?_, sleb128_size_eq _ _ _⟩
    · split <;> omega
    · have hlo := @BitVec.le_toInt 64 value
      have hhi := @BitVec.toInt_lt 64 value
      rw [dwarf_read_sleb128_bytes (by omega), BitVec.ofInt_toInt]

end

section

variable {wanted_pc : BitVec 64} {s t u : Locals} {rest : List Byte}

/-- The loop goes on from one state to another. -/
def Goes (wanted_pc : BitVec 64) (s t : Locals) : Prop :=
  ∃ k, k + t.ln.length ≤ s.ln.length ∧
    ∀ fuel, instructions header 1 wanted_pc (fuel + k) s = instructions header 1 wanted_pc fuel t

theorem Goes.refl (s : Locals) : Goes wanted_pc s s := ⟨0, by omega, fun _ => rfl⟩

theorem Goes.trans (h₁ : Goes wanted_pc s t) (h₂ : Goes wanted_pc t u) : Goes wanted_pc s u := by
  obtain ⟨k₁, hlen₁, heq₁⟩ := h₁
  obtain ⟨k₂, hlen₂, heq₂⟩ := h₂
  refine ⟨k₂ + k₁, by omega, fun fuel => ?_⟩
  rw [← Nat.add_assoc, heq₁, heq₂]

theorem Goes.of_next (h : instruction header 1 wanted_pc s = .next t) (hlen : t.ln.length < s.ln.length) :
    Goes wanted_pc s t := by
  refine ⟨1, by omega, fun fuel => ?_⟩
  have hne : s.ln ≠ [] := by
    intro hnil
    rw [hnil] at hlen
    exact Nat.not_lt_zero _ hlen
  rw [instructions, if_neg hne, h]

theorem advance_one (off : Nat) (s : Locals) :
    advance header 1 off s = { s with pc := s.pc + BitVec.ofNat 64 off } := by
  rw [advance, if_pos rfl]
  simp [header, DWARF_MIN_INSTR_LEN]

/-- An instruction that advances the address by `len_pc` and, if nothing is found, the line. -/
def Advance (wanted_pc : BitVec 64) (bytes : List Byte) (len_pc : Nat) (len_line : Int) : Prop :=
  ∀ (s : Locals) (rest : List Byte), s.ln = bytes ++ rest → instruction header 1 wanted_pc s =
    check_pc wanted_pc s.pc len_line { s with ln := rest, pc := s.pc + BitVec.ofNat 64 len_pc }

theorem advance_special {n len_line : Int} {len_pc : Nat} (hrange : in_special_range len_line)
    (hn : n = 14 * len_pc + len_line + 18) (hspecial : is_special n) :
    Advance wanted_pc [BitVec.ofInt 8 n] len_pc len_line := by
  intro s rest hln
  rw [is_special_iff] at hspecial
  rw [in_special_range_iff] at hrange
  have hbyte : (BitVec.ofInt 8 n).toNat = n.toNat := by
    rw [BitVec.toNat_ofInt]
    omega
  have hbase : header.opcode_base ≤ n.toNat := by
    change 13 ≤ n.toNat
    omega
  have hdiv : (n.toNat - header.opcode_base) / header.line_range = len_pc := by
    change (n.toNat - 13) / 14 = len_pc
    omega
  have hmod : (((n.toNat - header.opcode_base) % header.line_range : Nat) : Int) + header.line_base = len_line := by
    change (((n.toNat - 13) % 14 : Nat) : Int) + -5 = len_line
    omega
  rw [instruction, hln, List.singleton_append, dwarf_read_1]
  simp only [hbyte, if_pos hbase, hdiv, hmod, advance_one]

theorem advance_pc {len_pc : Nat} (h : len_pc < 2 ^ 64) :
    Advance wanted_pc (BitVec.ofInt 8 DW_LNS_advance_pc :: uleb128_bytes (len_pc + 1) len_pc) len_pc 0 := by
  intro s rest hln
  have hread := @dwarf_read_uleb128_bytes rest (len_pc + 1) len_pc (Nat.lt_succ_self _) h
  have hmod : (BitVec.ofNat 64 len_pc).toNat = len_pc := by
    rw [BitVec.toNat_ofNat]
    exact Nat.mod_eq_of_lt h
  have hopcode : (BitVec.ofInt 8 DW_LNS_advance_pc).toNat = 2 := rfl
  rw [instruction, hln, List.cons_append, dwarf_read_1]
  simp only [hopcode, hread, advance_one, hmod]
  rfl

/-- Below the address that is looked for, an advance is only made. -/
theorem Advance.goes {bytes : List Byte} {len_pc : Nat} {len_line : Int}
    (h : Advance wanted_pc bytes len_pc len_line) (hln : s.ln = bytes ++ rest) (hne : bytes ≠ [])
    (hlt : s.pc + BitVec.ofNat 64 len_pc < wanted_pc) :
    Goes wanted_pc s { s with
      ln := rest, pc := s.pc + BitVec.ofNat 64 len_pc, line := int (s.line + len_line) } := by
  refine Goes.of_next ?_ ?_
  · rw [h s rest hln, check_pc, if_neg (fun hfound => absurd hfound.1 (BitVec.not_le.mpr hlt))]
  · rw [hln, List.length_append]
    have := List.length_pos_iff.mpr hne
    simp only
    omega

/-- An advance over the address that is looked for ends the loop before the line is changed. -/
theorem Advance.found {bytes : List Byte} {len_pc : Nat} {len_line : Int}
    (h : Advance wanted_pc bytes len_pc len_line) (hln : s.ln = bytes ++ rest) (hne : bytes ≠ [])
    (hle : wanted_pc ≤ s.pc + BitVec.ofNat 64 len_pc) (hlast : s.pc ≤ wanted_pc) (fuel : Nat) :
    (instructions header 1 wanted_pc (fuel + 1) s).map Locals.place = some s.place := by
  have hnil : s.ln ≠ [] := by
    rw [hln]
    exact List.append_ne_nil_of_left_ne_nil hne rest
  rw [instructions, if_neg hnil, h s rest hln, check_pc, if_pos ⟨hle, hlast⟩]
  rfl

theorem goes_advance_line {d : Int} (h : -2 ^ 31 ≤ d ∧ d < 2 ^ 31)
    (hln : s.ln = BitVec.ofInt 8 DW_LNS_advance_line ::
      sleb128_bytes (if d < 0 then -1 else 0) (d.natAbs + 1) d ++ rest) :
    Goes wanted_pc s { s with ln := rest, line := int (s.line + d) } := by
  have hread := @dwarf_read_sleb128_bytes rest d (by omega)
  have hopcode : (BitVec.ofInt 8 DW_LNS_advance_line).toNat = 3 := rfl
  have hvalue : (BitVec.ofInt 64 d).toInt = d := by
    rw [BitVec.toInt_ofInt, Int.bmod_def]
    omega
  refine Goes.of_next ?_ ?_
  · rw [instruction, hln, List.cons_append, dwarf_read_1]
    simp only [hopcode, hread, hvalue]
    rfl
  · rw [hln, List.length_append, List.length_cons]
    simp only
    omega

theorem goes_set_file {n : Nat} (hlt : n < FILE_TABLE_SIZE) (hsize : n < s.filename_size)
    (hln : s.ln = BitVec.ofInt 8 DW_LNS_set_file :: uleb128_bytes (n + 1) n ++ rest) :
    Goes wanted_pc s { s with ln := rest, filename := some (s.filename_table n) } := by
  have hsmall : n < 512 := hlt
  have hread := @dwarf_read_uleb128_bytes rest (n + 1) n (Nat.lt_succ_self _) (by omega)
  have hopcode : (BitVec.ofInt 8 DW_LNS_set_file).toNat = 4 := rfl
  have hmod : (BitVec.ofNat 64 n).toNat % 2 ^ 32 = n := by
    rw [BitVec.toNat_ofNat]
    omega
  refine Goes.of_next ?_ ?_
  · rw [instruction, hln, List.cons_append, dwarf_read_1]
    simp only [hopcode, hread, hmod, if_pos (show n < FILE_TABLE_SIZE ∧ n < s.filename_size from ⟨hlt, hsize⟩)]
    rfl
  · rw [hln, List.length_append, List.length_cons]
    simp only
    omega

theorem goes_copy (hln : s.ln = BitVec.ofInt 8 DW_LNS_copy :: rest) :
    Goes wanted_pc s { s with ln := rest } := by
  refine Goes.of_next ?_ ?_
  · rw [instruction, hln, dwarf_read_1]
    rfl
  · rw [hln]
    exact Nat.lt_succ_self _

/-- An extended instruction that is not `DW_LNE_define_file` only changes locals. -/
theorem extended_bytes {opcode : Byte} {operand : List Byte}
    (hlen : operand.length + 1 < 2 ^ 31)
    (hln : s.ln = uleb128_bytes (operand.length + 2) (operand.length + 1) ++ opcode :: (operand ++ rest)) :
    extended s =
      if opcode.toNat = DW_LNE_set_address then
        .next { s with ln := rest, pc := BitVec.ofNat 64 (dwarf_read_8 (operand ++ rest)).1, opindex := 0 }
      else if opcode.toNat = DW_LNE_define_file then
        .next (define_file (c_string ((opcode :: (operand ++ rest)).drop operand.length)) { s with ln := rest })
      else if opcode.toNat = DW_LNE_hi_user - 1 then
        .next { s with ln := rest, function := some (c_string (operand ++ rest)), func_addr := s.pc }
      else .next { s with ln := rest } := by
  have hread := @dwarf_read_uleb128_bytes (opcode :: (operand ++ rest)) (operand.length + 2)
    (operand.length + 1) (Nat.lt_succ_self _) (by omega)
  have hmod : (BitVec.ofNat 64 (operand.length + 1)).toNat % 2 ^ 32 = operand.length + 1 := by
    rw [BitVec.toNat_ofNat]
    omega
  have hdrop : (operand ++ rest).drop operand.length = rest := List.drop_left' rfl
  rw [extended, hln]
  simp only [hread, hmod, List.drop_succ_cons, hdrop, dwarf_read_1, Nat.succ_ne_zero, if_false,
    Nat.add_sub_cancel]

/-- A line fits in an `int`. -/
def IsInt (line : Int) : Prop := -2 ^ 31 ≤ line ∧ line < 2 ^ 31

instance (line : Int) : Decidable (IsInt line) := inferInstanceAs (Decidable (_ ∧ _))

theorem IsInt.int_eq {line : Int} (h : IsInt line) : int line = line := int_of_range h

/-- The bytes for an advance of the address alone. -/
theorem pc_bytes_advance {len_pc : Nat} (hpos : 0 < len_pc) (h : 14 * (len_pc : Int) + 18 < 2 ^ 31) :
    Advance wanted_pc (pc_bytes len_pc) len_pc 0 ∧ pc_bytes len_pc ≠ [] := by
  have hn : special_opcode len_pc 0 = 14 * len_pc + 0 + 18 := special_opcode_eq (by omega)
  have htoNat : ((len_pc : Int) % 2 ^ 64).toNat = len_pc := by omega
  rw [pc_bytes, if_pos (by omega)]
  split
  · rename_i hspecial
    exact ⟨advance_special (by decide) hn hspecial, List.cons_ne_nil _ _⟩
  · rw [htoNat]
    exact ⟨advance_pc (by omega), List.cons_ne_nil _ _⟩

/-- The bytes of a row begin with the advance of the address. -/
theorem row_bytes_advance {len_pc : Nat} {len_line : Int} (hpos : 0 < len_pc)
    (hline : -2 ^ 31 ≤ len_line ∧ len_line < 2 ^ 31) (hpc : 14 * (len_pc : Int) + 18 < 2 ^ 31)
    (hboth : 14 * (len_pc : Int) + len_line + 18 < 2 ^ 31) :
    (Advance wanted_pc (row_bytes len_pc len_line) len_pc len_line ∧ row_bytes len_pc len_line ≠ []) ∨
      (Advance wanted_pc (pc_bytes len_pc) len_pc 0 ∧ pc_bytes len_pc ≠ [] ∧
        row_bytes len_pc len_line = pc_bytes len_pc ++ line_bytes len_line) := by
  rw [row_bytes]
  split
  · rename_i hfull
    obtain ⟨-, hrange, hspecial⟩ := hfull
    have hrange' := (in_special_range_iff len_line).mp hrange
    have hn : special_opcode len_pc len_line = 14 * len_pc + len_line + 18 := special_opcode_eq (by omega)
    exact Or.inl ⟨advance_special hrange hn hspecial, List.cons_ne_nil _ _⟩
  · obtain ⟨hadvance, hne⟩ := @pc_bytes_advance wanted_pc len_pc hpos hpc
    exact Or.inr ⟨hadvance, hne, rfl⟩

theorem goes_line {len_line : Int} (hline : IsInt s.line) (h : -2 ^ 31 ≤ len_line ∧ len_line < 2 ^ 31)
    (hlt : s.pc < wanted_pc) (hln : s.ln = line_bytes len_line ++ rest) :
    Goes wanted_pc s { s with ln := rest, line := int (s.line + len_line) } := by
  rw [line_bytes] at hln
  split at hln
  · split at hln
    · rename_i hspecial
      obtain ⟨hrange, hspecial⟩ := hspecial
      have hrange' := (in_special_range_iff len_line).mp hrange
      have hn : special_opcode 0 len_line = 14 * (0 : Nat) + len_line + 18 := special_opcode_eq (by omega)
      have hzero : s.pc + BitVec.ofNat 64 0 = s.pc := BitVec.add_zero _
      have hgoes := (advance_special hrange hn hspecial).goes hln (List.cons_ne_nil _ _) (by rwa [hzero])
      rwa [hzero] at hgoes
    · exact goes_advance_line h hln
  · rename_i hzero
    have hsame : int (s.line + len_line) = s.line := by
      rw [not_not.mp hzero, Int.add_zero, hline.int_eq]
    rw [hsame, ← (show s.ln = rest from hln)]
    exact Goes.refl s

theorem goes_row {len_pc : Nat} {len_line : Int} (hs : IsInt s.line)
    (hline : -2 ^ 31 ≤ len_line ∧ len_line < 2 ^ 31) (hpc : 14 * (len_pc : Int) + 18 < 2 ^ 31)
    (hboth : 14 * (len_pc : Int) + len_line + 18 < 2 ^ 31) (hlt : s.pc + BitVec.ofNat 64 len_pc < wanted_pc)
    (hln : s.ln = row_bytes len_pc len_line ++ rest) :
    Goes wanted_pc s { s with
      ln := rest, pc := s.pc + BitVec.ofNat 64 len_pc, line := int (s.line + len_line) } := by
  rcases Nat.eq_zero_or_pos len_pc with rfl | hpos
  · have hzero : s.pc + BitVec.ofNat 64 0 = s.pc := BitVec.add_zero _
    have hbytes : row_bytes (0 : Nat) len_line = line_bytes len_line := by simp [row_bytes, pc_bytes]
    rw [hbytes] at hln
    rw [hzero] at hlt ⊢
    exact goes_line hs hline hlt hln
  · obtain ⟨hadvance, hne⟩ | ⟨hadvance, hne, hbytes⟩ := row_bytes_advance hpos hline hpc hboth
    · exact hadvance.goes hln hne hlt
    · rw [hbytes, List.append_assoc] at hln
      have hfirst := hadvance.goes hln hne hlt
      rw [Int.add_zero, hs.int_eq] at hfirst
      exact hfirst.trans (goes_line hs hline hlt rfl)

/-- The first instruction of a row goes over the address that is looked for. -/
theorem found_row {len_pc : Nat} {len_line : Int} (hpos : 0 < len_pc)
    (hline : -2 ^ 31 ≤ len_line ∧ len_line < 2 ^ 31) (hpc : 14 * (len_pc : Int) + 18 < 2 ^ 31)
    (hboth : 14 * (len_pc : Int) + len_line + 18 < 2 ^ 31) (hle : wanted_pc ≤ s.pc + BitVec.ofNat 64 len_pc)
    (hlast : s.pc ≤ wanted_pc) (hln : s.ln = row_bytes len_pc len_line ++ rest) (fuel : Nat) :
    (instructions header 1 wanted_pc (fuel + 1) s).map Locals.place = some s.place := by
  obtain ⟨hadvance, hne⟩ | ⟨hadvance, hne, hbytes⟩ := row_bytes_advance hpos hline hpc hboth
  · exact hadvance.found hln hne hle hlast fuel
  · rw [hbytes, List.append_assoc] at hln
    exact hadvance.found hln hne hle hlast fuel

end

section

variable {names : List (List Byte)} {base : Nat} {wanted_pc : BitVec 64} {s : LineState} {rest : List Byte} {t : Locals}

/-- What the reader has when it has read what the writer has written. -/
structure Shown (names : List (List Byte)) (base : Nat) (s : LineState) (rest : List Byte) (t : Locals) :
    Prop where
  ln : t.ln = rest
  pc : t.pc = BitVec.ofNat 64 (base + s.last_pc)
  line : t.line = s.last_line
  filename : t.filename = some (names.getD s.last_file [])
  filename_table : t.filename_table = fun i => names.getD i []
  filename_size : t.filename_size = names.length

/-- The reader, set to the base, goes through what has been written. -/
structure Follows (names : List (List Byte)) (base : Nat) (wanted_pc : BitVec 64) (s : LineState) : Prop where
  program : ∃ body, s.line_data = tcc_debug_start.line_data ++ body ∧ ∀ rest, ∃ t,
    Goes wanted_pc { unit_start names (body ++ rest) with pc := BitVec.ofNat 64 base } t ∧
      Shown names base s rest t
  line : IsInt s.last_line

theorem Follows.start (hnames : names ≠ []) : Follows names base wanted_pc tcc_debug_start := by
  refine ⟨⟨[], rfl, fun rest => ⟨_, Goes.refl _, rfl, rfl, rfl, ?_, rfl, rfl⟩⟩, by decide, by decide⟩
  obtain ⟨name, names, rfl⟩ := List.exists_cons_of_ne_nil hnames
  rfl

theorem Shown.congr {s' : LineState} (h : Shown names base s rest t) (hpc : s'.last_pc = s.last_pc)
    (hfile : s'.last_file = s.last_file) (hline : s'.last_line = s.last_line) : Shown names base s' rest t := by
  refine ⟨h.ln, ?_, h.line.trans hline.symm, ?_, h.filename_table, h.filename_size⟩
  · rw [hpc]
    exact h.pc
  · rw [hfile]
    exact h.filename

theorem Follows.congr {s' : LineState} (h : Follows names base wanted_pc s) (hdata : s'.line_data = s.line_data)
    (hpc : s'.last_pc = s.last_pc) (hfile : s'.last_file = s.last_file) (hline : s'.last_line = s.last_line) :
    Follows names base wanted_pc s' := by
  obtain ⟨body, hbody, hreads⟩ := h.program
  refine ⟨⟨body, hdata.trans hbody, fun rest => ?_⟩, ?_⟩
  · obtain ⟨t, hgoes, hshown⟩ := hreads rest
    exact ⟨t, hgoes, hshown.congr hpc hfile hline⟩
  · rw [hline]
    exact h.line

/-- Bytes that the reader goes through are added. -/
theorem Follows.add {s' : LineState} {bytes : List Byte} (h : Follows names base wanted_pc s)
    (hdata : s'.line_data = s.line_data ++ bytes) (hline : IsInt s'.last_line)
    (hgoes : ∀ rest t, Shown names base s (bytes ++ rest) t →
      ∃ u, Goes wanted_pc t u ∧ Shown names base s' rest u) :
    Follows names base wanted_pc s' := by
  obtain ⟨body, hbody, hreads⟩ := h.program
  refine ⟨⟨body ++ bytes, ?_, fun rest => ?_⟩, hline⟩
  · rw [hdata, hbody, List.append_assoc]
  · obtain ⟨t, hfirst, hshown⟩ := hreads (bytes ++ rest)
    obtain ⟨u, hsecond, hshown'⟩ := hgoes rest t hshown
    rw [List.append_assoc]
    exact ⟨u, hfirst.trans hsecond, hshown'⟩

theorem Follows.put_new_file (h : Follows names base wanted_pc s) (found : Option Nat) :
    Follows names base wanted_pc (put_new_file found s) := by
  rw [dwarf.put_new_file]
  split
  · exact h.congr rfl rfl rfl rfl
  · exact h

theorem Follows.skip {c : Call} (h : Follows names base wanted_pc s) (hmark : c.marks s = []) :
    Follows names base wanted_pc (tcc_debug_line c s) := by
  obtain heq | heq := tcc_debug_line_of_marks_nil hmark
  · rw [heq]
    exact h
  · rw [heq]
    exact h.put_new_file c.found

theorem Follows.copy (h : Follows names base wanted_pc s) :
    Follows names base wanted_pc (dwarf_line_op DW_LNS_copy s) := by
  have hbytes : (dwarf_line_op DW_LNS_copy s).line_data = s.line_data ++ [BitVec.ofInt 8 DW_LNS_copy] := rfl
  refine h.add hbytes h.line fun rest t hshown => ?_
  exact ⟨_, goes_copy hshown.ln, rfl, hshown.pc, hshown.line, hshown.filename, hshown.filename_table,
    hshown.filename_size⟩

theorem Follows.funcname (h : Follows names base wanted_pc s) {funcname : List Byte}
    (hlen : funcname.length + 2 < 2 ^ 31) : Follows names base wanted_pc (debug_funcname funcname s) := by
  have hbytes : (debug_funcname funcname s).line_data = s.line_data ++
      (0#8 :: (uleb128_bytes (funcname.length + 3) (funcname.length + 2) ++ 254#8 :: (funcname ++ [0#8]))) := by
    simp only [debug_funcname, dwarf_line_op_eq, dwarf_uleb128_op_eq, LineState.add, List.append_assoc,
      List.cons_append, List.nil_append]
    rfl
  refine h.add hbytes h.line fun rest t hshown => ?_
  obtain ⟨hln, hpc, hline, hfilename, htable, hsize⟩ := hshown
  refine ⟨_, @Goes.of_next wanted_pc t { t with
    ln := rest, function := some (c_string (funcname ++ [0#8] ++ rest)), func_addr := t.pc } ?_ ?_, rfl, hpc,
    hline, hfilename, htable, hsize⟩
  · have hextended := @extended_bytes { t with
      ln := uleb128_bytes (funcname.length + 3) (funcname.length + 2) ++
        254#8 :: (funcname ++ [0#8] ++ rest) } rest 254#8 (funcname ++ [0#8]) (by simp; omega) (by simp)
    rw [instruction, hln, List.cons_append, dwarf_read_1]
    simp only [List.append_assoc, List.cons_append] at hextended ⊢
    exact hextended
  · rw [hln, List.length_append, List.length_cons]
    simp only
    omega

theorem goes_file {cur : Nat} (hcur : cur < names.length) (htable : names.length < FILE_TABLE_SIZE)
    (h : Shown names base s (file_bytes cur s.last_file ++ rest) t) :
    ∃ u, Goes wanted_pc t u ∧ Shown names base { s with last_file := cur } rest u := by
  obtain ⟨hln, hpc, hline, hfilename, hnames, hsize⟩ := h
  rw [file_bytes] at hln
  split at hln
  · refine ⟨_, goes_set_file (lt_trans hcur htable) (by omega) hln, rfl, hpc, hline, ?_, hnames, hsize⟩
    simp only
    rw [hnames]
  · rename_i hsame
    refine ⟨t, Goes.refl t, hln, hpc, hline, ?_, hnames, hsize⟩
    rw [hfilename, not_not.mp hsame]

theorem put_new_file_last (found : Option Nat) (s : LineState) :
    (put_new_file found s).last_pc = s.last_pc ∧ (put_new_file found s).last_line = s.last_line ∧
      (put_new_file found s).line_data = s.line_data := by
  rw [dwarf.put_new_file]
  split
  · exact ⟨rfl, rfl, rfl⟩
  · exact ⟨rfl, rfl, rfl⟩

/-- What the writer is given for a call that is recorded after `s`. -/
structure Given (names : List (List Byte)) (s : LineState) (pc file : Nat) (line : Int) : Prop where
  le : s.last_pc ≤ pc
  no_overflow : NoOverflow s.last_pc s.last_line [.call pc file line]
  file_lt : file < names.length
  names_lt : names.length < FILE_TABLE_SIZE
  int : IsInt line

/-- What a recorded call adds: a change of the file, then a row. -/
theorem line_data_of_marks_call {c : Call} {pc file : Nat} {line : Int} (hmark : c.marks s = [.call pc file line])
    (hgiven : Given names s pc file line) :
    let s' := put_new_file c.found s
    (tcc_debug_line c s).line_data = s'.line_data ++
        (file_bytes file s'.last_file ++ row_bytes ((pc - s.last_pc : Nat) : Int) (line - s.last_line)) ∧
      (tcc_debug_line c s).last_pc = pc ∧ (tcc_debug_line c s).last_line = line ∧
        (tcc_debug_line c s).last_file = file := by
  obtain ⟨hline, htext, hne, hpc, hfile⟩ := of_marks_call hmark
  obtain ⟨hlast_pc, hlast_line, -⟩ := put_new_file_last c.found s
  obtain ⟨⟨hlo, hhi, hpc₁, -⟩, -⟩ := hgiven.no_overflow
  have hle := hgiven.le
  have hint_pc : int (c.ind - (put_new_file c.found s).last_pc) = ((pc - s.last_pc : Nat) : Int) := by
    rw [hlast_pc, hpc, int_of_range (by omega)]
    omega
  have hint_line : int (line - (put_new_file c.found s).last_line) = line - s.last_line := by
    rw [hlast_line, int_of_range ⟨hlo, hhi⟩]
  rw [tcc_debug_line_eq htext hline hne]
  refine ⟨?_, hpc, rfl, hfile⟩
  simp only
  rw [hint_pc, hint_line, hfile]

theorem ofNat_advance {a b : Nat} (h : a ≤ b) :
    BitVec.ofNat 64 (base + a) + BitVec.ofNat 64 (b - a) = BitVec.ofNat 64 (base + b) := by
  rw [← BitVec.ofNat_add]
  exact congrArg (BitVec.ofNat 64) (by omega)

theorem Follows.call {c : Call} {pc file : Nat} {line : Int} (h : Follows names base wanted_pc s)
    (hmark : c.marks s = [.call pc file line]) (hgiven : Given names s pc file line)
    (hwanted : BitVec.ofNat 64 (base + pc) < wanted_pc) : Follows names base wanted_pc (tcc_debug_line c s) := by
  have hlast := put_new_file_last c.found s
  obtain ⟨hdata, hpc, hline, hfile⟩ := line_data_of_marks_call hmark hgiven
  obtain ⟨⟨hlo, hhi, hpc₁, hboth⟩, -⟩ := hgiven.no_overflow
  have hle := hgiven.le
  have h' := h.put_new_file c.found
  refine h'.add hdata (by rw [hline]; exact hgiven.int) fun rest t hshown => ?_
  rw [List.append_assoc] at hshown
  obtain ⟨u, hgoes, hln, hupc, huline, hufile, htable, hsize⟩ := goes_file hgiven.file_lt hgiven.names_lt hshown
  simp only at hupc huline hufile
  rw [hlast.1] at hupc
  rw [hlast.2.1] at huline
  have hadvance : u.pc + BitVec.ofNat 64 (pc - s.last_pc) = BitVec.ofNat 64 (base + pc) := by
    rw [hupc, ofNat_advance hle]
  have hrow := goes_row (by rw [huline]; exact h.line) ⟨hlo, hhi⟩ (by omega) (by omega)
    (by rw [hadvance]; exact hwanted) hln
  refine ⟨_, hgoes.trans hrow, rfl, ?_, ?_, ?_, htable, hsize⟩
  · rw [hpc]
    exact hadvance
  · simp only
    rw [huline, hline, show s.last_line + (line - s.last_line) = line by omega, hgiven.int.int_eq]
  · rw [hfile]
    exact hufile

/-- The reader finds a place in what has been written, whatever is written after it. -/
def Reports (names : List (List Byte)) (base : Nat) (wanted_pc : BitVec 64) (place : Option (List Byte) × Int)
    (s : LineState) : Prop :=
  ∃ body, s.line_data = tcc_debug_start.line_data ++ body ∧ ∀ rest, ∃ k ≤ (body ++ rest).length, ∀ fuel,
    (instructions header 1 wanted_pc (fuel + k)
      { unit_start names (body ++ rest) with pc := BitVec.ofNat 64 base }).map Locals.place = some place

theorem Reports.append {place : Option (List Byte) × Int} {s' : LineState} {bytes : List Byte}
    (h : Reports names base wanted_pc place s) (hdata : s'.line_data = s.line_data ++ bytes) :
    Reports names base wanted_pc place s' := by
  obtain ⟨body, hbody, hfound⟩ := h
  refine ⟨body ++ bytes, ?_, fun rest => ?_⟩
  · rw [hdata, hbody, List.append_assoc]
  · rw [List.append_assoc]
    exact hfound (bytes ++ rest)

/-- A call whose advance goes over the address that is looked for: the file is its own already,
    the line is the previous one. -/
theorem Follows.found {c : Call} {pc file : Nat} {line : Int} (h : Follows names base wanted_pc s)
    (hmark : c.marks s = [.call pc file line]) (hgiven : Given names s pc file line) (hlt : s.last_pc < pc)
    (hle : wanted_pc ≤ BitVec.ofNat 64 (base + pc)) (hlast : BitVec.ofNat 64 (base + s.last_pc) ≤ wanted_pc) :
    Reports names base wanted_pc (some (names.getD file []), s.last_line) (tcc_debug_line c s) := by
  have hput := put_new_file_last c.found s
  obtain ⟨hdata, -, -, -⟩ := line_data_of_marks_call hmark hgiven
  obtain ⟨⟨hlo, hhi, hpc₁, hboth⟩, -⟩ := hgiven.no_overflow
  obtain ⟨body, hbody, hreads⟩ := (h.put_new_file c.found).program
  refine ⟨body ++ (file_bytes file (dwarf.put_new_file c.found s).last_file ++
    row_bytes ((pc - s.last_pc : Nat) : Int) (line - s.last_line)), ?_, fun rest => ?_⟩
  · rw [hdata, hbody, List.append_assoc]
  · rw [List.append_assoc, List.append_assoc]
    obtain ⟨t, hfirst, hshown⟩ := hreads (file_bytes file (dwarf.put_new_file c.found s).last_file ++
      (row_bytes ((pc - s.last_pc : Nat) : Int) (line - s.last_line) ++ rest))
    obtain ⟨u, hsecond, hln, hupc, huline, hufile, -, -⟩ :=
      goes_file hgiven.file_lt hgiven.names_lt hshown
    simp only at hupc huline hufile
    rw [hput.1] at hupc
    rw [hput.2.1] at huline
    obtain ⟨k, hlen, hrun⟩ := hfirst.trans hsecond
    have hpos : 0 < pc - s.last_pc := by omega
    have hfound := found_row hpos ⟨hlo, hhi⟩ (by omega) (by omega)
      (by rw [hupc, ofNat_advance hlt.le]; exact hle) (by rw [hupc]; exact hlast) hln
    have hne : 0 < u.ln.length := by
      obtain ⟨-, hne⟩ | ⟨-, hne, hbytes⟩ := @row_bytes_advance wanted_pc _ _ hpos ⟨hlo, hhi⟩
        (show 14 * ((pc - s.last_pc : Nat) : Int) + 18 < 2 ^ 31 by omega)
        (show 14 * ((pc - s.last_pc : Nat) : Int) + (line - s.last_line) + 18 < 2 ^ 31 by omega)
      · rw [hln, List.length_append]
        have := List.length_pos_iff.mpr hne
        omega
      · rw [hln, hbytes, List.length_append, List.length_append]
        have := List.length_pos_iff.mpr hne
        omega
    refine ⟨1 + k, ?_, fun fuel => ?_⟩
    · have hlen' : k + u.ln.length ≤ (body ++ (file_bytes file (dwarf.put_new_file c.found s).last_file ++
        (row_bytes ((pc - s.last_pc : Nat) : Int) (line - s.last_line) ++ rest))).length := hlen
      omega
    · rw [← Nat.add_assoc, hrun, hfound fuel]
      rw [Locals.place, hufile, huline]

/-- The name of a function is shorter than an `int` can count. -/
def Traced.Named : Traced → Prop
  | funcstart _ funcname => funcname.length + 2 < 2 ^ 31
  | _ => True

namespace Traced

variable {e : Traced} {pc file : Nat} {line : Int} {place : Option (List Byte) × Int}

theorem marks_cases (e : Traced) (s : LineState) :
    e.marks s = [] ∨ ∃ pc file line, e.marks s = [.call pc file line] := by
  cases e with
  | file found => exact Or.inl rfl
  | line c => exact marks_call c s
  | funcstart c funcname => exact marks_call c s

theorem last_of_marks_nil (h : e.marks s = []) :
    (e.step s).last_pc = s.last_pc ∧ (e.step s).last_line = s.last_line := by
  have hcall (c : Call) (hmark : c.marks s = []) :
      (tcc_debug_line c s).last_pc = s.last_pc ∧ (tcc_debug_line c s).last_line = s.last_line := by
    obtain ⟨hpc, hline, -⟩ := put_new_file_last c.found s
    obtain heq | heq := tcc_debug_line_of_marks_nil hmark
    · rw [heq]
      exact ⟨rfl, rfl⟩
    · rw [heq]
      exact ⟨hpc, hline⟩
  cases e with
  | file found => exact ⟨rfl, rfl⟩
  | line c => exact hcall c h
  | funcstart c funcname => exact hcall c h

theorem last_of_marks_call (h : e.marks s = [.call pc file line]) (hgiven : Given names s pc file line) :
    (e.step s).last_pc = pc ∧ (e.step s).last_line = line := by
  cases e with
  | file found => cases h
  | line c =>
    obtain ⟨-, hpc, hline, -⟩ := line_data_of_marks_call h hgiven
    exact ⟨hpc, hline⟩
  | funcstart c funcname =>
    obtain ⟨-, hpc, hline, -⟩ := line_data_of_marks_call h hgiven
    exact ⟨hpc, hline⟩

theorem follows_skip (hfollows : Follows names base wanted_pc s) (hnamed : e.Named) (h : e.marks s = []) :
    Follows names base wanted_pc (e.step s) := by
  cases e with
  | file found => exact hfollows.congr rfl rfl rfl rfl
  | line c => exact hfollows.skip h
  | funcstart c funcname => exact (hfollows.skip h).copy.funcname hnamed

theorem follows_call (hfollows : Follows names base wanted_pc s) (hnamed : e.Named)
    (h : e.marks s = [.call pc file line]) (hgiven : Given names s pc file line)
    (hwanted : BitVec.ofNat 64 (base + pc) < wanted_pc) : Follows names base wanted_pc (e.step s) := by
  cases e with
  | file found => cases h
  | line c => exact hfollows.call h hgiven hwanted
  | funcstart c funcname => exact (hfollows.call h hgiven hwanted).copy.funcname hnamed

theorem line_data_step (e : Traced) (s : LineState) : ∃ bytes, (e.step s).line_data = s.line_data ++ bytes := by
  have hcall (c : Call) : ∃ bytes, (tcc_debug_line c s).line_data = s.line_data ++ bytes := by
    have hput := put_new_file_last c.found s
    obtain hnil | ⟨pc, file, line, hcall⟩ := marks_call c s
    · obtain heq | heq := tcc_debug_line_of_marks_nil hnil
      · exact ⟨[], by rw [heq, List.append_nil]⟩
      · exact ⟨[], by rw [heq, hput.2.2, List.append_nil]⟩
    · obtain ⟨hline, htext, hne, -, -⟩ := of_marks_call hcall
      have hdata := congrArg LineState.line_data (tcc_debug_line_eq htext hline hne)
      simp only at hdata
      rw [hput.2.2] at hdata
      exact ⟨_, hdata⟩
  cases e with
  | file found => exact ⟨[], (List.append_nil _).symm⟩
  | line c => exact hcall c
  | funcstart c funcname =>
    obtain ⟨bytes, hbytes⟩ := hcall c
    refine ⟨bytes ++ ([BitVec.ofInt 8 DW_LNS_copy] ++ ([0#8] ++ (uleb128_bytes (funcname.length + 3)
      (funcname.length + 2) ++ ([254#8] ++ (funcname ++ [0#8]))))), ?_⟩
    simp only [step, debug_funcname, tcc_debug_funcstart, dwarf_line_op_eq, dwarf_uleb128_op_eq, LineState.add,
      hbytes, List.append_assoc]
    rfl

theorem reports_found (hfollows : Follows names base wanted_pc s) (h : e.marks s = [.call pc file line])
    (hgiven : Given names s pc file line) (hlt : s.last_pc < pc) (hle : wanted_pc ≤ BitVec.ofNat 64 (base + pc))
    (hlast : BitVec.ofNat 64 (base + s.last_pc) ≤ wanted_pc) :
    Reports names base wanted_pc (some (names.getD file []), s.last_line) (e.step s) := by
  cases e with
  | file found => cases h
  | line c => exact hfollows.found h hgiven hlt hle hlast
  | funcstart c funcname =>
    have hreports := hfollows.found h hgiven hlt hle hlast
    refine @Reports.append _ _ _ _ _ _ ([BitVec.ofInt 8 DW_LNS_copy] ++ ([0#8] ++ (uleb128_bytes (funcname.length + 3)
      (funcname.length + 2) ++ ([254#8] ++ (funcname ++ [0#8]))))) hreports ?_
    simp only [step, debug_funcname, tcc_debug_funcstart, dwarf_line_op_eq, dwarf_uleb128_op_eq, LineState.add,
      List.append_assoc]
    rfl

end Traced

theorem Reports.run_traced {place : Option (List Byte) × Int} (h : Reports names base wanted_pc place s)
    (es : List Traced) : Reports names base wanted_pc place (run_traced s es) := by
  induction es generalizing s with
  | nil => exact h
  | cons e es ih =>
    obtain ⟨bytes, hbytes⟩ := e.line_data_step s
    exact ih (h.append hbytes)

/-- The position and the line of the last call. -/
def last_recorded : Nat × Int → List Mark → Nat × Int
  | p, [] => p
  | _, .call pc _ line :: ms => last_recorded (pc, line) ms
  | p, .copy :: ms => last_recorded p ms

theorem last_recorded_concat (p : Nat × Int) (ms : List Mark) (pc file : Nat) (line : Int) :
    last_recorded p (ms ++ [.call pc file line]) = (pc, line) := by
  induction ms generalizing p with
  | nil => rfl
  | cons m ms ih =>
    cases m with
    | call pc' file' line' => exact ih (pc', line')
    | copy => exact ih p

/-- What is given for the calls of a unit. -/
structure AllGiven (names : List (List Byte)) (code_end pc : Nat) (line : Int) (ms : List Mark) : Prop where
  ordered : NonDecreasing code_end pc ms
  no_overflow : NoOverflow pc line ms
  files : ∀ pc file line, .call pc file line ∈ ms → file < names.length ∧ IsInt line
  names_lt : names.length < FILE_TABLE_SIZE

theorem AllGiven.head {code_end pc file : Nat} {line : Int} {ms : List Mark}
    (h : AllGiven names code_end s.last_pc s.last_line (.call pc file line :: ms)) :
    Given names s pc file line ∧ AllGiven names code_end pc line ms := by
  obtain ⟨hfile, hint⟩ := h.files pc file line List.mem_cons_self
  exact ⟨⟨h.ordered.1, ⟨h.no_overflow.1, trivial⟩, hfile, h.names_lt, hint⟩, h.ordered.2, h.no_overflow.2,
    fun pc' file' line' hmem => h.files pc' file' line' (List.mem_cons_of_mem _ hmem), h.names_lt⟩

/-- The reader goes through the calls before the address that is looked for and finds it at the
    first one after it. -/
theorem reports_of_recorded {code_end pc file : Nat} {line : Int} {before after : List Mark} (es : List Traced)
    (hfollows : Follows names base wanted_pc s)
    (hrecorded : recorded s es = before ++ .call pc file line :: after)
    (hgiven : AllGiven names code_end s.last_pc s.last_line (recorded s es)) (hnamed : ∀ e ∈ es, e.Named)
    (hbefore : ∀ pc file line, .call pc file line ∈ before → BitVec.ofNat 64 (base + pc) < wanted_pc)
    (hlt : (last_recorded (s.last_pc, s.last_line) before).1 < pc)
    (hle : wanted_pc ≤ BitVec.ofNat 64 (base + pc))
    (hlast : BitVec.ofNat 64 (base + (last_recorded (s.last_pc, s.last_line) before).1) ≤ wanted_pc) :
    Reports names base wanted_pc
      (some (names.getD file []), (last_recorded (s.last_pc, s.last_line) before).2) (run_traced s es) := by
  induction es generalizing s before with
  | nil => exact absurd hrecorded.symm (by simp [recorded])
  | cons e es ih =>
    have hnamed' : ∀ e ∈ es, e.Named := fun e he => hnamed e (List.mem_cons_of_mem _ he)
    have hhead : e.Named := hnamed e List.mem_cons_self
    rw [recorded] at hrecorded hgiven
    obtain hnil | ⟨pc', file', line', hcall⟩ := e.marks_cases s
    · obtain ⟨hpc, hline⟩ := Traced.last_of_marks_nil hnil
      rw [hnil, List.nil_append] at hrecorded hgiven
      have hreports := @ih (e.step s) before (Traced.follows_skip hfollows hhead hnil) hrecorded
      rw [hpc, hline] at hreports
      exact hreports hgiven hnamed' hbefore hlt hlast
    · rw [hcall, List.singleton_append] at hrecorded hgiven
      obtain ⟨hthis, hrest⟩ := hgiven.head
      obtain ⟨hpc, hline⟩ := Traced.last_of_marks_call hcall hthis
      cases before with
      | nil =>
        obtain ⟨hmark, -⟩ := List.cons.inj hrecorded
        obtain ⟨rfl, rfl, rfl⟩ := Mark.call.inj hmark
        exact (Traced.reports_found hfollows hcall hthis hlt hle hlast).run_traced es
      | cons m before =>
        obtain ⟨rfl, htail⟩ := List.cons.inj hrecorded
        have hwanted := hbefore pc' file' line' List.mem_cons_self
        have hreports := @ih (e.step s) before (Traced.follows_call hfollows hhead hcall hthis hwanted) htail
        rw [hpc, hline] at hreports
        exact hreports hrest hnamed' (fun pc file line hmem => hbefore pc file line (List.mem_cons_of_mem _ hmem))
          hlt hlast

/-- The reader of a whole program begins with the address of the section. -/
theorem place_of_reports {base : BitVec 64} {place : Option (List Byte) × Int}
    (h : Reports names base.toNat wanted_pc place s) :
    place_of names (tcc_debug_end base.toNat s) wanted_pc = some place := by
  obtain ⟨body, hbody, hfound⟩ := h
  obtain ⟨k, hk, hfound⟩ := hfound (0#8 :: [1#8, 1#8])
  have hlen := length_address_bytes 8 base.toNat
  have hle : le (address_bytes 8 base.toNat) = base.toNat := by
    rw [le_address_bytes]
    exact Nat.mod_eq_of_lt base.isLt
  have hread : (dwarf_read_8 (address_bytes 8 base.toNat ++ (body ++ 0#8 :: [1#8, 1#8]))).1 = base.toNat := by
    have hlong : 8 < (address_bytes 8 base.toNat ++ (body ++ 0#8 :: [1#8, 1#8])).length := by
      rw [List.length_append, List.length_append, hlen, List.length_cons]
      omega
    rw [dwarf_read_8, if_pos hlong, List.take_left' hlen, hle]
  have hset : instruction header 1 wanted_pc (unit_start names
      (0#8 :: ([9#8, 2#8] ++ address_bytes 8 base.toNat ++ (body ++ 0#8 :: [1#8, 1#8])))) =
      .next { unit_start names (body ++ 0#8 :: [1#8, 1#8]) with pc := BitVec.ofNat 64 base.toNat } := by
    have hextended := @extended_bytes (unit_start names
      ([9#8, 2#8] ++ address_bytes 8 base.toNat ++ (body ++ 0#8 :: [1#8, 1#8]))) (body ++ 0#8 :: [1#8, 1#8]) 2#8
      (address_bytes 8 base.toNat) (by omega) (by rw [hlen, List.append_assoc]; rfl)
    rw [hread] at hextended
    exact hextended
  rw [place_of, rt_printline_dwarf, tcc_debug_end_eq hbody, List.append_assoc, List.cons_append]
  obtain ⟨fuel, hfuel⟩ : ∃ fuel, (0#8 :: ([9#8, 2#8] ++ address_bytes 8 base.toNat ++
      (body ++ 0#8 :: [1#8, 1#8]))).length = fuel + k + 1 := by
    refine ⟨10 + (body ++ 0#8 :: [1#8, 1#8]).length - k, ?_⟩
    rw [List.length_cons, List.length_append, List.length_append, hlen]
    simp only [List.length_cons, List.length_nil] at hk ⊢
    omega
  have hne : (unit_start names (0#8 :: ([9#8, 2#8] ++ address_bytes 8 base.toNat ++
      (body ++ 0#8 :: [1#8, 1#8])))).ln ≠ [] := List.cons_ne_nil _ _
  rw [hfuel, instructions, if_neg hne, hset]
  exact hfound fuel

theorem NonDecreasing.le_end {code_end p : Nat} {ms : List Mark} (h : NonDecreasing code_end p ms) :
    p ≤ code_end := by
  induction ms generalizing p with
  | nil => exact h
  | cons m ms ih =>
    cases m with
    | call pc file line => exact le_trans h.1 (ih h.2)
    | copy => exact ih h

theorem NonDecreasing.split {code_end p pc file : Nat} {line : Int} {before after : List Mark}
    (h : NonDecreasing code_end p (before ++ .call pc file line :: after)) :
    p ≤ pc ∧ (∀ pc' file' line', .call pc' file' line' ∈ before → pc' ≤ pc) ∧
      NonDecreasing code_end pc after := by
  induction before generalizing p with
  | nil => exact ⟨h.1, fun _ _ _ hmem => absurd hmem List.not_mem_nil, h.2⟩
  | cons m before ih =>
    cases m with
    | call pc₁ file₁ line₁ =>
      obtain ⟨hle, hbefore, hafter⟩ := ih h.2
      refine ⟨le_trans h.1 hle, fun pc' file' line' hmem => ?_, hafter⟩
      obtain heq | hmem := List.mem_cons.mp hmem
      · obtain ⟨rfl, -, -⟩ := Mark.call.inj heq
        exact hle
      · exact hbefore pc' file' line' hmem
    | copy =>
      obtain ⟨hle, hbefore, hafter⟩ := ih h
      refine ⟨hle, fun pc' file' line' hmem => ?_, hafter⟩
      obtain heq | hmem := List.mem_cons.mp hmem
      · cases heq
      · exact hbefore pc' file' line' hmem

end

end tcc.dwarf
