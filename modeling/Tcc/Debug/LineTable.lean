import Mathlib.Tactic.NormNum
import Tcc.Debug.Line

/-! The table that a debugger reads from the line-number program. -/

open machine.leb128 machine.dwarf

namespace tcc.dwarf

/-- What the program records, in order. -/
inductive Mark where
  | call (pc file : Nat) (line : Int)
  | copy

/-- A call is recorded unless it is outside the text section or the line is the last one. -/
def Call.marks (c : Call) (s : LineState) : List Mark :=
  match c.line_num with
  | none => []
  | some line_num =>
    let s := put_new_file c.found s
    if c.in_text ∧ s.last_line_num ≠ line_num then [.call c.ind s.cur_file line_num] else []

def Event.marks : Event → LineState → List Mark
  | file _, _ => []
  | line c, s => c.marks s
  | funcstart c, s => c.marks s ++ [.copy]

def marks (s : LineState) : List Event → List Mark
  | [] => []
  | e :: es => e.marks s ++ marks (e.step s) es

/-- What the numbers of the unit's file table stand for: the main file has two. -/
structure FileTable (F : Type) where
  entry : Nat → F
  main : entry 0 = entry 1

section

variable {F : Type}

/-- The file and line of the last recorded call at or before a position. -/
def last_call (files : FileTable F) (pc : Nat) : Option (F × Int) → List Mark → Option (F × Int)
  | found, [] => found
  | found, .call pc' file line :: ms =>
    last_call files pc (if pc' ≤ pc then some (files.entry file, line) else found) ms
  | found, .copy :: ms => last_call files pc found ms

/-- The file and line of an address in a table. -/
def shown_at (files : FileTable F) (rows : List Row) (a : Nat) : Option (F × Int) :=
  (lookup rows a).map fun (n, line) => (files.entry n, line)

/-- The program of a unit loaded at `base`, whose code ends at `code_end`, maps every position
    of the code to the last recorded call at or before it. -/
def MapsCode (files : FileTable F) (base : BitVec 64) (code_end : Nat) (events : List Event) : Prop :=
  ∃ rows, table header (tcc_debug_end base.toNat (run tcc_debug_start events)) = some rows ∧
    ∀ pc < code_end, ∀ m, last_call files pc none (marks tcc_debug_start events) = some m →
      shown_at files rows (base.toNat + pc) = some m

/-- The last recorded call, and the file and line of the last row. -/
structure Place (F : Type) where
  pc : Nat
  file : F
  line : Int
  shown : Option (F × Int)
  recorded : Bool

def Place.start (files : FileTable F) : Place F := ⟨0, files.entry 1, 1, none, false⟩

/-- A call leaves a row with its line where the line has changed by -5 to 8; a row for its
    position has the previous line where the position has grown by 1 to 16. -/
def Place.show (files : FileTable F) (p : Place F) : Mark → Place F
  | .call pc file line =>
    ⟨pc, files.entry file, line,
      if line ≠ p.line ∧ in_special_range (line - p.line) then some (files.entry file, line)
      else if p.pc < pc ∧ pc ≤ p.pc + 16 then some (files.entry file, p.line)
      else p.shown, true⟩
  | .copy => { p with shown := some (p.file, p.line) }

/-- Every recorded call that code follows is the last row when it does, and no code follows
    the last one. -/
def Tabled (files : FileTable F) (code_end : Nat) : Place F → List Mark → Prop
  | p, [] => p.recorded = true → code_end ≤ p.pc
  | p, .call pc file line :: ms =>
    (p.recorded = true → p.pc < pc → p.shown = some (p.file, p.line)) ∧
      Tabled files code_end (p.show files (.call pc file line)) ms
  | p, .copy :: ms => Tabled files code_end (p.show files .copy) ms

/-- The code positions do not decrease. -/
def NonDecreasing (code_end : Nat) : Nat → List Mark → Prop
  | pc, [] => pc ≤ code_end
  | pc, .call pc' _ _ :: ms => pc ≤ pc' ∧ NonDecreasing code_end pc' ms
  | pc, .copy :: ms => NonDecreasing code_end pc ms

/-- No computation of the source overflows an `int`. -/
def NoOverflow : Nat → Int → List Mark → Prop
  | _, _, [] => True
  | pc, line, .call pc' _ line' :: ms =>
    (-2 ^ 31 ≤ line' - line ∧ line' - line < 2 ^ 31 ∧ 14 * ((pc' : Int) - pc) + 18 < 2 ^ 31 ∧
      14 * ((pc' : Int) - pc) + (line' - line) + 18 < 2 ^ 31) ∧ NoOverflow pc' line' ms
  | pc, line, .copy :: ms => NoOverflow pc line ms

end

section

variable {rest : List Byte}

attribute [local simp] uleb128_bytes in
theorem uleb_bytes {n value : Nat} (h : value < n) :
    uleb (uleb128_bytes n value ++ rest) = some (value, rest) := by
  induction n generalizing value with
  | zero => omega
  | succ n ih =>
    rw [uleb128_bytes]
    split
    · rename_i hne
      have hread := uleb_more (Nat.mod_lt value (by omega)) (@ih (value / 128) (by omega))
      rw [List.cons_append, hread, Nat.mod_add_div]
    · rename_i hzero
      have hlt : value % 128 = value := by omega
      rw [List.singleton_append, uleb_last (Nat.mod_lt value (by omega)), hlt]

theorem sleb_bytes {n : Nat} {value e : Int} (h : value.natAbs < n)
    (he : (0 ≤ value ∧ e = 0) ∨ (value < 0 ∧ e = -1)) :
    sleb (sleb128_bytes e n value ++ rest) = some (value, rest) := by
  induction n generalizing value with
  | zero => omega
  | succ n ih =>
    rw [sleb128_bytes]
    have hbyte : (value % 128).toNat < 128 := by omega
    split
    · rename_i hmore
      have hne : value ≠ 0 ∧ value ≠ -1 := by
        constructor
        · rintro rfl
          obtain ⟨-, rfl⟩ | ⟨hneg, -⟩ := he
          · simp at hmore
          · omega
        · rintro rfl
          obtain ⟨hpos, -⟩ | ⟨-, rfl⟩ := he
          · omega
          · simp at hmore
      have hread := sleb_more hbyte (@ih (value / 128) (by omega) (by omega))
      rw [List.cons_append, hread]
      refine congrArg some (Prod.ext ?_ rfl)
      simp only
      omega
    · rename_i hlast
      rw [not_or, not_not, not_not] at hlast
      rw [List.singleton_append, sleb_last hbyte]
      refine congrArg some (Prod.ext ?_ rfl)
      obtain ⟨hvalue, hsign⟩ := hlast
      obtain ⟨hpos, rfl⟩ | ⟨hneg, rfl⟩ := he
      · simp only [ne_eq, not_true_eq_false, iff_false] at hsign
        simp only
        rw [if_pos (by omega)]
        omega
      · simp only [ne_eq, Int.reduceNeg, neg_eq_zero, one_ne_zero, not_false_eq_true, iff_true] at hsign
        simp only
        rw [if_neg (by omega)]
        omega

theorem le_address_bytes (n a : Nat) : le (address_bytes n a) = a % 256 ^ n := by
  induction n generalizing a with
  | zero => simp [address_bytes, le, Nat.mod_one]
  | succ n ih =>
    rw [address_bytes, le, ih, toNat_ofNat (Nat.mod_lt a (by omega)), Nat.pow_succ, Nat.mul_comm (256 ^ n),
      Nat.mod_mul]

theorem length_address_bytes (n a : Nat) : (address_bytes n a).length = n := by
  induction n generalizing a with
  | zero => rfl
  | succ n ih => rw [address_bytes, List.length_cons, ih]

end

section

variable {s : LineState}

attribute [local simp] next_standard in
theorem reads_set_file (n : Nat) : Reads header (BitVec.ofInt 8 DW_LNS_set_file :: uleb128_bytes (n + 1) n)
    [.set_file n] :=
  @Reads.standard _ _ 4 _ (by decide) (by decide) fun rest => by
    rw [next_standard, uleb_bytes (Nat.lt_succ_self n), Option.map_some]

theorem reads_advance_pc (n : Nat) : Reads header
    (BitVec.ofInt 8 DW_LNS_advance_pc :: uleb128_bytes (n + 1) n) [.advance_pc n] :=
  @Reads.standard _ _ 2 _ (by decide) (by decide) fun rest => by
    rw [next_standard, uleb_bytes (Nat.lt_succ_self n), Option.map_some]

theorem reads_advance_line (d : Int) : Reads header (BitVec.ofInt 8 DW_LNS_advance_line ::
    sleb128_bytes (if d < 0 then -1 else 0) (d.natAbs + 1) d) [.advance_line d] :=
  @Reads.standard _ _ 3 _ (by decide) (by decide) fun rest => by
    rw [next_standard, sleb_bytes (Nat.lt_succ_self _) (by split <;> omega), Option.map_some]

theorem reads_special {n : Int} (h : is_special n) :
    Reads header [BitVec.ofInt 8 n] [.special n.toNat] := by
  obtain ⟨hlo, hhi⟩ := h
  have hbase : DWARF_OPCODE_BASE ≤ n.toNat := by
    rw [DWARF_OPCODE_BASE] at hlo ⊢
    omega
  have hbyte : BitVec.ofInt 8 n = BitVec.ofNat 8 n.toNat := by
    rw [← BitVec.ofInt_natCast, Int.toNat_of_nonneg (by omega)]
  rw [hbyte]
  exact Reads.special hbase (by omega)

end

/-- The bytes that `tcc_debug_line` appends for a position on a new line. -/
def pc_bytes (len_pc : Int) : List Byte :=
  if len_pc ≠ 0 then
    if is_special (special_opcode len_pc 0) then [BitVec.ofInt 8 (special_opcode len_pc 0)]
    else BitVec.ofInt 8 DW_LNS_advance_pc :: uleb128_bytes ((len_pc % 2 ^ 64).toNat + 1)
      (len_pc % 2 ^ 64).toNat
  else []

def line_bytes (len_line : Int) : List Byte :=
  if len_line ≠ 0 then
    if in_special_range len_line ∧ is_special (special_opcode 0 len_line) then
      [BitVec.ofInt 8 (special_opcode 0 len_line)]
    else BitVec.ofInt 8 DW_LNS_advance_line ::
      sleb128_bytes (if len_line < 0 then -1 else 0) (len_line.natAbs + 1) len_line
  else []

def row_bytes (len_pc len_line : Int) : List Byte :=
  if len_pc ≠ 0 ∧ in_special_range len_line ∧ is_special (special_opcode len_pc len_line) then
    [BitVec.ofInt 8 (special_opcode len_pc len_line)]
  else pc_bytes len_pc ++ line_bytes len_line

def file_bytes (cur_file last_file : Nat) : List Byte :=
  if cur_file ≠ last_file then BitVec.ofInt 8 DW_LNS_set_file :: uleb128_bytes (cur_file + 1) cur_file
  else []

theorem int_of_range {x : Int} (h : -2 ^ 31 ≤ x ∧ x < 2 ^ 31) : int x = x := by
  rw [int, Int.bmod_def]
  omega

theorem special_opcode_eq {len_pc len_line : Int}
    (h : -2 ^ 31 ≤ 14 * len_pc + len_line + 18 ∧ 14 * len_pc + len_line + 18 < 2 ^ 31) :
    special_opcode len_pc len_line = 14 * len_pc + len_line + 18 := by
  have harith : len_pc * (DWARF_LINE_RANGE : Nat) + len_line + (DWARF_OPCODE_BASE : Nat) - DWARF_LINE_BASE =
      14 * len_pc + len_line + 18 := by
    rw [DWARF_LINE_RANGE, DWARF_OPCODE_BASE, DWARF_LINE_BASE]
    push_cast
    ring
  rw [special_opcode, harith, int_of_range h]

theorem in_special_range_iff (len_line : Int) :
    in_special_range len_line ↔ -5 ≤ len_line ∧ len_line ≤ 8 := by
  rw [in_special_range, DWARF_LINE_BASE, DWARF_OPCODE_BASE]
  norm_num

theorem is_special_iff (n : Int) : is_special n ↔ 13 ≤ n ∧ n ≤ 255 := Iff.rfl

/-- A special opcode advances both registers and appends a row. -/
theorem exec_special {len_pc : Nat} {len_line : Int} (hrange : in_special_range len_line)
    (r : Registers) : exec header [.special (14 * (len_pc : Int) + len_line + 18).toNat] r =
      (⟨r.address + len_pc, r.file, r.line + len_line⟩,
        [⟨r.address + len_pc, r.file, r.line + len_line, false⟩]) := by
  rw [in_special_range_iff] at hrange
  have hdiv : ((14 * (len_pc : Int) + len_line + 18).toNat - 13) / 14 = len_pc := by omega
  have hmod : (((14 * (len_pc : Int) + len_line + 18).toNat - 13) % 14 : Nat) = len_line + 5 := by omega
  have hline : r.line + (-5 + (len_line + 5)) = r.line + len_line := by omega
  simp only [exec, Op.exec, header, DWARF_OPCODE_BASE, DWARF_LINE_RANGE, DWARF_MIN_INSTR_LEN,
    DWARF_LINE_BASE, hdiv, hmod, hline, one_mul, List.append_nil, Registers.row]

/-- What the bytes of a part of a call do to the registers. -/
structure Advances (bytes : List Byte) (len_pc : Nat) (len_line : Int) (shown : Option Int) : Prop where
  reads : ∃ ops, Reads header bytes ops ∧ ∀ r, ∃ rows,
    exec header ops r = (⟨r.address + len_pc, r.file, r.line + len_line⟩, rows) ∧
      (∀ row ∈ rows, row = ⟨r.address + len_pc, r.file, row.line, false⟩) ∧
        rows.getLast?.map Row.line = shown.map (r.line + ·)

theorem advances_special {n : Int} {len_pc : Nat} {len_line : Int} (hrange : in_special_range len_line)
    (hn : n = 14 * len_pc + len_line + 18) (hspecial : is_special n) :
    Advances [BitVec.ofInt 8 n] len_pc len_line (some len_line) := by
  refine ⟨_, reads_special hspecial, fun r => ?_⟩
  rw [hn, exec_special hrange]
  refine ⟨_, rfl, fun row hrow => ?_, by simp⟩
  obtain rfl := List.mem_singleton.mp hrow
  rfl

theorem advances_pc {len_pc : Nat} (h : 14 * (len_pc : Int) + 18 < 2 ^ 31) :
    Advances (pc_bytes len_pc) len_pc 0 (if 0 < len_pc ∧ len_pc ≤ 16 then some 0 else none) := by
  have hn : special_opcode len_pc 0 = 14 * len_pc + 0 + 18 := special_opcode_eq (by omega)
  rw [pc_bytes]
  split
  · rename_i hpc
    split
    · rename_i hspecial
      have hle : len_pc ≤ 16 := by
        rw [hn, is_special_iff] at hspecial
        omega
      rw [if_pos ⟨by omega, hle⟩]
      exact advances_special (by decide) hn hspecial
    · rename_i hspecial
      have hlt : 16 < len_pc := by
        rw [hn, is_special_iff] at hspecial
        omega
      have htoNat : ((len_pc : Int) % 2 ^ 64).toNat = len_pc := by omega
      rw [if_neg (by omega), htoNat]
      refine ⟨_, reads_advance_pc len_pc, fun r => ⟨[], ?_, by simp, rfl⟩⟩
      simp [exec, Op.exec, header, DWARF_MIN_INSTR_LEN]
  · rename_i hpc
    have hzero : len_pc = 0 := by omega
    rw [if_neg (by omega), hzero]
    exact ⟨_, Reads.nil header, fun r => ⟨[], by simp [exec], by simp, rfl⟩⟩

theorem advances_line {len_line : Int} (h : -2 ^ 31 ≤ len_line ∧ len_line < 2 ^ 31) :
    Advances (line_bytes len_line) 0 len_line
      (if len_line ≠ 0 ∧ in_special_range len_line then some len_line else none) := by
  rw [line_bytes]
  split
  · rename_i hne
    by_cases hrange : in_special_range len_line
    · have hrange' := (in_special_range_iff len_line).mp hrange
      have hn : special_opcode 0 len_line = 14 * (0 : Nat) + len_line + 18 :=
        special_opcode_eq (by omega)
      have hspecial : is_special (special_opcode 0 len_line) := by
        rw [hn, is_special_iff]
        omega
      rw [if_pos ⟨hrange, hspecial⟩, if_pos ⟨hne, hrange⟩]
      exact advances_special hrange hn hspecial
    · have hfull : ¬(in_special_range len_line ∧ is_special (special_opcode 0 len_line)) :=
        fun h => hrange h.1
      have hshown : ¬(len_line ≠ 0 ∧ in_special_range len_line) := fun h => hrange h.2
      rw [if_neg hfull, if_neg hshown]
      refine ⟨_, reads_advance_line len_line, fun r => ⟨[], ?_, by simp, rfl⟩⟩
      simp [exec, Op.exec]
  · rename_i hzero
    rw [not_not] at hzero
    have hshown : ¬(len_line ≠ 0 ∧ in_special_range len_line) := fun h => h.1 hzero
    rw [if_neg hshown, hzero]
    exact ⟨_, Reads.nil header, fun r => ⟨[], by simp [exec], by simp, rfl⟩⟩

theorem Advances.append {bytes₁ bytes₂ : List Byte} {len_pc : Nat} {len_line : Int}
    {shown₁ : Option Int} {shown₂ : Option Int} (h₁ : Advances bytes₁ len_pc 0 shown₁)
    (h₂ : Advances bytes₂ 0 len_line shown₂) :
    Advances (bytes₁ ++ bytes₂) len_pc len_line (shown₂.or shown₁) := by
  obtain ⟨ops₁, hreads₁, hexec₁⟩ := h₁.reads
  obtain ⟨ops₂, hreads₂, hexec₂⟩ := h₂.reads
  refine ⟨ops₁ ++ ops₂, hreads₁.append hreads₂, fun r => ?_⟩
  obtain ⟨rows₁, hrun₁, haddress₁, hlast₁⟩ := hexec₁ r
  obtain ⟨rows₂, hrun₂, haddress₂, hlast₂⟩ := hexec₂ ⟨r.address + len_pc, r.file, r.line + 0⟩
  refine ⟨rows₁ ++ rows₂, ?_, fun row hrow => ?_, ?_⟩
  · rw [exec_append, hrun₁, hrun₂]
    simp
  · obtain hrow | hrow := List.mem_append.mp hrow
    · exact haddress₁ row hrow
    · exact haddress₂ row hrow
  · rw [List.getLast?_append, Option.map_or, hlast₁, hlast₂]
    cases shown₂ <;> simp

/-- The line that the last row of a call has, over the previous line. -/
def shown_line (len_pc : Nat) (len_line : Int) : Option Int :=
  if len_line ≠ 0 ∧ in_special_range len_line then some len_line
  else if 0 < len_pc ∧ len_pc ≤ 16 then some 0
  else none

theorem advances_row {len_pc : Nat} {len_line : Int} (hline : -2 ^ 31 ≤ len_line ∧ len_line < 2 ^ 31)
    (hpc : 14 * (len_pc : Int) + 18 < 2 ^ 31) (hboth : 14 * (len_pc : Int) + len_line + 18 < 2 ^ 31) :
    Advances (row_bytes len_pc len_line) len_pc len_line (shown_line len_pc len_line) := by
  rw [row_bytes]
  split
  · rename_i hfull
    obtain ⟨hne, hrange, hspecial⟩ := hfull
    have hrange' := (in_special_range_iff len_line).mp hrange
    have hn : special_opcode len_pc len_line = 14 * len_pc + len_line + 18 :=
      special_opcode_eq (by omega)
    have hshown : shown_line len_pc len_line = some len_line := by
      rw [shown_line]
      split
      · rfl
      · rename_i hzero
        have hzero' : len_line = 0 := by
          by_contra h
          exact hzero ⟨h, hrange⟩
        rw [hn, is_special_iff] at hspecial
        rw [if_pos (by omega), hzero']
    rw [hshown]
    exact advances_special hrange hn hspecial
  · have hshown : shown_line len_pc len_line =
        (if len_line ≠ 0 ∧ in_special_range len_line then some len_line else none).or
          (if 0 < len_pc ∧ len_pc ≤ 16 then some 0 else none) := by
      rw [shown_line]
      split <;> simp
    rw [hshown]
    exact (advances_pc hpc).append (advances_line hline)

theorem reads_file {cur_file last_file : Nat} : ∃ ops, Reads header (file_bytes cur_file last_file) ops ∧
    ∀ r, exec header ops r =
      (⟨r.address, if cur_file ≠ last_file then cur_file else r.file, r.line⟩, []) := by
  rw [file_bytes]
  split
  · exact ⟨_, reads_set_file cur_file, fun r => rfl⟩
  · exact ⟨_, Reads.nil header, fun r => rfl⟩

def LineState.add (s : LineState) (bytes : List Byte) : LineState :=
  { s with line_data := s.line_data ++ bytes }

attribute [local simp] LineState.add in
theorem LineState.add_add (s : LineState) (bytes₁ bytes₂ : List Byte) :
    (s.add bytes₁).add bytes₂ = s.add (bytes₁ ++ bytes₂) := by
  rw [add, add, add, List.append_assoc]

theorem dwarf_line_op_eq (op : Int) (s : LineState) : dwarf_line_op op s = s.add [BitVec.ofInt 8 op] := rfl

theorem dwarf_uleb128_op_eq (n : Nat) (s : LineState) :
    dwarf_uleb128_op n s = s.add (uleb128_bytes (n + 1) n) := rfl

theorem dwarf_sleb128_op_eq (d : Int) (s : LineState) : dwarf_sleb128_op d s =
    s.add (sleb128_bytes (if d < 0 then -1 else 0) (d.natAbs + 1) d) := rfl

theorem debug_line_file_eq (s : LineState) : debug_line_file s =
    ({ s with last_file := s.cur_file } : LineState).add (file_bytes s.cur_file s.last_file) := by
  rw [debug_line_file, file_bytes]
  split
  · rw [dwarf_line_op_eq, dwarf_uleb128_op_eq, LineState.add_add]
    rfl
  · rename_i heq
    obtain ⟨line_data, cur_file, last_file, last_pc, last_line, last_line_num, new_file⟩ := s
    have heq' : cur_file = last_file := not_not.mp heq
    rw [LineState.add, List.append_nil, heq']

theorem debug_line_row_eq (len_pc len_line : Int) (s : LineState) :
    debug_line_row len_pc len_line s = s.add (row_bytes len_pc len_line) := by
  have hnil (s : LineState) : s.add [] = s := by rw [LineState.add, List.append_nil]
  have hpc : (if len_pc ≠ 0 then
      if is_special (special_opcode len_pc 0) then dwarf_line_op (special_opcode len_pc 0) s
      else dwarf_uleb128_op (len_pc % 2 ^ 64).toNat (dwarf_line_op DW_LNS_advance_pc s)
    else s) = s.add (pc_bytes len_pc) := by
    rw [pc_bytes]
    split
    · split
      · rfl
      · rw [dwarf_line_op_eq, dwarf_uleb128_op_eq, LineState.add_add]
        rfl
    · exact (hnil s).symm
  rw [debug_line_row, row_bytes]
  simp only
  rw [hpc, line_bytes]
  split
  · rfl
  · rw [← LineState.add_add]
    generalize s.add (pc_bytes len_pc) = s'
    split
    · split
      · rfl
      · rw [dwarf_line_op_eq, dwarf_sleb128_op_eq, LineState.add_add]
        rfl
    · exact (hnil s').symm

/-- The bytes of a program: the address, what has been added, and the end of the sequence. -/
theorem tcc_debug_end_eq {s : LineState} {base : Nat} {body : List Byte}
    (h : s.line_data = tcc_debug_start.line_data ++ body) :
    tcc_debug_end base s = 0#8 :: ([9#8, 2#8] ++ address_bytes 8 base) ++ body ++ 0#8 :: [1#8, 1#8] := by
  have hstart : tcc_debug_start.line_data = [0#8, 9#8, 2#8] ++ List.replicate 8 0#8 := by decide
  rw [tcc_debug_end]
  simp only [dwarf_line_op_eq, dwarf_uleb128_op_eq, LineState.add, h]
  rw [hstart]
  simp [DW_LNE_end_sequence, uleb128_bytes]

/-- A recorded call, as one addition to the program. -/
theorem tcc_debug_line_eq {c : Call} {s : LineState} {line_num : Int} (htext : c.in_text = true)
    (hline : c.line_num = some line_num) (hne : (put_new_file c.found s).last_line_num ≠ line_num) :
    tcc_debug_line c s =
      let s' := put_new_file c.found s
      ⟨s'.line_data ++ (file_bytes s'.cur_file s'.last_file ++
        row_bytes (int (c.ind - s'.last_pc)) (int (line_num - s'.last_line))),
        s'.cur_file, s'.cur_file, c.ind, line_num, line_num, s'.new_file⟩ := by
  have hdiv (x : Int) : int x / (DWARF_MIN_INSTR_LEN : Nat) = int x := Int.ediv_one _
  rw [tcc_debug_line, if_neg (by simp [htext]), hline]
  simp only
  rw [if_neg hne, hdiv, debug_line_row_eq, debug_line_file_eq, LineState.add_add]
  rfl

/-- What a call that is recorded depends on. -/
theorem of_marks_call {c : Call} {s : LineState} {pc file : Nat} {line : Int}
    (h : c.marks s = [.call pc file line]) : c.line_num = some line ∧ c.in_text = true ∧
      (put_new_file c.found s).last_line_num ≠ line ∧ c.ind = pc ∧ (put_new_file c.found s).cur_file = file := by
  rw [Call.marks] at h
  split at h
  · cases h
  · rename_i line_num hline
    simp only at h
    split at h
    · rename_i hrecorded
      simp only [List.cons.injEq, Mark.call.injEq, and_true] at h
      obtain ⟨rfl, rfl, rfl⟩ := h
      exact ⟨hline, hrecorded.1, hrecorded.2, rfl, rfl⟩
    · cases h

theorem tcc_debug_line_of_marks_nil {c : Call} {s : LineState} (h : c.marks s = []) :
    tcc_debug_line c s = s ∨ tcc_debug_line c s = put_new_file c.found s := by
  rw [Call.marks] at h
  rw [tcc_debug_line]
  split
  · exact Or.inl rfl
  · rename_i htext
    rw [not_not] at htext
    split
    · exact Or.inl rfl
    · rename_i line_num hline
      rw [hline] at h
      simp only [htext, true_and] at h
      split at h
      · cases h
      · rename_i heq
        rw [not_not] at heq
        simp only
        rw [if_pos heq]
        exact Or.inr rfl

section

variable {F : Type} {files : FileTable F} {base : Nat} {s : LineState} {p : Place F} {rows : List Row}

/-- What the program has done so far: `rows` are the rows of its instructions. -/
structure Inv (files : FileTable F) (base : Nat) (s : LineState) (p : Place F) (rows : List Row) :
    Prop where
  program : ∃ body ops regs, s.line_data = tcc_debug_start.line_data ++ body ∧ Reads header body ops ∧
    exec header ops ⟨base, 1, 1⟩ = (regs, rows) ∧ regs.address = base + p.pc ∧
      files.entry regs.file = p.file ∧ regs.line = p.line
  last_pc : s.last_pc = p.pc
  last_file : files.entry s.last_file = p.file
  last_line : s.last_line = p.line
  below : ∀ row ∈ rows, row.address ≤ base + p.pc ∧ row.end_sequence = false
  shown : rows.getLast?.map (fun row => (files.entry row.file, row.line)) = p.shown

theorem Inv.start (files : FileTable F) (base : Nat) :
    Inv files base tcc_debug_start (Place.start files) [] :=
  ⟨⟨[], [], ⟨base, 1, 1⟩, rfl, Reads.nil header, rfl, rfl, rfl, rfl⟩, rfl, files.main, rfl, by simp, rfl⟩

/-- Only the program and the last call matter. -/
theorem Inv.congr {s' : LineState} (h : Inv files base s p rows) (hdata : s'.line_data = s.line_data)
    (hpc : s'.last_pc = s.last_pc) (hfile : s'.last_file = s.last_file)
    (hline : s'.last_line = s.last_line) : Inv files base s' p rows := by
  refine ⟨?_, hpc.trans h.last_pc, ?_, hline.trans h.last_line, h.below, h.shown⟩
  · rw [hdata]
    exact h.program
  · rw [hfile]
    exact h.last_file

theorem Inv.put_new_file (h : Inv files base s p rows) (found : Option Nat) :
    Inv files base (put_new_file found s) p rows := by
  rw [dwarf.put_new_file]
  split
  · exact h.congr rfl rfl rfl rfl
  · exact h

/-- A recorded call: its rows are all at its position. -/
theorem Inv.call {c : Call} {pc file : Nat} {line : Int} (h : Inv files base s p rows)
    (hmark : c.marks s = [.call pc file line]) (hpc : p.pc ≤ pc)
    (hover : NoOverflow p.pc p.line [.call pc file line]) :
    ∃ more, Inv files base (tcc_debug_line c s) (p.show files (.call pc file line)) (rows ++ more) ∧
      ∀ row ∈ more, row.address = base + pc := by
  obtain ⟨hline, htext, hne, rfl, rfl⟩ := of_marks_call hmark
  have h' := h.put_new_file c.found
  rw [tcc_debug_line_eq htext hline hne]
  generalize dwarf.put_new_file c.found s = s' at *
  obtain ⟨body, ops, regs, hdata, hreads, hexec, haddress, hfile, hregline⟩ := h'.program
  obtain ⟨⟨hlo, hhi, hpc₁, hboth⟩, -⟩ := hover
  obtain ⟨len_pc, hlen⟩ : ∃ len_pc : Nat, c.ind = p.pc + len_pc := ⟨c.ind - p.pc, by omega⟩
  have hint_pc : int (c.ind - s'.last_pc) = len_pc := by
    rw [h'.last_pc, hlen]
    push_cast
    rw [int_of_range (by omega)]
    ring
  have hint_line : int (line - s'.last_line) = line - p.line := by
    rw [h'.last_line, int_of_range ⟨hlo, hhi⟩]
  obtain ⟨ops₁, hreads₁, hexec₁⟩ := @reads_file s'.cur_file s'.last_file
  obtain ⟨ops₂, hreads₂, hexec₂⟩ := (@advances_row len_pc (line - p.line)
    ⟨hlo, hhi⟩ (by omega) (by omega)).reads
  obtain ⟨more, hrun, hmore, hlast⟩ := hexec₂
    ⟨regs.address, if s'.cur_file ≠ s'.last_file then s'.cur_file else regs.file, regs.line⟩
  have hentry : files.entry (if s'.cur_file ≠ s'.last_file then s'.cur_file else regs.file) =
      files.entry s'.cur_file := by
    split
    · rfl
    · rename_i heq
      rw [not_not.mp heq, hfile, h'.last_file]
  have hmore_address (row : Row) (hrow : row ∈ more) : row.address = base + c.ind := by
    have := congrArg Row.address (hmore row hrow)
    simp only at this
    omega
  refine ⟨more, ⟨⟨body ++ (file_bytes s'.cur_file s'.last_file ++ row_bytes len_pc (line - p.line)),
    ops ++ (ops₁ ++ ops₂), ⟨regs.address + len_pc,
      if s'.cur_file ≠ s'.last_file then s'.cur_file else regs.file, regs.line + (line - p.line)⟩,
    ?_, hreads.append (hreads₁.append hreads₂), ?_, ?_, ?_, ?_⟩, rfl, rfl, rfl,
    ?_, ?_⟩, hmore_address⟩
  · simp only
    rw [hdata, hint_pc, hint_line, List.append_assoc]
  · rw [exec_append, hexec, exec_append, hexec₁, hrun]
    rfl
  · simp only [Place.show]
    omega
  · exact hentry
  · simp only [Place.show]
    omega
  · intro row hrow
    simp only [Place.show]
    obtain hrow | hrow := List.mem_append.mp hrow
    · have := h.below row hrow
      exact ⟨by omega, this.2⟩
    · exact ⟨(hmore_address row hrow).le, congrArg Row.end_sequence (hmore row hrow)⟩
  · rw [List.getLast?_append, Option.map_or, h.shown]
    have hfile_of (row : Row) (hrow : more.getLast? = some row) : files.entry row.file =
        files.entry s'.cur_file := by
      rw [← hentry]
      exact congrArg (files.entry ·.file) (hmore row (List.mem_of_getLast? hrow))
    have hmap : more.getLast?.map (fun row => (files.entry row.file, row.line)) =
        (more.getLast?.map Row.line).map fun l => (files.entry s'.cur_file, l) := by
      cases hget : more.getLast? with
      | none => rfl
      | some row =>
        simp only [Option.map_some]
        rw [hfile_of row hget]
    rw [hmap, hlast, shown_line]
    simp only [Place.show, hregline]
    have hne_iff : line - p.line ≠ 0 ↔ line ≠ p.line := by omega
    have hpos_iff : (0 < len_pc ∧ len_pc ≤ 16) ↔ (p.pc < c.ind ∧ c.ind ≤ p.pc + 16) := by omega
    simp only [hne_iff, hpos_iff]
    split
    · simp
    · split <;> simp

theorem Inv.copy (h : Inv files base s p rows) : ∃ row : Row,
    Inv files base (dwarf_line_op DW_LNS_copy s) (p.show files .copy) (rows ++ [row]) ∧
      row.address = base + p.pc := by
  obtain ⟨body, ops, regs, hdata, hreads, hexec, haddress, hfile, hline⟩ := h.program
  have hcopy : Reads header [BitVec.ofInt 8 DW_LNS_copy] [.copy] :=
    @Reads.standard _ _ 1 _ (by decide) (by decide) fun rest => rfl
  refine ⟨regs.row, ⟨⟨body ++ [BitVec.ofInt 8 DW_LNS_copy], ops ++ [.copy], regs, ?_,
    hreads.append hcopy, ?_, haddress, hfile, hline⟩, h.last_pc, h.last_file, h.last_line, ?_, ?_⟩, haddress⟩
  · rw [dwarf_line_op_eq, LineState.add]
    simp only
    rw [hdata, List.append_assoc]
  · rw [exec_append, hexec]
    rfl
  · intro row hrow
    obtain hrow | hrow := List.mem_append.mp hrow
    · exact h.below row hrow
    · obtain rfl := List.mem_singleton.mp hrow
      exact ⟨haddress.le, rfl⟩
  · rw [List.getLast?_append]
    simp [Place.show, Registers.row, hfile, hline]

/-- A call that is not recorded. -/
theorem Inv.skip {c : Call} (h : Inv files base s p rows) (hmark : c.marks s = []) :
    Inv files base (tcc_debug_line c s) p rows := by
  obtain heq | heq := tcc_debug_line_of_marks_nil hmark
  · rw [heq]
    exact h
  · rw [heq]
    exact h.put_new_file c.found

theorem marks_call (c : Call) (s : LineState) :
    c.marks s = [] ∨ ∃ pc file line, c.marks s = [.call pc file line] := by
  rw [Call.marks]
  split
  · exact Or.inl rfl
  · simp only
    split
    · exact Or.inr ⟨_, _, _, rfl⟩
    · exact Or.inl rfl

theorem shown_at_append {more : List Row} {a : Nat} (hmore : ∀ row ∈ more, a < row.address) :
    shown_at files (rows ++ more) a = shown_at files rows a := by
  have hnone : more.reverse.find? (fun row => decide (row.address ≤ a)) = none := by
    rw [List.find?_eq_none]
    intro row hrow
    have := hmore row (List.mem_reverse.mp hrow)
    simp only [decide_eq_true_eq]
    omega
  rw [shown_at, lookup, List.reverse_append, List.find?_append, hnone, Option.none_or]
  rfl

theorem shown_at_last {a : Nat} (hrows : ∀ row ∈ rows, row.address ≤ a ∧ row.end_sequence = false) :
    shown_at files rows a = rows.getLast?.map fun row => (files.entry row.file, row.line) := by
  obtain rfl | hne := List.eq_nil_or_concat rows
  · rfl
  · obtain ⟨init, row, rfl⟩ := hne
    have hrow := hrows row (by simp)
    rw [shown_at, lookup, List.concat_eq_append, List.reverse_append, List.reverse_singleton,
      List.singleton_append, List.find?_cons_of_pos (by simpa using hrow.1)]
    simp [hrow.2]

theorem shown_at_end {a : Nat} {row : Row} (ha : row.address ≤ a) (hend : row.end_sequence = true) :
    shown_at files (rows ++ [row]) a = none := by
  rw [shown_at, lookup, List.reverse_append, List.reverse_singleton, List.singleton_append,
    List.find?_cons_of_pos (by simpa using ha)]
  simp [hend]

/-- The whole program: what has been recorded, between the setting of the address and the
    end of the sequence. -/
theorem table_end {base : BitVec 64} (h : Inv files base.toNat s p rows) :
    ∃ row : Row, table header (tcc_debug_end base.toNat s) = some (rows ++ [row]) ∧
      row.address = base.toNat + p.pc ∧ row.end_sequence = true := by
  obtain ⟨body, ops, regs, hdata, hreads, hexec, haddress, -, -⟩ := h.program
  have hlen := length_address_bytes 8 base.toNat
  have hle : le (address_bytes 8 base.toNat) = base.toNat := by
    rw [le_address_bytes]
    exact Nat.mod_eq_of_lt base.isLt
  have haddr : Reads header (0#8 :: ([9#8, 2#8] ++ address_bytes 8 base.toNat))
      [.set_address base.toNat] := by
    refine @Reads.standard _ _ 0 _ (by decide) (by decide) fun rest => ?_
    have huleb : uleb ([9#8, 2#8] ++ address_bytes 8 base.toNat ++ rest) =
        some ((address_bytes 8 base.toNat).length + 1, 2#8 :: (address_bytes 8 base.toNat ++ rest)) := by
      rw [hlen]
      exact uleb_last (by omega)
    rw [next_standard, next_extended_eq huleb, ← hle]
    simp only [hle]
    rfl
  have hend : Reads header (0#8 :: [1#8, 1#8]) [.end_sequence] :=
    @Reads.standard _ _ 0 _ (by decide) (by decide) fun rest => by
      have huleb : uleb ([1#8, 1#8] ++ rest) = some (([] : List Byte).length + 1, 1#8 :: ([] ++ rest)) :=
        uleb_last (by omega)
      rw [next_standard, next_extended_eq huleb]
      rfl
  have htable := ((haddr.append hreads).append hend).table_eq
  refine ⟨⟨regs.address, regs.file, regs.line, true⟩, ?_, haddress, rfl⟩
  have hset : exec header [.set_address base.toNat] .initial = (⟨base.toNat, 1, 1⟩, []) := rfl
  rw [tcc_debug_end_eq hdata, htable, exec_append, exec_append, hset, hexec]
  rfl

/-- The positions below `pc` are mapped to what `found` has for them. -/
def Below (files : FileTable F) (base pc : Nat) (rows : List Row) (found : Nat → Option (F × Int)) : Prop :=
  ∀ x < pc, ∀ m, found x = some m → shown_at files rows (base + x) = some m

/-- From its position on, the last call is the one that is found. -/
def Place.Found (p : Place F) (found : Nat → Option (F × Int)) : Prop :=
  ∀ x, p.pc ≤ x → found x = if p.recorded then some (p.file, p.line) else none

def found_call (files : FileTable F) (pc file : Nat) (line : Int) (found : Nat → Option (F × Int))
    (x : Nat) : Option (F × Int) :=
  if pc ≤ x then some (files.entry file, line) else found x

theorem Place.Found.call {found : Nat → Option (F × Int)} (p : Place F) (pc file : Nat) (line : Int) :
    (p.show files (.call pc file line)).Found (found_call files pc file line found) := by
  intro x hx
  have hle : pc ≤ x := hx
  rw [found_call, if_pos hle]
  rfl

/-- The rows of a call change nothing below its position, where the previous call's rows are
    the last ones. -/
theorem below_call {found : Nat → Option (F × Int)} {more : List Row} {pc file : Nat} {line : Int}
    (h : Inv files base s p rows) (hfound : p.Found found) (hpc : p.pc ≤ pc)
    (hmore : ∀ row ∈ more, row.address = base + pc) :
    Below files base pc (rows ++ more) (found_call files pc file line found) ↔
      Below files base p.pc rows found ∧
        (p.recorded = true → p.pc < pc → p.shown = some (p.file, p.line)) := by
  have hsame (x : Nat) (hx : x < pc) : shown_at files (rows ++ more) (base + x) =
      shown_at files rows (base + x) :=
    shown_at_append fun row hrow => by
      have := hmore row hrow
      omega
  have hfound' (x : Nat) (hx : x < pc) : found_call files pc file line found x = found x :=
    if_neg (by omega)
  have hlast (x : Nat) (hx : p.pc ≤ x) : shown_at files rows (base + x) = p.shown := by
    rw [shown_at_last, h.shown]
    intro row hrow
    have := h.below row hrow
    exact ⟨by omega, this.2⟩
  constructor
  · intro hbelow
    refine ⟨fun x hx m hm => ?_, fun hrecorded hlt => ?_⟩
    · rw [← hsame x (by omega)]
      exact hbelow x (by omega) m ((hfound' x (by omega)).trans hm)
    · have hm : found p.pc = some (p.file, p.line) := by rw [hfound p.pc le_rfl, if_pos hrecorded]
      rw [← hlast p.pc le_rfl, ← hsame p.pc hlt]
      exact hbelow p.pc hlt _ ((hfound' p.pc hlt).trans hm)
  · rintro ⟨hbelow, hshown⟩ x hx m hm
    rw [hfound' x hx] at hm
    rw [hsame x hx]
    by_cases hlt : x < p.pc
    · exact hbelow x hlt m hm
    · rw [hfound x (by omega)] at hm
      rw [hlast x (by omega)]
      split at hm
      · rename_i hrecorded
        rw [hshown hrecorded (by omega)]
        exact hm
      · cases hm

theorem below_copy {found : Nat → Option (F × Int)} {row : Row} (hrow : row.address = base + p.pc) :
    Below files base p.pc (rows ++ [row]) found ↔ Below files base p.pc rows found := by
  have hsame (x : Nat) (hx : x < p.pc) : shown_at files (rows ++ [row]) (base + x) =
      shown_at files rows (base + x) :=
    shown_at_append fun row' hrow' => by
      obtain rfl := List.mem_singleton.mp hrow'
      omega
  exact forall_congr' fun x => forall_congr' fun hx => by rw [hsame x hx]

/-- The rest of a run, from a state of the program on. -/
theorem maps_iff {base : BitVec 64} {code_end : Nat} (events : List Event)
    {found : Nat → Option (F × Int)} (h : Inv files base.toNat s p rows) (hfound : p.Found found)
    (hord : NonDecreasing code_end p.pc (marks s events))
    (hover : NoOverflow p.pc p.line (marks s events)) :
    (∃ rows', table header (tcc_debug_end base.toNat (run s events)) = some rows' ∧
      ∀ x < code_end, ∀ m, last_call files x (found x) (marks s events) = some m →
        shown_at files rows' (base.toNat + x) = some m) ↔
      Below files base.toNat p.pc rows found ∧ Tabled files code_end p (marks s events) := by
  induction events generalizing s p rows found with
  | nil =>
    obtain ⟨row, htable, haddress, hend⟩ := table_end h
    have hsame (x : Nat) (hx : x < p.pc) : shown_at files (rows ++ [row]) (base.toNat + x) =
        shown_at files rows (base.toNat + x) :=
      shown_at_append fun row' hrow' => by
        obtain rfl := List.mem_singleton.mp hrow'
        omega
    have hnone (x : Nat) (hx : p.pc ≤ x) : shown_at files (rows ++ [row]) (base.toNat + x) = none :=
      shown_at_end (by omega) hend
    have hle : p.pc ≤ code_end := hord
    constructor
    · rintro ⟨rows', htable', hmaps⟩
      obtain rfl : rows ++ [row] = rows' := Option.some.inj (htable.symm.trans htable')
      refine ⟨fun x hx m hm => ?_, fun hrecorded => ?_⟩
      · rw [← hsame x hx]
        exact hmaps x (by omega) m hm
      · by_contra hlt
        have hm : found p.pc = some (p.file, p.line) := by rw [hfound p.pc le_rfl, if_pos hrecorded]
        have hshown := hmaps p.pc (by omega) _ hm
        rw [hnone p.pc le_rfl] at hshown
        cases hshown
    · rintro ⟨hbelow, htabled⟩
      refine ⟨_, htable, fun x hx m hm => ?_⟩
      by_cases hlt : x < p.pc
      · rw [hsame x hlt]
        exact hbelow x hlt m hm
      · have hm' : found x = some m := hm
        rw [hfound x (by omega)] at hm'
        split at hm'
        · rename_i hrecorded
          have : code_end ≤ p.pc := htabled hrecorded
          omega
        · cases hm'
  | cons e es ih =>
    cases e with
    | file n => exact ih (h.congr rfl rfl rfl rfl) hfound hord hover
    | line c =>
      obtain hnil | ⟨pc, file, line, hcall⟩ := marks_call c s
      · rw [marks, Event.marks, hnil, List.nil_append] at hord hover ⊢
        exact ih (h.skip hnil) hfound hord hover
      · rw [marks, Event.marks, hcall, List.singleton_append] at hord hover ⊢
        obtain ⟨more, h', hmore⟩ := h.call hcall hord.1 ⟨hover.1, trivial⟩
        have hiff := ih h' (@Place.Found.call _ _ found p pc file line) hord.2 hover.2
        rw [Tabled, ← and_assoc, ← below_call h hfound hord.1 hmore]
        exact hiff
    | funcstart c =>
      obtain hnil | ⟨pc, file, line, hcall⟩ := marks_call c s
      · rw [marks, Event.marks, hnil, List.nil_append, List.singleton_append] at hord hover ⊢
        obtain ⟨row, h', hrow⟩ := (h.skip hnil).copy
        have hiff := ih h' hfound hord hover
        rw [Tabled, ← below_copy hrow]
        exact hiff
      · rw [marks, Event.marks, hcall, List.append_assoc, List.singleton_append,
          List.singleton_append] at hord hover ⊢
        obtain ⟨more, h₁, hmore⟩ := h.call hcall hord.1 ⟨hover.1, trivial⟩
        obtain ⟨row, h₂, hrow⟩ := h₁.copy
        have hiff := ih h₂ (@Place.Found.call _ _ found p pc file line) hord.2 hover.2
        rw [Tabled, Tabled, ← and_assoc, ← below_call h hfound hord.1 hmore]
        exact hiff.trans (and_congr_left' (below_copy (p := p.show files (.call pc file line)) hrow))

end

end tcc.dwarf
