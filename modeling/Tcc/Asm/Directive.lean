import Tcc.Asm.Riscv64

/-! The directives of the assembler that emit data or choose a section. -/

namespace tcc.asm

abbrev Byte := BitVec 8

/-- A section. `data` is its buffer, which grows with zeros as it is written to. -/
structure Section where
  name : String
  nobits : Bool
  data : Nat → Byte
  data_offset : BitVec 64
  sh_addralign : BitVec 32
  prev : Option Nat

/-- The state of the assembler: `ind` is the position in the current section. -/
structure AsmState where
  sections : List Section
  cur_text_section : Nat
  ind : BitVec 32
  last_text_section : Option Nat

/-- Why a directive is not accepted: an error, or an access outside every buffer. -/
inductive Halt where
  | error (msg : Error)
  | crash
  deriving DecidableEq

abbrev Result := Except Halt

/-- An `int` as an `unsigned long`. -/
def ulong (n : BitVec 32) : BitVec 64 := n.signExtend 64

namespace AsmState

def section_at (s : AsmState) (i : Nat) : Section :=
  s.sections.getD i ⟨"", false, fun _ => 0#8, 0#64, 0#32, none⟩

def cur (s : AsmState) : Section := s.section_at s.cur_text_section

def set_section (s : AsmState) (i : Nat) (sec : Section) : AsmState :=
  { s with sections := s.sections.set i sec }

end AsmState

/-- A byte of code or data. A position that is no longer an `int` asks for a buffer that
    cannot be had. -/
def g (c : Byte) (s : AsmState) : Result AsmState :=
  if s.ind.msb || s.ind == BitVec.intMax 32 then throw .crash
  else
    let sec := s.cur
    let s := s.set_section s.cur_text_section
      { sec with data := Function.update sec.data s.ind.toNat c }
    return { s with ind := s.ind + 1 }

def gen_le16 (i : BitVec 32) (s : AsmState) : Result AsmState := do
  let s ← g (i.setWidth 8) s
  g ((i >>> 8).setWidth 8) s

def gen_le32 (i : BitVec 32) (s : AsmState) : Result AsmState := do
  let s ← g (i.setWidth 8) s
  let s ← g ((i >>> 8).setWidth 8) s
  let s ← g ((i >>> 16).setWidth 8) s
  g ((i >>> 24).setWidth 8) s

def gen_expr32 (e : ExprValue) (s : AsmState) : Result AsmState := gen_le32 (e.v.setWidth 32) s

def asm_int_expr (e : ExprValue) : Result (BitVec 32) :=
  if e.sym.isSome then throw (.error (expect "constant")) else return e.v.setWidth 32

/-- The end of the directives that leave space: `size` bytes `v`. -/
def zero_pad (size v : BitVec 32) (s : AsmState) : Result AsmState := do
  let sec := s.cur
  if sec.nobits then return { s with ind := s.ind + size }
  else if s.ind.msb || size.msb then throw .crash
  else
    let sec := { sec with
      data_offset := ulong s.ind + ulong size
      data := fun i => if s.ind.toNat ≤ i ∧ i < s.ind.toNat + size.toNat then v.setWidth 8 else sec.data i }
    let s := s.set_section s.cur_text_section sec
    return { s with ind := s.ind + size }

inductive Alignment where
  | align
  | balign
  | p2align

/-- The directives, with their operands. The values of symbols are those in the symbol table. -/
inductive Directive where
  | align (kind : Alignment) (n : ExprValue) (v : Option ExprValue)
  | skip (n : ExprValue) (v : Option ExprValue)
  | quad (values : List (BitVec 64))
  | byte (values : List ExprValue)
  | short (values : List ExprValue)
  | int (values : List ExprValue)
  | fill (repeats : ExprValue) (size val : Option ExprValue)
  | org (e : ExprValue) (esym : Option (Nat × BitVec 64))
  | string (ascii : Bool) (strings : List (List Byte))
  | text (name : String) (n : Option ExprValue)
  | section (name : String)
  | pushsection (name : String)
  | previous
  | popsection

def use_section1 (s : AsmState) (sec : Nat) : AsmState :=
  let s := s.set_section s.cur_text_section { s.cur with data_offset := ulong s.ind }
  let s := { s with cur_text_section := sec }
  { s with ind := s.cur.data_offset.setWidth 32 }

/-- A new section is aligned to the size of a pointer. -/
def find_section (s : AsmState) (name : String) : Nat × AsmState :=
  match s.sections.findIdx? (·.name == name) with
  | some i => (i, s)
  | none => (s.sections.length,
      { s with sections := s.sections ++ [⟨name, false, fun _ => 0#8, 0#64, 8#32, none⟩] })

def use_section (s : AsmState) (name : String) : AsmState :=
  let (sec, s) := find_section s name
  use_section1 s sec

def push_section (s : AsmState) (name : String) : AsmState :=
  let (sec, s) := find_section s name
  let s := s.set_section sec { s.section_at sec with prev := some s.cur_text_section }
  use_section1 s sec

def pop_section (s : AsmState) : Result AsmState :=
  match s.cur.prev with
  | none => throw (.error ".popsection without .pushsection")
  | some prev => return use_section1 (s.set_section s.cur_text_section { s.cur with prev := none }) prev

/-- A section that `.section` has just allocated is aligned to 1. -/
def new_section_align (old_nb_sections : Nat) (s : AsmState) : AsmState :=
  if old_nb_sections ≠ s.sections.length then
    s.set_section s.cur_text_section { s.cur with sh_addralign := 1#32 }
  else s

/-- The optional value of the bytes that fill a space. -/
def fill_value : Option ExprValue → Result (BitVec 32)
  | none => return 0#32
  | some e => asm_int_expr e

def g_all (bytes : List Byte) (s : AsmState) : Result AsmState :=
  bytes.foldlM (fun s c => g c s) s

/-- The values of a data directive; `emit` writes one where the section has contents. -/
def asm_data (size : BitVec 32) (emit : ExprValue → AsmState → Result AsmState) (values : List ExprValue)
    (s : AsmState) : Result AsmState :=
  values.foldlM (fun s e => if s.cur.nobits then return { s with ind := s.ind + size } else emit e s) s

def asm_constant (emit : BitVec 32 → AsmState → Result AsmState) (e : ExprValue) (s : AsmState) :
    Result AsmState :=
  if e.sym.isSome then throw (.error (expect "constant")) else emit (e.v.setWidth 32) s

/-- The alignment that is asked for. -/
def align_operand (kind : Alignment) (n : BitVec 32) : Result (BitVec 32) :=
  match kind with
  | .p2align =>
    if n.slt 0 || BitVec.slt 30 n then
      throw (.error "invalid p2align, must be between 0 and 30")
    else return 1#32 <<< n
  | _ => return n

/-- The section must have a compatible alignment. -/
def align_section (n : BitVec 32) (s : AsmState) : AsmState :=
  if s.cur.sh_addralign.slt n then s.set_section s.cur_text_section { s.cur with sh_addralign := n } else s

def gen_quad (vl : BitVec 64) (s : AsmState) : Result AsmState :=
  if s.cur.nobits then return { s with ind := s.ind + 8 }
  else do
    let s ← gen_le32 (vl.setWidth 32) s
    gen_le32 ((vl >>> 32).setWidth 32) s

def fill_size : Option ExprValue → Result (BitVec 32)
  | none => return 1#32
  | some e => asm_int_expr e

def org_operand (e : ExprValue) (esym : Option (Nat × BitVec 64)) (s : AsmState) : Result (BitVec 64) :=
  match esym with
  | none => return e.v
  | some (st_shndx, st_value) =>
    if st_shndx ≠ s.cur_text_section then throw (.error (expect "constant or same-section symbol"))
    else return e.v + st_value

def Directive.step (d : Directive) (s : AsmState) : Result AsmState :=
  match d with
  | align kind n v => do
    let n ← asm_int_expr n
    let n ← align_operand kind n
    if n.slt 0 || n &&& (n - 1) != 0 then throw (.error "alignment must be a positive power of two")
    else do
      let offset := (s.ind + n - 1) &&& -n
      let size := offset - s.ind
      let v ← fill_value v
      zero_pad size v (align_section n s)
  | skip n v => do
    let n ← asm_int_expr n
    let n := if n.slt 0 then 0 else n
    let v ← fill_value v
    zero_pad n v s
  | quad values => values.foldlM (fun s vl => gen_quad vl s) s
  | byte values => asm_data 1 (asm_constant fun i => g (i.setWidth 8)) values s
  | short values => asm_data 2 (asm_constant gen_le16) values s
  | int values => asm_data 4 gen_expr32 values s
  | fill repeats size val => do
    let repeats ← asm_int_expr repeats
    if repeats.slt 0 then throw (.error "repeat < 0; .fill ignored")
    else do
      let size ← fill_size size
      if size.slt 0 then throw (.error "size < 0; .fill ignored")
      else do
        let size := if BitVec.slt 8 size then 8 else size
        let val ← fill_value val
        let repeat_buf : List Byte := [val.setWidth 8, (val >>> 8).setWidth 8, (val >>> 16).setWidth 8,
          (val >>> 24).setWidth 8, 0, 0, 0, 0]
        g_all (List.replicate repeats.toNat (repeat_buf.take size.toNat)).flatten s
  | org e esym => do
    let n ← org_operand e esym s
    if n < ulong s.ind then throw (.error "attempt to .org backwards")
    else zero_pad ((n - ulong s.ind).setWidth 32) 0 s
  | string ascii strings =>
    strings.foldlM (fun s p => g_all (if ascii then p.dropLast else p) s) s
  | text name n => do
    let n ← fill_value n
    return use_section s (if n = 0 then name else name ++ toString n.toInt)
  | .section name =>
    let old_nb_sections := s.sections.length
    let s := { s with last_text_section := some s.cur_text_section }
    return new_section_align old_nb_sections (use_section s name)
  | pushsection name =>
    let old_nb_sections := s.sections.length
    let s := { s with last_text_section := some s.cur_text_section }
    return new_section_align old_nb_sections (push_section s name)
  | previous =>
    match s.last_text_section with
    | none => throw (.error "no previous section referenced")
    | some last =>
      let sec := s.cur_text_section
      return { use_section1 s last with last_text_section := some sec }
  | popsection => pop_section s

end tcc.asm
