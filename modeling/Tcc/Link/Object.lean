import Tcc.Link.Units

/-! Objects that are loaded into the sections of the linker. -/

namespace tcc.obj

open tcc.elf

abbrev Bytes := List (BitVec 8)

def chars (s : String) : Bytes := s.toList.map fun c => BitVec.ofNat 8 c.toNat

def SHT_PROGBITS : Nat := 1

def SHT_SYMTAB : Nat := 2

def SHT_STRTAB : Nat := 3

def SHT_RELA : Nat := 4

def SHT_NOTE : Nat := 7

def SHT_NOBITS : Nat := 8

def SHT_INIT_ARRAY : Nat := 14

def SHT_FINI_ARRAY : Nat := 15

def SHT_PREINIT_ARRAY : Nat := 16

def SHF_GROUP : Nat := 0x200

def SHF_COMPRESSED : Nat := 0x800

def R_RISCV_ALIGN : Nat := 43

def R_RISCV_RELAX : Nat := 51

/-- A section of the linker; `link` is the position of another, `sh_info` the number. A section of
    relocations has `rels` for its contents, and one without contents has none. -/
structure Section where
  name : Name
  sh_type : Nat
  sh_flags : Nat
  sh_addralign : Nat
  sh_entsize : Nat
  link : Option Nat
  sh_info : Nat
  data : Bytes
  rels : List Rel
  data_offset : Nat

/-- The number of the section at a position. -/
def sh_num (k : Nat) : Nat := k + 1

/-- The linker: the positions of the symbol table and of the debugging symbols with their strings,
    the symbols, and what their resolution reads. -/
structure State where
  sections : List Section
  symtab_section : Nat
  stab_section : Option (Nat × Nat)
  syms : List Named
  rules : SymTab

/-- A section of an object, with its contents. -/
structure Shdr where
  name : Name
  sh_type : Nat
  sh_flags : Nat
  sh_addralign : Nat
  sh_entsize : Nat
  sh_size : Nat
  sh_link : Nat
  sh_info : Nat
  data : Bytes
  rels : List Rel

/-- An object: its sections and its symbols are counted from zero. -/
structure Object where
  shdrs : List Shdr
  e_shstrndx : Nat
  syms : List Named

/-- `SectionMergeInfo` -/
structure Info where
  s : Option Nat
  offset : Nat
  new_section : Bool
  link_once : Bool

def Info.none : Info := ⟨.none, 0, false, false⟩

def Object.seencompressed (obj : Object) : Bool :=
  obj.shdrs.any fun sh => sh.sh_flags &&& SHF_COMPRESSED != 0

/-- The types of sections that are handled. -/
def Shdr.handled (sh : Shdr) : Bool :=
  [SHT_PROGBITS, SHT_NOTE, SHT_NOBITS, SHT_PREINIT_ARRAY, SHT_INIT_ARRAY, SHT_FINI_ARRAY].contains
    sh.sh_type || sh.name.1 == chars ".stabstr"

/-- The section that a section is examined by: for relocations the one that they are for. -/
def Object.examined (obj : Object) (sh : Shdr) : Option Shdr :=
  if sh.sh_type = SHT_RELA then obj.shdrs[sh.sh_info]? else some sh

/-- The tests before a section is looked for. -/
def Object.passes (obj : Object) (i : Nat) (sh : Shdr) : Bool :=
  i != obj.e_shstrndx &&
    match obj.examined sh with
    | some tgt => tgt.handled && !(obj.seencompressed && (chars ".debug_").isPrefixOf tgt.name.1)
    | none => false

def linkonce (name : Name) : Bool := (chars ".gnu.linkonce").isPrefixOf name.1

def State.find_section (s : State) (name : Name) : Option Nat :=
  s.sections.findIdx? (·.name == name)

/-- `-data_offset & (sh_addralign - 1)` -/
def padding (data_offset sh_addralign : Nat) : Nat :=
  (2 ^ 64 - data_offset % 2 ^ 64) % 2 ^ 64 &&& (sh_addralign - 1)

def Shdr.align (sh : Shdr) : Nat := max sh.sh_addralign 1

/-- Where a section goes in one of the linker. -/
def Section.start (sec : Section) (sh : Shdr) : Nat :=
  sec.data_offset + padding sec.data_offset sh.align

/-- A section behind what is there. -/
def Section.append (sec : Section) (sh : Shdr) : Section :=
  { sec with
    sh_addralign := max sec.sh_addralign sh.align
    data :=
      if sh.sh_type = SHT_NOBITS ∨ sh.sh_type = SHT_RELA then sec.data
      else sec.data ++ (List.replicate (padding sec.data_offset sh.align) 0#8 ++ sh.data)
    rels := if sh.sh_type = SHT_RELA then sec.rels ++ sh.rels else sec.rels
    data_offset := sec.start sh + sh.sh_size }

def new_section (sh : Shdr) : Section :=
  ⟨sh.name, sh.sh_type, sh.sh_flags &&& (2 ^ 64 - 1 - SHF_GROUP), sh.align, sh.sh_entsize, none, 0, [], [], 0⟩

/-- One section: it is skipped, merged with the one of its name, or added. -/
def load_section (obj : Object) (i : Nat) (sh : Shdr) (s : State) : Option (State × Info) :=
  if sh.sh_type = SHT_SYMTAB then some (s, { Info.none with s := some s.symtab_section })
  else if !obj.passes i sh then some (s, Info.none)
  else
    match s.find_section sh.name with
    | some k =>
      if linkonce sh.name then some (s, { Info.none with link_once := true })
      else
        match s.sections[k]? with
        | some sec =>
          if sh.sh_type ≠ sec.sh_type then none
          else some ({ s with sections := s.sections.set k (sec.append sh) },
            ⟨some k, sec.start sh, false, false⟩)
        | none => none
    | none =>
      some ({ s with sections := s.sections ++ [(new_section sh).append sh] },
        ⟨some s.sections.length, (new_section sh).start sh, true, false⟩)

/-- The sections from number `i` on. -/
def load_sections (obj : Object) : Nat → List Shdr → State → Option (State × List Info)
  | _, [], s => some (s, [])
  | i, sh :: shdrs, s => do
    let (s, info) ← load_section obj i sh s
    let (s, infos) ← load_sections obj (i + 1) shdrs s
    return (s, info :: infos)

/-- Adds `o` to `n_strx`, the first four bytes of each of the `Stab_Sym` of twelve bytes. -/
def relocate_stabs (o : Nat) : Nat → Bytes → Bytes
  | 0, bytes => bytes
  | n + 1, bytes =>
    let n_strx := bytes.take 4
    let value := n_strx.foldr (fun b n => b.toNat + 256 * n) 0
    let value' := if value ≠ 0 then (value + o) % 2 ^ 32 else value
    if bytes.length < 12 then bytes
    else (List.range 4).map (fun i => BitVec.ofNat 8 (value' / 256 ^ i)) ++ (bytes.drop 4).take 8 ++
      relocate_stabs o n (bytes.drop 12)

/-- The last section that was put into one of the linker. -/
def last_in (infos : List Info) (k : Nat) : Option Info :=
  infos.reverse.find? fun info => info.s == some k && !info.link_once

/-- The string offsets of debugging symbols, behind those that were there. -/
def load_stabs (s : State) (infos : List Info) : State :=
  match s.stab_section with
  | none => s
  | some (stab, stabstr) =>
    match last_in infos stab, last_in infos stabstr with
    | some a, some b =>
      { s with sections := s.sections.modify stab fun sec =>
          { sec with data := sec.data.take a.offset ++
              relocate_stabs b.offset ((sec.data_offset - a.offset) / 12) (sec.data.drop a.offset) } }
    | _, _ => s

/-- `sh_link` and `sh_info` of a section that was added; the section that relocations are for has
    to be there. -/
def link_section (infos : List Info) (sh : Shdr) (info : Info) (s : State) : Option State :=
  match info.s with
  | some k =>
    if info.new_section then
      let link := if 0 < sh.sh_link then (infos.getD sh.sh_link Info.none).s else none
      let sh_info :=
        if sh.sh_type = SHT_RELA then (infos.getD sh.sh_info Info.none).s.map sh_num else some 0
      sh_info.map fun sh_info =>
        { s with sections := s.sections.modify k fun sec => { sec with link, sh_info } }
    else some s
  | none => some s

def link_sections (infos : List Info) : List (Shdr × Info) → State → Option State
  | [], s => some s
  | (sh, info) :: rest, s => do
    let s ← link_section infos sh info s
    link_sections infos rest s

/-- A symbol with its section and its value in the linker; none where its section is not kept. -/
def moved_symbol (infos : List Info) (sym : ElfSym) : Option ElfSym :=
  if sym.st_shndx ≠ SHN_UNDEF ∧ sym.st_shndx < SHN_LORESERVE then
    let info := infos.getD sym.st_shndx Info.none
    info.s.map fun k =>
      { sym with st_shndx := sh_num k, st_value := sym.st_value + BitVec.ofNat 64 info.offset }
  else some sym

def in_link_once (infos : List Info) (sym : ElfSym) : Bool :=
  sym.st_shndx != SHN_UNDEF && sym.st_shndx < SHN_LORESERVE &&
    (infos.getD sym.st_shndx Info.none).link_once

/-- One symbol and its index in the linker, zero where it has none. -/
def load_symbol (infos : List Info) (s : State) (x : Named) : State × Nat :=
  if in_link_once infos x.2 then
    (s, if x.2.bind ≠ .STB_LOCAL then (find s.syms x.1).getD 0 else 0)
  else
    match moved_symbol infos x.2 with
    | none => (s, 0)
    | some sym =>
      let (syms, sym_index) := enter s.rules s.syms (x.1, sym)
      ({ s with syms }, sym_index)

def load_symbols (infos : List Info) : List Named → State → State × List Nat
  | [], s => (s, [])
  | x :: xs, s =>
    let (s, sym_index) := load_symbol infos s x
    let (s, old_to_new_syms) := load_symbols infos xs s
    (s, sym_index :: old_to_new_syms)

/-- A relocation of the object, as it is in the linker. -/
def load_rel (infos : List Info) (old_to_new_syms : List Nat) (sh_info : Nat) (rel : Rel) : Option Rel :=
  match old_to_new_syms[rel.r_sym]? with
  | none => none
  | some sym_index =>
    let info := infos.getD sh_info Info.none
    if sym_index = 0 ∧ !info.link_once ∧ rel.r_type ≠ R_RISCV_ALIGN ∧ rel.r_type ≠ R_RISCV_RELAX then none
    else some { rel with r_sym := sym_index, r_offset := rel.r_offset + info.offset }

/-- The relocations from `first` to `last` of a section. -/
def patch_rels (f : Rel → Option Rel) (first last : Nat) (rels : List Rel) : Option (List Rel) := do
  let patched ← ((rels.take last).drop first).mapM f
  return rels.take first ++ patched ++ rels.drop last

def patch_section (infos : List Info) (old_to_new_syms : List Nat) (sh : Shdr) (info : Info) (s : State) :
    Option State :=
  match info.s with
  | none => some s
  | some k =>
    match s.sections[k]? with
    | none => some s
    | some sec =>
      if sec.sh_type = SHT_RELA then do
        let rels ← patch_rels (load_rel infos old_to_new_syms sh.sh_info) (info.offset / 24)
          ((info.offset + sh.sh_size) / 24) sec.rels
        return { s with sections := s.sections.set k { sec with rels } }
      else some s

def patch_sections (infos : List Info) (old_to_new_syms : List Nat) :
    List (Shdr × Info) → State → Option State
  | [], s => some s
  | (sh, info) :: rest, s => do
    let s ← patch_section infos old_to_new_syms sh info s
    patch_sections infos old_to_new_syms rest s

/-- The section zero is not looked at, nor is symbol zero. -/
def tcc_load_object_file (s : State) (obj : Object) : Option (State × List Info × List Nat) :=
  if 1 < (obj.shdrs.tail.filter (·.sh_type == SHT_SYMTAB)).length then none
  else do
    let (s, infos) ← load_sections obj 1 obj.shdrs.tail s
    let infos := Info.none :: infos
    let s := load_stabs s infos
    let s ← link_sections infos (obj.shdrs.zip infos) s
    let (s, old_to_new_syms) := load_symbols infos obj.syms.tail s
    let old_to_new_syms := (obj.syms.take 1).map (fun _ => 0) ++ old_to_new_syms
    let s ← patch_sections infos old_to_new_syms (obj.shdrs.zip infos) s
    return (s, infos, old_to_new_syms)

end tcc.obj
