import Mathlib.Data.List.Sort
import Tcc.Link.Object

/-! The order of the sections in an output file. -/

namespace tcc.output

open tcc.obj

def SHT_HASH : Nat := 5

def SHT_DYNAMIC : Nat := 6

def SHT_DYNSYM : Nat := 11

def SHT_GNU_HASH : Nat := 0x6ffffff6

def SHF_WRITE : BitVec 32 := 1#32

def SHF_ALLOC : BitVec 32 := 2#32

def SHF_EXECINSTR : BitVec 32 := 4#32

def SHF_TLS : BitVec 32 := 0x400#32

/-- A section on its way to a file: `sh_name` is where its name is among the names of the sections,
    zero where it has none, and `link` the number of another section. -/
structure Section where
  name : obj.Bytes
  sh_name : BitVec 32
  sh_type : Nat
  sh_flags : BitVec 32
  sh_info : BitVec 32
  sh_addralign : BitVec 32
  sh_entsize : BitVec 32
  sh_size : BitVec 64
  sh_addr : BitVec 64
  sh_offset : BitVec 64
  link : Option Nat

def Section.alloc (s : Section) : Prop := s.sh_flags &&& SHF_ALLOC ≠ 0#32

instance (s : Section) : Decidable s.alloc := inferInstanceAs (Decidable (_ ≠ _))

def Section.nobits (s : Section) : Prop := s.sh_type = SHT_NOBITS

instance (s : Section) : Decidable s.nobits := inferInstanceAs (Decidable (_ = _))

/-- The numbers of the sections that have a place of their own. -/
structure Special where
  plt_reloc : Option Nat
  bounds_section : Option Nat
  lbounds_section : Option Nat
  rodata_section : Option Nat
  got : Option Nat
  interp : Option Nat

def class_of_flags (s : Section) : Nat :=
  if s.alloc then
    (if s.sh_flags &&& SHF_WRITE ≠ 0#32 then 0x200 else 0x100) +
      (if s.sh_flags &&& SHF_TLS ≠ 0#32 then 0x200 else 0)
  else if s.sh_name ≠ 0#32 then 0x700
  else 0x900

def class_of_type (sp : Special) (nb_sections i : Nat) (s : Section) : Nat :=
  if s.sh_type = SHT_SYMTAB ∨ s.sh_type = SHT_DYNSYM then 0x10
  else if s.sh_type = SHT_STRTAB ∧ s.name ≠ chars ".stabstr" then
    if i = nb_sections - 1 then 0xff else 0x11
  else if s.sh_type = SHT_HASH ∨ s.sh_type = SHT_GNU_HASH then 0x12
  else if s.sh_type = SHT_RELA then
    if sp.plt_reloc = some i then 0x21 else 0x20
  else if s.sh_type = SHT_PREINIT_ARRAY then 0x41
  else if s.sh_type = SHT_INIT_ARRAY then 0x42
  else if s.sh_type = SHT_FINI_ARRAY then 0x43
  else if sp.bounds_section = some i ∨ sp.lbounds_section = some i then 0x44
  else if sp.rodata_section = some i ∨ s.name = chars ".data.rel.ro" then 0x45
  else if s.sh_type = SHT_DYNAMIC then 0x46
  else if sp.got = some i then 0x47
  else if sp.interp = some i then 0x00
  else if s.nobits then 0x80
  else if s.sh_flags &&& SHF_EXECINSTR ≠ 0#32 then 0x70
  else if s.sh_type = SHT_NOTE then 0x60
  else 0x50

def section_class (sp : Special) (nb_sections i : Nat) (s : Section) : Nat :=
  class_of_type sp nb_sections i s + class_of_flags s

/-- A section, its number and its class. -/
structure Classed where
  cls : Nat
  num : Nat
  sec : Section

/-- The sections but the first, which is none, with their classes. -/
def classed (sp : Special) (sections : List Section) : List Classed :=
  sections.mapIdx fun k s => ⟨section_class sp (sections.length + 1) (k + 1) s, k + 1, s⟩

/-- A section goes behind those that are there, as far as their classes are not above its own. -/
def place_class (sorted : List Classed) (x : Classed) : List Classed :=
  (sorted.reverse.orderedInsert (fun a b => b.cls ≤ a.cls) x).reverse

/-- A section and its number in the order of the file; `f` has what its segment is chosen by. -/
structure Entry where
  num : Nat
  sec : Section
  f : BitVec 32

def SEGMENT_FLAGS : BitVec 32 := SHF_ALLOC ||| SHF_WRITE ||| SHF_EXECINSTR ||| SHF_TLS

def F_RELRO : BitVec 32 := 1#32 <<< 4

def F_HEADER : BitVec 32 := 1#32 <<< 8

def segment_flags (x : Classed) : BitVec 32 :=
  if x.cls &&& 0xfff0 = 0x240 then x.sec.sh_flags &&& SEGMENT_FLAGS ||| F_RELRO
  else x.sec.sh_flags &&& SEGMENT_FLAGS

/-- A new header is started where the flags are others than those of the section before. -/
def mark_headers (f0 : BitVec 32) : List Classed → List Entry
  | [] => []
  | x :: rest =>
    if x.cls < 0x700 then
      if segment_flags x ≠ f0 then
        ⟨x.num, x.sec, segment_flags x ||| F_HEADER⟩ :: mark_headers (segment_flags x) rest
      else ⟨x.num, x.sec, segment_flags x⟩ :: mark_headers f0 rest
    else ⟨x.num, x.sec, 0#32⟩ :: mark_headers f0 rest

def Entry.header (e : Entry) : Prop := e.f &&& F_HEADER ≠ 0#32

instance (e : Entry) : Decidable e.header := inferInstanceAs (Decidable (_ ≠ _))

/-- `sort_sections`; the number of headers that it counts is that of the marks. -/
def sort_sections (sp : Special) (sections : List Section) : List Entry :=
  mark_headers 0#32 ((classed sp sections).foldl place_class [])

def count_headers (entries : List Entry) : Nat := entries.countP fun e => e.header

/-! The addresses and the file offsets of the sections, and the program headers. -/

def PT_LOAD : BitVec 32 := 1#32

def PT_DYNAMIC : BitVec 32 := 2#32

def PT_INTERP : BitVec 32 := 3#32

def PT_NOTE : BitVec 32 := 4#32

def PT_PHDR : BitVec 32 := 6#32

def PT_TLS : BitVec 32 := 7#32

def PT_GNU_RELRO : BitVec 32 := 0x6474e552#32

def PF_X : BitVec 32 := 1#32

def PF_W : BitVec 32 := 2#32

def PF_R : BitVec 32 := 4#32

def ELF_START_ADDR : BitVec 64 := 0x10000#64

def ELF_PAGE_SIZE : BitVec 64 := 0x1000#64

/-- The sizes of `ElfW(Ehdr)` and of `ElfW(Phdr)`. -/
def EHDR_SIZE : Nat := 64

def PHDR_SIZE : Nat := 56

structure Phdr where
  p_type : BitVec 32
  p_flags : BitVec 32
  p_offset : BitVec 64
  p_vaddr : BitVec 64
  p_paddr : BitVec 64
  p_filesz : BitVec 64
  p_memsz : BitVec 64
  p_align : BitVec 64

def Phdr.zero : Phdr := ⟨0#32, 0#32, 0#64, 0#64, 0#64, 0#64, 0#64, 0#64⟩

inductive OutputFormat where
  | ELF
  | BINARY
  | COFF
  deriving DecidableEq

/-- What of the state is read; `note`, `dynamic`, `interp` are numbers of sections, and `roinf` says
    whether there is to be a header for what is read only after the relocation. -/
structure Config where
  output_format : OutputFormat
  output_dyn : Bool
  text_addr : Option (BitVec 64)
  section_align : BitVec 32
  special : Special
  note : Option Nat
  dynamic : Option Nat
  roinf : Bool

def Config.s_align (c : Config) : BitVec 64 :=
  if c.section_align ≠ 0#32 then c.section_align.setWidth 64 else ELF_PAGE_SIZE

def Config.base (c : Config) : BitVec 64 :=
  match c.text_addr with
  | some text_addr => text_addr
  | none => if c.output_dyn then 0#64 else ELF_START_ADDR

/-- The headers before those of the segments. -/
def Config.phfill (c : Config) : Nat := if c.special.interp.isSome then 2 else 0

def Config.phnum (c : Config) (entries : List Entry) : Nat :=
  count_headers entries + c.phfill + (if c.note.isSome then 1 else 0) +
    (if c.dynamic.isSome then 1 else 0) + if c.roinf then 1 else 0

def Config.headers_size (c : Config) (phnum : Nat) : BitVec 32 :=
  if c.output_format = .ELF then BitVec.ofNat 32 (EHDR_SIZE + phnum * PHDR_SIZE) else 0#32

/-- What is read only after the relocation. -/
structure Roinf where
  sh_offset : BitVec 64
  sh_addr : BitVec 64
  sh_size : BitVec 64
  sh_addralign : BitVec 32

def Roinf.zero : Roinf := ⟨0#64, 0#64, 0#64, 0#32⟩

/-- The state of the loop: the headers of the segments that are full, the one that is filled, and
    the sections that have their places, in order. -/
structure Lay where
  addr : BitVec 64
  file_offset : BitVec 32
  full : List Phdr
  ph : Option Phdr
  roinf : Roinf
  placed : List Entry

def Lay.n (st : Lay) : Nat := st.full.length + if st.ph.isSome then 1 else 0

/-- `sh_addralign - 1`, as an address. -/
def Section.mask (s : Section) : BitVec 64 := (s.sh_addralign - 1#32).signExtend 64

def align_to (x mask : BitVec 64) : BitVec 64 := (x + mask) &&& ~~~mask

def segment_phdr (c : Config) (n : Nat) (e : Entry) (file_offset : BitVec 32) (addr : BitVec 64) : Phdr :=
  let tls := e.f &&& SHF_TLS ≠ 0#32
  let p_vaddr := if n = 0 then c.base else addr
  { p_type := if tls then PT_TLS else PT_LOAD
    p_flags := PF_R ||| (if e.f &&& SHF_WRITE ≠ 0#32 then PF_W else 0#32) |||
      (if e.f &&& SHF_EXECINSTR ≠ 0#32 then PF_X else 0#32)
    p_offset := if n = 0 then 0#64 else file_offset.signExtend 64
    p_vaddr := p_vaddr
    p_paddr := p_vaddr
    p_filesz := 0#64
    p_memsz := 0#64
    p_align := if tls then 4#64 else c.s_align }

/-- A section that is in the file only. -/
def layout_unallocated (st : Lay) (e : Entry) : Lay :=
  let offset : BitVec 32 := (align_to (st.file_offset.signExtend 64) e.sec.mask).setWidth 32
  { st with
    file_offset :=
      if e.sec.nobits then offset else (offset.signExtend 64 + e.sec.sh_size).setWidth 32
    placed := st.placed ++ [{ e with sec.sh_offset := offset.signExtend 64 }] }

/-- Where a segment starts in the middle of a page, the page is there twice in memory. -/
def page_hop (c : Config) (st : Lay) (e : Entry) : BitVec 64 :=
  if e.header ∧ st.n ≠ 0 ∧ c.output_format = .ELF ∧ st.addr &&& (c.s_align - 1#64) ≠ 0#64 then
    st.addr + c.s_align
  else st.addr

def section_mask (c : Config) (st : Lay) (e : Entry) : BitVec 64 :=
  if e.header ∧ st.n ≠ 0 ∧ c.output_format ≠ .ELF then c.s_align - 1#64 else e.sec.mask

def Roinf.add (r : Roinf) (s : Section) (offset addr : BitVec 64) : Roinf :=
  let r' := if r.sh_size = 0#64 then { r with sh_offset := offset, sh_addr := addr, sh_addralign := 1#32 } else r
  { r' with sh_size := addr - r'.sh_addr + s.sh_size }

/-- The header of a segment grows with its sections. -/
def Phdr.grow (ph : Phdr) (file_offset : BitVec 32) (addr : BitVec 64) : Phdr :=
  { ph with p_filesz := file_offset.signExtend 64 - ph.p_offset, p_memsz := addr - ph.p_vaddr }

def layout_allocated (c : Config) (st : Lay) (e : Entry) : Lay :=
  let tmp := page_hop c st e
  let addr := align_to tmp (section_mask c st e)
  let offset := st.file_offset + (addr - tmp).setWidth 32
  let addr' := addr + e.sec.sh_size
  let offset' : BitVec 32 :=
    if e.sec.nobits then offset else (offset.signExtend 64 + e.sec.sh_size).setWidth 32
  { addr := addr'
    file_offset := offset'
    full := if e.header then st.full ++ st.ph.toList else st.full
    ph :=
      if e.header then some ((segment_phdr c st.n e offset addr).grow offset' addr')
      else st.ph.map (·.grow offset' addr')
    roinf := if e.f &&& F_RELRO ≠ 0#32 then st.roinf.add e.sec (offset.signExtend 64) addr else st.roinf
    placed := st.placed ++ [{ e with sec.sh_offset := offset.signExtend 64, sec.sh_addr := addr }] }

def layout_section (c : Config) (st : Lay) (e : Entry) : Lay :=
  if e.f = 0#32 then layout_unallocated st e else layout_allocated c st e

def layout_start (c : Config) (entries : List Entry) : Lay :=
  let file_offset := c.headers_size (c.phnum entries)
  { addr := c.base + (file_offset.signExtend 64 &&& (c.s_align - 1#64))
    file_offset := file_offset
    full := []
    ph := none
    roinf := Roinf.zero
    placed := [] }

def fill_phdr (p_type : BitVec 32) (sh_offset sh_addr sh_size : BitVec 64) (sh_addralign : BitVec 32) : Phdr :=
  ⟨p_type, PF_R, sh_offset, sh_addr, sh_addr, sh_size, sh_size, sh_addralign.signExtend 64⟩

/-- The header for one section. -/
def section_phdr (placed : List Entry) (p_type : BitVec 32) (num : Option Nat) : List Phdr :=
  match num.bind fun n => placed.find? (·.num = n) with
  | some e => [fill_phdr p_type e.sec.sh_offset e.sec.sh_addr e.sec.sh_size e.sec.sh_addralign]
  | none => []

def Phdr.writable (ph : Phdr) : Phdr := { ph with p_flags := ph.p_flags ||| PF_W }

/-- The header for the headers. -/
def phdr_phdr (c : Config) (phnum : Nat) : Phdr :=
  let p_offset := BitVec.ofNat 64 EHDR_SIZE
  let p_filesz := BitVec.ofNat 64 (phnum * PHDR_SIZE)
  ⟨PT_PHDR, PF_R, p_offset, c.base + p_offset, c.base + p_offset, p_filesz, p_filesz, 4#64⟩

/-- The outcome: the sections with their places in the order of the file, and the headers. -/
structure Layout where
  entries : List Entry
  phdrs : List Phdr
  file_offset : BitVec 32

def other_phdrs (c : Config) (st : Lay) : List Phdr :=
  section_phdr st.placed PT_NOTE c.note ++
    (section_phdr st.placed PT_DYNAMIC c.dynamic).map (·.writable) ++
    if c.roinf then
      [(fill_phdr PT_GNU_RELRO st.roinf.sh_offset st.roinf.sh_addr st.roinf.sh_size
        st.roinf.sh_addralign).writable]
    else []

def first_phdrs (c : Config) (phnum : Nat) (st : Lay) : List Phdr :=
  if c.special.interp.isSome then
    phdr_phdr c phnum :: section_phdr st.placed PT_INTERP c.special.interp
  else []

def layout_run (c : Config) (entries : List Entry) : Lay :=
  entries.foldl (layout_section c) (layout_start c entries)

def layout_entries (c : Config) (entries : List Entry) : Layout :=
  let st := layout_run c entries
  { entries := st.placed
    phdrs := first_phdrs c (c.phnum entries) st ++ (st.full ++ st.ph.toList) ++ other_phdrs c st
    file_offset := st.file_offset }

/-- `layout_sections` -/
def layout_sections (c : Config) (sections : List Section) : Layout :=
  layout_entries c (sort_sections c.special sections)

end tcc.output
