import Tcc.Machine.Dwarf
import Tcc.Machine.Numeral

/-! The archives that `tcc -ar` writes. -/

open machine.decimal machine.dwarf

namespace tcc.archive

abbrev Bytes := List (BitVec 8)

/-- A number of `n` bytes at an offset, the lowest first. -/
def read_le (buf : Bytes) (offset n : Nat) : Nat := le ((buf.drop offset).take n)

/-- The string at an offset. -/
def string_at (buf : Bytes) (offset : Nat) : Bytes := (buf.drop offset).takeWhile (· != 0#8)

def chars (s : String) : Bytes := s.toList.map fun c => BitVec.ofNat 8 c.toNat

def spaces (n : Nat) : Bytes := List.replicate n 32#8

def ELFCLASS64 : BitVec 8 := 2#8

def SHT_SYMTAB : Nat := 2

def SHT_STRTAB : Nat := 3

/-- What is read of a section header. -/
structure Shdr where
  sh_name : Nat
  sh_type : Nat
  sh_offset : Nat
  sh_size : Nat
  sh_link : Nat

/-- What is read of a symbol. -/
structure Sym where
  st_name : Nat
  st_info : Nat
  st_shndx : Nat

def e_shnum (buf : Bytes) : Nat := read_le buf 60 2

def e_shstrndx (buf : Bytes) : Nat := read_le buf 62 2

def shdr_at (buf : Bytes) (i : Nat) : Shdr :=
  let offset := read_le buf 40 8 + i * read_le buf 58 2
  ⟨read_le buf offset 4, read_le buf (offset + 4) 4, read_le buf (offset + 24) 8,
    read_le buf (offset + 32) 8, read_le buf (offset + 40) 4⟩

def sections (buf : Bytes) : List Shdr := (List.range (e_shnum buf)).map (shdr_at buf)

def sym_at (buf : Bytes) (symtab i : Nat) : Sym :=
  let offset := symtab + i * 24
  ⟨read_le buf offset 4, read_le buf (offset + 4) 1, read_le buf (offset + 6) 2⟩

/-- The last symbol table among the sections: its offset and its size. -/
def find_symtab (buf : Bytes) : Option (Nat × Nat) :=
  (sections buf).foldl (fun symtab shdr =>
    if shdr.sh_offset ≠ 0 ∧ shdr.sh_type = SHT_SYMTAB then some (shdr.sh_offset, shdr.sh_size)
    else symtab) none

/-- The last string table with the name `.strtab`. -/
def find_strtab (buf : Bytes) : Option Nat :=
  let shstr := (shdr_at buf (e_shstrndx buf)).sh_offset
  (sections buf).foldl (fun strtab shdr =>
    if shdr.sh_offset ≠ 0 ∧ shdr.sh_type = SHT_STRTAB ∧
        string_at buf (shstr + shdr.sh_name) = chars ".strtab" then some shdr.sh_offset
    else strtab) none

/-- The pointers into the buffer of an object, which outlive the object: `object` is the number
    of the one they point into. -/
structure Table (α : Type) where
  object : Nat
  value : α

/-- `st_info` of the symbols that are indexed. -/
def indexed_info : List Nat := [0x10, 0x11, 0x12, 0x20, 0x21, 0x22]

def Sym.indexed (sym : Sym) : Bool := sym.st_shndx != 0 && indexed_info.contains sym.st_info

/-- The symbols of a table but the first. -/
def symbols (buf : Bytes) (symtab symtabsize : Nat) : List Sym :=
  ((List.range (symtabsize / 24)).drop 1).map (sym_at buf symtab)

/-- The names that object number `k` adds to the index; none where memory that has been freed
    is read. -/
def indexed_names (k : Nat) (buf : Bytes) (symtab : Option (Table (Nat × Nat)))
    (strtab : Option (Table Nat)) : Option (List Bytes) :=
  match symtab with
  | none => some []
  | some ⟨k₁, symtab, symtabsize⟩ =>
    if symtabsize / 24 ≤ 1 then some []
    else if k₁ ≠ k then none
    else
      let syms := (symbols buf symtab symtabsize).filter Sym.indexed
      if syms.isEmpty then some []
      else
        match strtab with
        | none => none
        | some ⟨k₂, strtab⟩ =>
          if k₂ ≠ k then none else some (syms.map fun sym => string_at buf (strtab + sym.st_name))

/-- An input of the tool. -/
structure Object where
  path : Bytes
  buf : Bytes

/-- The part of a path after the last separator. -/
def base_name (path : Bytes) : Bytes :=
  (path.reverse.takeWhile fun b => b != 47#8 && b != 92#8).reverse

/-- `sprintf(stmp, "%-10d", size)`, of which ten bytes are copied. -/
def ar_size (size : Nat) : Bytes :=
  (decimal_bytes size ++ spaces (10 - (decimal_bytes size).length)).take 10

def ar_name (name : Bytes) : Bytes :=
  let istrlen := min name.length 15
  name.take istrlen ++ [47#8] ++ spaces (15 - istrlen)

def ARMAG : Bytes := chars "!<arch>\n"

def ARFMAG : Bytes := [96#8, 10#8]

/-- An `ArHdr`: name, date, two ids, mode, size and magic. -/
def ar_header (name mode : Bytes) (size : Nat) : Bytes :=
  name ++ spaces 12 ++ chars "0     " ++ chars "0     " ++ mode ++ ar_size size ++ ARFMAG

def member_header (o : Object) : Bytes :=
  ar_header (ar_name (base_name o.path)) (chars "100666  ") o.buf.length

/-- The variables of the loop over the objects; `afpos` is without its first entry. -/
structure ArState where
  anames : Bytes
  afpos : List Nat
  fo : Bytes
  fpos : Nat
  symtab : Option (Table (Nat × Nat))
  strtab : Option (Table Nat)

/-- One object: `i_obj` is its number. -/
def add_object (s : ArState) (i_obj : Nat) (o : Object) : Option ArState :=
  if o.buf.getD 4 0#8 ≠ ELFCLASS64 then none
  else do
    let symtab := ((find_symtab o.buf).map (⟨i_obj, ·⟩)).or s.symtab
    let strtab := ((find_strtab o.buf).map (⟨i_obj, ·⟩)).or s.strtab
    let names ← indexed_names i_obj o.buf symtab strtab
    let header := member_header o
    return {
      anames := s.anames ++ names.flatMap (· ++ [0#8])
      afpos := s.afpos ++ names.map fun _ => s.fpos
      fo := s.fo ++ header ++ o.buf
      fpos := s.fpos + (o.buf.length + header.length)
      symtab, strtab }

def add_objects (s : ArState) : Nat → List Object → Option ArState
  | _, [] => some s
  | i_obj, o :: os => do
    let s ← add_object s i_obj o
    add_objects s (i_obj + 1) os

/-- `le2belong` of a value that is stored in four bytes, the lowest first. -/
def be32 (n : Nat) : Bytes :=
  [BitVec.ofNat 8 (n / 2 ^ 24), BitVec.ofNat 8 (n / 2 ^ 16), BitVec.ofNat 8 (n / 2 ^ 8), BitVec.ofNat 8 n]

/-- The archive of a list of objects. -/
def tcc_tool_ar (objects : List Object) : Option Bytes := do
  let s ← add_objects ⟨[], [], [], 0, none, none⟩ 0 objects
  let funccnt := s.afpos.length
  let strpos := s.anames.length
  let hofs := 8 + 60 + strpos + (funccnt + 1) * 4
  let fpos := hofs % 2
  let hofs := hofs + fpos
  -- the objects are not written either
  if funccnt = 0 then return ARMAG
  else
    return ARMAG ++ ar_header (chars "/               ") (chars "0       ") (strpos + (funccnt + 1) * 4) ++
      be32 funccnt ++ s.afpos.flatMap (fun pos => be32 (pos + hofs)) ++ s.anames ++
        List.replicate fpos 0#8 ++ s.fo

/-! Archives as they are loaded. -/

/-- What is read of a member's header. -/
structure ArchiveHeader where
  ar_name : Bytes
  ar_size : Bytes
  ar_fmag : Bytes

inductive ReadHeader where
  | eof
  | error
  | header (hdr : ArchiveHeader)

/-- `read_ar_header`: trailing spaces end the name, and the last byte of the size is cut off. -/
def read_ar_header (file : Bytes) (offset : Nat) : ReadHeader :=
  let hdr := (file.drop offset).take 60
  if hdr.length ≠ 60 then if hdr.length = 0 then .eof else .error
  else
    .header ⟨((hdr.take 16).reverse.dropWhile (· == 32#8)).reverse, (hdr.drop 48).take 9, hdr.drop 58⟩

def ELFMAG : Bytes := [0x7f#8, 69#8, 76#8, 70#8]

def ET_REL : Nat := 1

/-- `tcc_object_type(fd, &ehdr) == AFF_BINTYPE_REL`, at a position of the file. -/
def is_object (file : Bytes) (offset : Nat) : Bool :=
  let ehdr := (file.drop offset).take 64
  ehdr.length == 64 && ehdr.take 4 == ELFMAG && read_le ehdr 16 2 == ET_REL

/-- `size = (strtol(hdr.ar_size, NULL, 0) + 1) & ~1`. -/
def member_size (hdr : ArchiveHeader) : Int := (strtol hdr.ar_size + 1) / 2 * 2

def next_offset (file_offset : Nat) (hdr : ArchiveHeader) : Nat :=
  ((file_offset + 60 + member_size hdr) % 2 ^ 64).toNat

/-- `tcc_load_archive` for a whole archive: the positions at which `tcc_load_object_file` is
    called, in order, and whether the end was reached. All objects are loaded without an error. -/
def tcc_load_archive (file : Bytes) : Nat → Nat → Option (List Nat × Bool)
  | 0, _ => none
  | fuel + 1, file_offset =>
    match read_ar_header file file_offset with
    | .eof => some ([], true)
    | .error => some ([], false)
    | .header hdr =>
      (tcc_load_archive file fuel (next_offset file_offset hdr)).map fun (loaded, ended) =>
        (if is_object file (file_offset + 60) then (file_offset + 60) :: loaded else loaded, ended)

/-- `get_be` -/
def get_be (bytes : Bytes) : Nat := bytes.foldl (fun n b => n * 256 + b.toNat) 0

/-- The names of an index, each with a byte after it. -/
def index_names : Nat → Bytes → List Bytes
  | 0, _ => []
  | n + 1, names =>
    let name := string_at names 0
    name :: index_names n (names.drop (name.length + 1))

/-- The entries that `tcc_load_alacarte` goes through: the names with their offsets. -/
def tcc_load_alacarte (data : Bytes) (entrysize : Nat) : List (Bytes × Nat) :=
  let nsyms := get_be (data.take entrysize)
  let ar_index := data.drop entrysize
  let ar_names := ar_index.drop (nsyms * entrysize)
  (index_names nsyms ar_names).zipIdx.map fun (p, i) =>
    (p, get_be ((ar_index.drop (i * entrysize)).take entrysize))

/-- `tcc_load_archive` for single objects: the index that it finds. -/
def archive_index (file : Bytes) : Nat → Nat → Option (List (Bytes × Nat))
  | 0, _ => none
  | fuel + 1, file_offset =>
    match read_ar_header file file_offset with
    | .eof | .error => none
    | .header hdr =>
      let data := (file.drop (file_offset + 60)).take (member_size hdr).toNat
      if hdr.ar_name = chars "/" then
        if data.length ≠ (member_size hdr).toNat then none else some (tcc_load_alacarte data 4)
      else if hdr.ar_name = chars "/SYM64/" then
        if data.length ≠ (member_size hdr).toNat then none else some (tcc_load_alacarte data 8)
      else archive_index file fuel (next_offset file_offset hdr)

end tcc.archive
