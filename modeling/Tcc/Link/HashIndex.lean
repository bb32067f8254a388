import Tcc.Link.ElfHash
import Tcc.Link.Table
import Tcc.Machine.Chains

/-! The hash section of a symbol table. It is an array of ints: the number of buckets, the number of
    symbols, the heads of the buckets' chains and for each symbol the next one on its chain. -/

open machine.chains

namespace tcc.elf

/-- A symbol as it stands in the section. -/
structure Symbol where
  st_name : Nat
  st_value : BitVec 64
  st_size : BitVec 64
  st_info : BitVec 8
  st_other : BitVec 8
  st_shndx : BitVec 16
deriving DecidableEq

def STB_LOCAL : BitVec 4 := 0#4
def STB_GLOBAL : BitVec 4 := 1#4
def STB_WEAK : BitVec 4 := 2#4

/-- `ELFW(ST_BIND)(info)` -/
def st_bind (info : BitVec 8) : BitVec 4 := (info >>> 4).setWidth 4

def st_visibility (other : BitVec 8) : BitVec 2 := other.setWidth 2

/-- A table of symbols with its strings and its hash. -/
structure Symtab where
  syms : List Symbol
  strtab : List (BitVec 8)
  hash : List Nat
  nb_hashed_syms : Nat
  dynsym : Bool
  errors : List Name
  new_undef_sym : Bool

/-- What the functions are compiled and called with: the host and the number of the bss section. -/
structure Linker where
  host : Host
  bss : BitVec 16

namespace Symtab

variable (lk : Linker) (t : Symtab)

def name_at (sym : Symbol) : Name := string_at t.strtab sym.st_name

/-- The bucket of a name. -/
def bucket (nb_buckets : Nat) (name : Name) : Nat := (elf_hash lk.host.bits name.1).toNat % nb_buckets

/-- `*ptr = hash[h]; hash[h] = sym_index`, with `ptr` at the end of the array. -/
def enter_chain (hash : List Nat) (h sym_index : Nat) : List Nat :=
  (hash ++ [hash.getD (2 + h) 0]).set (2 + h) sym_index

/-- The loop of `rebuild_hash` over the symbols from `sym_index` on. -/
def rebuild_loop (nb_buckets : Nat) : List Symbol → Nat → List Nat → List Nat
  | [], _, hash => hash
  | sym :: syms, sym_index, hash =>
    if st_bind sym.st_info ≠ STB_LOCAL then
      rebuild_loop nb_buckets syms (sym_index + 1)
        (enter_chain hash (bucket lk nb_buckets (t.name_at sym)) sym_index)
    else rebuild_loop nb_buckets syms (sym_index + 1) (hash ++ [0])

def rebuild_hash (nb_buckets : Nat) : Symtab :=
  let nb_buckets := if nb_buckets = 0 then t.hash.getD 0 0 else nb_buckets
  { t with
    hash := rebuild_loop lk t nb_buckets t.syms.tail 1
      (nb_buckets :: t.syms.length :: List.replicate (nb_buckets + 1) 0) }

/-- The name goes to the end of the strings; an empty one is that at the start. -/
def put_elf_str (name : Name) : Symtab × Nat :=
  if name.1 ≠ [] then ({ t with strtab := t.strtab ++ name.1 ++ [0#8] }, t.strtab.length) else (t, 0)

/-- The part of `put_elf_sym` for the hash. -/
def hash_sym (info : BitVec 8) (name : Name) (sym_index : Nat) : Symtab :=
  let nbuckets := t.hash.getD 0 0
  if st_bind info ≠ STB_LOCAL then
    let hash := enter_chain t.hash (bucket lk nbuckets name) sym_index
    let t := { t with hash := hash.modify 1 (· + 1), nb_hashed_syms := t.nb_hashed_syms + 1 }
    if t.nb_hashed_syms > 2 * nbuckets then rebuild_hash lk t (2 * nbuckets) else t
  else { t with hash := (t.hash ++ [0]).modify 1 (· + 1) }

/-- The table and the number of the new symbol; `sym` has all but the name. -/
def put_elf_sym (sym : Symbol) (name : Name) : Symtab × Nat :=
  let (t', name_offset) := put_elf_str t name
  let t' := { t' with syms := t.syms ++ [{ sym with st_name := name_offset }] }
  (hash_sym lk t' sym.st_info (string_at t'.strtab name_offset) t.syms.length, t.syms.length)

/-- The comparison with the name that is searched; there is no symbol behind the last one. -/
def has_name (name : Name) (sym_index : Nat) : Bool :=
  match t.syms[sym_index]? with
  | some sym => t.name_at sym = name
  | none => false

/-- The number of the symbol, or 0. The search ends at the end of the chain or when it has met as many
    symbols as there are. -/
def find_elf_sym (name : Name) : Option Nat :=
  let nbuckets := t.hash.getD 0 0
  walk (fun sym_index => t.hash.getD (2 + nbuckets + sym_index) 0) (t.has_name name) t.syms.length
    (t.hash.getD (2 + bucket lk nbuckets name) 0)

def set_sym (k : Nat) (sym : Symbol) : Symtab := { t with syms := t.syms.set k sym }

/-- The part of `set_elf_sym` for a symbol that is found. -/
def merge (k : Nat) (esym sym : Symbol) (name : Name) : Symtab :=
  if { sym with st_name := esym.st_name } = esym then t
  else if esym.st_shndx ≠ 0#16 then
    let vis := new_vis (st_visibility esym.st_other) (st_visibility sym.st_other)
    let other := (esym.st_other &&& ~~~3#8) ||| vis.setWidth 8
    let sym_bind := st_bind sym.st_info
    let esym_bind := st_bind esym.st_info
    let keep := t.set_sym k { esym with st_other := other }
    let patch :=
      { t.set_sym k { sym with st_name := esym.st_name, st_other := other } with new_undef_sym := true }
    if sym.st_shndx = 0#16 then keep
    else if sym_bind = STB_GLOBAL ∧ esym_bind = STB_WEAK then patch
    else if sym_bind = STB_WEAK ∧ esym_bind = STB_GLOBAL then keep
    else if sym_bind = STB_WEAK ∧ esym_bind = STB_WEAK then keep
    else if st_visibility sym.st_other = STV_HIDDEN ∨ st_visibility sym.st_other = STV_INTERNAL then keep
    else if (esym.st_shndx = 0xfff2#16 ∨ esym.st_shndx = lk.bss) ∧ sym.st_shndx < 0xff00#16 ∧
      sym.st_shndx ≠ lk.bss then
      patch
    else if sym.st_shndx = 0xfff2#16 ∨ sym.st_shndx = lk.bss then keep
    else if t.dynsym then keep
    else if other &&& ST_ASM_SET ≠ 0#8 then patch
    else { keep with errors := t.errors ++ [name] }
  else { t.set_sym k { sym with st_name := esym.st_name } with new_undef_sym := true }

/-- The table and the number of the symbol; nothing if the search for the name does not end. -/
def set_elf_sym (sym : Symbol) (name : Name) : Option (Symtab × Nat) :=
  if st_bind sym.st_info ≠ STB_LOCAL then
    match find_elf_sym lk t name with
    | none => none
    | some 0 => some (put_elf_sym lk t sym name)
    | some k => (t.syms[k]?).map fun esym => (merge lk t k esym sym name, k)
  else some (put_elf_sym lk t sym name)

/-- A new table has one symbol, the null symbol, and one bucket. -/
def new_symtab (dynsym : Bool) : Symtab where
  syms := [⟨0, 0, 0, 0, 0, 0⟩]
  strtab := [0#8]
  hash := [1, 1, 0, 0]
  nb_hashed_syms := 0
  dynsym := dynsym
  errors := []
  new_undef_sym := false

end Symtab

end tcc.elf
