import Mathlib.Tactic.Common

namespace tcc.elf

/-- The bindings of a symbol. -/
inductive Bind where
  | STB_LOCAL | STB_GLOBAL | STB_WEAK
  deriving DecidableEq, Repr

def SHN_UNDEF : Nat := 0

def SHN_LORESERVE : Nat := 0xff00

def SHN_COMMON : Nat := 0xfff2

def STV_DEFAULT : BitVec 2 := 0#2

def STV_INTERNAL : BitVec 2 := 1#2

def STV_HIDDEN : BitVec 2 := 2#2

def STV_PROTECTED : BitVec 2 := 3#2

def ST_ASM_SET : BitVec 8 := 0x04#8

/-- A symbol of the table; `st_info` is its binding and its type. -/
structure ElfSym where
  st_value : BitVec 64
  st_size : BitVec 64
  bind : Bind
  type : BitVec 4
  st_other : BitVec 8
  st_shndx : Nat
  deriving DecidableEq, Repr

/-- `ELFW(ST_VISIBILITY)(st_other)` -/
def ElfSym.vis (sym : ElfSym) : BitVec 2 := sym.st_other.setWidth 2

/-- What `set_elf_sym` reads and writes of the linker state: the symbols found by
    name, the kind of the table, the number of the bss section, and the errors. -/
structure SymTab where
  find_elf_sym : String → Option ElfSym
  dynsym : Bool
  bss : Nat
  new_undef_sym : Bool
  errors : List String

def SymTab.put (s : SymTab) (name : String) (sym : ElfSym) : SymTab :=
  { s with find_elf_sym := Function.update s.find_elf_sym name (some sym) }

theorem SymTab.find_put_of_ne (s : SymTab) {name name' : String} (hne : name' ≠ name)
    (sym : ElfSym) : (s.put name' sym).find_elf_sym name = s.find_elf_sym name :=
  Function.update_of_ne hne.symm _ _

theorem SymTab.bss_put (s : SymTab) (name : String) (sym : ElfSym) : (s.put name sym).bss = s.bss :=
  rfl

/-- The most constraining of two visibilities, as the comparisons compute it. -/
def new_vis (esym_vis sym_vis : BitVec 2) : BitVec 2 :=
  if esym_vis = STV_DEFAULT then sym_vis
  else if sym_vis = STV_DEFAULT then esym_vis
  else if esym_vis < sym_vis then esym_vis else sym_vis

/-- What becomes of a symbol that is already defined. -/
inductive Outcome where
  | keep | patch | twice
  deriving DecidableEq, Repr

/-- The tests of `set_elf_sym` on a defined symbol and a new one. -/
def SymTab.resolve (s : SymTab) (esym sym : ElfSym) : Outcome :=
  if sym.st_shndx = SHN_UNDEF then .keep
  else if sym.bind = .STB_GLOBAL ∧ esym.bind = .STB_WEAK then .patch
  else if sym.bind = .STB_WEAK ∧ esym.bind = .STB_GLOBAL then .keep
  else if sym.bind = .STB_WEAK ∧ esym.bind = .STB_WEAK then .keep
  else if sym.vis = STV_HIDDEN ∨ sym.vis = STV_INTERNAL then .keep
  else if (esym.st_shndx = SHN_COMMON ∨ esym.st_shndx = s.bss) ∧
      (sym.st_shndx < SHN_LORESERVE ∧ sym.st_shndx ≠ s.bss) then .patch
  else if sym.st_shndx = SHN_COMMON ∨ sym.st_shndx = s.bss then .keep
  else if s.dynsym then .keep
  else if esym.st_other &&& ST_ASM_SET ≠ 0#8 then .patch
  else .twice

/-- The symbol patched: everything but `st_other` is the new one's. -/
def ElfSym.patch (esym sym : ElfSym) : ElfSym := { sym with st_other := esym.st_other }

def ElfSym.setVis (esym : ElfSym) (vis : BitVec 2) : ElfSym :=
  { esym with st_other := (esym.st_other &&& ~~~3#8) ||| vis.setWidth 8 }

/-- Adds a symbol to the table, or merges it with the one of its name. A local
    symbol is never found by name. -/
def set_elf_sym (s : SymTab) (sym : ElfSym) (name : String) : SymTab :=
  if sym.bind = .STB_LOCAL then s
  else
    match s.find_elf_sym name with
    | none => s.put name sym
    | some esym =>
      if esym = sym then s
      else if esym.st_shndx ≠ SHN_UNDEF then
        let esym := esym.setVis (new_vis esym.vis sym.vis)
        match s.resolve esym sym with
        | .keep => s.put name esym
        | .patch => { s.put name (esym.patch sym) with new_undef_sym := true }
        | .twice => { s.put name esym with errors := s.errors ++ ["'" ++ name ++ "' defined twice"] }
      else { s.put name sym with new_undef_sym := true }

/-- The symbols of the linked units, entered one after the other. -/
def set_elf_syms (s : SymTab) (units : List (String × ElfSym)) : SymTab :=
  units.foldl (fun s u => set_elf_sym s u.2 u.1) s

/-- Only weak symbols are accepted to be undefined: the test of `relocate_syms` on
    a symbol that no library defines. -/
def reported (sym : ElfSym) : Prop := sym.st_shndx = SHN_UNDEF ∧ sym.bind ≠ .STB_WEAK

end tcc.elf
