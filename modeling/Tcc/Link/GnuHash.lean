import Tcc.Link.HashIndex
import Tcc.Link.Units
import Tcc.Machine.Groups

/-! The GNU hash section of the dynamic symbols, and their order in it. -/

open machine.groups

namespace tcc.elf.gnu

inductive ElfClass where
  | elf32
  | elf64

namespace ElfClass

def ptr_size : ElfClass → Nat
  | elf32 => 4
  | elf64 => 8

/-- `ELFCLASS_BITS` -/
def bits (cl : ElfClass) : Nat := cl.ptr_size * 8

def bloom_shift (cl : ElfClass) : Nat := if cl.ptr_size = 8 then 6 else 5

end ElfClass

/-- The function computes in an `unsigned long`. -/
def elf_gnu_hash (w : Nat) (name : List (BitVec 8)) : BitVec w :=
  name.foldl (fun h c => h * 33#w + c.setWidth w) 5381#w

/-- The section: its header, and the arrays that follow it. -/
structure GnuHash (cl : ElfClass) where
  nbuckets : Nat
  symoffset : Nat
  bloom_size : Nat
  bloom_shift : Nat
  bloom : List (BitVec cl.bits)
  buckets : List Nat
  chain : List (BitVec 32)

def GnuHash.data_offset {cl : ElfClass} (gh : GnuHash cl) : Nat :=
  4 * 4 + cl.ptr_size * gh.bloom.length + gh.buckets.length * 4 + gh.chain.length * 4

/-- A section with relocations; `linked` is one with `sh_type == SHT_RELX && link == s`. -/
structure RelSection where
  linked : Bool
  rels : List Rel

/-- What refers to the dynamic symbols, and the entries of `.gnu.version`, if it is there. -/
structure Dynamic (cl : ElfClass) where
  dynsym : Symtab
  gnu_hash : GnuHash cl
  relocs : List RelSection
  versym : Option (List (BitVec 16))

inductive Failure where
  | error (msg : String)
  | endless

def SHN_UNDEF : BitVec 16 := 0#16

def sym_at (t : Symtab) (i : Nat) : Symbol := t.syms.getD i ⟨0, 0, 0, 0, 0, 0⟩

def is_def (sym : Symbol) : Bool := sym.st_shndx ≠ SHN_UNDEF

/-- `while (ndef >= bloom_size * …) bloom_size *= 2`; the fuel is enough (`lt_grow_bloom`). -/
def grow_bloom (ndef size : Nat) : Nat → Nat → Nat
  | 0, bloom_size => bloom_size
  | fuel + 1, bloom_size =>
    if bloom_size * size ≤ ndef then grow_bloom ndef size fuel (bloom_size * 2) else bloom_size

def create_gnu_hash (cl : ElfClass) (t : Symtab) : GnuHash cl :=
  let nb_syms := t.syms.length
  let ndef := t.syms.countP is_def
  let nbuckets := ndef / 4 + 1
  let bloom_size := grow_bloom ndef (1 <<< (cl.bloom_shift - 3)) (ndef + 1) 1
  { nbuckets
    symoffset := nb_syms - ndef
    bloom_size
    bloom_shift := cl.bloom_shift
    bloom := List.replicate bloom_size 0
    buckets := List.replicate nbuckets 0
    chain := List.replicate ndef 0 }

/-- The hash of the name of a symbol, an `Elf32_Word`. -/
def hash (host : Host) (t : Symtab) (i : Nat) : BitVec 32 :=
  (elf_gnu_hash host.bits (t.name_at (sym_at t i)).1).setWidth 32

/-- What is written while the symbols are sorted. -/
structure Sorting (cl : ElfClass) where
  new_syms : List Symbol
  old_to_new_syms : Nat → Nat
  buckets : List Nat
  chain : List (BitVec 32)
  bloom : List (BitVec cl.bits)

section sort

variable {cl : ElfClass} (host : Host) (t : Symtab)

/-- `old_to_new_syms[i] = q - new_syms; *q++ = p[i]` -/
def copy_sym (s : Sorting cl) (i : Nat) : Sorting cl :=
  { s with
    old_to_new_syms := Function.update s.old_to_new_syms i s.new_syms.length
    new_syms := s.new_syms ++ [sym_at t i] }

def copy_undefs (s : Sorting cl) : Sorting cl :=
  (List.range t.syms.length).foldl (fun s i => if is_def (sym_at t i) then s else copy_sym t s i) s

/-- The arrays `buck` and `nextbuck`. -/
structure Bucks where
  buck : Nat → Option (Nat × Nat)
  nextbuck : Nat → Nat

def enter_bucket (nbuckets : Nat) (b : Bucks) (i : Nat) : Bucks :=
  let bucket := (hash host t i).toNat % nbuckets
  match b.buck bucket with
  | none => { b with buck := Function.update b.buck bucket (some (i, i)) }
  | some (first, last) =>
    { buck := Function.update b.buck bucket (some (first, i))
      nextbuck := Function.update b.nextbuck last i }

def find_buckets (nbuckets : Nat) : Bucks :=
  (List.range t.syms.length).foldl
    (fun b i => if is_def (sym_at t i) then enter_bucket host t nbuckets b i else b)
    ⟨fun _ => none, fun _ => 0⟩

/-- The bits of a hash in its word of the filter. -/
def bloom_bits (cl : ElfClass) (bloom_shift : Nat) (h : BitVec 32) : BitVec cl.bits :=
  1#(cl.bits) <<< (h.toNat % cl.bits) ||| 1#(cl.bits) <<< ((h >>> bloom_shift).toNat % cl.bits)

/-- A symbol goes behind the last one that was placed. -/
def place (gh : GnuHash cl) (s : Sorting cl) (cur : Nat) : Sorting cl :=
  let s := copy_sym t s cur
  let h := hash host t cur
  { s with
    chain := s.chain ++ [h &&& ~~~1#32]
    bloom := s.bloom.modify (h.toNat / cl.bits % gh.bloom_size) (· ||| bloom_bits cl gh.bloom_shift h) }

/-- `chain[-1] |= 1` -/
def end_chain (s : Sorting cl) : Sorting cl :=
  { s with chain := s.chain.modify (s.chain.length - 1) (· ||| 1#32) }

def fill_bucket (gh : GnuHash cl) (b : Bucks) (s : Sorting cl) (i : Nat) : Option (Sorting cl) :=
  match b.buck i with
  | none => some s
  | some (first, last) => do
    let s := { s with buckets := s.buckets.set i s.new_syms.length }
    let s ← visit b.nextbuck last (place host t gh) t.syms.length first s
    return end_chain s

def fill_buckets (gh : GnuHash cl) (b : Bucks) (s : Sorting cl) : Option (Sorting cl) :=
  (List.range gh.nbuckets).foldlM (fill_bucket host t gh b) s

end sort

def modify_reloctions_old_to_new (old_to_new_syms : Nat → Nat) (sr : RelSection) : RelSection :=
  if sr.linked then
    { sr with rels := sr.rels.map fun rel => { rel with r_sym := old_to_new_syms rel.r_sym } }
  else sr

/-- The loop over `newver`, and the copy back. -/
def modify_versions (old_to_new_syms : Nat → Nat) (nb_syms : Nat) (versym : List (BitVec 16)) :
    List (BitVec 16) :=
  let newver := (List.range nb_syms).foldl
    (fun newver i => Function.update newver (old_to_new_syms i) (versym.getD i 0)) fun _ => 0
  (List.range nb_syms).map newver ++ versym.drop nb_syms

def update_gnu_hash {cl : ElfClass} (lk : Linker) (s : Dynamic cl) : Except Failure (Dynamic cl) :=
  let t := s.dynsym
  let gh := s.gnu_hash
  let st := copy_undefs t ⟨[], fun _ => 0, gh.buckets, [], gh.bloom⟩
  if gh.data_offset ≠ 4 * 4 + cl.ptr_size * gh.bloom_size + gh.nbuckets * 4 +
      (t.syms.length - st.new_syms.length) * 4 then
    throw (.error "gnu_hash size incorrect")
  else
    match fill_buckets lk.host t gh (find_buckets lk.host t gh.nbuckets) st with
    | none => throw .endless
    | some st =>
      return {
        dynsym := Symtab.rebuild_hash lk { t with syms := st.new_syms } (t.hash.getD 0 0)
        gnu_hash := { gh with bloom := st.bloom, buckets := st.buckets, chain := st.chain }
        relocs := s.relocs.map (modify_reloctions_old_to_new st.old_to_new_syms)
        versym := s.versym.map (modify_versions st.old_to_new_syms t.syms.length) }

/-- The hash function of a dynamic loader, in 32 bits. -/
def gnu_hash (name : List (BitVec 8)) : BitVec 32 := name.foldl (fun h c => h * 33#32 + c.setWidth 32) 5381#32

/-- The walk of a dynamic loader along a chain, which a set low bit ends; nothing if it goes past the
    section. -/
def gnu_walk {cl : ElfClass} (gh : GnuHash cl) (t : Symtab) (name : Name) : Nat → Nat → Option (Option Nat)
  | 0, _ => none
  | fuel + 1, symix =>
    match gh.chain[symix - gh.symoffset]? with
    | none => none
    | some w =>
      if (w ^^^ gnu_hash name.1) >>> 1 = 0 ∧ t.has_name name symix = true then some (some symix)
      else if w &&& 1 ≠ 0 then some none
      else gnu_walk gh t name fuel (symix + 1)

/-- The lookup of a name by a dynamic loader. -/
def gnu_lookup {cl : ElfClass} (gh : GnuHash cl) (t : Symtab) (name : Name) : Option (Option Nat) :=
  let h := gnu_hash name.1
  let word := gh.bloom.getD (h.toNat / cl.bits &&& (gh.bloom_size - 1)) 0
  let mask := 1#(cl.bits) <<< (h.toNat % cl.bits) ||| 1#(cl.bits) <<< ((h >>> gh.bloom_shift).toNat % cl.bits)
  if word &&& mask ≠ mask then some none
  else
    let symix := gh.buckets.getD (h.toNat % gh.nbuckets) 0
    if symix = 0 then some none else gnu_walk gh t name (gh.chain.length + 1) symix

end tcc.elf.gnu
