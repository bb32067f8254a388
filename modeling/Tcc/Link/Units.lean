import Tcc.Link.Table

/-! The units that are compiled one after the other, each into the sections of the ones before. -/

open machine.buffer

namespace tcc.elf

structure Rel where
  r_offset : Nat
  r_type : Nat
  r_sym : Nat
  r_addend : Int
  deriving DecidableEq

/-- The table and the sections of relocations that are linked to it. -/
structure State where
  table : Table
  relocs : List (Section Rel)

def Section.empty {α : Type} : Section α := ⟨⟨[], 0, Nat.le_refl _⟩, 0, Nat.le_refl _⟩

/-- The symbol that `new_symtab` adds. -/
def null_sym : ElfSym := ⟨0, 0, .STB_LOCAL, 0, 0, SHN_UNDEF⟩

/-- The state of a new linker; `bss` is the number of the bss section. -/
def tccelf_new (bss : Nat) : State where
  table := ⟨Section.empty.put [⟨0, null_sym⟩], Section.empty.put [0#8], some [], none, false, bss, false, []⟩
  relocs := []

/-- What is added while a unit is compiled: a symbol, a section of relocations, a relocation. -/
inductive Op where
  | put_elf_sym (sym : ElfSym) (name : Name)
  | new_section
  | put_elf_reloca (sr : Nat) (rel : Rel)

def tccelf_begin_file (s : State) : State where
  table := { s.table with
    symtab := s.table.symtab.mark
    strtab := s.table.strtab.mark
    hash := none
    reloc := s.table.hash }
  relocs := s.relocs.map Section.mark

/-- A relocation of a known section refers to a symbol that was added. -/
def apply (s : State) : Op → Option State
  | .put_elf_sym sym name => some { s with table := (put_elf_sym s.table sym name).1 }
  | .new_section => some { s with relocs := s.relocs ++ [Section.empty] }
  | .put_elf_reloca sr rel =>
    if sr < s.relocs.length ∧ rel.r_sym < s.table.symtab.used then
      some { s with relocs := s.relocs.modify sr (·.put [rel]) }
    else none

/-- A symbol that is local and undefined becomes global. -/
def globalize (sym : ElfSym) : ElfSym :=
  if sym.st_shndx = SHN_UNDEF ∧ sym.bind = .STB_LOCAL then { sym with bind := .STB_GLOBAL } else sym

/-- Symbol `i` of the unit, which is read from behind what is in use. -/
def merge_sym (first_sym : Nat) (t : Table) (i : Nat) : Table × Nat :=
  match t.symtab.data[first_sym + i]? with
  | none => (t, 0)
  | some e => (t.set_sym (first_sym + i) e (globalize e.sym)).set_elf_sym (globalize e.sym) (t.name_at e.st_name)

/-- `n` symbols from `i` on, with their new indices. -/
def merge_syms (first_sym : Nat) : Nat → Nat → Table → Table × List Nat
  | 0, _, t => (t, [])
  | n + 1, i, t =>
    let (t, k) := merge_sym first_sym t i
    let (t, tr) := merge_syms first_sym n (i + 1) t
    (t, k :: tr)

def renumber (first_sym : Nat) (tr : List Nat) (rel : Rel) : Rel :=
  if rel.r_sym < first_sym then rel else { rel with r_sym := tr.getD (rel.r_sym - first_sym) 0 }

/-- The relocations that the unit added. -/
def Section.renumber (sr : Section Rel) (f : Rel → Rel) : Section Rel where
  data := sr.data.mapIdx fun i rel => if sr.sh_offset ≤ i ∧ i < sr.used then f rel else rel
  used := sr.used
  used_le := by
    rw [List.length_mapIdx]
    exact sr.used_le
  sh_offset := sr.sh_offset
  sh_offset_le := sr.sh_offset_le

def tccelf_end_file (s : State) : State :=
  let first_sym := s.table.symtab.sh_offset
  let nb_syms := s.table.symtab.used - first_sym
  let t := { s.table with
    symtab := s.table.symtab.rewind
    strtab := s.table.strtab.rewind
    hash := s.table.reloc
    reloc := none }
  let (t, tr) := merge_syms first_sym nb_syms 0 t
  { table := t, relocs := s.relocs.map (·.renumber (renumber first_sym tr)) }

/-- The names of symbols that are not in use any more, in a part of the strings: from `low` on, each
    behind the one before. -/
def Unread (t : Table) (k low : Nat) : List Named → Nat → Prop
  | [], high => low ≤ high
  | x :: xs, high => ∃ e, t.symtab.data[k]? = some e ∧ e.sym = x.2 ∧
      ((x.1.1 = [] ∧ e.st_name = 0) ∨ (x.1.1 ≠ [] ∧ low ≤ e.st_name ∧
        Holds t.strtab.data e.st_name (x.1.1 ++ [0#8]))) ∧
      Unread t (k + 1) (if x.1.1 = [] then low else e.st_name + room x.1) xs high

theorem Unread.le {t : Table} {k low high : Nat} {xs : List Named} (hunread : Unread t k low xs high) :
    low ≤ high := by
  induction xs generalizing k low with
  | nil => exact hunread
  | cons x xs ih =>
    obtain ⟨e, -, -, hname, hrest⟩ := hunread
    have hle := ih hrest
    rcases hname with ⟨hempty, -⟩ | ⟨hempty, hlow, -⟩
    · rwa [if_pos hempty] at hle
    · rw [if_neg hempty] at hle
      omega

/-- Another table with the same entries there, and the same strings. -/
theorem Unread.congr {t t' : Table} {k low high : Nat} {xs : List Named} (hunread : Unread t k low xs high)
    (hdata : ∀ i, k ≤ i → i < k + xs.length → t'.symtab.data[i]? = t.symtab.data[i]?)
    (hholds : ∀ (offset : Nat) (ys : List (BitVec 8)), low ≤ offset → offset + ys.length ≤ high →
      Holds t.strtab.data offset ys → Holds t'.strtab.data offset ys) : Unread t' k low xs high := by
  induction xs generalizing k low with
  | nil => exact hunread
  | cons x xs ih =>
    obtain ⟨e, he, hsym, hname, hrest⟩ := hunread
    refine ⟨e, ?_, hsym, ?_, ih hrest (fun i hi hi' => ?_) fun offset ys hoffset hend h => ?_⟩
    · rw [hdata k (Nat.le_refl k) (by rw [List.length_cons]; omega)]
      exact he
    · rcases hname with hempty | ⟨hne, hlow, h⟩
      · exact Or.inl hempty
      · refine Or.inr ⟨hne, hlow, hholds _ _ hlow ?_ h⟩
        have hle := hrest.le
        rw [if_neg hne, room, if_pos hne] at hle
        rw [List.length_append, List.length_singleton]
        exact hle
    · exact hdata i (by omega) (by rw [List.length_cons]; omega)
    · refine hholds offset ys ?_ hend h
      rcases hname with ⟨hempty, -⟩ | ⟨hne, hlow, -⟩
      · rwa [if_pos hempty] at hoffset
      · rw [if_neg hne] at hoffset
        omega

theorem Unread.mono {t : Table} {k low low' high : Nat} {xs : List Named}
    (hunread : Unread t k low xs high) (hle : low' ≤ low) : Unread t k low' xs high := by
  induction xs generalizing k low low' with
  | nil => exact Nat.le_trans hle hunread
  | cons x xs ih =>
    obtain ⟨e, he, hsym, hname, hrest⟩ := hunread
    refine ⟨e, he, hsym, hname.imp id (fun h => ⟨h.1, Nat.le_trans hle h.2.1, h.2.2⟩), ih hrest ?_⟩
    split
    · exact hle
    · exact Nat.le_refl _

theorem Unread.append {t : Table} {k low mid high : Nat} {xs ys : List Named}
    (hxs : Unread t k low xs mid) (hys : Unread t (k + xs.length) mid ys high) :
    Unread t k low (xs ++ ys) high := by
  induction xs generalizing k low with
  | nil => exact hys.mono hxs
  | cons x xs ih =>
    obtain ⟨e, he, hsym, hname, hrest⟩ := hxs
    refine ⟨e, he, hsym, hname, ih hrest ?_⟩
    rw [List.length_cons, Nat.add_comm xs.length, ← Nat.add_assoc] at hys
    exact hys

/-- What entering the unit's symbols again starts from, and keeps. -/
structure Merging (t : Table) (k low : Nat) (xs : List Named) (high : Nat) : Prop where
  stored : Stored t
  hashed : Hashed t
  unique : Unique t.syms
  sym_used : t.symtab.used ≤ k
  str_used : t.strtab.used ≤ low
  unread : Unread t k low xs high

/-- One symbol is entered as if it had been kept apart: nothing is overwritten before it is read. -/
theorem merge_sym_spec {first_sym i low high : Nat} {t : Table} {x : Named} {xs : List Named}
    (hmerging : Merging t (first_sym + i) low (x :: xs) high) :
    (merge_sym first_sym t i).1.syms = (enter t.rules t.syms (x.1, globalize x.2)).1 ∧
      (merge_sym first_sym t i).2 = (enter t.rules t.syms (x.1, globalize x.2)).2 ∧
        (merge_sym first_sym t i).1.rules = t.rules ∧
          ∃ low', Merging (merge_sym first_sym t i).1 (first_sym + (i + 1)) low' xs high := by
  obtain ⟨hstored, hhashed, hunique, hsym_used, hstr_used, e, he, hsym, hname, hrest⟩ := hmerging
  have htext : t.name_at e.st_name = x.1 := by
    rcases hname with ⟨hempty, hzero⟩ | ⟨-, -, h⟩
    · rw [hzero, hstored.empty.name_at]
      exact Subtype.ext hempty.symm
    · exact string_at_of_holds h
  rw [merge_sym, he]
  dsimp only
  rw [hsym, htext]
  obtain ⟨t₁, ht₁⟩ : ∃ t₁, t₁ = t.set_sym (first_sym + i) e (globalize x.2) := ⟨_, rfl⟩
  rw [← ht₁]
  have hdata : ∀ k, first_sym + i ≠ k → t₁.symtab.data[k]? = t.symtab.data[k]? := by
    intro k hk
    rw [ht₁]
    exact List.getElem?_set_ne hk
  have hstrtab : t₁.strtab = t.strtab := by
    rw [ht₁]
    rfl
  have hused : t₁.symtab.used = t.symtab.used := by
    rw [ht₁]
    rfl
  have hrules : t₁.rules = t.rules := by
    rw [ht₁]
    rfl
  have hsyms : t₁.syms = t.syms := by
    refine syms_congr hused (fun k hk => hdata k (by omega)) fun k _ e' _ => ?_
    rw [Table.name_at, hstrtab]
    rfl
  have hstored₁ : Stored t₁ := by
    refine ⟨by rw [hstrtab]; exact hstored.empty, fun k e' hk he' => ?_⟩
    rw [hused] at hk
    rw [hdata k (by omega)] at he'
    rw [hstrtab]
    exact hstored.text k e' hk he'
  have hhashed₁ : Hashed t₁ := by
    obtain ⟨hs, hhash, hmem⟩ := hhashed
    refine ⟨hs, ?_, ?_⟩
    · rw [ht₁]
      exact hhash
    · rw [hsyms]
      exact hmem
  have hunique₁ : Unique t₁.syms := by
    rw [hsyms]
    exact hunique
  obtain ⟨hset, hindex, hstored₂, hhashed₂, hkeeps⟩ :=
    set_elf_sym_spec hstored₁ hhashed₁ hunique₁ (globalize x.2) x.1
  have hunique₂ : Unique (t₁.set_elf_sym (globalize x.2) x.1).1.syms := by
    rw [hset]
    exact (enter_spec _ hunique₁ _).unique
  rw [hrules, hsyms] at hset hindex
  have hsym_used' := hkeeps.sym_used
  have hstr_used' := hkeeps.str_used
  rw [hused] at hsym_used'
  rw [hstrtab] at hstr_used'
  refine ⟨hset, hindex, hkeeps.rules.trans hrules, if x.1.1 = [] then low else e.st_name + room x.1,
    hstored₂, hhashed₂, hunique₂, by omega, ?_, ?_⟩
  · rcases hname with ⟨hempty, -⟩ | ⟨hne, hlow, -⟩
    · rw [if_pos hempty]
      rw [room, if_neg (not_not_intro hempty)] at hstr_used'
      omega
    · rw [if_neg hne]
      omega
  · rw [← Nat.add_assoc]
    refine hrest.congr (fun k hk _ => ?_) fun offset ys hoffset _ h => ?_
    · rw [hkeeps.sym_data k (by rw [hused]; omega), hdata k (by omega)]
    · refine hkeeps.str_data offset ys ?_ (by rw [hstrtab]; exact h)
      rw [hstrtab]
      rcases hname with ⟨hempty, -⟩ | ⟨hne, hlow, -⟩
      · rw [if_pos hempty] at hoffset
        rw [room, if_neg (not_not_intro hempty)]
        omega
      · rw [if_neg hne] at hoffset
        omega

/-- The symbols of the unit are entered in order. -/
theorem merge_syms_spec {first_sym i low high : Nat} {t : Table} {xs : List Named}
    (hmerging : Merging t (first_sym + i) low xs high) :
    (merge_syms first_sym xs.length i t).1.syms =
        (enter_all t.rules t.syms (xs.map fun x => (x.1, globalize x.2))).1 ∧
      (merge_syms first_sym xs.length i t).2 =
        (enter_all t.rules t.syms (xs.map fun x => (x.1, globalize x.2))).2 ∧
      Stored (merge_syms first_sym xs.length i t).1 ∧ Hashed (merge_syms first_sym xs.length i t).1 := by
  induction xs generalizing i low t with
  | nil => exact ⟨rfl, rfl, hmerging.stored, hmerging.hashed⟩
  | cons x xs ih =>
    obtain ⟨hsyms, hindex, hrules, low', hmerging'⟩ := merge_sym_spec hmerging
    obtain ⟨hsyms', htr, hstored, hhashed⟩ := ih hmerging'
    rw [hsyms, hrules] at hsyms' htr
    rw [List.length_cons, merge_syms, List.map_cons, enter_all]
    dsimp only
    exact ⟨hsyms', by rw [hindex, htr], hstored, hhashed⟩

end tcc.elf
