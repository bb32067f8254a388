import Mathlib.Data.List.TakeWhile
import Mathlib.Data.Nat.SuccPred
import Tcc.Machine.Buffer
import Tcc.Link.Named

/-! The symbol table with its strings and its hash. -/

open machine.buffer

namespace tcc.elf

/-- A section; what the unit that is compiled adds is from `sh_offset` on. -/
structure Section (α : Type) extends Buffer α where
  sh_offset : Nat
  sh_offset_le : sh_offset ≤ used

def Section.put {α : Type} (s : Section α) (xs : List α) : Section α where
  toBuffer := s.add xs
  sh_offset := s.sh_offset
  sh_offset_le := Nat.le_trans s.sh_offset_le (Nat.le_add_right _ _)

def Section.mark {α : Type} (s : Section α) : Section α where
  toBuffer := s.toBuffer
  sh_offset := s.used
  sh_offset_le := Nat.le_refl _

def Section.rewind {α : Type} (s : Section α) : Section α where
  data := s.data
  used := s.sh_offset
  used_le := Nat.le_trans s.sh_offset_le s.used_le
  sh_offset := s.sh_offset
  sh_offset_le := Nat.le_refl _

def Section.set {α : Type} (s : Section α) (k : Nat) (x : α) : Section α where
  data := s.data.set k x
  used := s.used
  used_le := by
    rw [List.length_set]
    exact s.used_le
  sh_offset := s.sh_offset
  sh_offset_le := s.sh_offset_le

structure Entry where
  st_name : Nat
  sym : ElfSym

/-- The table. The hash is the list of the symbols that are found by name, the last first; while a
    unit is compiled `reloc` keeps it. -/
structure Table where
  symtab : Section Entry
  strtab : Section (BitVec 8)
  hash : Option (List Nat)
  reloc : Option (List Nat)
  dynsym : Bool
  bss : Nat
  new_undef_sym : Bool
  errors : List Name

def string_at (data : List (BitVec 8)) (offset : Nat) : Name :=
  ⟨(data.drop offset).takeWhile (· != 0#8), fun h => by simpa using List.mem_takeWhile_imp h⟩

def Table.name_at (t : Table) (st_name : Nat) : Name := string_at t.strtab.data st_name

def put_elf_str (s : Section (BitVec 8)) (sym : Name) : Section (BitVec 8) × Nat :=
  (s.put (sym.1 ++ [0#8]), s.used)

def put_elf_sym (t : Table) (sym : ElfSym) (name : Name) : Table × Nat :=
  let (strtab, st_name) := if name.1 ≠ [] then put_elf_str t.strtab name else (t.strtab, 0)
  let sym_index := t.symtab.used
  ({ t with
      symtab := t.symtab.put [⟨st_name, sym⟩]
      strtab
      hash := t.hash.map fun hs => if sym.bind ≠ .STB_LOCAL then sym_index :: hs else hs },
    sym_index)

def Table.has_name (t : Table) (name : Name) (k : Nat) : Bool :=
  match t.symtab.data[k]? with
  | some e => t.name_at e.st_name = name
  | none => false

def find_elf_sym (t : Table) (name : Name) : Option Nat := t.hash.bind (·.find? (t.has_name name))

/-- What the tests on two symbols read of the table. -/
def Table.rules (t : Table) : SymTab := ⟨fun _ => none, t.dynsym, t.bss, false, []⟩

def Table.set_sym (t : Table) (k : Nat) (e : Entry) (sym : ElfSym) : Table :=
  { t with symtab := t.symtab.set k ⟨e.st_name, sym⟩ }

/-- The part of `set_elf_sym` for a symbol that is found. -/
def Table.merge (t : Table) (k : Nat) (e : Entry) (sym : ElfSym) (name : Name) : Table :=
  if e.sym = sym then t
  else if e.sym.st_shndx ≠ SHN_UNDEF then
    let esym := e.sym.setVis (new_vis e.sym.vis sym.vis)
    match t.rules.resolve esym sym with
    | .keep => t.set_sym k e esym
    | .patch => { t.set_sym k e (esym.patch sym) with new_undef_sym := true }
    | .twice => { t.set_sym k e esym with errors := t.errors ++ [name] }
  else { t.set_sym k e sym with new_undef_sym := true }

/-- `set_elf_sym`, with the index that it returns. -/
def Table.set_elf_sym (t : Table) (sym : ElfSym) (name : Name) : Table × Nat :=
  if sym.bind = .STB_LOCAL then put_elf_sym t sym name
  else
    match find_elf_sym t name with
    | none => put_elf_sym t sym name
    | some k =>
      match t.symtab.data[k]? with
      | some e => (t.merge k e sym name, k)
      | none => (t, k)

/-- The symbols of the table with their names. -/
def Table.syms (t : Table) : List Named :=
  (t.symtab.data.take t.symtab.used).map fun e => (t.name_at e.st_name, e.sym)

/-- A name at an offset, before the end of the strings. -/
def Text (strtab : Section (BitVec 8)) (st_name : Nat) (name : Name) : Prop :=
  Holds strtab.data st_name (name.1 ++ [0#8]) ∧ st_name + (name.1.length + 1) ≤ strtab.used

/-- The names of all symbols are in use, and the empty name is the first. -/
structure Stored (t : Table) : Prop where
  empty : Text t.strtab 0 ⟨[], List.not_mem_nil⟩
  text : ∀ (k : Nat) (e : Entry), k < t.symtab.used → t.symtab.data[k]? = some e →
    ∃ name, Text t.strtab e.st_name name

/-- The hash has the symbols that are not local. -/
def Hashed (t : Table) : Prop :=
  ∃ hs, t.hash = some hs ∧ ∀ k, k ∈ hs ↔ ∃ x : Named, t.syms[k]? = some x ∧ x.2.bind ≠ .STB_LOCAL

theorem string_at_of_holds {data : List (BitVec 8)} {offset : Nat} {name : Name}
    (hholds : Holds data offset (name.1 ++ [0#8])) : string_at data offset = name := by
  obtain ⟨rest, hrest⟩ := hholds.isPrefix
  apply Subtype.ext
  change (data.drop offset).takeWhile (· != 0#8) = name.1
  rw [← hrest, List.append_assoc, List.takeWhile_append_of_pos]
  · simp
  · intro b hb
    simp only [bne_iff_ne, ne_eq]
    rintro rfl
    exact name.2 hb

theorem length_syms (t : Table) : t.syms.length = t.symtab.used := by
  rw [Table.syms, List.length_map, List.length_take, Nat.min_eq_left t.symtab.used_le]

theorem syms_eq_some {t : Table} {k : Nat} {x : Named} :
    t.syms[k]? = some x ↔
      k < t.symtab.used ∧ ∃ e, t.symtab.data[k]? = some e ∧ (t.name_at e.st_name, e.sym) = x := by
  rw [Table.syms, List.getElem?_map, List.getElem?_take, Option.map_eq_some_iff]
  split
  · rename_i hk
    exact ⟨fun h => ⟨hk, h⟩, And.right⟩
  · rename_i hk
    simp [hk]

/-- Tables with the same entries in use and the same names have the same symbols. -/
theorem syms_congr {t t' : Table} (hused : t'.symtab.used = t.symtab.used)
    (hdata : ∀ k < t.symtab.used, t'.symtab.data[k]? = t.symtab.data[k]?)
    (hname : ∀ k < t.symtab.used, ∀ e, t.symtab.data[k]? = some e → t'.name_at e.st_name = t.name_at e.st_name) :
    t'.syms = t.syms := by
  refine List.ext_getElem? fun k => Option.ext fun x => ?_
  rw [syms_eq_some, syms_eq_some, hused]
  constructor
  · rintro ⟨hk, e, he, heq⟩
    rw [hdata k hk] at he
    rw [hname k hk e he] at heq
    exact ⟨hk, e, he, heq⟩
  · rintro ⟨hk, e, he, heq⟩
    refine ⟨hk, e, by rw [hdata k hk, he], ?_⟩
    rw [hname k hk e he]
    exact heq

/-- The hash finds the symbol of a name. -/
theorem find_elf_sym_eq {t : Table} (hhashed : Hashed t) (hunique : Unique t.syms) (name : Name) :
    find_elf_sym t name = find t.syms name := by
  obtain ⟨hs, hhash, hmem⟩ := hhashed
  have hhas : ∀ (k : Nat) (x : Named), t.syms[k]? = some x → (t.has_name name k = true ↔ x.1 = name) := by
    intro k x hx
    obtain ⟨-, e, he, rfl⟩ := syms_eq_some.mp hx
    rw [Table.has_name, he]
    exact decide_eq_true_iff
  rw [find_elf_sym, hhash, Option.bind_some]
  cases hfind : find t.syms name with
  | none =>
    rw [List.find?_eq_none]
    intro k hk hname
    obtain ⟨x, hx, hlocal⟩ := (hmem k).mp hk
    exact find_eq_none hfind hx hlocal ((hhas k x hx).mp hname)
  | some k =>
    obtain ⟨x, hx, hlocal, hname⟩ := find_eq_some hfind
    have hk := (hmem k).mpr ⟨x, hx, hlocal⟩
    cases hfound : hs.find? (t.has_name name) with
    | none =>
      exact absurd ((hhas k x hx).mpr hname) (List.find?_eq_none.mp hfound k hk)
    | some k' =>
      obtain ⟨x', hx', hlocal'⟩ := (hmem k').mp (List.mem_of_find?_eq_some hfound)
      have hname' := (hhas k' x' hx').mp (List.find?_some hfound)
      exact congrArg some (hunique k' k x' x hx' hx hlocal' hlocal (hname'.trans hname.symm))

theorem Text.name_at {t : Table} {st_name : Nat} {name : Name} (htext : Text t.strtab st_name name) :
    t.name_at st_name = name :=
  string_at_of_holds htext.1

theorem Text.put {strtab : Section (BitVec 8)} {st_name : Nat} {name : Name}
    (htext : Text strtab st_name name) (xs : List (BitVec 8)) : Text (strtab.put xs) st_name name := by
  refine ⟨htext.1.add_of_before ?_ xs, Nat.le_trans htext.2 (Nat.le_add_right _ _)⟩
  rw [List.length_append, List.length_singleton]
  exact htext.2

/-- The room that a name takes. -/
def room (name : Name) : Nat := if name.1 ≠ [] then name.1.length + 1 else 0

/-- What an entry of a symbol leaves as it is: what comes behind, and the names in use. -/
structure Keeps (t : Table) (name : Name) (t' : Table) : Prop where
  sym_used : t'.symtab.used ≤ t.symtab.used + 1
  sym_data : ∀ k, t.symtab.used < k → t'.symtab.data[k]? = t.symtab.data[k]?
  str_used : t'.strtab.used ≤ t.strtab.used + room name
  str_data : ∀ (offset : Nat) (ys : List (BitVec 8)), t.strtab.used + room name ≤ offset →
    Holds t.strtab.data offset ys → Holds t'.strtab.data offset ys
  rules : t'.rules = t.rules

/-- `put_elf_sym` adds the symbol, with its name. -/
theorem put_elf_sym_spec {t : Table} (hstored : Stored t) (sym : ElfSym) (name : Name) :
    (put_elf_sym t sym name).1.syms = t.syms ++ [(name, sym)] ∧ Stored (put_elf_sym t sym name).1 ∧
      (put_elf_sym t sym name).2 = t.syms.length ∧ Keeps t name (put_elf_sym t sym name).1 := by
  obtain ⟨strtab, st_name, hstr⟩ : ∃ strtab st_name, (if name.1 ≠ [] then put_elf_str t.strtab name
      else (t.strtab, 0)) = (strtab, st_name) := ⟨_, _, rfl⟩
  have htext : Text strtab st_name name := by
    split at hstr
    · cases hstr
      refine ⟨t.strtab.holds_add_self _, ?_⟩
      rw [Section.put, Buffer.used_add, List.length_append, List.length_singleton]
    · rename_i hempty
      cases hstr
      have hname : name = ⟨[], List.not_mem_nil⟩ := Subtype.ext (not_not.mp hempty)
      rw [hname]
      exact hstored.empty
  have hbefore : ∀ {offset : Nat} {name' : Name}, Text t.strtab offset name' → Text strtab offset name' := by
    intro offset name' h
    split at hstr
    · cases hstr
      exact h.put _
    · cases hstr
      exact h
  have hused : strtab.used = t.strtab.used + room name := by
    rw [room]
    split at hstr
    · rename_i hname
      cases hstr
      rw [if_pos hname, Section.put, Buffer.used_add, List.length_append, List.length_singleton]
    · rename_i hname
      cases hstr
      rw [if_neg hname, Nat.add_zero]
  have hafter : ∀ (offset : Nat) (ys : List (BitVec 8)), t.strtab.used + room name ≤ offset →
      Holds t.strtab.data offset ys → Holds strtab.data offset ys := by
    intro offset ys hoffset h
    rw [room] at hoffset
    split at hstr
    · rename_i hname
      cases hstr
      rw [if_pos hname] at hoffset
      refine h.add_of_after ?_
      rw [List.length_append, List.length_singleton]
      exact hoffset
    · cases hstr
      exact h
  rw [put_elf_sym, hstr]
  dsimp only
  have hnew : (t.symtab.put [⟨st_name, sym⟩]).data[t.symtab.used]? = some ⟨st_name, sym⟩ :=
    t.symtab.getElem?_add_self [⟨st_name, sym⟩] (i := 0) (by simp)
  refine ⟨List.ext_getElem? fun k => Option.ext fun x => ?_, ⟨hbefore hstored.empty, fun k e hk he => ?_⟩,
    (length_syms t).symm, ⟨Nat.le_refl _, fun k hk => ?_, Nat.le_of_eq hused, hafter, rfl⟩⟩
  · rw [syms_eq_some]
    rcases lt_trichotomy k t.symtab.used with hk | rfl | hk
    · have hget : (t.symtab.put [⟨st_name, sym⟩]).data[k]? = t.symtab.data[k]? :=
        t.symtab.getElem?_add_of_lt _ hk
      rw [List.getElem?_append_left (by rwa [length_syms]), syms_eq_some]
      dsimp only
      rw [hget]
      constructor
      · rintro ⟨-, e, he, heq⟩
        obtain ⟨name', hname'⟩ := hstored.text k e hk he
        refine ⟨hk, e, he, ?_⟩
        rw [hname'.name_at, ← heq, Table.name_at, string_at_of_holds (hbefore hname').1]
      · rintro ⟨-, e, he, heq⟩
        obtain ⟨name', hname'⟩ := hstored.text k e hk he
        refine ⟨Nat.lt_succ_of_lt hk, e, he, ?_⟩
        rw [hname'.name_at] at heq
        rw [← heq, Table.name_at, string_at_of_holds (hbefore hname').1]
    · rw [← length_syms t, List.getElem?_concat_length, length_syms]
      dsimp only
      rw [hnew]
      simp only [Option.some.injEq, exists_eq_left', Table.name_at, string_at_of_holds htext.1]
      exact ⟨And.right, fun h => ⟨Nat.lt_succ_self _, h⟩⟩
    · have hnone : (t.syms ++ [(name, sym)])[k]? = none :=
        List.getElem?_eq_none (by rw [List.length_append, length_syms, List.length_singleton]; omega)
      rw [hnone]
      constructor
      · rintro ⟨hlt, -⟩
        exact absurd hlt (by rw [Section.put, Buffer.used_add, List.length_singleton]; omega)
      · intro h
        cases h
  · rcases Nat.lt_succ_iff_lt_or_eq.mp hk with hlt | rfl
    · have hget : (t.symtab.put [⟨st_name, sym⟩]).data[k]? = t.symtab.data[k]? :=
        t.symtab.getElem?_add_of_lt _ hlt
      rw [hget] at he
      obtain ⟨name', hname'⟩ := hstored.text k e hlt he
      exact ⟨name', hbefore hname'⟩
    · rw [hnew, Option.some.injEq] at he
      subst he
      exact ⟨name, htext⟩
  · exact t.symtab.getElem?_add_of_ge _ (by rw [List.length_singleton]; omega)

theorem hashed_put {t : Table} (hstored : Stored t) (hhashed : Hashed t) (sym : ElfSym) (name : Name) :
    Hashed (put_elf_sym t sym name).1 := by
  obtain ⟨hs, hhash, hmem⟩ := hhashed
  obtain ⟨hsyms, -⟩ := put_elf_sym_spec hstored sym name
  refine ⟨_, congrArg (Option.map _) hhash, fun k => ?_⟩
  rw [hsyms]
  have hold : k ∈ hs ↔ ∃ x : Named, t.syms[k]? = some x ∧ x.2.bind ≠ .STB_LOCAL := hmem k
  by_cases hk : k = t.symtab.used
  · subst hk
    have hnone : t.symtab.used ∉ hs := by
      rw [hold, ← length_syms, List.getElem?_eq_none (Nat.le_refl _)]
      rintro ⟨x, hx, -⟩
      cases hx
    rw [← length_syms, List.getElem?_concat_length, length_syms]
    by_cases hlocal : sym.bind ≠ .STB_LOCAL
    · simp [hlocal]
    · simp [hlocal, hnone]
  · have hget : (t.syms ++ [(name, sym)])[k]? = t.syms[k]? := by
      rcases Nat.lt_or_gt_of_ne hk with hlt | hgt
      · rw [List.getElem?_append_left (by rwa [length_syms])]
      · rw [List.getElem?_eq_none (by rw [List.length_append, length_syms, List.length_singleton]; omega),
          List.getElem?_eq_none (by rw [length_syms]; omega)]
    rw [hget, ← hold]
    by_cases hlocal : sym.bind ≠ .STB_LOCAL
    · simp [hlocal, hk]
    · simp [hlocal]

/-- Another symbol in an entry. -/
theorem set_sym_spec {t : Table} (hstored : Stored t) {k : Nat} {e : Entry} (hk : k < t.symtab.used)
    (he : t.symtab.data[k]? = some e) (sym : ElfSym) (name : Name) :
    (t.set_sym k e sym).syms = t.syms.modify k (fun y => (y.1, sym)) ∧ Stored (t.set_sym k e sym) ∧
      Keeps t name (t.set_sym k e sym) := by
  have hdata : ∀ i, (t.set_sym k e sym).symtab.data[i]? =
      if k = i then some ⟨e.st_name, sym⟩ else t.symtab.data[i]? := by
    intro i
    change (t.symtab.data.set k ⟨e.st_name, sym⟩)[i]? = _
    rw [List.getElem?_set]
    have := t.symtab.used_le
    split
    · rename_i hi
      rw [if_pos (by omega)]
    · rfl
  refine ⟨List.ext_getElem? fun i => Option.ext fun x => ?_, ⟨hstored.empty, fun i e' hi he' => ?_⟩,
    ⟨Nat.le_succ _, fun i hi => ?_, Nat.le_add_right _ _, fun _ _ _ h => h, rfl⟩⟩
  · rw [syms_eq_some, hdata]
    by_cases hi : k = i
    · subst hi
      have hold : t.syms[k]? = some (t.name_at e.st_name, e.sym) := syms_eq_some.mpr ⟨hk, e, he, rfl⟩
      rw [if_pos rfl, List.getElem?_modify_eq, hold]
      simp only [Option.some.injEq, exists_eq_left', Option.map_eq_map, Option.map_some]
      exact ⟨And.right, fun h => ⟨hk, h⟩⟩
    · rw [if_neg hi, List.getElem?_modify_ne _ _ hi, syms_eq_some]
      rfl
  · rw [hdata] at he'
    split at he'
    · cases he'
      exact hstored.text k e hk he
    · exact hstored.text i e' hi he'
  · rw [hdata, if_neg (by omega)]

theorem hashed_of_modify {t t' : Table} (hhashed : Hashed t) {k : Nat} {f : Named → Named}
    (hsyms : t'.syms = t.syms.modify k f) (hhash : t'.hash = t.hash)
    (hlocal : ∀ x : Named, t.syms[k]? = some x → ((f x).2.bind ≠ .STB_LOCAL ↔ x.2.bind ≠ .STB_LOCAL)) :
    Hashed t' := by
  obtain ⟨hs, heq, hmem⟩ := hhashed
  refine ⟨hs, hhash.trans heq, fun i => ?_⟩
  rw [hmem, hsyms]
  by_cases hi : k = i
  · subst hi
    rw [List.getElem?_modify_eq]
    constructor
    · rintro ⟨x, hx, hxlocal⟩
      exact ⟨f x, by rw [hx]; rfl, (hlocal x hx).mpr hxlocal⟩
    · rintro ⟨y, hy, hylocal⟩
      obtain ⟨x, hx, rfl⟩ := Option.map_eq_some_iff.mp hy
      exact ⟨x, hx, (hlocal x hx).mp hylocal⟩
  · rw [List.getElem?_modify_ne _ _ hi]

/-- What becomes of a symbol that is found. -/
theorem merge_spec {t : Table} (hstored : Stored t) {k : Nat} {e : Entry} (hk : k < t.symtab.used)
    (he : t.symtab.data[k]? = some e) (sym : ElfSym) (name : Name) :
    (t.merge k e sym name).syms = t.syms.modify k (fun y => (y.1, merged t.rules y.2 sym)) ∧
      Stored (t.merge k e sym name) ∧ (t.merge k e sym name).hash = t.hash ∧
        Keeps t name (t.merge k e sym name) := by
  have hold : t.syms[k]? = some (t.name_at e.st_name, e.sym) := syms_eq_some.mpr ⟨hk, e, he, rfl⟩
  have hmodify : ∀ sym' : ElfSym, merged t.rules e.sym sym = sym' →
      t.syms.modify k (fun y => (y.1, sym')) = t.syms.modify k (fun y => (y.1, merged t.rules y.2 sym)) := by
    intro sym' hsym'
    refine List.ext_getElem? fun i => ?_
    by_cases hi : k = i
    · subst hi
      rw [List.getElem?_modify_eq, List.getElem?_modify_eq, hold, ← hsym']
      rfl
    · rw [List.getElem?_modify_ne _ _ hi, List.getElem?_modify_ne _ _ hi]
  have hset : ∀ sym' : ElfSym, merged t.rules e.sym sym = sym' → ∀ t' : Table,
      t'.symtab = (t.set_sym k e sym').symtab → t'.strtab = t.strtab → t'.hash = t.hash →
      t'.rules = t.rules →
      t'.syms = t.syms.modify k (fun y => (y.1, merged t.rules y.2 sym)) ∧ Stored t' ∧
        t'.hash = t.hash ∧ Keeps t name t' := by
    intro sym' hsym' t' hsymtab hstrtab hhash hrules
    obtain ⟨hsyms, hstored', hkeeps⟩ := set_sym_spec hstored hk he sym' name
    have hsame : t'.syms = (t.set_sym k e sym').syms := by
      rw [Table.syms, Table.syms, hsymtab]
      simp only [Table.name_at, hstrtab]
      rfl
    refine ⟨by rw [hsame, hsyms, hmodify sym' hsym'], ⟨?_, ?_⟩, hhash, ⟨?_, ?_, ?_, ?_, hrules⟩⟩
    · rw [hstrtab]
      exact hstored.empty
    · rw [hsymtab, hstrtab]
      exact hstored'.text
    · rw [hsymtab]
      exact hkeeps.sym_used
    · rw [hsymtab]
      exact hkeeps.sym_data
    · rw [hstrtab]
      exact Nat.le_add_right _ _
    · rw [hstrtab]
      exact fun _ _ _ h => h
  rw [Table.merge]
  split
  · rename_i hsame
    refine ⟨?_, hstored, rfl, ⟨Nat.le_succ _, fun _ _ => rfl, Nat.le_add_right _ _, fun _ _ _ h => h, rfl⟩⟩
    rw [← hmodify e.sym (by rw [merged, if_pos hsame])]
    refine List.ext_getElem? fun i => ?_
    by_cases hi : k = i
    · subst hi
      rw [List.getElem?_modify_eq, hold]
      rfl
    · rw [List.getElem?_modify_ne _ _ hi]
  · rename_i hne
    split
    · rename_i hdefined
      have hmerged : merged t.rules e.sym sym = _ := (if_neg hne).trans (if_pos hdefined)
      dsimp only at hmerged ⊢
      split
      · rename_i hresolve
        exact hset _ (by rw [hmerged, hresolve]) _ rfl rfl rfl rfl
      · rename_i hresolve
        exact hset _ (by rw [hmerged, hresolve]) _ rfl rfl rfl rfl
      · rename_i hresolve
        exact hset _ (by rw [hmerged, hresolve]) _ rfl rfl rfl rfl
    · rename_i hundef
      exact hset _ (by rw [merged, if_neg hne, if_neg hundef]) _ rfl rfl rfl rfl

/-- `set_elf_sym` enters a symbol. -/
theorem set_elf_sym_spec {t : Table} (hstored : Stored t) (hhashed : Hashed t) (hunique : Unique t.syms)
    (sym : ElfSym) (name : Name) :
    (t.set_elf_sym sym name).1.syms = (enter t.rules t.syms (name, sym)).1 ∧
      (t.set_elf_sym sym name).2 = (enter t.rules t.syms (name, sym)).2 ∧
        Stored (t.set_elf_sym sym name).1 ∧ Hashed (t.set_elf_sym sym name).1 ∧
          Keeps t name (t.set_elf_sym sym name).1 := by
  obtain ⟨hsyms, hstored', hindex, hkeeps⟩ := put_elf_sym_spec hstored sym name
  have hput := hashed_put hstored hhashed sym name
  rw [Table.set_elf_sym, enter]
  dsimp only
  split
  · exact ⟨hsyms, hindex, hstored', hput, hkeeps⟩
  · rename_i hlocal
    rw [find_elf_sym_eq hhashed hunique]
    cases hfind : find t.syms name with
    | none => exact ⟨hsyms, hindex, hstored', hput, hkeeps⟩
    | some k =>
      obtain ⟨x, hx, hxlocal, -⟩ := find_eq_some hfind
      obtain ⟨hk, e, he, heq⟩ := syms_eq_some.mp hx
      obtain ⟨hmerge, hstored'', hhash, hkeeps'⟩ := merge_spec hstored hk he sym name
      dsimp only
      rw [he]
      refine ⟨hmerge, rfl, hstored'', ?_, hkeeps'⟩
      refine hashed_of_modify hhashed hmerge hhash fun y hy => ?_
      rw [hx, Option.some.injEq] at hy
      subst hy
      exact ⟨fun _ => hxlocal, fun _ => merged_not_local t.rules hxlocal hlocal⟩

end tcc.elf
