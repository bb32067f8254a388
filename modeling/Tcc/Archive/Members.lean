import Tcc.Archive.Ar

/-! The members of an archive, and the entries of its index. -/

open machine.decimal machine.dwarf

namespace tcc.archive

/-- The names that an object adds to the index, from its own tables. -/
def own_names (buf : Bytes) : List Bytes :=
  match find_symtab buf, find_strtab buf with
  | some (symtab, symtabsize), some strtab =>
    ((symbols buf symtab symtabsize).filter Sym.indexed).map fun sym => string_at buf (strtab + sym.st_name)
  | _, _ => []

/-- Each symbol table is the one that is found, and its names are in the section that is found. -/
structure Tables (buf : Bytes) : Prop where
  symtab : ∀ shdr ∈ sections buf, shdr.sh_type = SHT_SYMTAB →
    find_symtab buf = some (shdr.sh_offset, shdr.sh_size)
  strtab : ∀ shdr ∈ sections buf, shdr.sh_type = SHT_SYMTAB →
    find_strtab buf = some (shdr_at buf shdr.sh_link).sh_offset

/-- No object without a symbol table comes after one whose table has symbols; `symtab` is the
    last table before these objects. -/
def Fresh (symtab : Option (Nat × Nat)) : List Object → Prop
  | [] => True
  | o :: os => (find_symtab o.buf = none → ∀ t ∈ symtab, t.2 / 24 ≤ 1) ∧
      Fresh ((find_symtab o.buf).or symtab) os

/-- A member as it is stored. -/
def member (o : Object) : Bytes := member_header o ++ o.buf

/-- The offsets of the headers of members that are stored from `pos` on. -/
def member_offsets (pos : Nat) : List Object → List Nat
  | [] => []
  | o :: os => pos :: member_offsets (pos + (o.buf.length + 60)) os

/-- The names of the objects with the offsets of their headers. -/
def index_entries (pos : Nat) : List Object → List (Bytes × Nat)
  | [] => []
  | o :: os => (own_names o.buf).map (·, pos) ++ index_entries (pos + (o.buf.length + 60)) os

theorem length_ar_name (name : Bytes) : (ar_name name).length = 16 := by
  simp only [ar_name, spaces, List.length_append, List.length_take, List.length_replicate,
    List.length_singleton]
  omega

theorem length_ar_size (size : Nat) : (ar_size size).length = 10 := by
  simp only [ar_size, spaces, List.length_take, List.length_append, List.length_replicate]
  omega

theorem length_ar_header {name mode : Bytes} (hname : name.length = 16) (hmode : mode.length = 8)
    (size : Nat) : (ar_header name mode size).length = 60 := by
  have hids : (chars "0     ").length = 6 := rfl
  have hmagic : ARFMAG.length = 2 := rfl
  simp only [ar_header, List.length_append, length_ar_size, hname, hmode, hids, hmagic, spaces,
    List.length_replicate]

theorem length_member_header (o : Object) : (member_header o).length = 60 :=
  length_ar_header (length_ar_name _) rfl _

theorem length_member (o : Object) : (member o).length = o.buf.length + 60 := by
  rw [member, List.length_append, length_member_header, Nat.add_comm]

theorem find_symtab_mem_from (shdrs : List Shdr) (init : Option (Nat × Nat)) {symtab : Nat × Nat}
    (hfind : shdrs.foldl (fun symtab shdr =>
      if shdr.sh_offset ≠ 0 ∧ shdr.sh_type = SHT_SYMTAB then some (shdr.sh_offset, shdr.sh_size)
      else symtab) init = some symtab) (hinit : init ≠ some symtab) :
    ∃ shdr ∈ shdrs, shdr.sh_type = SHT_SYMTAB ∧ (shdr.sh_offset, shdr.sh_size) = symtab := by
  induction shdrs generalizing init with
  | nil => exact absurd hfind hinit
  | cons shdr shdrs ih =>
    rw [List.foldl_cons] at hfind
    by_cases hshdr : (shdr.sh_offset ≠ 0 ∧ shdr.sh_type = SHT_SYMTAB) ∧
        (shdr.sh_offset, shdr.sh_size) = symtab
    · exact ⟨shdr, List.mem_cons_self, hshdr.1.2, hshdr.2⟩
    · obtain ⟨shdr', hmem, htype, heq⟩ := ih _ hfind (by
        split
        · rename_i htable
          exact fun heq => hshdr ⟨htable, Option.some.inj heq⟩
        · exact hinit)
      exact ⟨shdr', List.mem_cons_of_mem _ hmem, htype, heq⟩

/-- The symbol table that is found is that of a section. -/
theorem find_symtab_mem {buf : Bytes} {symtab : Nat × Nat} (hfind : find_symtab buf = some symtab) :
    ∃ shdr ∈ sections buf, shdr.sh_type = SHT_SYMTAB ∧ (shdr.sh_offset, shdr.sh_size) = symtab :=
  find_symtab_mem_from _ none hfind (by simp)

/-- With an object's own tables its own names are added. -/
theorem indexed_names_own {buf : Bytes} (htables : Tables buf) {symtab : Nat × Nat}
    (hfind : find_symtab buf = some symtab) (k : Nat) (strtab : Option (Table Nat)) :
    indexed_names k buf (some ⟨k, symtab⟩) (((find_strtab buf).map (⟨k, ·⟩)).or strtab) =
      some (own_names buf) := by
  obtain ⟨shdr, hmem, htype, heq⟩ := find_symtab_mem hfind
  have hstrtab := htables.strtab shdr hmem htype
  obtain ⟨offset, size⟩ := symtab
  rw [own_names, hfind, hstrtab]
  simp only [indexed_names, Option.map_some, Option.some_or]
  split
  · rename_i hsize
    have hnone : symbols buf offset size = [] := by
      rw [symbols, List.map_eq_nil_iff, List.drop_eq_nil_iff, List.length_range]
      exact hsize
    rw [hnone]
    rfl
  · rw [if_neg (not_not_intro rfl)]
    split
    · rename_i hempty
      rw [List.isEmpty_iff.mp hempty]
      rfl
    · rw [if_neg (not_not_intro rfl)]

/-- Without a table of its own an object adds no names, where that of another is not read. -/
theorem indexed_names_other {buf : Bytes} {k : Nat} {symtab : Option (Table (Nat × Nat))}
    (hbefore : ∀ t ∈ symtab, t.object ≠ k) (strtab : Option (Table Nat)) :
    indexed_names k buf symtab strtab =
      if ∀ t ∈ symtab, t.value.2 / 24 ≤ 1 then some [] else none := by
  cases symtab with
  | none => simp [indexed_names]
  | some t =>
    obtain ⟨object, offset, size⟩ := t
    have hobject : object ≠ k := hbefore _ rfl
    simp only [indexed_names, Option.mem_def, Option.some.injEq, forall_eq']
    by_cases hsize : size / 24 ≤ 1
    · rw [if_pos hsize, if_pos hsize]
    · rw [if_neg hsize, if_neg hsize, if_pos hobject]

/-- The state after an object. -/
def ArState.after (s : ArState) (i_obj : Nat) (o : Object) : ArState where
  anames := s.anames ++ (own_names o.buf).flatMap (· ++ [0#8])
  afpos := s.afpos ++ (own_names o.buf).map fun _ => s.fpos
  fo := s.fo ++ member o
  fpos := s.fpos + (o.buf.length + 60)
  symtab := ((find_symtab o.buf).map (⟨i_obj, ·⟩)).or s.symtab
  strtab := ((find_strtab o.buf).map (⟨i_obj, ·⟩)).or s.strtab

theorem ArState.after_symtab (s : ArState) (k : Nat) (o : Object) :
    (s.after k o).symtab.map Table.value = (find_symtab o.buf).or (s.symtab.map Table.value) := by
  rw [ArState.after]
  cases find_symtab o.buf <;> rfl

theorem ArState.after_before {s : ArState} {k : Nat} (hbefore : ∀ t ∈ s.symtab, t.object < k) (o : Object) :
    ∀ t ∈ (s.after k o).symtab, t.object < k + 1 := by
  intro t ht
  cases hfind : find_symtab o.buf with
  | none =>
    rw [ArState.after, hfind] at ht
    exact (hbefore t ht).trans (Nat.lt_succ_self k)
  | some symtab =>
    rw [ArState.after, hfind] at ht
    cases ht
    exact Nat.lt_succ_self k

theorem add_object_eq {s : ArState} {k : Nat} {o : Object} (hclass : o.buf.getD 4 0#8 = ELFCLASS64)
    (htables : Tables o.buf) (hbefore : ∀ t ∈ s.symtab, t.object ≠ k) :
    add_object s k o =
      if find_symtab o.buf = none → ∀ t ∈ s.symtab, t.value.2 / 24 ≤ 1 then some (s.after k o)
      else none := by
  have hnames : indexed_names k o.buf (((find_symtab o.buf).map (⟨k, ·⟩)).or s.symtab)
      (((find_strtab o.buf).map (⟨k, ·⟩)).or s.strtab) =
        if find_symtab o.buf = none → ∀ t ∈ s.symtab, t.value.2 / 24 ≤ 1 then some (own_names o.buf)
        else none := by
    cases hfind : find_symtab o.buf with
    | none =>
      have hown : own_names o.buf = [] := by
        rw [own_names, hfind]
      rw [Option.map_none, Option.none_or, indexed_names_other hbefore, hown]
      simp
    | some symtab =>
      rw [Option.map_some, Option.some_or, indexed_names_own htables hfind, if_pos (by simp)]
  rw [add_object, if_neg (not_not_intro hclass)]
  simp only [hnames]
  split
  · simp only [Option.bind_eq_bind, Option.bind_some, length_member_header, ArState.after, member,
      List.append_assoc]
    rfl
  · rfl

/-- The objects are added where none depends on the table of another; then the names are theirs,
    and the offsets those of their headers. -/
theorem add_objects_some {objects : List Object} (hclass : ∀ o ∈ objects, o.buf.getD 4 0#8 = ELFCLASS64)
    (htables : ∀ o ∈ objects, Tables o.buf) {s : ArState} {k : Nat} (hbefore : ∀ t ∈ s.symtab, t.object < k)
    (hfresh : Fresh (s.symtab.map Table.value) objects) :
    ∃ s', add_objects s k objects = some s' ∧
      s'.anames = s.anames ++ (index_entries s.fpos objects).flatMap (·.1 ++ [0#8]) ∧
      s'.afpos = s.afpos ++ (index_entries s.fpos objects).map (·.2) ∧
      s'.fo = s.fo ++ objects.flatMap member := by
  induction objects generalizing s k with
  | nil => exact ⟨s, rfl, by simp [index_entries], by simp [index_entries], by simp⟩
  | cons o os ih =>
    obtain ⟨hstale, hfresh⟩ := hfresh
    have hadd : add_object s k o = some (s.after k o) := by
      rw [add_object_eq (hclass o List.mem_cons_self) (htables o List.mem_cons_self)
        fun t ht => (hbefore t ht).ne, if_pos]
      intro hnone t ht
      exact hstale hnone t.value (Option.mem_map_of_mem _ ht)
    have hbefore' := ArState.after_before hbefore o
    rw [← ArState.after_symtab s k o] at hfresh
    obtain ⟨s', hadds, hanames, hafpos, hfo⟩ := ih (fun o ho => hclass o (List.mem_cons_of_mem _ ho))
      (fun o ho => htables o (List.mem_cons_of_mem _ ho)) hbefore' hfresh
    refine ⟨s', ?_, ?_, ?_, ?_⟩
    · rw [add_objects, hadd]
      exact hadds
    · rw [hanames]
      simp [ArState.after, index_entries, List.flatMap_map]
    · rw [hafpos]
      simp [ArState.after, index_entries, Function.comp_def]
    · rw [hfo]
      simp [ArState.after]

/-- Objects that are added do not depend on the tables of others. -/
theorem fresh_of_add_objects {objects : List Object}
    (hclass : ∀ o ∈ objects, o.buf.getD 4 0#8 = ELFCLASS64) (htables : ∀ o ∈ objects, Tables o.buf)
    {s s' : ArState} {k : Nat} (hbefore : ∀ t ∈ s.symtab, t.object < k)
    (hadd : add_objects s k objects = some s') : Fresh (s.symtab.map Table.value) objects := by
  induction objects generalizing s k with
  | nil => trivial
  | cons o os ih =>
    have hobject := add_object_eq (hclass o List.mem_cons_self) (htables o List.mem_cons_self)
      fun t ht => (hbefore t ht).ne
    rw [add_objects] at hadd
    split at hobject
    · rename_i hstale
      rw [hobject] at hadd
      have hbefore' := ArState.after_before hbefore o
      have hrest := ih (fun o ho => hclass o (List.mem_cons_of_mem _ ho))
        (fun o ho => htables o (List.mem_cons_of_mem _ ho)) hbefore' hadd
      rw [ArState.after_symtab] at hrest
      refine ⟨fun hnone t ht => ?_, hrest⟩
      obtain ⟨t, hmem, rfl⟩ := Option.mem_map.mp ht
      exact hstale hnone t hmem
    · rw [hobject] at hadd
      cases hadd

theorem get_be_be32 {n : Nat} (hn : n < 2 ^ 32) : get_be (be32 n) = n := by
  simp only [get_be, be32, List.foldl_cons, List.foldl_nil, BitVec.toNat_ofNat]
  omega

theorem length_be32 (n : Nat) : (be32 n).length = 4 := rfl

/-- The numbers of an index are read back. -/
theorem get_be_entry {values : List Nat} (hvalues : ∀ n ∈ values, n < 2 ^ 32) (rest : Bytes) {i : Nat}
    (hi : i < values.length) :
    get_be (((values.flatMap be32 ++ rest).drop (i * 4)).take 4) = values[i] := by
  induction values generalizing i with
  | nil => cases hi
  | cons n values ih =>
    rw [List.flatMap_cons, List.append_assoc]
    cases i with
    | zero =>
      rw [Nat.zero_mul, List.drop_zero, List.take_left' (length_be32 n)]
      exact get_be_be32 (hvalues n List.mem_cons_self)
    | succ i =>
      have hdrop : (i + 1) * 4 = (be32 n).length + i * 4 := by
        rw [length_be32]
        ring
      rw [hdrop, List.drop_length_add_append, List.getElem_cons_succ]
      exact ih (fun n hn => hvalues n (List.mem_cons_of_mem _ hn)) _

theorem string_at_zero {name : Bytes} (hname : 0#8 ∉ name) (rest : Bytes) :
    string_at (name ++ 0#8 :: rest) 0 = name := by
  rw [string_at, List.drop_zero, List.takeWhile_append_of_pos]
  · simp
  · intro b hb
    simp only [bne_iff_ne, ne_eq]
    rintro rfl
    exact hname hb

/-- The names of an index are read back. -/
theorem index_names_flatMap {names : List Bytes} (hnames : ∀ name ∈ names, 0#8 ∉ name) (rest : Bytes) :
    index_names names.length (names.flatMap (· ++ [0#8]) ++ rest) = names := by
  induction names with
  | nil => rfl
  | cons name names ih =>
    have hbytes : (name :: names).flatMap (· ++ [0#8]) ++ rest =
        name ++ 0#8 :: (names.flatMap (· ++ [0#8]) ++ rest) := by
      simp
    have hdrop : (name ++ 0#8 :: (names.flatMap (· ++ [0#8]) ++ rest)).drop (name.length + 1) =
        names.flatMap (· ++ [0#8]) ++ rest := by
      rw [List.drop_length_add_append, List.drop_succ_cons, List.drop_zero]
    rw [hbytes, List.length_cons, index_names, string_at_zero (hnames name List.mem_cons_self), hdrop,
      ih fun name hname => hnames name (List.mem_cons_of_mem _ hname)]

/-- The index is read as it was written. -/
theorem tcc_load_alacarte_eq {entries : List (Bytes × Nat)} (hnames : ∀ entry ∈ entries, 0#8 ∉ entry.1)
    (hvalues : ∀ entry ∈ entries, entry.2 < 2 ^ 32) (hlength : entries.length < 2 ^ 32) (rest : Bytes) :
    tcc_load_alacarte (be32 entries.length ++ ((entries.map (·.2)).flatMap be32 ++
      ((entries.map (·.1)).flatMap (· ++ [0#8]) ++ rest))) 4 = entries := by
  have hcount : (be32 entries.length).length = 4 := rfl
  have hskip : ((entries.map (·.2)).flatMap be32).length = entries.length * 4 := by
    rw [List.length_flatMap]
    simp [length_be32, Function.comp_def]
  rw [tcc_load_alacarte]
  simp only [List.take_left' hcount, List.drop_left' hcount, get_be_be32 hlength, List.drop_left' hskip]
  have hzero : ∀ name ∈ entries.map (·.1), 0#8 ∉ name := by
    intro name hname
    obtain ⟨entry, hentry, rfl⟩ := List.mem_map.mp hname
    exact hnames entry hentry
  have hread := index_names_flatMap hzero rest
  rw [List.length_map] at hread
  rw [hread]
  refine List.ext_getElem (by simp) fun i hi₁ hi₂ => ?_
  rw [List.getElem_map, List.getElem_zipIdx]
  have hbound : ∀ n ∈ entries.map (·.2), n < 2 ^ 32 := by
    intro n hn
    obtain ⟨entry, hentry, rfl⟩ := List.mem_map.mp hn
    exact hvalues entry hentry
  have hi : i < (entries.map (·.2)).length := by
    rwa [List.length_map]
  have hvalue := get_be_entry hbound ((entries.map (·.1)).flatMap (· ++ [0#8]) ++ rest) hi
  simp only [Nat.zero_add, hvalue, List.getElem_map]

end tcc.archive
