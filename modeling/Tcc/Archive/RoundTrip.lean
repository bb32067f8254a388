import Mathlib.Data.List.TakeWhile
import Mathlib.Order.Lattice.Nat
import Tcc.Archive.Members

/-! Which archives give their objects back. -/

open machine.decimal machine.dwarf

namespace tcc.archive

def STB_GLOBAL : Nat := 1

def STB_WEAK : Nat := 2

/-- Whether a symbol is global or weak, and defined. -/
def Sym.exported (sym : Sym) : Bool :=
  sym.st_shndx != 0 && (sym.st_info / 16 == STB_GLOBAL || sym.st_info / 16 == STB_WEAK)

/-- The global and weak symbols that an object defines. A symbol table has its names in the
    section that it is linked to. -/
def defined_names (buf : Bytes) : List Bytes :=
  ((sections buf).filter (·.sh_type == SHT_SYMTAB)).flatMap fun shdr =>
    ((symbols buf shdr.sh_offset shdr.sh_size).filter Sym.exported).map fun sym =>
      string_at buf ((shdr_at buf shdr.sh_link).sh_offset + sym.st_name)

/-- A relocatable object file. -/
structure IsObject (buf : Bytes) : Prop where
  length : 64 ≤ buf.length
  magic : buf.take 4 = ELFMAG
  elf_class : buf.getD 4 0#8 = ELFCLASS64
  e_type : read_le buf 16 2 = ET_REL

/-- An archive, of an index and the members, gives its objects back: each is loaded once and in
    order, and the index has every symbol that one defines, where it is defined. -/
structure RoundTrips (objects : List Object) (index file : Bytes) : Prop where
  stored : file = index ++ objects.flatMap member
  loaded : ∃ fuel, tcc_load_archive file fuel 8 =
    some ((member_offsets index.length objects).map (· + 60), true)
  indexed : ∀ o ∈ objects, ∀ name ∈ defined_names o.buf, ∃ fuel entries,
    archive_index file fuel 8 = some entries ∧ (∃ offset, (name, offset) ∈ entries) ∧
      ∀ offset, (name, offset) ∈ entries →
        ∃ o', (o', offset) ∈ objects.zip (member_offsets index.length objects) ∧
          name ∈ defined_names o'.buf

/-- The size of the index of a list of objects. -/
def index_size (objects : List Object) : Nat :=
  let names := objects.flatMap fun o => own_names o.buf
  (names.flatMap (· ++ [0#8])).length + (names.length + 1) * 4

def archive_size (objects : List Object) : Nat :=
  8 + 60 + (index_size objects + index_size objects % 2) + (objects.flatMap member).length

/-- Sizes that can be stored. -/
structure Fits (objects : List Object) : Prop where
  buffers : ∀ o ∈ objects, o.buf.length < 10 ^ 9
  index : index_size objects < 10 ^ 9
  total : archive_size objects < 2 ^ 31

/-- The lists of objects whose archives give them back: no object is left to the symbol table of
    another, one has a symbol for the index, all but the last have an even size, and each symbol
    that is defined has one of the types that are indexed in some object. -/
structure Archivable (objects : List Object) : Prop where
  fresh : Fresh none objects
  nonempty : objects ≠ [] → ∃ o ∈ objects, own_names o.buf ≠ []
  even : ∀ o ∈ objects.dropLast, o.buf.length % 2 = 0
  indexed : ∀ o ∈ objects, ∀ name ∈ defined_names o.buf, ∃ o' ∈ objects, name ∈ own_names o'.buf

theorem Sym.exported_of_indexed {sym : Sym} (hindexed : sym.indexed = true) : sym.exported = true := by
  simp only [Sym.indexed, Bool.and_eq_true, indexed_info, List.contains_iff_mem, List.mem_cons,
    List.not_mem_nil, or_false] at hindexed
  obtain ⟨hshndx, hinfo⟩ := hindexed
  rw [Sym.exported, hshndx, Bool.true_and, Bool.or_eq_true, beq_iff_eq, beq_iff_eq, STB_GLOBAL, STB_WEAK]
  omega

/-- The names in the index are those of symbols that the object defines. -/
theorem defined_of_own {buf : Bytes} (htables : Tables buf) {name : Bytes} (hname : name ∈ own_names buf) :
    name ∈ defined_names buf := by
  cases hfind : find_symtab buf with
  | none =>
    rw [own_names, hfind] at hname
    cases hname
  | some symtab =>
    obtain ⟨shdr, hmem, htype, heq⟩ := find_symtab_mem hfind
    have hstrtab := htables.strtab shdr hmem htype
    subst heq
    rw [own_names, hfind, hstrtab] at hname
    obtain ⟨sym, hsym, rfl⟩ := List.mem_map.mp hname
    obtain ⟨hsym, hindexed⟩ := List.mem_filter.mp hsym
    refine List.mem_flatMap.mpr ⟨shdr, List.mem_filter.mpr ⟨hmem, by rw [htype]; rfl⟩, ?_⟩
    exact List.mem_map.mpr ⟨sym, List.mem_filter.mpr ⟨hsym, Sym.exported_of_indexed hindexed⟩, rfl⟩

theorem zero_notMem_own {buf name : Bytes} (hname : name ∈ own_names buf) : 0#8 ∉ name := by
  rw [own_names] at hname
  split at hname
  · obtain ⟨sym, -, rfl⟩ := List.mem_map.mp hname
    intro hzero
    simpa using List.mem_takeWhile_imp hzero
  · cases hname

theorem mem_index_entries {objects : List Object} {pos offset : Nat} {name : Bytes} :
    (name, offset) ∈ index_entries pos objects ↔
      ∃ o, (o, offset) ∈ objects.zip (member_offsets pos objects) ∧ name ∈ own_names o.buf := by
  induction objects generalizing pos with
  | nil => simp [index_entries]
  | cons o os ih =>
    rw [index_entries, List.mem_append, ih, member_offsets, List.zip_cons_cons]
    constructor
    · rintro (hmem | ⟨o', hmem, hname⟩)
      · obtain ⟨name', hname, heq⟩ := List.mem_map.mp hmem
        cases heq
        exact ⟨o, List.mem_cons_self, hname⟩
      · exact ⟨o', List.mem_cons_of_mem _ hmem, hname⟩
    · rintro ⟨o', hmem, hname⟩
      rcases List.mem_cons.mp hmem with heq | hmem
      · cases heq
        exact Or.inl (List.mem_map.mpr ⟨name, hname, rfl⟩)
      · exact Or.inr ⟨o', hmem, hname⟩

theorem index_entries_add (pos base : Nat) (objects : List Object) :
    index_entries (pos + base) objects = (index_entries pos objects).map fun e => (e.1, e.2 + base) := by
  induction objects generalizing pos with
  | nil => rfl
  | cons o os ih =>
    rw [index_entries, index_entries, List.map_append, List.map_map, ← ih]
    congr 2
    omega

theorem index_entries_names (pos : Nat) (objects : List Object) :
    (index_entries pos objects).map (·.1) = objects.flatMap fun o => own_names o.buf := by
  induction objects generalizing pos with
  | nil => rfl
  | cons o os ih =>
    rw [index_entries, List.map_append, List.map_map, ih, List.flatMap_cons]
    congr 1
    exact List.map_id _

theorem index_entries_lt {objects : List Object} {pos : Nat} {entry : Bytes × Nat}
    (hentry : entry ∈ index_entries pos objects) : entry.2 < pos + (objects.flatMap member).length := by
  induction objects generalizing pos with
  | nil => cases hentry
  | cons o os ih =>
    rw [index_entries, List.mem_append] at hentry
    rw [List.flatMap_cons, List.length_append, length_member]
    rcases hentry with hmem | hmem
    · obtain ⟨name, -, rfl⟩ := List.mem_map.mp hmem
      dsimp only
      omega
    · have := ih hmem
      omega

theorem exists_offset {objects : List Object} {o : Object} (ho : o ∈ objects) (pos : Nat) :
    ∃ offset, (o, offset) ∈ objects.zip (member_offsets pos objects) := by
  induction objects generalizing pos with
  | nil => cases ho
  | cons o' os ih =>
    rw [member_offsets, List.zip_cons_cons]
    rcases List.mem_cons.mp ho with rfl | hmem
    · exact ⟨pos, List.mem_cons_self⟩
    · obtain ⟨offset, hoffset⟩ := ih hmem (pos + (o'.buf.length + 60))
      exact ⟨offset, List.mem_cons_of_mem _ hoffset⟩

/-- The archive before its members, for objects with symbols. -/
def archive_start (objects : List Object) : Bytes :=
  let entries := index_entries (68 + index_size objects + index_size objects % 2) objects
  ARMAG ++ (ar_header (chars "/               ") (chars "0       ") (index_size objects) ++
    (be32 entries.length ++ ((entries.map (·.2)).flatMap be32 ++
      ((entries.map (·.1)).flatMap (· ++ [0#8]) ++ List.replicate (index_size objects % 2) 0#8))))

theorem length_index_entries (pos : Nat) (objects : List Object) :
    (index_entries pos objects).length = (objects.flatMap fun o => own_names o.buf).length := by
  rw [← index_entries_names pos, List.length_map]

theorem length_archive_start (objects : List Object) :
    (archive_start objects).length = 68 + index_size objects + index_size objects % 2 := by
  have hmagic : ARMAG.length = 8 := rfl
  have hheader : (ar_header (chars "/               ") (chars "0       ") (index_size objects)).length = 60 :=
    length_ar_header rfl rfl _
  have hoffsets : ∀ values : List Nat, (values.flatMap be32).length = values.length * 4 := by
    intro values
    rw [List.length_flatMap]
    simp [length_be32]
  rw [archive_start]
  simp only [List.length_append, hmagic, hheader, length_be32, hoffsets, index_entries_names,
    List.length_map, length_index_entries, List.length_replicate]
  rw [index_size]
  omega

/-- The archive of objects: what is written where they have no symbols is only the magic. -/
theorem tcc_tool_ar_eq {objects : List Object} (hclass : ∀ o ∈ objects, o.buf.getD 4 0#8 = ELFCLASS64)
    (htables : ∀ o ∈ objects, Tables o.buf) (hfresh : Fresh none objects) :
    tcc_tool_ar objects =
      if (objects.flatMap fun o => own_names o.buf) = [] then some ARMAG
      else some (archive_start objects ++ objects.flatMap member) := by
  obtain ⟨s, hadd, hanames, hafpos, hfo⟩ := add_objects_some hclass htables
    (s := ⟨[], [], [], 0, none, none⟩) (k := 0) (by simp) hfresh
  have hcount : s.afpos.length = (objects.flatMap fun o => own_names o.buf).length := by
    rw [hafpos, List.nil_append, List.length_map, length_index_entries]
  have hnames : s.anames = (objects.flatMap fun o => own_names o.buf).flatMap (· ++ [0#8]) := by
    rw [hanames, List.nil_append, ← index_entries_names 0, List.flatMap_map]
  have hsize : s.anames.length + (s.afpos.length + 1) * 4 = index_size objects := by
    rw [hnames, hcount, index_size]
  have hpad : (68 + index_size objects) % 2 = index_size objects % 2 := by
    omega
  have hstart : 8 + 60 + s.anames.length + (s.afpos.length + 1) * 4 = 68 + index_size objects := by
    rw [← hsize]
    omega
  rw [tcc_tool_ar, hadd]
  simp only [Option.bind_eq_bind, Option.bind_some, hstart, hsize, hpad]
  by_cases hempty : (objects.flatMap fun o => own_names o.buf) = []
  · rw [if_pos hempty, if_pos (by rw [hcount, hempty]; rfl)]
    rfl
  · rw [if_neg hempty, if_neg (by rw [hcount]; exact fun h => hempty (List.length_eq_zero_iff.mp h))]
    have hentries : index_entries (68 + index_size objects + index_size objects % 2) objects =
        (index_entries 0 objects).map fun e => (e.1, e.2 + (68 + index_size objects + index_size objects % 2)) := by
      rw [← index_entries_add, Nat.zero_add]
    rw [archive_start, hentries, hcount, hafpos, hanames, hfo]
    simp only [List.nil_append, List.length_map, List.map_map, List.flatMap_map, length_index_entries,
      List.append_assoc, Function.comp_def]
    rfl

/-- A header is found where it was written. -/
theorem read_ar_header_eq {name mode : Bytes} (hname : name.length = 16) (hmode : mode.length = 8)
    (size : Nat) (before rest : Bytes) :
    read_ar_header (before ++ (ar_header name mode size ++ rest)) before.length =
      .header ⟨(name.reverse.dropWhile (· == 32#8)).reverse, (ar_size size).take 9, ARFMAG⟩ := by
  have hlength := length_ar_header hname hmode size
  have hids : (chars "0     ").length = 6 := rfl
  have hread : ((before ++ (ar_header name mode size ++ rest)).drop before.length).take 60 =
      ar_header name mode size := by
    rw [List.drop_left, List.take_left' hlength]
  rw [read_ar_header]
  simp only [hread, hlength]
  rw [if_neg (by simp)]
  have hbefore : (name ++ spaces 12 ++ chars "0     " ++ chars "0     " ++ mode).length = 48 := by
    simp [hname, hmode, hids, spaces]
  have hfields : ar_header name mode size =
      (name ++ spaces 12 ++ chars "0     " ++ chars "0     " ++ mode) ++ (ar_size size ++ ARFMAG) := by
    simp only [ar_header, List.append_assoc]
  have htake : (ar_header name mode size).take 16 = name := by
    simp only [ar_header, List.append_assoc]
    exact List.take_left' hname
  have hsize : ((ar_header name mode size).drop 48).take 9 = (ar_size size).take 9 := by
    rw [hfields, List.drop_left' hbefore, List.take_append_of_le_length (by rw [length_ar_size]; omega)]
  have hmagic : (ar_header name mode size).drop 58 = ARFMAG := by
    rw [hfields, ← List.append_assoc]
    exact List.drop_left' (by rw [List.length_append, hbefore, length_ar_size])
  rw [htake, hsize, hmagic]

/-- A size of up to nine digits is read back. -/
theorem member_size_eq {size : Nat} (hsize : size < 10 ^ 9) (name magic : Bytes) :
    member_size ⟨name, (ar_size size).take 9, magic⟩ = ((size + 1) / 2 * 2 : Nat) := by
  have hlength := length_decimal_le (k := 9) (by omega) hsize
  have hfield : (ar_size size).take 9 =
      decimal_bytes size ++ List.replicate (9 - (decimal_bytes size).length) 32#8 := by
    rw [ar_size, List.take_take, List.take_append, List.take_of_length_le (by omega), spaces,
      List.take_replicate]
    congr 2
    omega
  rw [member_size]
  dsimp only
  rw [hfield, strtol_decimal]
  push_cast
  rfl

theorem next_offset_eq {size offset : Nat} (hsize : size < 10 ^ 9) (hoffset : offset < 2 ^ 32)
    (name magic : Bytes) :
    next_offset offset ⟨name, (ar_size size).take 9, magic⟩ = offset + 60 + (size + 1) / 2 * 2 := by
  rw [next_offset, member_size_eq hsize]
  omega

/-- An object is taken for one where it was written. -/
theorem is_object_eq {buf : Bytes} (hobject : IsObject buf) (before rest : Bytes) :
    is_object (before ++ (buf ++ rest)) before.length = true := by
  have hread : ((before ++ (buf ++ rest)).drop before.length).take 64 = buf.take 64 := by
    rw [List.drop_left, List.take_append_of_le_length hobject.length]
  rw [is_object]
  simp only [hread]
  have hmagic : (buf.take 64).take 4 = ELFMAG := by
    rw [List.take_take]
    exact hobject.magic
  have htype : read_le (buf.take 64) 16 2 = ET_REL := by
    rw [← hobject.e_type, read_le, read_le, List.drop_take, List.take_take]
    rfl
  rw [hmagic, htype, List.length_take, Nat.min_eq_left hobject.length]
  rfl

theorem read_ar_header_end {file : Bytes} {offset : Nat} (hend : file.length ≤ offset) :
    read_ar_header file offset = .eof := by
  rw [read_ar_header, List.drop_eq_nil_of_le hend]
  rfl

/-- The objects are loaded in order where none but the last has an odd size. -/
theorem load_members {objects : List Object} (hobjects : ∀ o ∈ objects, IsObject o.buf)
    (hsize : ∀ o ∈ objects, o.buf.length < 10 ^ 9)
    (heven : ∀ o ∈ objects.dropLast, o.buf.length % 2 = 0) (before : Bytes)
    (hbound : before.length + (objects.flatMap member).length < 2 ^ 32) :
    tcc_load_archive (before ++ objects.flatMap member) (objects.length + 1) before.length =
      some ((member_offsets before.length objects).map (· + 60), true) := by
  induction objects generalizing before with
  | nil =>
    rw [List.flatMap_nil, List.append_nil, List.length_nil, tcc_load_archive,
      read_ar_header_end (Nat.le_refl _)]
    rfl
  | cons o os ih =>
    have hfile : before ++ (o :: os).flatMap member =
        before ++ (member_header o ++ (o.buf ++ os.flatMap member)) := by
      rw [List.flatMap_cons, member, List.append_assoc]
    have hmode : (chars "100666  ").length = 8 := rfl
    have hread := read_ar_header_eq (length_ar_name (base_name o.path)) hmode o.buf.length before
      (o.buf ++ os.flatMap member)
    have hobject : is_object (before ++ (member_header o ++ (o.buf ++ os.flatMap member)))
        (before.length + 60) = true := by
      have hbefore : before.length + 60 = (before ++ member_header o).length := by
        rw [List.length_append, length_member_header]
      rw [hbefore, ← List.append_assoc]
      exact is_object_eq (hobjects o List.mem_cons_self) _ _
    rw [List.flatMap_cons, List.length_append, length_member] at hbound
    rw [hfile, List.length_cons, tcc_load_archive, member_header, hread]
    dsimp only
    rw [← member_header, hobject, next_offset_eq (hsize o List.mem_cons_self) (by omega)]
    have hrest : tcc_load_archive (before ++ (member_header o ++ (o.buf ++ os.flatMap member)))
        (os.length + 1) (before.length + 60 + (o.buf.length + 1) / 2 * 2) =
          some ((member_offsets (before.length + (o.buf.length + 60)) os).map (· + 60), true) := by
      cases os with
      | nil =>
        rw [List.length_nil, tcc_load_archive, read_ar_header_end]
        · rfl
        · simp only [List.length_append, length_member_header, List.flatMap_nil, List.length_nil]
          omega
      | cons o' os =>
        have hodd := heven o (by rw [List.dropLast_cons_cons]; exact List.mem_cons_self)
        have hnext : before.length + 60 + (o.buf.length + 1) / 2 * 2 = (before ++ member o).length := by
          rw [List.length_append, length_member]
          omega
        have hmembers := ih (fun o ho => hobjects o (List.mem_cons_of_mem _ ho))
          (fun o ho => hsize o (List.mem_cons_of_mem _ ho))
          (fun o ho => heven o (by rw [List.dropLast_cons_cons]; exact List.mem_cons_of_mem _ ho))
          (before ++ member o) (by rw [List.length_append, length_member]; omega)
        rw [hnext]
        rw [List.length_append, length_member] at hmembers ⊢
        simpa only [member, List.append_assoc] using hmembers
    rw [hrest]
    rfl

/-- The index comes first. -/
theorem read_archive_start (objects : List Object) (rest : Bytes) :
    read_ar_header (archive_start objects ++ rest) 8 =
      .header ⟨chars "/", (ar_size (index_size objects)).take 9, ARFMAG⟩ := by
  rw [archive_start]
  simp only [List.append_assoc]
  have hname : (chars "/               ").length = 16 := rfl
  have hmode : (chars "0       ").length = 8 := rfl
  exact read_ar_header_eq hname hmode (index_size objects) ARMAG _

theorem drop_archive_start (objects : List Object) (rest : Bytes) :
    let entries := index_entries (68 + index_size objects + index_size objects % 2) objects
    (archive_start objects ++ rest).drop 68 =
      be32 entries.length ++ ((entries.map (·.2)).flatMap be32 ++
        ((entries.map (·.1)).flatMap (· ++ [0#8]) ++ (List.replicate (index_size objects % 2) 0#8 ++ rest))) := by
  have hlength : (ARMAG ++ ar_header (chars "/               ") (chars "0       ")
      (index_size objects)).length = 68 := by
    have hheader : (ar_header (chars "/               ") (chars "0       ") (index_size objects)).length = 60 :=
      length_ar_header rfl rfl _
    rw [List.length_append, hheader]
    rfl
  rw [archive_start, ← List.append_assoc, List.append_assoc]
  dsimp only
  rw [List.drop_left' hlength]
  simp only [List.append_assoc]

theorem length_entries_le (pos : Nat) (objects : List Object) :
    ((index_entries pos objects).length + 1) * 4 ≤ index_size objects := by
  rw [length_index_entries, index_size]
  exact Nat.le_add_left _ _

/-- The index is not taken for an object. -/
theorem is_object_archive_start {objects : List Object} (hsize : index_size objects < 10 ^ 9) (rest : Bytes) :
    is_object (archive_start objects ++ rest) 68 = false := by
  have hdrop := drop_archive_start objects rest
  have hcount := length_entries_le (68 + index_size objects + index_size objects % 2) objects
  have hmagic : (((archive_start objects ++ rest).drop 68).take 64).take 4 ≠ ELFMAG := by
    rw [hdrop, List.take_take, List.take_append_of_le_length (Nat.le_refl 4), be32, ELFMAG]
    intro heq
    have hhead := congrArg BitVec.toNat (List.cons.inj heq).1
    rw [BitVec.toNat_ofNat] at hhead
    simp only [BitVec.toNat_ofNat] at hhead
    omega
  rw [is_object]
  simp [hmagic]

/-- All positions have the parity of the first. -/
theorem parity_of_loaded {file : Bytes} {fuel offset : Nat} {loaded : List Nat} {ended : Bool}
    (hload : tcc_load_archive file fuel offset = some (loaded, ended)) :
    ∀ p ∈ loaded, p % 2 = offset % 2 := by
  induction fuel generalizing offset loaded ended with
  | zero => cases hload
  | succ fuel ih =>
    rw [tcc_load_archive] at hload
    cases hread : read_ar_header file offset with
    | eof =>
      rw [hread] at hload
      cases hload
      simp
    | error =>
      rw [hread] at hload
      cases hload
      simp
    | header hdr =>
      rw [hread] at hload
      obtain ⟨⟨loaded', ended'⟩, hrest, heq⟩ := Option.map_eq_some_iff.mp hload
      have hparity : next_offset offset hdr % 2 = offset % 2 := by
        rw [next_offset, member_size]
        omega
      have hparities := ih hrest
      rw [hparity] at hparities
      dsimp only at heq
      split at heq
      · cases heq
        intro p hp
        rcases List.mem_cons.mp hp with rfl | hp
        · omega
        · exact hparities p hp
      · cases heq
        exact hparities

theorem even_of_offsets {objects : List Object} {pos : Nat}
    (hoffsets : ∀ offset ∈ member_offsets pos objects, offset % 2 = 0) :
    ∀ o ∈ objects.dropLast, o.buf.length % 2 = 0 := by
  induction objects generalizing pos with
  | nil => simp
  | cons o os ih =>
    cases os with
    | nil => simp
    | cons o' os =>
      rw [List.dropLast_cons_cons]
      have hpos := hoffsets pos List.mem_cons_self
      have hnext := hoffsets (pos + (o.buf.length + 60)) (List.mem_cons_of_mem _ List.mem_cons_self)
      intro x hx
      rcases List.mem_cons.mp hx with rfl | hx
      · omega
      · exact ih (fun offset hoffset => hoffsets offset (List.mem_cons_of_mem _ hoffset)) x hx

/-- The index is found and read. -/
theorem archive_index_eq {objects : List Object} (hfits : Fits objects) (fuel : Nat) :
    archive_index (archive_start objects ++ objects.flatMap member) (fuel + 1) 8 =
      some (index_entries (archive_start objects).length objects) := by
  have hcount := length_entries_le (68 + index_size objects + index_size objects % 2) objects
  have hindex := hfits.index
  have htotal := hfits.total
  rw [archive_size] at htotal
  have hsize : (member_size ⟨chars "/", (ar_size (index_size objects)).take 9, ARFMAG⟩).toNat =
      index_size objects + index_size objects % 2 := by
    rw [member_size_eq hindex]
    omega
  have hdrop := drop_archive_start objects (objects.flatMap member)
  have hlength := length_archive_start objects
  rw [archive_index, read_archive_start]
  dsimp only
  rw [hsize, if_pos rfl]
  dsimp only at hdrop
  obtain ⟨entries, hentries⟩ : ∃ entries, entries =
      index_entries (68 + index_size objects + index_size objects % 2) objects := ⟨_, rfl⟩
  rw [← hentries] at hdrop hcount
  have hdata : ((archive_start objects ++ objects.flatMap member).drop 68).take
      (index_size objects + index_size objects % 2) =
        be32 entries.length ++ ((entries.map (·.2)).flatMap be32 ++ ((entries.map (·.1)).flatMap (· ++ [0#8]) ++
          List.replicate (index_size objects % 2) 0#8)) := by
    have hjoin : be32 entries.length ++ ((entries.map (·.2)).flatMap be32 ++
        ((entries.map (·.1)).flatMap (· ++ [0#8]) ++
          (List.replicate (index_size objects % 2) 0#8 ++ objects.flatMap member))) =
        (be32 entries.length ++ ((entries.map (·.2)).flatMap be32 ++
          ((entries.map (·.1)).flatMap (· ++ [0#8]) ++ List.replicate (index_size objects % 2) 0#8))) ++
            objects.flatMap member := by
      simp only [List.append_assoc]
    have hwhole := congrArg List.length hdrop
    rw [hjoin, List.length_drop, List.length_append, List.length_append, hlength] at hwhole
    rw [hdrop, hjoin, List.take_left' (by omega)]
  have hfull : (((archive_start objects ++ objects.flatMap member).drop 68).take
      (index_size objects + index_size objects % 2)).length =
        index_size objects + index_size objects % 2 := by
    rw [List.length_take, List.length_drop, List.length_append, hlength]
    omega
  rw [hfull, if_neg (not_not_intro rfl), hdata, tcc_load_alacarte_eq, hlength, hentries]
  · intro entry hentry
    rw [hentries, ← Prod.mk.eta (p := entry), mem_index_entries] at hentry
    obtain ⟨o, -, hname⟩ := hentry
    exact zero_notMem_own hname
  · intro entry hentry
    rw [hentries] at hentry
    have := index_entries_lt hentry
    omega
  · omega

theorem archive_index_magic (fuel : Nat) : archive_index ARMAG fuel 8 = none := by
  cases fuel with
  | zero => rfl
  | succ fuel =>
    rw [archive_index, read_ar_header_end (Nat.le_refl 8)]

/-- The whole archive is loaded. -/
theorem load_archive_eq {objects : List Object} (hobjects : ∀ o ∈ objects, IsObject o.buf)
    (hfits : Fits objects) (heven : ∀ o ∈ objects.dropLast, o.buf.length % 2 = 0) :
    tcc_load_archive (archive_start objects ++ objects.flatMap member) (objects.length + 1 + 1) 8 =
      some ((member_offsets (archive_start objects).length objects).map (· + 60), true) := by
  have hindex := hfits.index
  have htotal := hfits.total
  rw [archive_size] at htotal
  have hlength := length_archive_start objects
  have hnext : next_offset 8 ⟨chars "/", (ar_size (index_size objects)).take 9, ARFMAG⟩ =
      (archive_start objects).length := by
    rw [next_offset_eq hindex (by omega), hlength]
    omega
  rw [tcc_load_archive, read_archive_start]
  dsimp only
  rw [hnext, load_members hobjects hfits.buffers heven _ (by omega),
    is_object_archive_start hindex]
  rfl

/-- The archive that is written of objects with tables of the expected form gives them back
    exactly where they are archivable. -/
theorem archive_round_trip {objects : List Object} (hobjects : ∀ o ∈ objects, IsObject o.buf)
    (htables : ∀ o ∈ objects, Tables o.buf) (hfits : Fits objects) :
    (∃ index file, tcc_tool_ar objects = some file ∧ RoundTrips objects index file) ↔
      Archivable objects := by
  have hclass : ∀ o ∈ objects, o.buf.getD 4 0#8 = ELFCLASS64 := fun o ho => (hobjects o ho).elf_class
  constructor
  · rintro ⟨index, file, har, htrip⟩
    have hfresh : Fresh none objects := by
      rw [tcc_tool_ar] at har
      obtain ⟨s, hadd, -⟩ := Option.bind_eq_some_iff.mp har
      exact fresh_of_add_objects hclass htables (s := ⟨[], [], [], 0, none, none⟩) (by simp) hadd
    have heq := tcc_tool_ar_eq hclass htables hfresh
    rw [har] at heq
    refine ⟨hfresh, fun hne => ?_, ?_, fun o ho name hname => ?_⟩
    · by_contra hnone
      push Not at hnone
      rw [if_pos (List.flatMap_eq_nil_iff.mpr hnone), Option.some.injEq] at heq
      obtain ⟨o, os, rfl⟩ := List.exists_cons_of_ne_nil hne
      have hlength := congrArg List.length (heq.symm.trans htrip.stored)
      rw [List.length_append, List.flatMap_cons, List.length_append, length_member] at hlength
      have hmagic : ARMAG.length = 8 := rfl
      omega
    · obtain ⟨fuel, hload⟩ := htrip.loaded
      have heven : ∀ offset ∈ member_offsets index.length objects, offset % 2 = 0 := by
        intro offset hoffset
        have := parity_of_loaded hload (offset + 60) (List.mem_map_of_mem hoffset)
        omega
      exact even_of_offsets heven
    · obtain ⟨fuel, entries, hindex, ⟨offset, hentry⟩, -⟩ := htrip.indexed o ho name hname
      split at heq
      · cases heq
        rw [archive_index_magic] at hindex
        cases hindex
      · cases heq
        cases fuel with
        | zero => cases hindex
        | succ fuel =>
          rw [archive_index_eq hfits] at hindex
          cases hindex
          obtain ⟨o', hmem, hown⟩ := mem_index_entries.mp hentry
          exact ⟨o', (List.of_mem_zip hmem).1, hown⟩
  · intro harchivable
    have heq := tcc_tool_ar_eq hclass htables harchivable.fresh
    by_cases hempty : objects = []
    · subst hempty
      refine ⟨ARMAG, ARMAG, heq, rfl, ⟨1, ?_⟩, by simp⟩
      rw [tcc_load_archive, read_ar_header_end (Nat.le_refl 8)]
      rfl
    · obtain ⟨o, ho, hown⟩ := harchivable.nonempty hempty
      rw [if_neg fun hnone => hown (List.flatMap_eq_nil_iff.mp hnone o ho)] at heq
      refine ⟨archive_start objects, _, heq, rfl, ⟨_, load_archive_eq hobjects hfits harchivable.even⟩, ?_⟩
      intro o ho name hname
      refine ⟨1, _, archive_index_eq hfits 0, ?_, fun offset hentry => ?_⟩
      · obtain ⟨o', ho', hown'⟩ := harchivable.indexed o ho name hname
        obtain ⟨offset, hoffset⟩ := exists_offset ho' (archive_start objects).length
        exact ⟨offset, mem_index_entries.mpr ⟨o', hoffset, hown'⟩⟩
      · obtain ⟨o', hmem, hown'⟩ := mem_index_entries.mp hentry
        exact ⟨o', hmem, defined_of_own (htables o' (List.of_mem_zip hmem).1) hown'⟩

def zeros (n : Nat) : Bytes := List.replicate n 0#8

/-- An object with one symbol, which is in its first section: the header, the symbols, two string
    tables and the section headers. -/
def object_file (st_info : BitVec 8) : Object where
  path := chars "f.o"
  buf := ELFMAG ++ [2#8, 1#8, 1#8] ++ zeros 9 ++ [1#8, 0#8, 243#8, 0#8, 1#8] ++ zeros 19 ++
    [136#8] ++ zeros 11 ++ [64#8] ++ zeros 5 ++ [64#8, 0#8, 4#8, 0#8, 3#8, 0#8] ++
    zeros 24 ++ [1#8, 0#8, 0#8, 0#8, st_info, 0#8, 1#8, 0#8] ++ zeros 16 ++
    [0#8] ++ chars "f" ++ [0#8] ++
    [0#8] ++ chars ".strtab" ++ [0#8] ++ chars ".shstrtab" ++ zeros 3 ++
    zeros 64 ++
    zeros 4 ++ [2#8] ++ zeros 19 ++ [64#8] ++ zeros 7 ++ [48#8] ++ zeros 7 ++ [2#8] ++ zeros 23 ++
    [1#8, 0#8, 0#8, 0#8, 3#8] ++ zeros 19 ++ [112#8] ++ zeros 7 ++ [3#8] ++ zeros 31 ++
    [9#8, 0#8, 0#8, 0#8, 3#8] ++ zeros 19 ++ [115#8] ++ zeros 7 ++ [19#8] ++ zeros 31

set_option maxRecDepth 8000 in
theorem object_file_isObject {st_info : BitVec 8} (hinfo : st_info = 2#8 ∨ st_info = 18#8) :
    IsObject (object_file st_info).buf := by
  rcases hinfo with rfl | rfl <;> exact ⟨by decide, by decide, by decide, by decide⟩

set_option maxRecDepth 8000 in
/-- Two objects that define a function come back. -/
theorem archive_round_trip_two : ∃ index file,
    tcc_tool_ar [object_file 18, object_file 18] = some file ∧
      RoundTrips [object_file 18, object_file 18] index file := by
  have hobjects : ∀ o ∈ [object_file 18, object_file 18], IsObject o.buf := by
    intro o ho
    simp only [List.mem_cons, List.not_mem_nil, or_false, or_self] at ho
    subst ho
    exact object_file_isObject (Or.inr rfl)
  have htables : ∀ o ∈ [object_file 18, object_file 18], Tables o.buf := by
    intro o ho
    simp only [List.mem_cons, List.not_mem_nil, or_false, or_self] at ho
    subst ho
    exact ⟨by decide, by decide⟩
  exact (archive_round_trip hobjects htables ⟨by decide, by decide, by decide⟩).mpr
    ⟨by simp only [Fresh]; decide, by decide, by decide, by decide⟩

/-- An object that defines nothing for others is lost: the archive has no member. -/
theorem archive_of_local : ¬∀ objects : List Object, (∀ o ∈ objects, IsObject o.buf) →
    ∃ index file, tcc_tool_ar objects = some file ∧ RoundTrips objects index file := by
  intro hall
  have har : tcc_tool_ar [object_file 2] = some ARMAG := by
    decide
  obtain ⟨index, file, heq, htrip⟩ := hall [object_file 2] (by
    intro o ho
    rw [List.mem_singleton.mp ho]
    exact object_file_isObject (Or.inl rfl))
  rw [har, Option.some.injEq] at heq
  have hlength := congrArg List.length (heq.trans htrip.stored)
  rw [List.length_append, List.flatMap_cons, List.length_append, length_member] at hlength
  have hmagic : ARMAG.length = 8 := rfl
  omega

end tcc.archive
