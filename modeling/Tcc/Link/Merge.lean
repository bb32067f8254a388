import Tcc.Link.Units

/-! What the merge at the end of a unit keeps: the relocations and the names of the symbols. -/

open machine.buffer

namespace tcc.elf

/-- A relocation that was added: its section, its place there, what it was, the symbol that it
    referred to, and whether the symbol is of the same unit. -/
structure Added where
  section_ : Nat
  index : Nat
  rel : Rel
  symbol : Named
  own : Bool

def log_op (s : State) : Op → List Added
  | .put_elf_sym _ _ | .new_section => []
  | .put_elf_reloca sr rel =>
    match s.relocs[sr]?, s.table.syms[rel.r_sym]? with
    | some section_, some symbol =>
      [⟨sr, section_.used, rel, symbol, decide (s.table.symtab.sh_offset ≤ rel.r_sym)⟩]
    | _, _ => []

def add_ops : List Op → State × List Added → Option (State × List Added)
  | [], r => some r
  | op :: ops, (s, log) => do
    let s' ← apply s op
    add_ops ops (s', log ++ log_op s op)

/-- A unit, with the relocations that were added. -/
def compile_unit (ops : List Op) (r : State × List Added) : Option (State × List Added) :=
  (add_ops ops (tccelf_begin_file r.1, r.2)).map fun r => (tccelf_end_file r.1, r.2)

def compile_units : List (List Op) → State × List Added → Option (State × List Added)
  | [], r => some r
  | ops :: units, r => do
    let r ← compile_unit ops r
    compile_units units r

/-- The symbols that a unit adds. -/
def unit_syms (ops : List Op) : List Named :=
  ops.filterMap fun op =>
    match op with
    | .put_elf_sym sym name => some (name, sym)
    | _ => none

/-- A relocation refers to an entry of the name of its symbol: of a local one in the same section,
    with the same value, of another one to the only entry. -/
structure Refers (is_local : Prop) (s : State) (a : Added) (sr : Section Rel) (rel : Rel) (y : Named) :
    Prop where
  section_ : s.relocs[a.section_]? = some sr
  index : a.index < sr.used
  data : sr.data[a.index]? = some rel
  same : { rel with r_sym := a.rel.r_sym } = a.rel
  symbol : s.table.syms[rel.r_sym]? = some y
  name : y.1 = a.symbol.1
  of_local : is_local → y.2.bind = .STB_LOCAL ∧ y.2.st_shndx = a.symbol.2.st_shndx ∧
    y.2.st_value = a.symbol.2.st_value
  of_global : ¬is_local → y.2.bind ≠ .STB_LOCAL ∧ ∀ (k : Nat) (z : Named), s.table.syms[k]? = some z →
    z.2.bind ≠ .STB_LOCAL → z.1 = y.1 → k = rel.r_sym

/-- A symbol that is local when the unit has ended: one of the unit that is undefined is not. -/
def Added.stays_local (a : Added) : Prop :=
  a.symbol.2.bind = .STB_LOCAL ∧ ¬(a.own = true ∧ a.symbol.2.st_shndx = SHN_UNDEF)

/-- What is true when a unit has ended. -/
structure Merged (s : State) (ops : List Op) (s' : State) (log : List Added) : Prop where
  refers : ∀ a ∈ log, ∃ sr rel y, Refers a.stays_local s' a sr rel y
  earlier : ∀ (k : Nat) (sr : Section Rel), s.relocs[k]? = some sr →
    ∃ sr', s'.relocs[k]? = some sr' ∧ ∀ j < sr.used, sr'.data[j]? = sr.data[j]?
  names : ∀ (k : Nat) (x : Named), s.table.syms[k]? = some x →
    ∃ y, s'.table.syms[k]? = some y ∧ y.1 = x.1
  unit_names : ∀ x ∈ unit_syms ops, ∃ (k : Nat) (y : Named), s'.table.syms[k]? = some y ∧ y.1 = x.1
  new_names : ∀ (k : Nat) (y : Named), s.table.syms.length ≤ k → s'.table.syms[k]? = some y →
    ∃ x ∈ unit_syms ops, y.1 = x.1

/-- A state between two units. -/
structure Ready (s : State) : Prop where
  stored : Stored s.table
  hashed : Hashed s.table
  unique : Unique s.table.syms

/-- The state while a unit is compiled: `us` are the symbols that it added to `s₀`. -/
structure Compiling (s₀ : State) (us : List Named) (s : State) : Prop where
  stored : Stored s.table
  sym_offset : s.table.symtab.sh_offset = s₀.table.symtab.used
  str_offset : s.table.strtab.sh_offset = s₀.table.strtab.used
  hash : s.table.hash = none
  reloc : s.table.reloc = s₀.table.hash
  rules : s.table.rules = s₀.table.rules
  sym_data : ∀ k < s₀.table.symtab.used, s.table.symtab.data[k]? = s₀.table.symtab.data[k]?
  text : ∀ (st_name : Nat) (name : Name), Text s₀.table.strtab st_name name →
    Text s.table.strtab st_name name
  unread : Unread s.table s₀.table.symtab.used s₀.table.strtab.used us s.table.strtab.used
  syms : s.table.syms = s₀.table.syms ++ us

/-- What the sections of relocations have, while a unit is compiled, of those before. -/
def Older (s₀ s : State) : Prop :=
  ∀ (k : Nat) (sr₀ : Section Rel), s₀.relocs[k]? = some sr₀ → ∃ sr, s.relocs[k]? = some sr ∧
    sr.sh_offset = sr₀.used ∧ ∀ j < sr₀.used, sr.data[j]? = sr₀.data[j]?

/-- A relocation that the unit added. -/
structure Pending (s₀ s : State) (a : Added) (sr : Section Rel) : Prop where
  section_ : s.relocs[a.section_]? = some sr
  le_index : sr.sh_offset ≤ a.index
  index : a.index < sr.used
  data : sr.data[a.index]? = some a.rel
  symbol : s.table.syms[a.rel.r_sym]? = some a.symbol
  own : a.own = true ↔ s₀.table.symtab.used ≤ a.rel.r_sym

theorem compiling_begin {s : State} (hready : Ready s) : Compiling s [] (tccelf_begin_file s) := by
  refine ⟨⟨hready.stored.empty, hready.stored.text⟩, rfl, rfl, rfl, rfl, rfl, fun _ _ => rfl, fun _ _ h => h,
    Nat.le_refl _, ?_⟩
  rw [List.append_nil]
  rfl

theorem older_begin (s : State) : Older s (tccelf_begin_file s) := by
  intro k sr hsr
  refine ⟨sr.mark, ?_, rfl, fun _ _ => rfl⟩
  change (s.relocs.map Section.mark)[k]? = _
  rw [List.getElem?_map, hsr]
  rfl

/-- A symbol is added behind those of the unit. -/
theorem Compiling.put {s₀ s : State} {us : List Named} (hcompiling : Compiling s₀ us s) (sym : ElfSym)
    (name : Name) :
    Compiling s₀ (us ++ [(name, sym)]) { s with table := (put_elf_sym s.table sym name).1 } := by
  obtain ⟨hsyms, hstored, -, hkeeps⟩ := put_elf_sym_spec hcompiling.stored sym name
  have hused : s.table.symtab.used = s₀.table.symtab.used + us.length := by
    rw [← length_syms, hcompiling.syms, List.length_append, length_syms]
  obtain ⟨strtab, st_name, hstr⟩ : ∃ strtab st_name, (if name.1 ≠ [] then put_elf_str s.table.strtab name
      else (s.table.strtab, 0)) = (strtab, st_name) := ⟨_, _, rfl⟩
  have htable : (put_elf_sym s.table sym name).1 =
      { s.table with symtab := s.table.symtab.put [⟨st_name, sym⟩], strtab, hash := none } := by
    rw [put_elf_sym, hstr, hcompiling.hash]
    rfl
  have hold : ∀ (offset : Nat) (ys : List (BitVec 8)), offset + ys.length ≤ s.table.strtab.used →
      Holds s.table.strtab.data offset ys → Holds strtab.data offset ys := by
    intro offset ys hend h
    split at hstr
    · cases hstr
      exact h.add_of_before hend _
    · cases hstr
      exact h
  have hused_str : s.table.strtab.used ≤ strtab.used := by
    split at hstr
    · cases hstr
      exact Nat.le_add_right _ _
    · cases hstr
      exact Nat.le_refl _
  have hoffset : strtab.sh_offset = s.table.strtab.sh_offset := by
    split at hstr
    · cases hstr
      rfl
    · cases hstr
      rfl
  have hdata : ∀ k < s.table.symtab.used,
      (s.table.symtab.put [⟨st_name, sym⟩]).data[k]? = s.table.symtab.data[k]? :=
    fun k hk => s.table.symtab.getElem?_add_of_lt _ hk
  have hnew : (s.table.symtab.put [⟨st_name, sym⟩]).data[s.table.symtab.used]? = some ⟨st_name, sym⟩ :=
    s.table.symtab.getElem?_add_self [⟨st_name, sym⟩] (i := 0) (by simp)
  rw [htable] at hsyms hstored ⊢
  refine ⟨hstored, hcompiling.sym_offset, hoffset.trans hcompiling.str_offset, rfl, hcompiling.reloc,
    hcompiling.rules, fun k hk => ?_, fun st_name' name' htext => ?_, ?_, ?_⟩
  · exact (hdata k (by omega)).trans (hcompiling.sym_data k hk)
  · obtain ⟨hholds, hend⟩ := hcompiling.text st_name' name' htext
    refine ⟨hold _ _ ?_ hholds, Nat.le_trans hend hused_str⟩
    rw [List.length_append, List.length_singleton]
    exact hend
  · have hunread : Unread { s.table with
        symtab := s.table.symtab.put [⟨st_name, sym⟩], strtab, hash := none }
        s₀.table.symtab.used s₀.table.strtab.used us s.table.strtab.used :=
      hcompiling.unread.congr (fun i _ hi => hdata i (by omega)) fun offset ys _ hend h =>
        hold offset ys hend h
    refine hunread.append ⟨⟨st_name, sym⟩, ?_, rfl, ?_, ?_⟩
    · rw [← hused]
      exact hnew
    · split at hstr
      · rename_i hne
        cases hstr
        exact Or.inr ⟨hne, Nat.le_refl _, s.table.strtab.holds_add_self _⟩
      · rename_i hempty
        cases hstr
        exact Or.inl ⟨not_not.mp hempty, rfl⟩
    · change (if name.1 = [] then s.table.strtab.used else st_name + room name) ≤ strtab.used
      split at hstr
      · rename_i hne
        cases hstr
        rw [if_neg hne, room, if_pos hne]
        change _ ≤ s.table.strtab.used + (name.1 ++ [0#8]).length
        rw [List.length_append, List.length_singleton]
      · rename_i hempty
        cases hstr
        rw [if_pos (not_not.mp hempty)]
  · rw [hsyms, hcompiling.syms, List.append_assoc]

theorem renumber_eq_of_lt {first_sym : Nat} {rel : Rel} (hlt : rel.r_sym < first_sym) (tr : List Nat) :
    renumber first_sym tr rel = rel := if_pos hlt

theorem getElem?_renumber_of_lt (sr : Section Rel) (f : Rel → Rel) {j : Nat} (hj : j < sr.sh_offset) :
    (sr.renumber f).data[j]? = sr.data[j]? := by
  rw [Section.renumber, List.getElem?_mapIdx]
  cases hdata : sr.data[j]? with
  | none => rfl
  | some rel => rw [Option.map_some, if_neg (by omega)]

theorem getElem?_renumber {sr : Section Rel} {j : Nat} {rel : Rel} (hj : sr.sh_offset ≤ j)
    (hused : j < sr.used) (hrel : sr.data[j]? = some rel) (f : Rel → Rel) :
    (sr.renumber f).data[j]? = some (f rel) := by
  rw [Section.renumber, List.getElem?_mapIdx, hrel, Option.map_some, if_pos ⟨hj, hused⟩]

/-- The end of a unit: its symbols are entered into the table of before. -/
theorem tccelf_end_file_spec {s₀ s : State} {us : List Named} (hready : Ready s₀)
    (hcompiling : Compiling s₀ us s) :
    ∃ l tr, enter_all s₀.table.rules s₀.table.syms (us.map fun x => (x.1, globalize x.2)) = (l, tr) ∧
      (tccelf_end_file s).table.syms = l ∧ Ready (tccelf_end_file s) ∧
        (tccelf_end_file s).relocs = s.relocs.map (·.renumber (renumber s₀.table.symtab.used tr)) := by
  obtain ⟨t, ht⟩ : ∃ t : Table, t = { s.table with
      symtab := s.table.symtab.rewind
      strtab := s.table.strtab.rewind
      hash := s.table.reloc
      reloc := none } := ⟨_, rfl⟩
  have hsym_used : t.symtab.used = s₀.table.symtab.used := by
    rw [ht]
    exact hcompiling.sym_offset
  have hstr_used : t.strtab.used = s₀.table.strtab.used := by
    rw [ht]
    exact hcompiling.str_offset
  have hdata : t.symtab.data = s.table.symtab.data := by
    rw [ht]
    rfl
  have hstrings : t.strtab.data = s.table.strtab.data := by
    rw [ht]
    rfl
  have htext : ∀ {st_name : Nat} {name : Name}, Text s₀.table.strtab st_name name →
      Text t.strtab st_name name := by
    intro st_name name h
    refine ⟨?_, ?_⟩
    · rw [hstrings]
      exact (hcompiling.text st_name name h).1
    · rw [hstr_used]
      exact h.2
  have hsyms : t.syms = s₀.table.syms := by
    refine syms_congr hsym_used (fun k hk => ?_) fun k hk e he => ?_
    · rw [hdata]
      exact hcompiling.sym_data k hk
    · obtain ⟨name, hname⟩ := hready.stored.text k e hk he
      rw [hname.name_at, (htext hname).name_at]
  have hstored : Stored t := by
    refine ⟨htext hready.stored.empty, fun k e hk he => ?_⟩
    rw [hsym_used] at hk
    rw [hdata, hcompiling.sym_data k hk] at he
    obtain ⟨name, hname⟩ := hready.stored.text k e hk he
    exact ⟨name, htext hname⟩
  have hhashed : Hashed t := by
    obtain ⟨hs, hhash, hmem⟩ := hready.hashed
    refine ⟨hs, ?_, ?_⟩
    · rw [ht]
      exact hcompiling.reloc.trans hhash
    · rw [hsyms]
      exact hmem
  have hrules : t.rules = s₀.table.rules := by
    rw [ht]
    exact hcompiling.rules
  have hunread : Unread t s₀.table.symtab.used s₀.table.strtab.used us s.table.strtab.used :=
    hcompiling.unread.congr (fun i _ _ => by rw [hdata]) fun offset ys _ _ h => by rwa [hstrings]
  have hlength : us.length = s.table.symtab.used - s₀.table.symtab.used := by
    rw [← length_syms, ← length_syms, hcompiling.syms, List.length_append, Nat.add_sub_cancel_left]
  have hmerge := merge_syms_spec (i := 0) ⟨hstored, hhashed, hsyms ▸ hready.unique, Nat.le_of_eq hsym_used,
    Nat.le_of_eq hstr_used, hunread⟩
  rw [hlength, hsyms, hrules] at hmerge
  obtain ⟨hmerged, htr, hstored', hhashed'⟩ := hmerge
  have hall := enter_all_spec s₀.table.rules hready.unique (us.map fun x => (x.1, globalize x.2))
  have hend : tccelf_end_file s =
      { table := (merge_syms s₀.table.symtab.used (s.table.symtab.used - s₀.table.symtab.used) 0 t).1
        relocs := s.relocs.map (·.renumber (renumber s₀.table.symtab.used
          (merge_syms s₀.table.symtab.used (s.table.symtab.used - s₀.table.symtab.used) 0 t).2)) } := by
    rw [tccelf_end_file, hcompiling.sym_offset, ht]
  rw [hend, htr]
  refine ⟨_, _, rfl, hmerged, ⟨hstored', hhashed', ?_⟩, rfl⟩
  dsimp only
  rw [hmerged]
  exact hall.unique

/-- Sections of relocations that only grow keep what refers to them. -/
structure Grows (s s' : State) : Prop where
  syms : ∀ (k : Nat) (x : Named), s.table.syms[k]? = some x → s'.table.syms[k]? = some x
  relocs : ∀ (k : Nat) (sr : Section Rel), s.relocs[k]? = some sr → ∃ sr', s'.relocs[k]? = some sr' ∧
    sr'.sh_offset = sr.sh_offset ∧ sr.used ≤ sr'.used ∧ ∀ j < sr.used, sr'.data[j]? = sr.data[j]?

theorem Pending.grow {s₀ s s' : State} {a : Added} {sr : Section Rel} (hpending : Pending s₀ s a sr)
    (hgrows : Grows s s') : ∃ sr', Pending s₀ s' a sr' := by
  obtain ⟨sr', hsr', hoffset, hused, hdata⟩ := hgrows.relocs _ _ hpending.section_
  refine ⟨sr', hsr', by rw [hoffset]; exact hpending.le_index, Nat.lt_of_lt_of_le hpending.index hused, ?_,
    hgrows.syms _ _ hpending.symbol, hpending.own⟩
  rw [hdata _ hpending.index]
  exact hpending.data

/-- Up to the marks the sections are those of before. -/
theorem Older.grow {s₀ s s' : State} (holder : Older s₀ s) (hgrows : Grows s s') : Older s₀ s' := by
  intro k sr₀ hsr₀
  obtain ⟨sr, hsr, hoffset, hdata⟩ := holder k sr₀ hsr₀
  obtain ⟨sr', hsr', hoffset', hused, hdata'⟩ := hgrows.relocs k sr hsr
  refine ⟨sr', hsr', hoffset'.trans hoffset, fun j hj => ?_⟩
  have hle := sr.sh_offset_le
  rw [hdata' j (by omega)]
  exact hdata j hj

theorem grows_apply {s s' : State} {op : Op} (hstored : Stored s.table) (happly : apply s op = some s') :
    Grows s s' := by
  cases op with
  | put_elf_sym sym name =>
    cases happly
    obtain ⟨hsyms, -⟩ := put_elf_sym_spec hstored sym name
    refine ⟨fun k x hx => ?_, fun k sr hsr => ⟨sr, hsr, rfl, Nat.le_refl _, fun _ _ => rfl⟩⟩
    dsimp only
    rw [hsyms, List.getElem?_append_left (List.getElem?_eq_some_iff.mp hx).1]
    exact hx
  | new_section =>
    cases happly
    refine ⟨fun _ _ h => h, fun k sr hsr => ⟨sr, ?_, rfl, Nat.le_refl _, fun _ _ => rfl⟩⟩
    dsimp only
    rw [List.getElem?_append_left (List.getElem?_eq_some_iff.mp hsr).1]
    exact hsr
  | put_elf_reloca n rel =>
    rw [apply] at happly
    split at happly
    · cases happly
      refine ⟨fun _ _ h => h, fun k sr hsr => ?_⟩
      by_cases hk : n = k
      · subst hk
        refine ⟨sr.put [rel], ?_, rfl, Nat.le_add_right _ _, fun j hj => sr.getElem?_add_of_lt _ hj⟩
        dsimp only
        rw [List.getElem?_modify_eq, hsr]
        rfl
      · refine ⟨sr, ?_, rfl, Nat.le_refl _, fun _ _ => rfl⟩
        dsimp only
        rw [List.getElem?_modify_ne _ _ hk]
        exact hsr
    · cases happly

/-- A relocation that is added is found where it was put. -/
theorem pending_of_log {s₀ s s' : State} {us : List Named} (hcompiling : Compiling s₀ us s) {op : Op}
    (happly : apply s op = some s') : ∀ a ∈ log_op s op, ∃ sr, Pending s₀ s' a sr := by
  cases op with
  | put_elf_sym sym name => simp [log_op]
  | new_section => simp [log_op]
  | put_elf_reloca n rel =>
    intro a ha
    rw [apply] at happly
    split at happly
    · cases happly
      rw [log_op] at ha
      split at ha
      · rename_i sr symbol hsr hsymbol
        rw [List.mem_singleton] at ha
        subst ha
        refine ⟨sr.put [rel], ?_, sr.sh_offset_le, Nat.lt_succ_self _, ?_, hsymbol, ?_⟩
        · dsimp only
          rw [List.getElem?_modify_eq, hsr]
          rfl
        · exact sr.getElem?_add_self [rel] (i := 0) (by simp)
        · dsimp only
          rw [decide_eq_true_iff, hcompiling.sym_offset]
      · cases ha
    · cases happly

theorem compiling_apply {s₀ s s' : State} {us : List Named} (hcompiling : Compiling s₀ us s) {op : Op}
    (happly : apply s op = some s') : Compiling s₀ (us ++ unit_syms [op]) s' := by
  cases op with
  | put_elf_sym sym name =>
    cases happly
    exact hcompiling.put sym name
  | new_section =>
    cases happly
    have hnone : us ++ unit_syms [.new_section] = us := List.append_nil us
    rw [hnone]
    exact ⟨hcompiling.stored, hcompiling.sym_offset, hcompiling.str_offset, hcompiling.hash,
      hcompiling.reloc, hcompiling.rules, hcompiling.sym_data, hcompiling.text, hcompiling.unread,
      hcompiling.syms⟩
  | put_elf_reloca n rel =>
    rw [apply] at happly
    split at happly
    · cases happly
      have hnone : us ++ unit_syms [.put_elf_reloca n rel] = us := List.append_nil us
      rw [hnone]
      exact ⟨hcompiling.stored, hcompiling.sym_offset, hcompiling.str_offset, hcompiling.hash,
        hcompiling.reloc, hcompiling.rules, hcompiling.sym_data, hcompiling.text, hcompiling.unread,
        hcompiling.syms⟩
    · cases happly

/-- What is added to a unit, with the relocations that were added. -/
theorem add_ops_spec {s₀ s s' : State} {us : List Named} {ops : List Op} {log₀ log log' : List Added}
    (hcompiling : Compiling s₀ us s) (holder : Older s₀ s)
    (hlog : ∀ a ∈ log, a ∈ log₀ ∨ ∃ sr, Pending s₀ s a sr)
    (hadd : add_ops ops (s, log) = some (s', log')) :
    Compiling s₀ (us ++ unit_syms ops) s' ∧ Older s₀ s' ∧
      ∀ a ∈ log', a ∈ log₀ ∨ ∃ sr, Pending s₀ s' a sr := by
  induction ops generalizing us s log with
  | nil =>
    cases hadd
    rw [unit_syms, List.filterMap_nil, List.append_nil]
    exact ⟨hcompiling, holder, hlog⟩
  | cons op ops ih =>
    obtain ⟨s₁, happly, hrest⟩ := Option.bind_eq_some_iff.mp hadd
    have hgrows := grows_apply hcompiling.stored happly
    have hstep := ih (compiling_apply hcompiling happly) (holder.grow hgrows) (fun a ha => by
      rcases List.mem_append.mp ha with ha | ha
      · exact (hlog a ha).imp id fun ⟨_, h⟩ => h.grow hgrows
      · exact Or.inr (pending_of_log hcompiling happly a ha)) hrest
    have hsyms : us ++ unit_syms (op :: ops) = us ++ unit_syms [op] ++ unit_syms ops := by
      rw [List.append_assoc, unit_syms, unit_syms, unit_syms, ← List.filterMap_append]
      rfl
    rw [hsyms]
    exact hstep

theorem globalize_local {sym : ElfSym} (hdefined : sym.st_shndx ≠ SHN_UNDEF) : globalize sym = sym :=
  if_neg fun h => hdefined h.1

/-- A relocation of before refers to what it referred to. -/
theorem refers_older {s₀ s s' : State} {a : Added} {sr : Section Rel} {rel : Rel} {y : Named}
    (hrefers : Refers a.stays_local s₀ a sr rel y) (holder : Older s₀ s) (hready : Ready s')
    (hextends : Extends s₀.table.syms s'.table.syms) {f : Rel → Rel}
    (hrelocs : s'.relocs = s.relocs.map (·.renumber f)) :
    ∃ sr' y', Refers a.stays_local s' a sr' rel y' := by
  obtain ⟨sr', hsr', hoffset, hdata⟩ := holder _ _ hrefers.section_
  obtain ⟨y', hy', hbecomes⟩ := hextends _ _ hrefers.symbol
  have hle := sr'.sh_offset_le
  have hindex := hrefers.index
  refine ⟨sr'.renumber f, y', ?_, ?_, ?_, hrefers.same, hy', hbecomes.name.trans hrefers.name, fun hlocal => ?_,
    fun hlocal => ?_⟩
  · rw [hrelocs, List.getElem?_map, hsr']
    rfl
  · exact Nat.lt_of_lt_of_le hindex (hoffset ▸ hle)
  · rw [getElem?_renumber_of_lt _ _ (by omega), hdata _ hindex]
    exact hrefers.data
  · have hold := hrefers.of_local hlocal
    rw [hbecomes.eq_of_local hold.1]
    exact hold
  · have hnot := hbecomes.not_local (hrefers.of_global hlocal).1
    exact ⟨hnot, fun k z hz hzlocal hname => hready.unique k rel.r_sym z y' hz hy' hzlocal hnot hname⟩

/-- A relocation of the unit refers to the entry that its symbol got. -/
theorem refers_pending {s₀ s s' : State} {us : List Named} {a : Added} {sr : Section Rel}
    (hcompiling : Compiling s₀ us s) (hpending : Pending s₀ s a sr) (hready : Ready s') {tr : List Nat}
    (hentered : EnteredAll s₀.table.syms (us.map fun x => (x.1, globalize x.2)) tr s'.table.syms)
    (hrelocs : s'.relocs = s.relocs.map (·.renumber (renumber s₀.table.symtab.used tr))) :
    ∃ sr' rel y, Refers a.stays_local s' a sr' rel y := by
  have hsymbol := hpending.symbol
  rw [hcompiling.syms] at hsymbol
  have hsection : s'.relocs[a.section_]? = some (sr.renumber (renumber s₀.table.symtab.used tr)) := by
    rw [hrelocs, List.getElem?_map, hpending.section_]
    rfl
  have hdata := getElem?_renumber hpending.le_index hpending.index hpending.data
    (renumber s₀.table.symtab.used tr)
  by_cases hown : s₀.table.symtab.used ≤ a.rel.r_sym
  · rw [List.getElem?_append_right (by rw [length_syms]; exact hown), length_syms] at hsymbol
    have hentry : (us.map fun x => (x.1, globalize x.2))[a.rel.r_sym - s₀.table.symtab.used]? =
        some (a.symbol.1, globalize a.symbol.2) := by
      rw [List.getElem?_map, hsymbol]
      rfl
    obtain ⟨k, y, hk, hy, hbecomes⟩ := hentered.entry _ _ hentry
    have hrel : renumber s₀.table.symtab.used tr a.rel = { a.rel with r_sym := k } := by
      rw [renumber, if_neg (by omega), List.getD_eq_getElem?_getD, hk]
      rfl
    rw [hrel] at hdata
    refine ⟨_, _, y, hsection, hpending.index, hdata, rfl, hy, hbecomes.name, fun hlocal => ?_, fun hlocal => ?_⟩
    · have hdefined : a.symbol.2.st_shndx ≠ SHN_UNDEF := fun h => hlocal.2 ⟨hpending.own.mpr hown, h⟩
      have heq := hbecomes.eq_of_local (by rw [globalize_local hdefined]; exact hlocal.1)
      rw [globalize_local hdefined] at heq
      rw [heq]
      exact ⟨hlocal.1, rfl, rfl⟩
    · have hglobal : (globalize a.symbol.2).bind ≠ .STB_LOCAL := by
        rw [globalize]
        split
        · exact Bind.noConfusion
        · rename_i hbind
          intro h
          exact hlocal ⟨h, fun h' => hbind ⟨h'.2, h⟩⟩
      have hnot := hbecomes.not_local hglobal
      exact ⟨hnot, fun i z hz hzlocal hname => hready.unique i k z y hz hy hzlocal hnot hname⟩
  · rw [List.getElem?_append_left (by rw [length_syms]; omega)] at hsymbol
    rw [renumber_eq_of_lt (by omega)] at hdata
    obtain ⟨y, hy, hbecomes⟩ := hentered.extends_ _ _ hsymbol
    have hnot_own : ¬a.own = true := fun h => hown (hpending.own.mp h)
    refine ⟨_, _, y, hsection, hpending.index, hdata, rfl, hy, hbecomes.name, fun hlocal => ?_, fun hlocal => ?_⟩
    · rw [hbecomes.eq_of_local hlocal.1]
      exact ⟨hlocal.1, rfl, rfl⟩
    · have hglobal : a.symbol.2.bind ≠ .STB_LOCAL := fun h => hlocal ⟨h, fun h' => hnot_own h'.1⟩
      have hnot := hbecomes.not_local hglobal
      exact ⟨hnot, fun i z hz hzlocal hname => hready.unique i a.rel.r_sym z y hz hy hzlocal hnot hname⟩

/-- One unit: what is true of the relocations before is true of all after it. -/
theorem compile_unit_spec {s s' : State} {ops : List Op} {log log' : List Added} (hready : Ready s)
    (hlog : ∀ a ∈ log, ∃ sr rel y, Refers a.stays_local s a sr rel y)
    (hunit : compile_unit ops (s, log) = some (s', log')) : Ready s' ∧ Merged s ops s' log' := by
  obtain ⟨⟨s₁, log₁⟩, hadd, heq⟩ := Option.map_eq_some_iff.mp hunit
  cases heq
  have hbegin : ∀ a ∈ log, a ∈ log ∨ ∃ sr, Pending s (tccelf_begin_file s) a sr := fun a ha => Or.inl ha
  obtain ⟨hcompiling, holder, hlog₁⟩ := add_ops_spec (compiling_begin hready) (older_begin s) hbegin hadd
  rw [List.nil_append] at hcompiling
  obtain ⟨l, tr, hall, hsyms, hready', hrelocs⟩ := tccelf_end_file_spec hready hcompiling
  have hentered := enter_all_spec s.table.rules hready.unique
    ((unit_syms ops).map fun x => (x.1, globalize x.2))
  rw [hall] at hentered
  dsimp only at hentered
  rw [← hsyms] at hentered
  refine ⟨hready', fun a ha => ?_, fun k sr hsr => ?_, fun k x hx => ?_, fun x hx => ?_, fun k y hk hy => ?_⟩
  · rcases hlog₁ a ha with ha | ⟨sr, hpending⟩
    · obtain ⟨sr, rel, y, hrefers⟩ := hlog a ha
      obtain ⟨sr', y', h⟩ := refers_older hrefers holder hready' hentered.extends_ hrelocs
      exact ⟨sr', rel, y', h⟩
    · exact refers_pending hcompiling hpending hready' hentered hrelocs
  · obtain ⟨sr', hsr', hoffset, hdata⟩ := holder k sr hsr
    refine ⟨sr'.renumber (renumber s.table.symtab.used tr), ?_, fun j hj => ?_⟩
    · rw [hrelocs, List.getElem?_map, hsr']
      rfl
    · rw [getElem?_renumber_of_lt _ _ (by omega)]
      exact hdata j hj
  · obtain ⟨y, hy, hbecomes⟩ := hentered.extends_ k x hx
    exact ⟨y, hy, hbecomes.name⟩
  · obtain ⟨i, hi, hx⟩ := List.getElem_of_mem hx
    have hget : ((unit_syms ops).map fun x => (x.1, globalize x.2))[i]? = some (x.1, globalize x.2) := by
      rw [List.getElem?_map, List.getElem?_eq_getElem hi, hx]
      rfl
    obtain ⟨k, y, -, hy, hbecomes⟩ := hentered.entry i _ hget
    exact ⟨k, y, hy, hbecomes.name⟩
  · obtain ⟨x, hx, hname⟩ := hentered.new k y hk hy
    obtain ⟨x', hx', rfl⟩ := List.mem_map.mp hx
    exact ⟨x', hx', hname⟩

theorem ready_new (bss : Nat) : Ready (tccelf_new bss) := by
  have hempty : Text (tccelf_new bss).table.strtab 0 ⟨[], List.not_mem_nil⟩ :=
    ⟨Section.empty.holds_add_self [0#8], Nat.le_refl _⟩
  have hsyms : ∀ (k : Nat) (x : Named), (tccelf_new bss).table.syms[k]? = some x →
      k = 0 ∧ x.2.bind = .STB_LOCAL := by
    intro k x hx
    obtain ⟨hk, e, he, rfl⟩ := syms_eq_some.mp hx
    cases Nat.lt_one_iff.mp hk
    cases he
    exact ⟨rfl, rfl⟩
  refine ⟨⟨hempty, fun k e hk he => ?_⟩, ⟨[], rfl, fun k => ?_⟩, fun i j x y hx _ hlocal => ?_⟩
  · cases Nat.lt_one_iff.mp hk
    cases he
    exact ⟨_, hempty⟩
  · constructor
    · intro h
      cases h
    · rintro ⟨x, hx, hlocal⟩
      exact absurd (hsyms k x hx).2 hlocal
  · exact absurd (hsyms i x hx).2 hlocal

theorem compile_units_spec {units : List (List Op)} {s s' : State} {log log' : List Added} (hready : Ready s)
    (hlog : ∀ a ∈ log, ∃ sr rel y, Refers a.stays_local s a sr rel y)
    (hunits : compile_units units (s, log) = some (s', log')) :
    Ready s' ∧ ∀ a ∈ log', ∃ sr rel y, Refers a.stays_local s' a sr rel y := by
  induction units generalizing s log with
  | nil =>
    cases hunits
    exact ⟨hready, hlog⟩
  | cons ops units ih =>
    obtain ⟨⟨s₁, log₁⟩, hunit, hrest⟩ := Option.bind_eq_some_iff.mp hunits
    obtain ⟨hready₁, hmerged⟩ := compile_unit_spec hready hlog hunit
    exact ih hready₁ hmerged.refers hrest

/-- After each unit of a sequence the relocations that were added refer to the entries of their
    symbols; those of the units before have not changed, and no symbol has lost its name. -/
theorem units_merged {bss : Nat} {units : List (List Op)} {ops : List Op} {s s' : State}
    {log log' : List Added} (hunits : compile_units units (tccelf_new bss, []) = some (s, log))
    (hunit : compile_unit ops (s, log) = some (s', log')) : Merged s ops s' log' := by
  obtain ⟨hready, hlog⟩ := compile_units_spec (ready_new bss) (by simp) hunits
  exact (compile_unit_spec hready hlog hunit).2

def name_f : Name := ⟨[102#8], nul_notMem_f⟩

/-- A symbol in the first section. -/
def defined_sym (bind : Bind) : ElfSym := ⟨8, 4, bind, 2, 0, 1⟩

def undefined_sym (bind : Bind) : ElfSym := ⟨0, 0, bind, 0, 0, SHN_UNDEF⟩

/-- A unit uses a function of the one before. -/
theorem units_merged_two : ∃ s log s' log',
    compile_units [[.put_elf_sym (defined_sym .STB_GLOBAL) name_f]] (tccelf_new 3, []) = some (s, log) ∧
      compile_unit [.put_elf_sym (undefined_sym .STB_GLOBAL) name_f, .new_section,
        .put_elf_reloca 0 ⟨0, 19, 2, 0⟩] (s, log) = some (s', log') ∧
      Merged s [.put_elf_sym (undefined_sym .STB_GLOBAL) name_f, .new_section,
        .put_elf_reloca 0 ⟨0, 19, 2, 0⟩] s' log' := by
  have hunits : ∃ s log, compile_units [[.put_elf_sym (defined_sym .STB_GLOBAL) name_f]]
      (tccelf_new 3, []) = some (s, log) := ⟨_, _, rfl⟩
  obtain ⟨s, log, hunits⟩ := hunits
  have hunit : ∃ s' log', compile_unit [.put_elf_sym (undefined_sym .STB_GLOBAL) name_f, .new_section,
      .put_elf_reloca 0 ⟨0, 19, 2, 0⟩] (s, log) = some (s', log') := by
    cases hunits
    exact ⟨_, _, rfl⟩
  obtain ⟨s', log', hunit⟩ := hunit
  exact ⟨s, log, s', log', hunits, hunit, units_merged hunits hunit⟩

/-- A local symbol that is undefined is merged with a global one of another unit. -/
theorem local_undefined_merged : ¬∀ (bss : Nat) (units : List (List Op)) (ops : List Op) (s s' : State)
    (log log' : List Added), compile_units units (tccelf_new bss, []) = some (s, log) →
      compile_unit ops (s, log) = some (s', log') →
        ∀ a ∈ log', ∃ sr rel y, Refers (a.symbol.2.bind = .STB_LOCAL) s' a sr rel y := by
  intro hall
  have hrefers := hall 3 [[.put_elf_sym (defined_sym .STB_GLOBAL) name_f]]
    [.put_elf_sym (undefined_sym .STB_LOCAL) name_f, .new_section, .put_elf_reloca 0 ⟨0, 19, 2, 0⟩]
    _ _ _ _ rfl rfl _ List.mem_cons_self
  obtain ⟨sr, rel, y, hrefers⟩ := hrefers
  obtain ⟨hbind, -⟩ := hrefers.of_local rfl
  have hsr := hrefers.section_
  have hdata := hrefers.data
  have hsymbol := hrefers.symbol
  cases hsr
  cases hdata
  cases hsymbol
  cases hbind

end tcc.elf
