import Tcc.Link.Passes

/-! The names that a table has a definition of, and what an object that is loaded adds to them. -/

namespace tcc.elf

/-- The test of a definition that is found by name. -/
def defines (name : Name) (x : Named) : Bool := x.2.bind ≠ .STB_LOCAL ∧ x.1 = name ∧ x.2.st_shndx ≠ SHN_UNDEF

def Defined (l : List Named) (name : Name) : Prop := ∃ x ∈ l, defines name x = true

/-- A name that is searched for and has no definition. -/
def Undefined (l : List Named) (name : Name) : Prop :=
  ∃ k x, find l name = some k ∧ l[k]? = some x ∧ x.2.st_shndx = SHN_UNDEF

theorem defines_iff {name : Name} {x : Named} :
    defines name x = true ↔ x.2.bind ≠ .STB_LOCAL ∧ x.1 = name ∧ x.2.st_shndx ≠ SHN_UNDEF :=
  decide_eq_true_iff

theorem Undefined.not_defined {l : List Named} {name : Name} (hundef : Undefined l name)
    (hunique : Unique l) :
    ¬ Defined l name := by
  rintro ⟨y, hy, hdef⟩
  obtain ⟨k, x, hfind, hx, hshndx⟩ := hundef
  obtain ⟨hlocal, hname, hne⟩ := defines_iff.mp hdef
  obtain ⟨x', hx', hlocal', hname'⟩ := find_eq_some hfind
  obtain ⟨i, hi⟩ := List.mem_iff_getElem?.mp hy
  obtain rfl := hunique i k y x' hi hx' hlocal hlocal' (hname.trans hname'.symm)
  rw [hi, Option.some.injEq] at hx
  exact hne (hx ▸ hshndx)

/-- A definition stays one. -/
theorem merged_defined (s : SymTab) {esym sym : ElfSym}
    (h : esym.st_shndx ≠ SHN_UNDEF ∨ sym.st_shndx ≠ SHN_UNDEF) :
    (merged s esym sym).st_shndx ≠ SHN_UNDEF := by
  rw [merged]
  split
  · rename_i heq
    rw [heq] at h ⊢
    exact h.elim id id
  · split
    · rename_i hesym
      dsimp only
      split
      · rename_i hpatch
        intro hundef
        have hsym : sym.st_shndx = SHN_UNDEF := hundef
        rw [SymTab.resolve, if_pos hsym] at hpatch
        cases hpatch
      · exact hesym
      · exact hesym
    · rename_i hesym
      exact h.resolve_left hesym

theorem enter_defined (s : SymTab) {l : List Named} {x : Named} {name : Name}
    (h : Defined l name ∨ defines name x = true) : Defined (enter s l x).1 name := by
  have hlast : Defined (l ++ [x]) name := by
    rcases h with ⟨y, hy, hdef⟩ | hdef
    · exact ⟨y, List.mem_append_left _ hy, hdef⟩
    · exact ⟨x, List.mem_append_right _ List.mem_cons_self, hdef⟩
  rw [enter]
  split
  · exact hlast
  · rename_i hlocal
    split
    · exact hlast
    · rename_i k hfind
      obtain ⟨z, hz, hzlocal, hzname⟩ := find_eq_some hfind
      have hk : (l.modify k fun y => (y.1, merged s y.2 x.2))[k]? = some (z.1, merged s z.2 x.2) := by
        rw [List.getElem?_modify_eq, hz]
        rfl
      have hmerged := merged_not_local s hzlocal hlocal
      rcases h with ⟨y, hy, hdef⟩ | hdef
      · obtain ⟨i, hi⟩ := List.mem_iff_getElem?.mp hy
        by_cases hik : k = i
        · subst hik
          rw [hz, Option.some.injEq] at hi
          subst hi
          obtain ⟨-, hname, hshndx⟩ := defines_iff.mp hdef
          exact ⟨_, List.mem_of_getElem? hk, defines_iff.mpr ⟨hmerged, hname, merged_defined s (.inl hshndx)⟩⟩
        · refine ⟨y, List.mem_iff_getElem?.mpr ⟨i, ?_⟩, hdef⟩
          rw [List.getElem?_modify_ne _ _ hik]
          exact hi
      · obtain ⟨-, hname, hshndx⟩ := defines_iff.mp hdef
        exact ⟨_, List.mem_of_getElem? hk,
          defines_iff.mpr ⟨hmerged, hzname.trans hname, merged_defined s (.inr hshndx)⟩⟩

end tcc.elf

namespace tcc.obj

open tcc.elf

/-- The object has a symbol of the name that the linker takes from it: defined, not local, and in a
    section that is loaded. A link-once section is loaded if there is none of its name yet. -/
def Supplies (s : State) (obj : Object) (name : Name) : Prop :=
  ∃ s₁ infos, load_sections obj 1 obj.shdrs.tail s = some (s₁, infos) ∧
    ∃ x ∈ obj.syms.tail, defines name x = true ∧ in_link_once (Info.none :: infos) x.2 = false ∧
      (moved_symbol (Info.none :: infos) x.2).isSome = true

def State.names (s : State) : List Name := s.sections.map Section.name

section passes

variable {s s' : State} {infos : List Info}

theorem names_modify (sections : List Section) (k : Nat) {f : Section → Section}
    (hf : ∀ sec, (f sec).name = sec.name) :
    (sections.modify k f).map Section.name = sections.map Section.name := by
  refine List.ext_getElem? fun i => ?_
  rw [List.getElem?_map, List.getElem?_map, List.getElem?_modify]
  cases sections[i]? with
  | none => rfl
  | some sec =>
    dsimp only [Option.map_some, Option.map_eq_map]
    split
    · rw [hf]
    · rfl

theorem names_set {sections : List Section} {k : Nat} {sec sec' : Section} (hget : sections[k]? = some sec)
    (hname : sec'.name = sec.name) : (sections.set k sec').map Section.name = sections.map Section.name := by
  refine List.ext_getElem? fun i => ?_
  rw [List.getElem?_map, List.getElem?_map, List.getElem?_set]
  split
  · rename_i hi
    subst hi
    rw [if_pos (List.getElem?_eq_some_iff.mp hget).1, hget]
    exact congrArg some hname
  · rfl

theorem load_section_frame {obj : Object} {i : Nat} {sh : Shdr} {info : Info}
    (hload : load_section obj i sh s = some (s', info)) : s'.syms = s.syms ∧ s'.rules = s.rules := by
  rw [load_section] at hload
  split at hload
  · cases hload
    exact ⟨rfl, rfl⟩
  · split at hload
    · cases hload
      exact ⟨rfl, rfl⟩
    · split at hload
      · split at hload
        · cases hload
          exact ⟨rfl, rfl⟩
        · split at hload
          · split at hload
            · cases hload
            · cases hload
              exact ⟨rfl, rfl⟩
          · cases hload
      · cases hload
        exact ⟨rfl, rfl⟩

theorem load_sections_frame {obj : Object} {i : Nat} {shdrs : List Shdr}
    (hload : load_sections obj i shdrs s = some (s', infos)) : s'.syms = s.syms ∧ s'.rules = s.rules := by
  induction shdrs generalizing i s infos with
  | nil =>
    cases hload
    exact ⟨rfl, rfl⟩
  | cons sh shdrs ih =>
    obtain ⟨⟨s₁, info⟩, h₁, hload⟩ := Option.bind_eq_some_iff.mp hload
    obtain ⟨⟨s₂, infos₂⟩, h₂, hload⟩ := Option.bind_eq_some_iff.mp hload
    cases hload
    obtain ⟨hsyms₁, hrules₁⟩ := load_section_frame h₁
    obtain ⟨hsyms₂, hrules₂⟩ := ih h₂
    exact ⟨hsyms₂.trans hsyms₁, hrules₂.trans hrules₁⟩

theorem load_stabs_frame : (load_stabs s infos).syms = s.syms ∧ (load_stabs s infos).rules = s.rules ∧
    (load_stabs s infos).names = s.names := by
  rw [load_stabs]
  split
  · exact ⟨rfl, rfl, rfl⟩
  · split
    · exact ⟨rfl, rfl, names_modify _ _ fun _ => rfl⟩
    · exact ⟨rfl, rfl, rfl⟩

theorem link_section_frame {sh : Shdr} {info : Info} (hlink : link_section infos sh info s = some s') :
    s'.syms = s.syms ∧ s'.rules = s.rules ∧ s'.names = s.names := by
  rw [link_section] at hlink
  split at hlink
  · split at hlink
    · obtain ⟨sh_info, -, rfl⟩ := Option.map_eq_some_iff.mp hlink
      exact ⟨rfl, rfl, names_modify _ _ fun _ => rfl⟩
    · cases hlink
      exact ⟨rfl, rfl, rfl⟩
  · cases hlink
    exact ⟨rfl, rfl, rfl⟩

theorem link_sections_frame {pairs : List (Shdr × Info)} (hlink : link_sections infos pairs s = some s') :
    s'.syms = s.syms ∧ s'.rules = s.rules ∧ s'.names = s.names := by
  induction pairs generalizing s with
  | nil =>
    cases hlink
    exact ⟨rfl, rfl, rfl⟩
  | cons p pairs ih =>
    obtain ⟨s₁, h₁, h₂⟩ := Option.bind_eq_some_iff.mp hlink
    obtain ⟨hsyms₁, hrules₁, hnames₁⟩ := link_section_frame h₁
    obtain ⟨hsyms₂, hrules₂, hnames₂⟩ := ih h₂
    exact ⟨hsyms₂.trans hsyms₁, hrules₂.trans hrules₁, hnames₂.trans hnames₁⟩

theorem patch_section_frame {tr : List Nat} {sh : Shdr} {info : Info}
    (hpatch : patch_section infos tr sh info s = some s') : s'.syms = s.syms ∧ s'.names = s.names := by
  rw [patch_section] at hpatch
  split at hpatch
  · cases hpatch
    exact ⟨rfl, rfl⟩
  · split at hpatch
    · cases hpatch
      exact ⟨rfl, rfl⟩
    · rename_i sec hsec
      split at hpatch
      · obtain ⟨rels, -, hpatch⟩ := Option.bind_eq_some_iff.mp hpatch
        cases hpatch
        exact ⟨rfl, names_set hsec rfl⟩
      · cases hpatch
        exact ⟨rfl, rfl⟩

theorem patch_sections_frame {tr : List Nat} {pairs : List (Shdr × Info)}
    (hpatch : patch_sections infos tr pairs s = some s') : s'.syms = s.syms ∧ s'.names = s.names := by
  induction pairs generalizing s with
  | nil =>
    cases hpatch
    exact ⟨rfl, rfl⟩
  | cons p pairs ih =>
    obtain ⟨s₁, h₁, h₂⟩ := Option.bind_eq_some_iff.mp hpatch
    obtain ⟨hsyms₁, hnames₁⟩ := patch_section_frame h₁
    obtain ⟨hsyms₂, hnames₂⟩ := ih h₂
    exact ⟨hsyms₂.trans hsyms₁, hnames₂.trans hnames₁⟩

/-- A section that is neither left out nor already there. -/
def Info.loaded (info : Info) : Prop := info.s.isSome = true ∧ info.link_once = false

theorem find_section_isSome_iff {name : Name} : (s.find_section name).isSome = true ↔ name ∈ s.names := by
  rw [State.find_section, List.findIdx?_isSome, List.any_eq_true, State.names, List.mem_map]
  simp only [beq_iff_eq]

theorem names_load_section {obj : Object} {i : Nat} {sh : Shdr} {info : Info}
    (hload : load_section obj i sh s = some (s', info)) {name : Name} :
    name ∈ s'.names ↔
      name ∈ s.names ∨ (sh.sh_type ≠ SHT_SYMTAB ∧ obj.passes i sh = true ∧ name = sh.name) := by
  rw [load_section] at hload
  split at hload
  · rename_i htype
    cases hload
    simp [htype]
  · rename_i htype
    split at hload
    · rename_i hpasses
      cases hload
      have hfalse : obj.passes i sh = false := by simpa using hpasses
      simp [hfalse]
    · rename_i hpasses
      have htrue : obj.passes i sh = true := by simpa using hpasses
      have hthere : ∀ {k : Nat}, s.find_section sh.name = some k → s'.names = s.names →
          (name ∈ s'.names ↔
            name ∈ s.names ∨ (sh.sh_type ≠ SHT_SYMTAB ∧ obj.passes i sh = true ∧ name = sh.name)) := by
        intro k hfind hnames
        rw [hnames]
        refine (or_iff_left_of_imp ?_).symm
        rintro ⟨-, -, rfl⟩
        exact find_section_isSome_iff.mp (by rw [hfind]; rfl)
      split at hload
      · rename_i k hfind
        split at hload
        · cases hload
          exact hthere hfind rfl
        · split at hload
          · rename_i sec hsec
            split at hload
            · cases hload
            · cases hload
              exact hthere hfind (names_set hsec rfl)
          · cases hload
      · cases hload
        rw [State.names, List.map_append, List.mem_append, List.map_singleton, List.mem_singleton]
        have hname : ((new_section sh).append sh).name = sh.name := rfl
        rw [hname]
        simp only [htype, ne_eq, not_false_eq_true, htrue, true_and]
        exact Iff.rfl

/-- A section is loaded where fewer are there, if it is where more are. -/
theorem load_section_mono {obj : Object} {i : Nat} {sh : Shdr} {s₁ s₂ s₁' s₂' : State} {info₁ info₂ : Info}
    (hnames : ∀ name ∈ s₁.names, name ∈ s₂.names) (h₁ : load_section obj i sh s₁ = some (s₁', info₁))
    (h₂ : load_section obj i sh s₂ = some (s₂', info₂)) :
    (∀ name ∈ s₁'.names, name ∈ s₂'.names) ∧ (info₂.loaded → info₁.loaded) := by
  refine ⟨fun name hname => ?_, fun hloaded => ?_⟩
  · rw [names_load_section h₂]
    exact ((names_load_section h₁).mp hname).imp_left (hnames name)
  · rw [load_section] at h₁ h₂
    split at h₁
    · rename_i htype
      cases h₁
      exact ⟨rfl, rfl⟩
    · rename_i htype
      rw [if_neg htype] at h₂
      split at h₁
      · rename_i hpasses
        rw [if_pos hpasses] at h₂
        cases h₂
        exact absurd hloaded.1 (by decide)
      · rename_i hpasses
        rw [if_neg hpasses] at h₂
        cases hfind₁ : s₁.find_section sh.name with
        | none =>
          rw [hfind₁] at h₁
          cases h₁
          exact ⟨rfl, rfl⟩
        | some k₁ =>
          have hmem₂ := hnames _ (find_section_isSome_iff.mp (by rw [hfind₁]; rfl))
          obtain ⟨k₂, hfind₂⟩ := Option.isSome_iff_exists.mp (find_section_isSome_iff.mpr hmem₂)
          rw [hfind₁] at h₁
          rw [hfind₂] at h₂
          dsimp only at h₁ h₂
          by_cases honce : linkonce sh.name
          · rw [if_pos honce] at h₂
            cases h₂
            exact absurd hloaded.2 (by decide)
          · rw [if_neg honce] at h₁
            split at h₁
            · split at h₁
              · cases h₁
              · cases h₁
                exact ⟨rfl, rfl⟩
            · cases h₁

theorem names_load_sections {obj : Object} {i : Nat} {shdrs : List Shdr}
    (hload : load_sections obj i shdrs s = some (s', infos)) {name : Name} (hname : name ∈ s.names) :
    name ∈ s'.names := by
  induction shdrs generalizing i s infos with
  | nil =>
    cases hload
    exact hname
  | cons sh shdrs ih =>
    obtain ⟨⟨s₁, info⟩, h₁, hload⟩ := Option.bind_eq_some_iff.mp hload
    obtain ⟨⟨s₂, infos₂⟩, h₂, hload⟩ := Option.bind_eq_some_iff.mp hload
    cases hload
    exact ih h₂ ((names_load_section h₁).mpr (.inl hname))

theorem load_sections_mono {obj : Object} {i : Nat} {shdrs : List Shdr} {s₁ s₂ s₁' s₂' : State}
    {infos₁ infos₂ : List Info} (hnames : ∀ name ∈ s₁.names, name ∈ s₂.names)
    (h₁ : load_sections obj i shdrs s₁ = some (s₁', infos₁))
    (h₂ : load_sections obj i shdrs s₂ = some (s₂', infos₂)) (j : Nat) :
    (infos₂.getD j Info.none).loaded → (infos₁.getD j Info.none).loaded := by
  induction shdrs generalizing i s₁ s₂ infos₁ infos₂ j with
  | nil =>
    cases h₁
    cases h₂
    exact id
  | cons sh shdrs ih =>
    obtain ⟨⟨t₁, info₁⟩, hs₁, h₁⟩ := Option.bind_eq_some_iff.mp h₁
    obtain ⟨⟨t₁', rest₁⟩, hr₁, h₁⟩ := Option.bind_eq_some_iff.mp h₁
    obtain ⟨⟨t₂, info₂⟩, hs₂, h₂⟩ := Option.bind_eq_some_iff.mp h₂
    obtain ⟨⟨t₂', rest₂⟩, hr₂, h₂⟩ := Option.bind_eq_some_iff.mp h₂
    cases h₁
    cases h₂
    obtain ⟨hnames', hloaded⟩ := load_section_mono hnames hs₁ hs₂
    cases j with
    | zero => exact hloaded
    | succ j => exact ih hnames' hr₁ hr₂ j

theorem load_symbol_defined {s : State} {x : Named} {name : Name}
    (h : Defined s.syms name ∨ (defines name x = true ∧ in_link_once infos x.2 = false ∧
      (moved_symbol infos x.2).isSome = true)) : Defined (load_symbol infos s x).1.syms name := by
  rw [load_symbol]
  split
  · rename_i honce
    refine h.elim id ?_
    rintro ⟨-, hfalse, -⟩
    rw [honce] at hfalse
    cases hfalse
  · split
    · rename_i hnone
      refine h.elim id ?_
      rintro ⟨-, -, hsome⟩
      rw [hnone] at hsome
      cases hsome
    · rename_i sym hsym
      refine enter_defined _ (h.imp_right ?_)
      rintro ⟨hdef, -, -⟩
      obtain ⟨hlocal, hname, hshndx⟩ := defines_iff.mp hdef
      rw [moved_symbol] at hsym
      split at hsym
      · obtain ⟨k, -, rfl⟩ := Option.map_eq_some_iff.mp hsym
        exact defines_iff.mpr ⟨hlocal, hname, Nat.succ_ne_zero k⟩
      · cases hsym
        exact hdef

theorem load_symbols_defined {s : State} {xs : List Named} {name : Name}
    (h : Defined s.syms name ∨ ∃ x ∈ xs, defines name x = true ∧ in_link_once infos x.2 = false ∧
      (moved_symbol infos x.2).isSome = true) : Defined (load_symbols infos xs s).1.syms name := by
  induction xs generalizing s with
  | nil => exact h.resolve_right (by simp)
  | cons x xs ih =>
    refine ih ?_
    rcases h with h | ⟨y, hy, hdef⟩
    · exact .inl (load_symbol_defined (.inl h))
    · rcases List.mem_cons.mp hy with rfl | hy
      · exact .inl (load_symbol_defined (.inr hdef))
      · exact .inr ⟨y, hy, hdef⟩

/-- What was there is there later. -/
structure State.Later (s s' : State) : Prop where
  names : ∀ name ∈ s.names, name ∈ s'.names
  defined : ∀ name, Defined s.syms name → Defined s'.syms name

theorem State.Later.refl (s : State) : s.Later s := ⟨fun _ => id, fun _ => id⟩

theorem State.Later.trans {s₁ s₂ s₃ : State} (h : s₁.Later s₂) (h' : s₂.Later s₃) : s₁.Later s₃ :=
  ⟨fun name hname => h'.names name (h.names name hname),
    fun name hdef => h'.defined name (h.defined name hdef)⟩

/-- An object that is loaded defines what it supplies, and removes nothing. -/
theorem load_object_defined {obj : Object} {r : List Info × List Nat} (hunique : Unique s.syms)
    (hload : tcc_load_object_file s obj = some (s', r)) :
    Unique s'.syms ∧ s.Later s' ∧ ∀ name, Supplies s obj name → Defined s'.syms name := by
  rw [tcc_load_object_file] at hload
  split at hload
  · cases hload
  · obtain ⟨⟨s₁, infos⟩, h₁, hload⟩ := Option.bind_eq_some_iff.mp hload
    obtain ⟨s₂, h₂, hload⟩ := Option.bind_eq_some_iff.mp hload
    obtain ⟨s₃, h₃, hload⟩ := Option.bind_eq_some_iff.mp hload
    cases hload
    obtain ⟨hsyms₁, -⟩ := load_sections_frame h₁
    obtain ⟨hsyms₁', -, hnames₁'⟩ := @load_stabs_frame s₁ (Info.none :: infos)
    obtain ⟨hsyms₂, -, hnames₂⟩ := link_sections_frame h₂
    have hsyms : s₂.syms = s.syms := hsyms₂.trans (hsyms₁'.trans hsyms₁)
    obtain ⟨syms, tr, hsymbols, -, hunique', -⟩ :=
      load_symbols_spec (Info.none :: infos) (s := s₂) (hsyms ▸ hunique) obj.syms.tail
    obtain ⟨hsyms₃, hnames₃⟩ := patch_sections_frame h₃
    have hdefined := fun name => @load_symbols_defined (Info.none :: infos) s₂ obj.syms.tail name
    rw [hsymbols] at hsyms₃ hnames₃ hdefined
    rw [hsyms] at hdefined
    refine ⟨hsyms₃ ▸ hunique', ⟨fun name hname => ?_, fun name hdef => ?_⟩, ?_⟩
    · rw [hnames₃]
      change name ∈ s₂.names
      rw [hnames₂, hnames₁']
      exact names_load_sections h₁ hname
    · rw [hsyms₃]
      exact hdefined name (.inl hdef)
    · rintro name ⟨s₁', infos', h₁', x, hx, hdef, honce, hmoved⟩
      rw [h₁] at h₁'
      cases h₁'
      rw [hsyms₃]
      exact hdefined name (.inr ⟨x, hx, hdef, honce, hmoved⟩)

/-- What an object supplies later it has supplied before. -/
theorem Supplies.earlier {obj : Object} {s₁ s₂ s₁' : State} {r : List Info × List Nat} {name : Name}
    (h : Supplies s₂ obj name) (hlater : s₁.Later s₂) (hload : tcc_load_object_file s₁ obj = some (s₁', r)) :
    Supplies s₁ obj name := by
  obtain ⟨t₂, infos₂, h₂, x, hx, hdef, honce, hmoved⟩ := h
  rw [tcc_load_object_file] at hload
  split at hload
  · cases hload
  · obtain ⟨⟨t₁, infos₁⟩, h₁, -⟩ := Option.bind_eq_some_iff.mp hload
    have hmono := load_sections_mono hlater.names h₁ h₂
    refine ⟨t₁, infos₁, h₁, x, hx, hdef, ?_⟩
    obtain ⟨-, -, hshndx⟩ := defines_iff.mp hdef
    rw [in_link_once] at honce ⊢
    rw [moved_symbol] at hmoved ⊢
    by_cases hreserved : x.2.st_shndx < SHN_LORESERVE
    · rw [if_pos ⟨hshndx, hreserved⟩, Option.isSome_map] at hmoved ⊢
      have hloaded : ((Info.none :: infos₂).getD x.2.st_shndx Info.none).loaded := by
        refine ⟨hmoved, ?_⟩
        simpa [hshndx, hreserved] using honce
      obtain ⟨j, hj⟩ := Nat.exists_eq_succ_of_ne_zero hshndx
      rw [hj, List.getD_cons_succ] at hloaded
      obtain ⟨hsome, hfalse⟩ := hmono j hloaded
      rw [hj, List.getD_cons_succ]
      exact ⟨by rw [hfalse, Bool.and_false], hsome⟩
    · rw [if_neg fun h => hreserved h.2]
      simp [hreserved]

end passes

end tcc.obj
