import Mathlib.Data.List.Induction
import Mathlib.Tactic.IntervalCases
import Tcc.Link.Symbols

namespace tcc.elf

/-- Two symbols with the same binding, type, section, value and size. -/
def Same (e c : ElfSym) : Prop := e = e.patch c

def IsDef (c : ElfSym) : Prop := c.st_shndx ≠ SHN_UNDEF

/-- A definition that binds globally: a strong one, or a common symbol. -/
def IsGlobalDef (c : ElfSym) : Prop := IsDef c ∧ c.bind = .STB_GLOBAL

def IsStrongDef (c : ElfSym) : Prop := IsGlobalDef c ∧ c.st_shndx ≠ SHN_COMMON

/-- A strong definition of data or code outside the bss section, visible to other units. -/
def IsStrongData (bss : Nat) (c : ElfSym) : Prop :=
  IsGlobalDef c ∧ c.st_shndx < SHN_LORESERVE ∧ c.st_shndx ≠ bss ∧
    c.vis ≠ STV_HIDDEN ∧ c.vis ≠ STV_INTERNAL

instance (c : ElfSym) : Decidable (IsDef c) := inferInstanceAs (Decidable (_ ≠ _))

instance (c : ElfSym) : Decidable (IsGlobalDef c) := inferInstanceAs (Decidable (_ ∧ _))

instance (c : ElfSym) : Decidable (IsStrongDef c) := inferInstanceAs (Decidable (_ ∧ _))

instance (bss : Nat) (c : ElfSym) : Decidable (IsStrongData bss c) :=
  inferInstanceAs (Decidable (_ ∧ _))

/-- How constraining a visibility is: default, protected, hidden, internal. -/
def rank (vis : BitVec 2) : Nat :=
  match vis.toNat with
  | 0 => 0
  | 3 => 1
  | 2 => 2
  | _ => 3

/-- What the linked units contribute to a name. -/
structure Contributions (cs : List ElfSym) : Prop where
  not_local : ∀ c ∈ cs, c.bind ≠ .STB_LOCAL
  common_global : ∀ c ∈ cs, c.st_shndx = SHN_COMMON → c.bind = .STB_GLOBAL
  one_strong : (cs.filter IsStrongDef).length ≤ 1

/-- The symbol that the contributions to a name are merged into. -/
structure Resolved (bss : Nat) (cs : List ElfSym) (e : ElfSym) : Prop where
  defined : IsDef e ↔ ∃ c ∈ cs, IsDef c
  strong : ∀ d ∈ cs, IsStrongData bss d → Same e d
  global : (∃ c ∈ cs, IsGlobalDef c) → ∃ c ∈ cs, IsGlobalDef c ∧ Same e c
  weak : (∀ c ∈ cs, ¬IsGlobalDef c) → ∀ c, cs.find? IsDef = some c → Same e c
  vis_le : ∃ c ∈ cs, rank e.vis ≤ rank c.vis
  le_vis : ∀ c ∈ cs, IsDef c → rank c.vis ≤ rank e.vis
  undefined : (∀ c ∈ cs, ¬IsDef c) → e ∈ cs

/-- What the linked units contribute to one name. -/
def contributions (name : String) (units : List (String × ElfSym)) : List ElfSym :=
  units.filterMap fun u => if u.1 = name then some u.2 else none

/-- The contributions that may prevail: the global definitions if there is one,
    otherwise the weak ones, otherwise the references. -/
def Candidate (cs : List ElfSym) (c : ElfSym) : Prop :=
  c ∈ cs ∧ (IsGlobalDef c ∨
    (∀ d ∈ cs, ¬IsGlobalDef d) ∧ (IsDef c ∨ ∀ d ∈ cs, ¬IsDef d))

/-- No reference is more constraining than the definitions, or all contributions
    are equally so. -/
def VisSettled (cs : List ElfSym) : Prop :=
  (∀ u ∈ cs, ∃ d ∈ cs, IsDef d ∧ rank u.vis ≤ rank d.vis) ∨ ∀ c ∈ cs, ∀ d ∈ cs, c.vis = d.vis

/-- A definition prevails in every order: strong data, or all candidates are the same. -/
def Settled (bss : Nat) (cs : List ElfSym) : Prop :=
  (∃ d ∈ cs, IsStrongData bss d) ∨ ∀ c d, Candidate cs c → Candidate cs d → Same c d

theorem same_refl (e : ElfSym) : Same e e := rfl

theorem Same.symm {e c : ElfSym} (h : Same e c) : Same c e := by
  cases e
  cases c
  simp_all [Same, ElfSym.patch]

theorem Same.trans {e c d : ElfSym} (h₁ : Same e c) (h₂ : Same c d) : Same e d := by
  cases e
  cases c
  cases d
  simp_all [Same, ElfSym.patch]

theorem same_patch (e c : ElfSym) : Same (e.patch c) c := rfl

theorem same_setVis (e : ElfSym) (v : BitVec 2) : Same (e.setVis v) e := rfl

theorem Same.bind_eq {e c : ElfSym} (h : Same e c) : e.bind = c.bind := by
  rw [h]
  rfl

theorem Same.shndx_eq {e c : ElfSym} (h : Same e c) : e.st_shndx = c.st_shndx := by
  rw [h]
  rfl

theorem Same.isDef_iff {e c : ElfSym} (h : Same e c) : IsDef e ↔ IsDef c := by
  rw [IsDef, IsDef, h.shndx_eq]

theorem Same.isGlobalDef_iff {e c : ElfSym} (h : Same e c) : IsGlobalDef e ↔ IsGlobalDef c := by
  rw [IsGlobalDef, IsGlobalDef, h.isDef_iff, h.bind_eq]

theorem vis_setVis (e : ElfSym) (v : BitVec 2) : (e.setVis v).vis = v := by
  rw [ElfSym.vis, ElfSym.setVis]
  ext i hi
  interval_cases i <;> simp

theorem rank_new_vis : ∀ a b, rank (new_vis a b) = max (rank a) (rank b) := by decide

theorem rank_inj : ∀ a b, rank a = rank b → a = b := by decide

section

variable {s : SymTab} {e c : ElfSym} {name : String}

theorem set_elf_sym_bss (s : SymTab) (c : ElfSym) (name : String) :
    (set_elf_sym s c name).bss = s.bss := by
  unfold set_elf_sym
  grind [SymTab.bss_put]

theorem find_set_elf_sym_of_ne {name' : String} (hne : name' ≠ name) :
    (set_elf_sym s c name').find_elf_sym name = s.find_elf_sym name := by
  have hput (sym : ElfSym) := s.find_put_of_ne hne sym
  simp only [set_elf_sym]
  split
  · rfl
  · split
    · exact hput _
    · split
      · rfl
      · split
        · split <;> exact hput _
        · exact hput _

theorem find_set_elf_sym_none (hlocal : c.bind ≠ .STB_LOCAL) (hfind : s.find_elf_sym name = none) :
    (set_elf_sym s c name).find_elf_sym name = some c := by
  simp [set_elf_sym, hlocal, hfind, SymTab.put]

theorem find_set_elf_sym_undef (hlocal : c.bind ≠ .STB_LOCAL) (hfind : s.find_elf_sym name = some e)
    (hdef : ¬IsDef e) : (set_elf_sym s c name).find_elf_sym name = some c := by
  rw [IsDef, not_not] at hdef
  by_cases heq : e = c
  · simp [set_elf_sym, hlocal, hfind, heq]
  · simp [set_elf_sym, hlocal, hfind, heq, hdef, SymTab.put]

/-- A contribution to a defined symbol constrains its visibility, and either keeps
    or replaces the definition. -/
theorem find_set_elf_sym_def (hlocal : c.bind ≠ .STB_LOCAL) (hfind : s.find_elf_sym name = some e)
    (hdef : IsDef e) : ∃ e', (set_elf_sym s c name).find_elf_sym name = some e' ∧
      rank e'.vis = max (rank e.vis) (rank c.vis) ∧
      (Same e' e ∧ s.resolve (e.setVis (new_vis e.vis c.vis)) c ≠ .patch ∨
        Same e' c ∧ s.resolve (e.setVis (new_vis e.vis c.vis)) c = .patch ∨ e = c ∧ e' = c) := by
  by_cases heq : e = c
  · subst heq
    exact ⟨e, by simp [set_elf_sym, hlocal, hfind], by simp, Or.inr (Or.inr ⟨rfl, rfl⟩)⟩
  · rw [IsDef] at hdef
    simp only [set_elf_sym, hlocal, hfind, heq, hdef, if_false, ne_eq, not_false_eq_true, if_true]
    have hrank : rank (e.setVis (new_vis e.vis c.vis)).vis = max (rank e.vis) (rank c.vis) := by
      rw [vis_setVis, rank_new_vis]
    cases houtcome : s.resolve (e.setVis (new_vis e.vis c.vis)) c with
    | keep =>
      exact ⟨_, Function.update_self _ _ _, hrank, Or.inl ⟨same_setVis e _, by simp⟩⟩
    | patch =>
      exact ⟨_, Function.update_self _ _ _, hrank, Or.inr (Or.inl ⟨same_patch _ c, rfl⟩)⟩
    | twice =>
      exact ⟨_, Function.update_self _ _ _, hrank, Or.inl ⟨same_setVis e _, by simp⟩⟩

theorem resolve_undef (hc : ¬IsDef c) : s.resolve e c = .keep := by
  rw [IsDef, not_not] at hc
  simp [SymTab.resolve, hc]

theorem resolve_weak (hc : c.bind = .STB_WEAK) (he : e.bind ≠ .STB_LOCAL) :
    s.resolve e c = .keep := by
  cases hbind : e.bind with
  | STB_LOCAL => exact absurd hbind he
  | STB_GLOBAL => simp [SymTab.resolve, hc, hbind]
  | STB_WEAK => simp [SymTab.resolve, hc, hbind]

theorem resolve_global_weak (hc : IsGlobalDef c) (he : e.bind = .STB_WEAK) :
    s.resolve e c = .patch := by
  obtain ⟨hdef, hbind⟩ := hc
  rw [IsDef] at hdef
  simp [SymTab.resolve, hdef, hbind, he]

theorem resolve_data_common (hc : IsStrongData s.bss c) (he : e.bind = .STB_GLOBAL)
    (hcommon : e.st_shndx = SHN_COMMON) : s.resolve e c = .patch := by
  obtain ⟨⟨hdef, hbind⟩, hlt, hbss, hhidden, hinternal⟩ := hc
  rw [IsDef] at hdef
  simp [SymTab.resolve, hdef, hbind, he, hcommon, hlt, hbss, hhidden, hinternal]

theorem resolve_common_data (hc : IsGlobalDef c) (hcommon : c.st_shndx = SHN_COMMON)
    (he : e.bind = .STB_GLOBAL) (hdata : e.st_shndx ≠ SHN_COMMON) (hbss : e.st_shndx ≠ s.bss) :
    s.resolve e c = .keep := by
  have hundef : SHN_COMMON ≠ SHN_UNDEF := by decide
  obtain ⟨-, hbind⟩ := hc
  simp only [SymTab.resolve, hbind, he, hcommon, hundef, hdata, hbss, if_false, reduceCtorEq,
    and_false, false_and, false_or, true_or, if_true, ite_self]

end

section

variable {s : SymTab} {cs : List ElfSym} {e c : ElfSym} {name : String}

/-- The first definition replaces whatever was there. -/
theorem resolved_first (bss : Nat) (hcs : ∀ d ∈ cs, ¬IsDef d) : Resolved bss (cs ++ [c]) c := by
  have hmem (d : ElfSym) (hd : d ∈ cs ++ [c]) (hdef : IsDef d) : d = c := by
    obtain hd | hd := List.mem_append.mp hd
    · exact absurd hdef (hcs d hd)
    · exact List.mem_singleton.mp hd
  have hc : c ∈ cs ++ [c] := by simp
  refine ⟨⟨fun hdef => ⟨c, hc, hdef⟩, ?_⟩, ?_, ?_, ?_, ⟨c, hc, le_rfl⟩, ?_, fun _ => hc⟩
  · rintro ⟨d, hd, hdef⟩
    exact hmem d hd hdef ▸ hdef
  · intro d hd hstrong
    exact hmem d hd hstrong.1.1 ▸ same_refl c
  · rintro ⟨d, hd, hglobal⟩
    exact ⟨d, hd, hglobal, hmem d hd hglobal.1 ▸ same_refl c⟩
  · intro _ d hfind
    have hd := List.mem_of_find?_eq_some hfind
    have hdef : IsDef d := by simpa using List.find?_some hfind
    exact hmem d hd hdef ▸ same_refl c
  · intro d hd hdef
    rw [hmem d hd hdef]

theorem Resolved.not_global {bss : Nat} (h : Resolved bss cs e) (hdef : IsDef e)
    (hcs : ∀ d ∈ cs, ¬IsGlobalDef d) : ¬IsGlobalDef e := by
  obtain ⟨d, hd, hd'⟩ := h.defined.mp hdef
  cases hfind : cs.find? IsDef with
  | none =>
    have hnone := List.find?_eq_none.mp hfind d hd
    simp [hd'] at hnone
  | some d' =>
    rw [(h.weak hcs d' hfind).isGlobalDef_iff]
    exact hcs d' (List.mem_of_find?_eq_some hfind)

theorem Contributions.not_both_strong (h : Contributions (cs ++ [c])) {d : ElfSym} (hd : d ∈ cs)
    (hdstrong : IsStrongDef d) : ¬IsStrongDef c := by
  intro hcstrong
  have hone := h.one_strong
  have hpos : 0 < (cs.filter IsStrongDef).length :=
    List.length_pos_of_mem (List.mem_filter.mpr ⟨hd, by simpa using hdstrong⟩)
  rw [List.filter_append, List.length_append] at hone
  simp [hcstrong] at hone
  have := hone d hd
  exact this hdstrong

theorem IsStrongData.isStrongDef {bss : Nat} (h : IsStrongData bss c) : IsStrongDef c := by
  refine ⟨h.1, ?_⟩
  have := h.2.1
  rw [SHN_LORESERVE] at this
  rw [SHN_COMMON]
  omega

theorem Resolved.not_local {bss : Nat} (hcs : Contributions (cs ++ [c])) (h : Resolved bss cs e)
    (hdef : IsDef e) : e.bind ≠ .STB_LOCAL := by
  obtain ⟨d, hd, hd'⟩ := h.defined.mp hdef
  by_cases hglobal : ∃ d ∈ cs, IsGlobalDef d
  · obtain ⟨d, hd, -, hsame⟩ := h.global hglobal
    rw [hsame.bind_eq]
    exact hcs.not_local d (List.mem_append_left _ hd)
  · cases hfind : cs.find? IsDef with
    | none =>
      have hnone := List.find?_eq_none.mp hfind d hd
      simp [hd'] at hnone
    | some d' =>
      rw [(h.weak (fun d hd hg => hglobal ⟨d, hd, hg⟩) d' hfind).bind_eq]
      exact hcs.not_local d' (List.mem_append_left _ (List.mem_of_find?_eq_some hfind))

theorem weak_of_not_global (hlocal : c.bind ≠ .STB_LOCAL) (hdef : IsDef c) (hc : ¬IsGlobalDef c) :
    c.bind = .STB_WEAK := by
  cases hbind : c.bind with
  | STB_LOCAL => exact absurd hbind hlocal
  | STB_GLOBAL => exact absurd ⟨hdef, hbind⟩ hc
  | STB_WEAK => rfl

/-- One more contribution. -/
theorem resolved_step (hcs : Contributions (cs ++ [c])) (hfind : s.find_elf_sym name = some e)
    (h : Resolved s.bss cs e) : ∃ e', (set_elf_sym s c name).find_elf_sym name = some e' ∧
      Resolved s.bss (cs ++ [c]) e' := by
  have hlocal := hcs.not_local c (by simp)
  by_cases hdef : IsDef e
  swap
  · refine ⟨c, find_set_elf_sym_undef hlocal hfind hdef, resolved_first s.bss fun d hd hd' => ?_⟩
    exact hdef (h.defined.mpr ⟨d, hd, hd'⟩)
  obtain ⟨e', hfind', hrank, hcase⟩ := find_set_elf_sym_def hlocal hfind hdef
  have hbind := h.not_local hcs hdef
  generalize heq : e.setVis (new_vis e.vis c.vis) = e₁ at hcase
  have hsame₁ : Same e₁ e := heq ▸ same_setVis e _
  -- a contribution that patches is a global definition
  have hpatch (hp : s.resolve e₁ c = .patch) : IsGlobalDef c := by
    have hcdef : IsDef c := by
      by_contra hnot
      rw [resolve_undef hnot] at hp
      cases hp
    by_contra hnot
    rw [resolve_weak (weak_of_not_global hlocal hcdef hnot) (hsame₁.bind_eq ▸ hbind)] at hp
    cases hp
  have hkeep (hp : s.resolve e₁ c ≠ .patch) : Same e' e := by
    obtain ⟨hsame, -⟩ | ⟨-, hp'⟩ | ⟨rfl, rfl⟩ := hcase
    · exact hsame
    · exact absurd hp' hp
    · exact same_refl e'
  have hreplace (hp : s.resolve e₁ c = .patch) : Same e' c := by
    obtain ⟨-, hp'⟩ | ⟨hsame, -⟩ | ⟨rfl, rfl⟩ := hcase
    · exact absurd hp hp'
    · exact hsame
    · exact same_refl e'
  have heither : Same e' e ∨ Same e' c ∧ IsGlobalDef c := by
    by_cases hp : s.resolve e₁ c = .patch
    · exact Or.inr ⟨hreplace hp, hpatch hp⟩
    · exact Or.inl (hkeep hp)
  refine ⟨e', hfind', ⟨⟨fun _ => ?_, fun _ => ?_⟩, ?_, ?_, ?_, ?_, ?_, ?_⟩⟩
  · obtain ⟨d, hd, hd'⟩ := h.defined.mp hdef
    exact ⟨d, List.mem_append_left _ hd, hd'⟩
  · obtain hsame | ⟨hsame, hc⟩ := heither
    · exact hsame.isDef_iff.mpr hdef
    · exact hsame.isDef_iff.mpr hc.1
  · intro d hd hstrong
    obtain hd | hd := List.mem_append.mp hd
    · have hsame := h.strong d hd hstrong
      refine (hkeep fun hp => ?_).trans hsame
      have hglobal := hpatch hp
      have hcommon : c.st_shndx = SHN_COMMON := by
        by_contra hne
        exact hcs.not_both_strong hd hstrong.isStrongDef ⟨hglobal, hne⟩
      rw [resolve_common_data hglobal hcommon] at hp
      · cases hp
      · rw [hsame₁.bind_eq, hsame.bind_eq]
        exact hstrong.1.2
      · rw [hsame₁.shndx_eq, hsame.shndx_eq]
        exact hstrong.isStrongDef.2
      · rw [hsame₁.shndx_eq, hsame.shndx_eq]
        exact hstrong.2.2.1
    · obtain rfl := List.mem_singleton.mp hd
      refine hreplace ?_
      by_cases hglobal : ∃ d ∈ cs, IsGlobalDef d
      · obtain ⟨d', hd', hglobal', hsame⟩ := h.global hglobal
        refine resolve_data_common hstrong ?_ ?_
        · rw [hsame₁.bind_eq, hsame.bind_eq]
          exact hglobal'.2
        · rw [hsame₁.shndx_eq, hsame.shndx_eq]
          by_contra hne
          exact hcs.not_both_strong hd' ⟨hglobal', hne⟩ hstrong.isStrongDef
      · refine resolve_global_weak hstrong.1 ?_
        rw [hsame₁.bind_eq]
        exact weak_of_not_global hbind hdef
          (h.not_global hdef fun d hd hg => hglobal ⟨d, hd, hg⟩)
  · rintro ⟨d, hd, hglobal⟩
    obtain hsame | ⟨hsame, hc⟩ := heither
    swap
    · exact ⟨c, by simp, hc, hsame⟩
    by_cases hcs' : ∃ d ∈ cs, IsGlobalDef d
    · obtain ⟨d', hd', hglobal', hsame'⟩ := h.global hcs'
      exact ⟨d', List.mem_append_left _ hd', hglobal', hsame.trans hsame'⟩
    · obtain hd | hd := List.mem_append.mp hd
      · exact absurd ⟨d, hd, hglobal⟩ hcs'
      · obtain rfl := List.mem_singleton.mp hd
        refine ⟨d, by simp, hglobal, hreplace (resolve_global_weak hglobal ?_)⟩
        rw [hsame₁.bind_eq]
        exact weak_of_not_global hbind hdef
          (h.not_global hdef fun d hd hg => hcs' ⟨d, hd, hg⟩)
  · intro hweak d hfirst
    rw [List.find?_append] at hfirst
    have hsame : Same e' e := by
      obtain hsame | ⟨-, hc⟩ := heither
      · exact hsame
      · exact absurd hc (hweak c (by simp))
    have hweak' (d : ElfSym) (hd : d ∈ cs) : ¬IsGlobalDef d := hweak d (List.mem_append_left _ hd)
    cases hold : cs.find? IsDef with
    | none =>
      obtain ⟨d', hd', hdef'⟩ := h.defined.mp hdef
      have hnone := List.find?_eq_none.mp hold d' hd'
      simp [hdef'] at hnone
    | some d' =>
      rw [hold] at hfirst
      cases hfirst
      exact hsame.trans (h.weak hweak' d hold)
  · obtain ⟨d, hd, hle⟩ := h.vis_le
    rw [hrank]
    obtain hmax | hmax := max_choice (rank e.vis) (rank c.vis)
    · exact ⟨d, List.mem_append_left _ hd, hmax.le.trans hle⟩
    · exact ⟨c, by simp, hmax.le⟩
  · intro d hd hd'
    rw [hrank]
    obtain hd | hd := List.mem_append.mp hd
    · exact (h.le_vis d hd hd').trans (le_max_left _ _)
    · obtain rfl := List.mem_singleton.mp hd
      exact le_max_right _ _
  · intro hnone
    obtain ⟨d, hd, hd'⟩ := h.defined.mp hdef
    exact absurd hd' (hnone d (List.mem_append_left _ hd))

theorem contributions_append (name : String) (units : List (String × ElfSym)) (u : String × ElfSym) :
    contributions name (units ++ [u]) =
      contributions name units ++ if u.1 = name then [u.2] else [] := by
  rw [contributions, List.filterMap_append, contributions]
  by_cases h : u.1 = name <;> simp [h]

theorem Contributions.of_append (h : Contributions (cs ++ [c])) : Contributions cs where
  not_local d hd := h.not_local d (List.mem_append_left _ hd)
  common_global d hd := h.common_global d (List.mem_append_left _ hd)
  one_strong := by
    have hone := h.one_strong
    rw [List.filter_append, List.length_append] at hone
    omega

theorem set_elf_syms_append (s : SymTab) (units : List (String × ElfSym)) (u : String × ElfSym) :
    set_elf_syms s (units ++ [u]) = set_elf_sym (set_elf_syms s units) u.2 u.1 := by
  rw [set_elf_syms, List.foldl_append]
  rfl

theorem set_elf_syms_bss (s : SymTab) (units : List (String × ElfSym)) :
    (set_elf_syms s units).bss = s.bss := by
  induction units using List.reverseRecOn with
  | nil => rfl
  | append_singleton units u ih => rw [set_elf_syms_append, set_elf_sym_bss, ih]

/-- The units, entered in their order, are merged into one symbol. -/
theorem set_elf_syms_find {units : List (String × ElfSym)} (hnew : s.find_elf_sym name = none)
    (hcs : Contributions (contributions name units)) :
    contributions name units = [] ∧ (set_elf_syms s units).find_elf_sym name = none ∨
      ∃ e, (set_elf_syms s units).find_elf_sym name = some e ∧
        Resolved s.bss (contributions name units) e := by
  induction units using List.reverseRecOn with
  | nil => exact Or.inl ⟨rfl, hnew⟩
  | append_singleton units u ih =>
    rw [contributions_append] at hcs ⊢
    rw [set_elf_syms_append]
    by_cases hname : u.1 = name
    · rw [if_pos hname] at hcs ⊢
      obtain ⟨hempty, hnone⟩ | ⟨e, hfind, hres⟩ := ih hcs.of_append
      · refine Or.inr ⟨u.2, ?_, resolved_first s.bss fun d hd => ?_⟩
        · rw [hname]
          exact find_set_elf_sym_none (hcs.not_local u.2 (by simp)) hnone
        · rw [hempty] at hd
          exact absurd hd List.not_mem_nil
      · rw [← set_elf_syms_bss s units] at hres ⊢
        rw [hname]
        exact Or.inr (resolved_step hcs hfind hres)
    · rw [if_neg hname, List.append_nil] at hcs ⊢
      rw [find_set_elf_sym_of_ne hname]
      exact ih hcs

theorem Resolved.candidate {bss : Nat} (h : Resolved bss cs e) :
    ∃ c, Candidate cs c ∧ Same e c := by
  by_cases hglobal : ∃ c ∈ cs, IsGlobalDef c
  · obtain ⟨c, hc, hc', hsame⟩ := h.global hglobal
    exact ⟨c, ⟨hc, Or.inl hc'⟩, hsame⟩
  · have hnot (d : ElfSym) (hd : d ∈ cs) : ¬IsGlobalDef d := fun hd' => hglobal ⟨d, hd, hd'⟩
    cases hfind : cs.find? IsDef with
    | none =>
      have hundef (d : ElfSym) (hd : d ∈ cs) : ¬IsDef d := by
        simpa using List.find?_eq_none.mp hfind d hd
      exact ⟨e, ⟨h.undefined hundef, Or.inr ⟨hnot, Or.inr hundef⟩⟩, same_refl e⟩
    | some d =>
      have hdef : IsDef d := by simpa using List.find?_some hfind
      exact ⟨d, ⟨List.mem_of_find?_eq_some hfind, Or.inr ⟨hnot, Or.inl hdef⟩⟩,
        h.weak hnot d hfind⟩

/-- The most constraining visibility is kept, when it is not that of a reference alone. -/
theorem Resolved.vis_eq {bss : Nat} (h : Resolved bss cs e) (hvis : VisSettled cs) :
    ∀ c ∈ cs, rank c.vis ≤ rank e.vis := by
  intro c hc
  obtain hdefs | hall := hvis
  · obtain ⟨d, hd, hdef, hle⟩ := hdefs c hc
    exact hle.trans (h.le_vis d hd hdef)
  · by_cases hdef : ∃ d ∈ cs, IsDef d
    · obtain ⟨d, hd, hdef⟩ := hdef
      rw [hall c hc d hd]
      exact h.le_vis d hd hdef
    · rw [hall c hc e (h.undefined fun d hd hd' => hdef ⟨d, hd, hd'⟩)]

theorem Candidate.perm {cs' : List ElfSym} (hperm : cs'.Perm cs) (h : Candidate cs' c) :
    Candidate cs c := by
  obtain ⟨hc, hglobal | ⟨hnot, hdef⟩⟩ := h
  · exact ⟨hperm.mem_iff.mp hc, Or.inl hglobal⟩
  · refine ⟨hperm.mem_iff.mp hc, Or.inr ⟨fun d hd => hnot d (hperm.mem_iff.mpr hd), ?_⟩⟩
    exact hdef.imp_right fun hundef d hd => hundef d (hperm.mem_iff.mpr hd)

theorem Contributions.perm {cs' : List ElfSym} (hperm : cs'.Perm cs) (h : Contributions cs) :
    Contributions cs' where
  not_local c hc := h.not_local c (hperm.mem_iff.mp hc)
  common_global c hc := h.common_global c (hperm.mem_iff.mp hc)
  one_strong := (hperm.filter _).length_eq.trans_le h.one_strong

theorem Resolved.same {bss : Nat} {cs' : List ElfSym} {e' : ElfSym} (h : Resolved bss cs e)
    (h' : Resolved bss cs' e') (hperm : cs'.Perm cs) (hsettled : Settled bss cs) : Same e e' := by
  obtain ⟨d, hd, hstrong⟩ | hsame := hsettled
  · exact (h.strong d hd hstrong).trans (h'.strong d (hperm.mem_iff.mpr hd) hstrong).symm
  · obtain ⟨c, hc, hec⟩ := h.candidate
    obtain ⟨c', hc', hec'⟩ := h'.candidate
    exact hec.trans ((hsame c c' hc (hc'.perm hperm)).trans hec'.symm)

theorem VisSettled.perm {cs' : List ElfSym} (hperm : cs'.Perm cs) (h : VisSettled cs) :
    VisSettled cs' := by
  refine h.imp (fun hdefs u hu => ?_) fun hall c hc d hd => ?_
  · obtain ⟨d, hd, hd'⟩ := hdefs u (hperm.mem_iff.mp hu)
    exact ⟨d, hperm.mem_iff.mpr hd, hd'⟩
  · exact hall c (hperm.mem_iff.mp hc) d (hperm.mem_iff.mp hd)

/-- However the units are ordered: a name is defined when some unit defines it,
    strong data prevails over everything and global definitions over weak ones; a
    name that all units reference strongly and none defines is reported; and where
    a definition prevails in every order and the visibility is settled, all orders
    yield the same symbol. -/
theorem set_elf_syms_resolved {units : List (String × ElfSym)} (hnew : s.find_elf_sym name = none)
    (hcs : Contributions (contributions name units)) (hne : contributions name units ≠ []) :
    ∃ e, (set_elf_syms s units).find_elf_sym name = some e ∧
      Resolved s.bss (contributions name units) e ∧
      ((∀ c ∈ contributions name units, ¬IsDef c ∧ c.bind = .STB_GLOBAL) → reported e) ∧
      (VisSettled (contributions name units) →
        ∀ c ∈ contributions name units, rank c.vis ≤ rank e.vis) ∧
      ∀ units', (contributions name units').Perm (contributions name units) →
        ∃ e', (set_elf_syms s units').find_elf_sym name = some e' ∧ (IsDef e' ↔ IsDef e) ∧
          (Settled s.bss (contributions name units) → Same e e') ∧
          (VisSettled (contributions name units) → e.vis = e'.vis) := by
  obtain ⟨hempty, -⟩ | ⟨e, hfind, hres⟩ := set_elf_syms_find hnew hcs
  · exact absurd hempty hne
  refine ⟨e, hfind, hres, fun hundef => ?_, hres.vis_eq, fun units' hperm => ?_⟩
  · have hmem := hres.undefined fun c hc => (hundef c hc).1
    refine ⟨not_not.mp (hundef e hmem).1, ?_⟩
    rw [(hundef e hmem).2]
    exact nofun
  · obtain ⟨hempty, -⟩ | ⟨e', hfind', hres'⟩ := set_elf_syms_find hnew (hcs.perm hperm)
    · rw [hempty, List.nil_perm] at hperm
      exact absurd hperm hne
    refine ⟨e', hfind', ?_, hres.same hres' hperm, fun hvis => ?_⟩
    · rw [hres.defined, hres'.defined]
      simp only [hperm.mem_iff]
    · apply rank_inj
      obtain ⟨c, hc, hle⟩ := hres.vis_le
      obtain ⟨c', hc', hle'⟩ := hres'.vis_le
      exact le_antisymm (hle.trans (hres'.vis_eq (hvis.perm hperm) c (hperm.mem_iff.mpr hc)))
        (hle'.trans (hres.vis_eq hvis c' (hperm.mem_iff.mp hc')))

end

def empty_table : SymTab := ⟨fun _ => none, false, 3, false, []⟩

def common (size align : BitVec 64) : ElfSym := ⟨align, size, .STB_GLOBAL, 1#4, 0#8, SHN_COMMON⟩

def weak (value : BitVec 64) : ElfSym := ⟨value, 4#64, .STB_WEAK, 2#4, 0#8, 1⟩

def strong (value : BitVec 64) : ElfSym := ⟨value, 4#64, .STB_GLOBAL, 1#4, 3#8, 2⟩

/-- A strong definition prevails over a common symbol and a weak definition. -/
theorem strong_prevails : ∃ e, (set_elf_syms empty_table
    [("x", common 8#64 8#64), ("y", weak 0#64), ("x", strong 16#64), ("x", weak 32#64)]).find_elf_sym
      "x" = some e ∧ Same e (strong 16#64) := by
  obtain ⟨e, hfind, hres, -⟩ := @set_elf_syms_resolved empty_table "x"
    [("x", common 8#64 8#64), ("y", weak 0#64), ("x", strong 16#64), ("x", weak 32#64)]
    rfl ⟨by decide, by decide, by decide⟩ (by decide)
  exact ⟨e, hfind, hres.strong (strong 16#64) (by decide) (by decide)⟩

/-- Of two common symbols, and of two weak definitions, the first one is kept. -/
theorem first_kept :
    (set_elf_syms empty_table [("x", common 4#64 4#64), ("x", common 8#64 8#64)]).find_elf_sym "x" =
      some (common 4#64 4#64) ∧
    (set_elf_syms empty_table [("x", common 8#64 8#64), ("x", common 4#64 4#64)]).find_elf_sym "x" =
      some (common 8#64 8#64) ∧
    (set_elf_syms empty_table [("f", weak 0#64), ("f", weak 16#64)]).find_elf_sym "f" =
      some (weak 0#64) ∧
    (set_elf_syms empty_table [("f", weak 16#64), ("f", weak 0#64)]).find_elf_sym "f" =
      some (weak 16#64) := by
  decide

end tcc.elf
