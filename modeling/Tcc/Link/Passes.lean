import Tcc.Link.Loading

/-! The passes over an object after its sections are put. -/

namespace tcc.obj

open tcc.elf

theorem length_relocate_stabs (o n : Nat) (bytes : Bytes) : (relocate_stabs o n bytes).length = bytes.length := by
  induction n generalizing bytes with
  | zero => rfl
  | succ n ih =>
    rw [relocate_stabs]
    split
    · rfl
    · simp only [List.length_append, List.length_map, List.length_range, List.length_take, List.length_drop, ih]
      omega

/-- The strings of debugging symbols change only behind the contents of before. -/
theorem load_stabs_spec {s₀ s : State} {done : List (Shdr × Info)} {shdrs : List Shdr} {infos : List Info}
    (hplaced : Placed s₀ done s) (hsourced : Sourced s₀ done s) (hlinked : Linked s₀)
    (hdone : done = shdrs.zip infos) (hlength : infos.length = shdrs.length) :
    ∃ sections, load_stabs s infos = { s with sections } ∧ sections.length = s.sections.length ∧
      ∀ (k : Nat) (sec : Section), s.sections[k]? = some sec → ∃ data, sections[k]? = some { sec with data } ∧
        data.length = sec.data.length ∧ data.take (old_end s₀ k) = sec.data.take (old_end s₀ k) ∧
          ((∀ ab, s₀.stab_section = some ab → ab.1 ≠ k) → data = sec.data) := by
  have hsame : ∃ sections, s = { s with sections } ∧ sections.length = s.sections.length ∧
      ∀ (k : Nat) (sec : Section), s.sections[k]? = some sec → ∃ data, sections[k]? = some { sec with data } ∧
        data.length = sec.data.length ∧ data.take (old_end s₀ k) = sec.data.take (old_end s₀ k) ∧
          ((∀ ab, s₀.stab_section = some ab → ab.1 ≠ k) → data = sec.data) :=
    ⟨s.sections, rfl, rfl, fun k sec hsec => ⟨sec.data, hsec, rfl, rfl, fun _ => rfl⟩⟩
  rw [load_stabs]
  split
  · exact hsame
  · rename_i stab stabstr hstab
    rw [hplaced.stab_section] at hstab
    split
    · rename_i a b ha hb
      refine ⟨_, rfl, List.length_modify _ _ _, fun k sec hsec => ?_⟩
      by_cases hk : stab = k
      · subst hk
        refine ⟨sec.data.take a.offset ++
          relocate_stabs b.offset ((sec.data_offset - a.offset) / 12) (sec.data.drop a.offset), ?_, ?_, ?_, ?_⟩
        · rw [List.getElem?_modify_eq, hsec]
          rfl
        · rw [List.length_append, length_relocate_stabs, ← List.length_append, List.take_append_drop]
        · have hmem := List.mem_of_find?_eq_some ha
          have htest := List.find?_some ha
          rw [Bool.and_eq_true, beq_iff_eq] at htest
          rw [List.mem_reverse] at hmem
          obtain ⟨i, hi, heq⟩ := List.getElem_of_mem hmem
          have hi' : i < shdrs.length := by omega
          have hp : (shdrs[i], a) ∈ done := by
            rw [hdone, ← heq, ← List.getElem_zip]
            exact List.getElem_mem (by rw [List.length_zip]; omega)
          have hin : InSection (shdrs[i], a) stab := by
            refine ⟨htest.1, fun hsymtab => ?_⟩
            exact hlinked.stab _ hstab (hsourced.symtab _ hp hsymtab stab htest.1)
          obtain ⟨sec', hsec', hfits⟩ := hplaced.fits _ hp stab hin
          rw [hsec, Option.some.injEq] at hsec'
          subst hsec'
          have hbehind := hfits.behind
          dsimp only at hbehind
          by_cases hle : a.offset ≤ sec.data.length
          · rw [List.take_append_of_le_length (by rw [List.length_take]; omega), List.take_take]
            congr 1
            omega
          · rw [List.drop_eq_nil_of_le (by omega), List.take_of_length_le (by omega : sec.data.length ≤ a.offset)]
            have hnil : relocate_stabs b.offset ((sec.data_offset - a.offset) / 12) [] = [] :=
              List.length_eq_zero_iff.mp (length_relocate_stabs _ _ _)
            rw [hnil, List.append_nil]
        · intro hne
          exact absurd rfl (hne _ hstab)
      · refine ⟨sec.data, ?_, rfl, rfl, fun _ => rfl⟩
        rw [List.getElem?_modify_ne _ _ hk]
        exact hsec
    · exact hsame

/-- What a section gets for the links of an added one. -/
def LinkedBy (infos : List Info) (pairs : List (Shdr × Info)) (k : Nat) (sec : Section) (sh_info : Nat) : Prop :=
  (sh_info = sec.sh_info ∧ ∀ p ∈ pairs, p.2.new_section = true → p.2.s ≠ some k) ∨
    ∃ p ∈ pairs, p.2.s = some k ∧ p.2.new_section = true ∧
      (p.1.sh_type = SHT_RELA → ∃ t, (infos.getD p.1.sh_info Info.none).s = some t ∧ sh_info = sh_num t)

/-- Only the links of sections change that were added. -/
theorem link_sections_spec {infos : List Info} {pairs : List (Shdr × Info)} {s s' : State}
    (hlink : link_sections infos pairs s = some s') :
    ∃ sections, s' = { s with sections } ∧ sections.length = s.sections.length ∧
      ∀ (k : Nat) (sec : Section), s.sections[k]? = some sec → ∃ link sh_info,
        sections[k]? = some { sec with link, sh_info } ∧ LinkedBy infos pairs k sec sh_info := by
  induction pairs generalizing s with
  | nil =>
    cases hlink
    exact ⟨_, rfl, rfl, fun k sec hsec => ⟨sec.link, sec.sh_info, hsec, Or.inl ⟨rfl, by simp⟩⟩⟩
  | cons p pairs ih =>
    obtain ⟨sh, info⟩ := p
    rw [link_sections] at hlink
    obtain ⟨s₁, hsection, hrest⟩ := Option.bind_eq_some_iff.mp hlink
    obtain ⟨sections, rfl, hlength, hsections⟩ := ih hrest
    have hskip : (info.new_section = true → info.s = none) → s₁ = s → ∃ sections',
        ({ s₁ with sections } : State) = { s with sections := sections' } ∧
          sections'.length = s.sections.length ∧ ∀ (k : Nat) (sec : Section), s.sections[k]? = some sec →
            ∃ link sh_info, sections'[k]? = some { sec with link, sh_info } ∧
              LinkedBy infos ((sh, info) :: pairs) k sec sh_info := by
      rintro hnew rfl
      refine ⟨sections, rfl, hlength, fun k sec hsec => ?_⟩
      obtain ⟨link, sh_info, hget, hlinked⟩ := hsections k sec hsec
      refine ⟨link, sh_info, hget, hlinked.imp (fun h => ⟨h.1, fun q hq hq_new hk => ?_⟩) fun h => ?_⟩
      · rcases List.mem_cons.mp hq with rfl | hq
        · rw [hnew hq_new] at hk
          cases hk
        · exact h.2 q hq hq_new hk
      · obtain ⟨q, hq, h⟩ := h
        exact ⟨q, List.mem_cons_of_mem _ hq, h⟩
    rw [link_section] at hsection
    split at hsection
    · rename_i k₀ hk₀
      split at hsection
      · rename_i hnew
        obtain ⟨sh_info₀, hinfo, heq⟩ := Option.map_eq_some_iff.mp hsection
        cases heq
        have htarget : sh.sh_type = SHT_RELA →
            ∃ t, (infos.getD sh.sh_info Info.none).s = some t ∧ sh_info₀ = sh_num t := by
          intro hrela
          rw [if_pos hrela] at hinfo
          obtain ⟨t, ht, rfl⟩ := Option.map_eq_some_iff.mp hinfo
          exact ⟨t, ht, rfl⟩
        rw [List.length_modify] at hlength
        refine ⟨sections, rfl, hlength, fun k sec hsec => ?_⟩
        by_cases hk : k₀ = k
        · subst hk
          obtain ⟨link, sh_info, hget, hlinked⟩ := hsections k₀ _
            (by rw [List.getElem?_modify_eq, hsec]; rfl)
          refine ⟨link, sh_info, hget, Or.inr ?_⟩
          rcases hlinked with ⟨rfl, -⟩ | ⟨q, hq, h⟩
          · exact ⟨(sh, info), List.mem_cons_self, hk₀, hnew, htarget⟩
          · exact ⟨q, List.mem_cons_of_mem _ hq, h⟩
        · obtain ⟨link, sh_info, hget, hlinked⟩ := hsections k sec
            (by rw [List.getElem?_modify_ne _ _ hk]; exact hsec)
          refine ⟨link, sh_info, hget, hlinked.imp (fun h => ⟨h.1, fun q hq hq_new hqk => ?_⟩) fun h => ?_⟩
          · rcases List.mem_cons.mp hq with rfl | hq
            · exact hk (Option.some.inj (hk₀.symm.trans hqk))
            · exact h.2 q hq hq_new hqk
          · obtain ⟨q, hq, h⟩ := h
            exact ⟨q, List.mem_cons_of_mem _ hq, h⟩
      · rename_i hnew
        exact hskip (fun h => absurd h hnew) (Option.some.inj hsection).symm
    · rename_i hnone
      exact hskip (fun _ => hnone) (Option.some.inj hsection).symm

/-- Where a symbol of the object is found: what is not left out, and what another section has that
    is there already. -/
structure Resolved (infos : List Info) (x : Named) (syms : List Named) (sym_index : Nat) : Prop where
  moved : ∀ sym, in_link_once infos x.2 = false → moved_symbol infos x.2 = some sym →
    ∃ y, syms[sym_index]? = some y ∧ Becomes (x.1, sym) y
  once : in_link_once infos x.2 = true → sym_index ≠ 0 →
    ∃ y : Named, syms[sym_index]? = some y ∧ y.1 = x.1 ∧ y.2.bind ≠ .STB_LOCAL

theorem Resolved.extend {infos : List Info} {x : Named} {syms syms' : List Named} {sym_index : Nat}
    (hresolved : Resolved infos x syms sym_index) (hextends : Extends syms syms') :
    Resolved infos x syms' sym_index := by
  refine ⟨fun sym honce hmoved => ?_, fun honce hne => ?_⟩
  · obtain ⟨y, hy, hbecomes⟩ := hresolved.moved sym honce hmoved
    obtain ⟨z, hz, hbecomes'⟩ := hextends _ y hy
    exact ⟨z, hz, hbecomes.trans hbecomes'⟩
  · obtain ⟨y, hy, hname, hlocal⟩ := hresolved.once honce hne
    obtain ⟨z, hz, hbecomes⟩ := hextends _ y hy
    exact ⟨z, hz, hbecomes.name.trans hname, hbecomes.not_local hlocal⟩

theorem load_symbol_spec (infos : List Info) {s : State} (hunique : Unique s.syms) (x : Named) :
    ∃ syms sym_index, load_symbol infos s x = ({ s with syms }, sym_index) ∧ Extends s.syms syms ∧
      Unique syms ∧ Resolved infos x syms sym_index := by
  rw [load_symbol]
  split
  · rename_i honce
    refine ⟨s.syms, _, rfl, Extends.refl _, hunique, fun sym h => ?_, fun _ hne => ?_⟩
    · rw [honce] at h
      cases h
    · split at hne
      · rename_i hlocal
        rw [if_pos hlocal]
        cases hfind : find s.syms x.1 with
        | none =>
          rw [hfind] at hne
          exact absurd rfl hne
        | some k =>
          obtain ⟨y, hy, hylocal, hname⟩ := find_eq_some hfind
          exact ⟨y, hy, hname, hylocal⟩
      · exact absurd rfl hne
  · rename_i honce
    split
    · rename_i hnone
      refine ⟨s.syms, _, rfl, Extends.refl _, hunique, fun sym _ h => ?_, fun h => absurd h honce⟩
      rw [hnone] at h
      cases h
    · rename_i sym hsym
      have henter := enter_spec s.rules hunique (x.1, sym)
      refine ⟨_, _, rfl, henter.extends_, henter.unique, fun sym' _ h => ?_, fun h => absurd h honce⟩
      rw [hsym, Option.some.injEq] at h
      subst h
      exact henter.entry

/-- Each symbol has its entry. -/
theorem load_symbols_spec (infos : List Info) {s : State} (hunique : Unique s.syms) (xs : List Named) :
    ∃ syms tr, load_symbols infos xs s = ({ s with syms }, tr) ∧ Extends s.syms syms ∧ Unique syms ∧
      ∀ (i : Nat) (x : Named), xs[i]? = some x → ∃ sym_index, tr[i]? = some sym_index ∧
        Resolved infos x syms sym_index := by
  induction xs generalizing s with
  | nil => exact ⟨s.syms, [], rfl, Extends.refl _, hunique, by simp⟩
  | cons x xs ih =>
    obtain ⟨syms₁, sym_index, hload, hextends, hunique₁, hresolved⟩ := load_symbol_spec infos hunique x
    obtain ⟨syms₂, tr, hrest, hextends₂, hunique₂, hall⟩ := @ih { s with syms := syms₁ } hunique₁
    refine ⟨syms₂, sym_index :: tr, ?_, hextends.trans hextends₂, hunique₂, fun i y hy => ?_⟩
    · rw [load_symbols, hload]
      dsimp only
      rw [hrest]
    · cases i with
      | zero =>
        cases hy
        exact ⟨sym_index, rfl, hresolved.extend hextends₂⟩
      | succ i => exact hall i y hy

end tcc.obj
