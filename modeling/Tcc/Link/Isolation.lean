import Tcc.Link.Passes

/-! When an object is loaded without touching what was loaded before. -/

namespace tcc.obj

open tcc.elf

/-- A relocation of the object for a section that is at `offset`. -/
def move (old_to_new_syms : List Nat) (offset : Nat) (rel : Rel) : Rel :=
  { rel with r_sym := old_to_new_syms.getD rel.r_sym 0, r_offset := rel.r_offset + offset }

/-- The relocations of a section of the object in one of the linker, after they are patched. -/
def moved_in (infos : List Info) (tr : List Nat) (k : Nat) (p : Shdr × Info) : List Rel :=
  if p.2.s = some k then p.1.rels.map (move tr (infos.getD p.1.sh_info Info.none).offset) else []

theorem load_rel_eq {infos : List Info} {tr : List Nat} {sh_info : Nat} {rel rel' : Rel}
    (hload : load_rel infos tr sh_info rel = some rel') :
    rel' = move tr (infos.getD sh_info Info.none).offset rel := by
  rw [load_rel] at hload
  split at hload
  · cases hload
  · rename_i sym_index hsym
    dsimp only at hload
    split at hload
    · cases hload
    · cases hload
      have hindex : tr.getD rel.r_sym 0 = sym_index := by
        rw [List.getD_eq_getElem?_getD, hsym]
        rfl
      rw [move, hindex]

theorem mapM_eq_map {α β : Type} {f : α → Option β} {g : α → β} {xs : List α} {ys : List β}
    (hfg : ∀ x y, f x = some y → y = g x) (hmap : xs.mapM f = some ys) : ys = xs.map g := by
  induction xs generalizing ys with
  | nil =>
    cases hmap
    rfl
  | cons x xs ih =>
    rw [List.mapM_cons] at hmap
    obtain ⟨y, hy, hmap⟩ := Option.bind_eq_some_iff.mp hmap
    obtain ⟨ys', hys, heq⟩ := Option.bind_eq_some_iff.mp hmap
    cases heq
    rw [List.map_cons, hfg x y hy, ih hys]

/-- The middle of three parts is patched. -/
theorem patch_rels_eq {f : Rel → Option Rel} {g : Rel → Rel} (hfg : ∀ x y, f x = some y → y = g x)
    {first last : Nat} {xs ys zs rels : List Rel} (hfirst : first = xs.length)
    (hlast : last = xs.length + ys.length) (hpatch : patch_rels f first last (xs ++ (ys ++ zs)) = some rels) :
    rels = xs ++ (ys.map g ++ zs) := by
  subst hfirst hlast
  rw [patch_rels] at hpatch
  obtain ⟨patched, hmap, heq⟩ := Option.bind_eq_some_iff.mp hpatch
  cases heq
  have hsplit : ((xs ++ (ys ++ zs)).take (xs.length + ys.length)).drop xs.length = ys := by
    rw [← List.append_assoc, ← List.length_append, List.take_left, List.drop_left]
  rw [hsplit] at hmap
  have hdrop : (xs ++ (ys ++ zs)).drop (xs.length + ys.length) = zs := by
    rw [← List.append_assoc, ← List.length_append, List.drop_left]
  rw [mapM_eq_map hfg hmap, List.take_left, hdrop, List.append_assoc]

theorem length_moved_in (infos : List Info) (tr : List Nat) (k : Nat) (p : Shdr × Info) :
    (moved_in infos tr k p).length = (rels_in k p).length := by
  rw [moved_in, rels_in]
  split
  · rw [List.length_map]
  · rfl

theorem length_flatMap_moved_in (infos : List Info) (tr : List Nat) (k : Nat) (ps : List (Shdr × Info)) :
    (ps.flatMap (moved_in infos tr k)).length = (ps.flatMap (rels_in k)).length := by
  rw [List.length_flatMap, List.length_flatMap]
  congr 1
  exact List.map_congr_left fun p _ => length_moved_in infos tr k p

/-- The relocations of the object are patched, each section's where they were put. -/
theorem patch_sections_spec {s₀ s s' : State} {infos : List Info} {tr : List Nat}
    {pre rest : List (Shdr × Info)}
    (hkind : ∀ p ∈ pre ++ rest, ∀ (k : Nat) (sec : Section), p.2.s = some k → s.sections[k]? = some sec →
      (sec.sh_type = SHT_RELA ↔ p.1.sh_type = SHT_RELA))
    (hnil : ∀ p ∈ pre ++ rest, p.1.sh_type ≠ SHT_RELA → p.1.rels = [])
    (hsize : ∀ p ∈ pre ++ rest, p.1.sh_type = SHT_RELA → p.1.sh_size = 24 * p.1.rels.length)
    (hoffset : ∀ (pre' post : List (Shdr × Info)) (p : Shdr × Info) (k : Nat),
      pre ++ rest = pre' ++ p :: post → p.2.s = some k → p.1.sh_type = SHT_RELA →
        p.2.offset = 24 * (old_rels s₀ k ++ pre'.flatMap (rels_in k)).length)
    (hrels : ∀ (k : Nat) (sec : Section), s.sections[k]? = some sec →
      sec.rels = old_rels s₀ k ++ (pre.flatMap (moved_in infos tr k) ++ rest.flatMap (rels_in k)))
    (hpatch : patch_sections infos tr rest s = some s') :
    ∃ sections, s' = { s with sections } ∧ sections.length = s.sections.length ∧
      ∀ (k : Nat) (sec : Section), s.sections[k]? = some sec → ∃ rels, sections[k]? = some { sec with rels } ∧
        rels = old_rels s₀ k ++ (pre ++ rest).flatMap (moved_in infos tr k) := by
  induction rest generalizing pre s with
  | nil =>
    cases hpatch
    refine ⟨_, rfl, rfl, fun k sec hsec => ⟨sec.rels, hsec, ?_⟩⟩
    rw [hrels k sec hsec, List.append_nil, List.flatMap_nil, List.append_nil]
  | cons p rest ih =>
    obtain ⟨sh, info⟩ := p
    rw [patch_sections] at hpatch
    obtain ⟨s₁, hsection, hrest⟩ := Option.bind_eq_some_iff.mp hpatch
    have hassoc : pre ++ (sh, info) :: rest = pre ++ [(sh, info)] ++ rest := by
      rw [List.append_assoc, List.singleton_append]
    have hmem : (sh, info) ∈ pre ++ (sh, info) :: rest :=
      List.mem_append_right _ List.mem_cons_self
    have hskip : (∀ (k : Nat) (sec : Section), s.sections[k]? = some sec →
        moved_in infos tr k (sh, info) = rels_in k (sh, info)) → s₁ = s →
          ∃ sections, s' = { s with sections } ∧ sections.length = s.sections.length ∧
            ∀ (k : Nat) (sec : Section), s.sections[k]? = some sec → ∃ rels,
              sections[k]? = some { sec with rels } ∧
                rels = old_rels s₀ k ++ (pre ++ (sh, info) :: rest).flatMap (moved_in infos tr k) := by
      rintro hsame rfl
      rw [hassoc] at hkind hnil hsize hoffset ⊢
      refine ih hkind hnil hsize hoffset (fun k sec hsec => ?_) hrest
      rw [List.flatMap_append, List.flatMap_singleton, hsame k sec hsec, hrels k sec hsec, List.flatMap_cons,
        List.append_assoc]
    rw [patch_section] at hsection
    split at hsection
    · rename_i hnone
      refine hskip (fun k _ _ => ?_) (Option.some.inj hsection).symm
      rw [moved_in, rels_in, hnone, if_neg (by simp), if_neg (by simp)]
    · rename_i k₀ hk₀
      split at hsection
      · rename_i hnone
        refine hskip (fun k sec hsec => ?_) (Option.some.inj hsection).symm
        have hne : ¬info.s = some k := by
          rw [hk₀]
          rintro h
          cases h
          rw [hnone] at hsec
          cases hsec
        rw [moved_in, rels_in, if_neg hne, if_neg hne]
      · rename_i sec₀ hsec₀
        split at hsection
        · rename_i hrela
          have hrela' : sh.sh_type = SHT_RELA := (hkind _ hmem k₀ sec₀ hk₀ hsec₀).mp hrela
          obtain ⟨rels₀, hrels₀, heq⟩ := Option.bind_eq_some_iff.mp hsection
          cases heq
          have hfirst := hoffset pre rest (sh, info) k₀ rfl hk₀ hrela'
          have hlength := hsize _ hmem hrela'
          have hold := hrels k₀ sec₀ hsec₀
          rw [List.flatMap_cons, ← List.append_assoc] at hold
          have hmine : rels_in k₀ (sh, info) = sh.rels := by
            rw [rels_in, if_pos hk₀]
          rw [hold, hmine] at hrels₀
          dsimp only at hfirst hlength
          have hcount : (old_rels s₀ k₀ ++ pre.flatMap (rels_in k₀)).length =
              (old_rels s₀ k₀ ++ pre.flatMap (moved_in infos tr k₀)).length := by
            rw [List.length_append, List.length_append, length_flatMap_moved_in]
          rw [hcount] at hfirst
          have hnew := patch_rels_eq (fun x y h => load_rel_eq h) (by rw [hfirst]; omega)
            (by rw [hfirst, hlength]; omega) hrels₀
          have hlt := (List.getElem?_eq_some_iff.mp hsec₀).1
          have hget : (s.sections.set k₀ { sec₀ with rels := rels₀ })[k₀]? = some { sec₀ with rels := rels₀ } :=
            List.getElem?_set_self hlt
          rw [hassoc] at hkind hnil hsize hoffset ⊢
          obtain ⟨sections, rfl, hlen, hsections⟩ := @ih
            { s with sections := s.sections.set k₀ { sec₀ with rels := rels₀ } } (pre ++ [(sh, info)])
            (fun q hq k sec hk hsec => by
              by_cases hkk : k₀ = k
              · subst hkk
                rw [hget, Option.some.injEq] at hsec
                subst hsec
                exact hkind q hq k₀ sec₀ hk hsec₀
              · rw [List.getElem?_set_ne hkk] at hsec
                exact hkind q hq k sec hk hsec)
            hnil hsize hoffset
            (fun k sec hsec => by
              rw [List.flatMap_append, List.flatMap_singleton]
              by_cases hkk : k₀ = k
              · subst hkk
                rw [hget, Option.some.injEq] at hsec
                subst hsec
                rw [hnew, moved_in, if_pos hk₀]
                simp only [List.append_assoc]
              · rw [List.getElem?_set_ne hkk] at hsec
                have hne : ¬info.s = some k := fun h => hkk (Option.some.inj (hk₀.symm.trans h))
                rw [hrels k sec hsec, List.flatMap_cons, moved_in, rels_in, if_neg hne, if_neg hne,
                  List.nil_append, List.append_nil])
            hrest
          rw [List.length_set] at hlen
          refine ⟨sections, rfl, hlen, fun k sec hsec => ?_⟩
          by_cases hkk : k₀ = k
          · subst hkk
            rw [hsec₀, Option.some.injEq] at hsec
            subst hsec
            obtain ⟨rels, hsections, heq⟩ := hsections k₀ _ hget
            exact ⟨rels, hsections, heq⟩
          · exact hsections k sec (by rw [List.getElem?_set_ne hkk]; exact hsec)
        · rename_i hrela
          refine hskip (fun k sec hsec => ?_) (Option.some.inj hsection).symm
          have hrela' : sh.sh_type ≠ SHT_RELA := fun h => hrela ((hkind _ hmem k₀ sec₀ hk₀ hsec₀).mpr h)
          rw [moved_in, rels_in, hnil _ hmem hrela']
          rfl

/-- What an object has to be: sections of relocations are named after the ones they are for. -/
structure Object.WellFormed (obj : Object) : Prop where
  header : ∃ sh₀ shdrs, obj.shdrs = sh₀ :: shdrs ∧ sh₀.sh_type = 0 ∧ sh₀.name.1 = [] ∧ sh₀.rels = []
  sections : ∀ sh ∈ obj.shdrs.tail, sh.WellFormed
  relocs : ∀ sh ∈ obj.shdrs, sh.sh_type = SHT_RELA → ∃ tgt, obj.shdrs[sh.sh_info]? = some tgt ∧
    tgt.sh_type ≠ SHT_RELA ∧ sh.name.1 = chars ".rela" ++ tgt.name.1
  stabstr : ∀ sh ∈ obj.shdrs, sh.name.1 = chars ".stabstr" → sh.sh_type = SHT_STRTAB
  shstrtab : ∀ sh, obj.shdrs[obj.e_shstrndx]? = some sh → sh.handled = false ∧ sh.sh_type ≠ SHT_RELA

/-- The linker after an object: the sections of the object with where they are put are `all`. -/
structure Loaded (s : State) (obj : Object) (infos : List Info) (tr : List Nat) (all : List (Shdr × Info))
    (s' : State) : Prop where
  tested : Tested s obj all
  unchanged : ∀ (k : Nat) (sec : Section), s.sections[k]? = some sec → ∃ sec', s'.sections[k]? = some sec' ∧
    sec'.name = sec.name ∧ sec'.sh_type = sec.sh_type ∧ sec'.sh_info = sec.sh_info ∧
      List.IsPrefix sec.data sec'.data ∧ sec.data_offset ≤ sec'.data_offset
  fits : ∀ p ∈ all, ∀ k, InSection p k → ∃ sec', s'.sections[k]? = some sec' ∧ sec'.name = p.1.name ∧
    sec'.sh_type = p.1.sh_type ∧ p.1.align ∣ p.2.offset ∧ old_end s k ≤ p.2.offset ∧
      p.2.offset + p.1.sh_size ≤ sec'.data_offset ∧
        (p.1.sh_type ≠ SHT_RELA → p.1.sh_type ≠ SHT_NOBITS → (∀ ab, s.stab_section = some ab → ab.1 ≠ k) →
          (sec'.data.drop p.2.offset).take p.1.sh_size = p.1.data)
  disjoint : all.Pairwise fun p q => ∀ k, InSection p k → InSection q k →
    p.2.offset + p.1.sh_size ≤ q.2.offset
  rels : ∀ (k : Nat) (sec' : Section), s'.sections[k]? = some sec' →
    sec'.rels = old_rels s k ++ all.flatMap (moved_in infos tr k)
  linked : Linked s'
  symbols : ∀ (i : Nat) (x : Named), obj.syms.tail[i]? = some x → ∃ sym_index, tr[i + 1]? = some sym_index ∧
    Resolved infos x s'.syms sym_index

/-- Sections that are put somewhere have passed the tests, and are not symbol tables. -/
theorem passes_of_inSection {s : State} {obj : Object} {all : List (Shdr × Info)} (htested : Tested s obj all)
    {p₀ : Shdr × Info} {rest : List (Shdr × Info)} (hall : all = p₀ :: rest) (hnone : p₀.2.s = none)
    {p : Shdr × Info} (hp : p ∈ all) {k : Nat} (hin : InSection p k) :
    ∃ i, all[i]? = some p ∧ obj.passes i p.1 = true := by
  obtain ⟨pre, post, hsplit⟩ := List.append_of_mem hp
  have hpre : pre ≠ [] := by
    rintro rfl
    rw [hall, List.nil_append] at hsplit
    cases hsplit
    exact absurd (hnone.symm.trans hin.1) (by simp)
  obtain ⟨htest, -⟩ := htested pre post p hsplit hpre
  refine ⟨pre.length, ?_, (htest.mp ⟨k, hin⟩).2.1⟩
  rw [hsplit, List.getElem?_append_right (Nat.le_refl _), Nat.sub_self]
  rfl

/-- What a section of relocations that passes is for is handled, and not a symbol table. -/
theorem target_of_passes {obj : Object} (hobj : obj.WellFormed) {i : Nat} {sh tgt : Shdr}
    (htgt : obj.shdrs[sh.sh_info]? = some tgt) (hrela : sh.sh_type = SHT_RELA)
    (hpasses : obj.passes i sh = true) : tgt.handled = true ∧ tgt.sh_type ≠ SHT_SYMTAB := by
  have hhandled : tgt.handled = true := by
    rw [Object.passes, Object.examined, if_pos hrela, htgt, Bool.and_eq_true] at hpasses
    exact ((Bool.and_eq_true _ _).mp hpasses.2).1
  refine ⟨hhandled, fun hsymtab => ?_⟩
  rw [Shdr.handled, Bool.or_eq_true, beq_iff_eq, hsymtab] at hhandled
  rcases hhandled with h | h
  · revert h
    decide
  · have := hobj.stabstr tgt (List.mem_of_getElem? htgt) h
    rw [hsymtab] at this
    revert this
    decide

theorem getElem?_zip_infos {obj : Object} {infos : List Info} (hlength : infos.length = obj.shdrs.length)
    {i : Nat} {sh : Shdr} (hsh : obj.shdrs[i]? = some sh) :
    (obj.shdrs.zip infos)[i]? = some (sh, infos.getD i Info.none) := by
  have hi := (List.getElem?_eq_some_iff.mp hsh).1
  rw [List.getElem?_zip_eq_some]
  refine ⟨hsh, ?_⟩
  rw [List.getD_eq_getElem?_getD, List.getElem?_eq_getElem (by omega)]
  rfl

/-- The relocations of a section are for the one that it is named after. -/
theorem relocs_target {s s₁ : State} {obj : Object} {infos : List Info} (hlinked : Linked s)
    (hobj : obj.WellFormed) (hlength : infos.length = obj.shdrs.length)
    (hplaced : Placed s (obj.shdrs.zip infos) s₁) (hsourced : Sourced s (obj.shdrs.zip infos) s₁)
    (htested : Tested s obj (obj.shdrs.zip infos)) (hnone : (infos.getD 0 Info.none).s = none) {k : Nat}
    {sec : Section} (hsec : s₁.sections[k]? = some sec) (hrela : sec.sh_type = SHT_RELA) {sh_info : Nat}
    (hlink : LinkedBy infos (obj.shdrs.zip infos) k sec sh_info) :
    ∃ (t : Nat) (tgt : Section), sh_info = sh_num t ∧ s₁.sections[t]? = some tgt ∧
      sec.name.1 = chars ".rela" ++ tgt.name.1 := by
  obtain ⟨symtab, hsymtab, hsymtab_type⟩ := hlinked.symtab
  rcases hlink with ⟨rfl, hno⟩ | ⟨p, hp, hk, hnew, htarget⟩
  · by_cases hlt : k < s.sections.length
    · obtain ⟨sec', hsec', hgrown⟩ := hplaced.grown k _ (List.getElem?_eq_getElem hlt)
      rw [hsec, Option.some.injEq] at hsec'
      subst hsec'
      obtain ⟨t, tgt, hinfo, htgt, hname⟩ := hlinked.relocs k _ (List.getElem?_eq_getElem hlt)
        (hgrown.sh_type ▸ hrela)
      obtain ⟨tgt', htgt', hgrown'⟩ := hplaced.grown t tgt htgt
      exact ⟨t, tgt', hgrown.sh_info.trans hinfo, htgt', by rw [hgrown.name, hname, hgrown'.name]⟩
    · obtain ⟨p, hp, hin, hnew⟩ := hsourced.added k (by omega) (List.getElem?_eq_some_iff.mp hsec).1
      exact absurd hin.1 (hno p hp hnew)
  · have hin : InSection p k := by
      refine ⟨hk, fun h => ?_⟩
      have hle := hsourced.not_before p hp hnew k hk
      have heq := hsourced.symtab p hp h k hk
      rw [heq] at hle
      exact absurd (List.getElem?_eq_some_iff.mp hsymtab).1 (Nat.not_lt.mpr hle)
    obtain ⟨sec', hsec', hfits⟩ := hplaced.fits p hp k hin
    rw [hsec, Option.some.injEq] at hsec'
    subst hsec'
    have hp_rela : p.1.sh_type = SHT_RELA := hfits.sh_type ▸ hrela
    obtain ⟨t, ht, rfl⟩ := htarget hp_rela
    obtain ⟨tgt, htgt, -, hname⟩ := hobj.relocs p.1 (List.of_mem_zip hp).1 hp_rela
    obtain ⟨sh₀, shdrs, hshdrs, -⟩ := hobj.header
    obtain ⟨p₀, rest, hall, hp₀⟩ : ∃ p₀ rest, obj.shdrs.zip infos = p₀ :: rest ∧ p₀.2.s = none := by
      have hhead : obj.shdrs[0]? = some sh₀ := by
        rw [hshdrs]
        rfl
      have hget := getElem?_zip_infos hlength hhead
      cases hzip : obj.shdrs.zip infos with
      | nil =>
        rw [hzip] at hget
        cases hget
      | cons p₀ rest =>
        rw [hzip] at hget
        cases hget
        exact ⟨_, rest, rfl, hnone⟩
    obtain ⟨i, -, hpasses⟩ := passes_of_inSection htested hall hp₀ hp hin
    have htgt_in : InSection (tgt, infos.getD p.1.sh_info Info.none) t :=
      ⟨ht, (target_of_passes hobj htgt hp_rela hpasses).2⟩
    obtain ⟨tgt', htgt', hfits'⟩ := hplaced.fits _
      (List.mem_of_getElem? (getElem?_zip_infos hlength htgt)) t htgt_in
    exact ⟨t, tgt', rfl, htgt', by rw [hfits.name, hname, hfits'.name]⟩

/-- An object that is loaded: where its sections are put, and its symbols and relocations. -/
theorem loaded_of_load {s s' : State} {obj : Object} {infos : List Info} {tr : List Nat} (hlinked : Linked s)
    (hobj : obj.WellFormed) (hload : tcc_load_object_file s obj = some (s', infos, tr)) :
    infos.length = obj.shdrs.length ∧ (infos.getD 0 Info.none).s = none ∧
      Loaded s obj infos tr (obj.shdrs.zip infos) s' := by
  obtain ⟨sh₀, shdrs, hshdrs, hnull, -, hrels₀⟩ := hobj.header
  rw [tcc_load_object_file] at hload
  split at hload
  · cases hload
  obtain ⟨⟨s₁, infos₁⟩, hsections, hload⟩ := Option.bind_eq_some_iff.mp hload
  obtain ⟨s₃, hlink, hload⟩ := Option.bind_eq_some_iff.mp hload
  obtain ⟨s₅, hpatch, heq⟩ := Option.bind_eq_some_iff.mp hload
  cases heq
  have hwf := hobj.sections
  rw [hshdrs, List.tail_cons] at hsections hwf
  obtain ⟨hlength, hplaced, hsourced, htested⟩ := load_object_sections hlinked hshdrs hrels₀ hwf hsections
  have hlen : (Info.none :: infos₁).length = obj.shdrs.length := by
    rw [hshdrs, List.length_cons, List.length_cons, hlength]
  obtain ⟨infos, hinfos⟩ : ∃ infos, infos = Info.none :: infos₁ := ⟨_, rfl⟩
  obtain ⟨all, hall⟩ : ∃ all, all = obj.shdrs.zip infos := ⟨_, rfl⟩
  have hfirst : (infos.getD 0 Info.none).s = none := by
    rw [hinfos]
    rfl
  rw [← hinfos] at hlink hpatch hplaced hsourced htested hlen ⊢
  obtain ⟨sections₂, hstabs, hlength₂, hsections₂⟩ := load_stabs_spec hplaced hsourced hlinked rfl hlen
  rw [hstabs] at hlink
  obtain ⟨sections₃, rfl, hlength₃, hsections₃⟩ := link_sections_spec hlink
  have hunique : Unique s₁.syms := by
    rw [hplaced.syms]
    exact hlinked.unique
  obtain ⟨syms, tr', hsyms, -, hunique', hresolved⟩ :=
    @load_symbols_spec infos { s₁ with sections := sections₃ } hunique obj.syms.tail
  dsimp only at hpatch hsyms
  rw [hsyms] at hpatch ⊢
  dsimp only at hpatch ⊢
  have hback : ∀ {k : Nat} {sec : Section}, sections₃[k]? = some sec → ∃ sec₁ data link sh_info,
      s₁.sections[k]? = some sec₁ ∧ sec = { sec₁ with data, link, sh_info } ∧
        data.length = sec₁.data.length ∧ data.take (old_end s k) = sec₁.data.take (old_end s k) ∧
          ((∀ ab, s.stab_section = some ab → ab.1 ≠ k) → data = sec₁.data) ∧
            LinkedBy infos (obj.shdrs.zip infos) k sec₁ sh_info := by
    intro k sec hsec
    have hk := (List.getElem?_eq_some_iff.mp hsec).1
    rw [hlength₃, hlength₂] at hk
    obtain ⟨data, hsec₂, hdata⟩ := hsections₂ k _ (List.getElem?_eq_getElem hk)
    obtain ⟨link, sh_info, hsec₃, hlinkedBy⟩ := hsections₃ k _ hsec₂
    rw [hsec, Option.some.injEq] at hsec₃
    exact ⟨_, data, link, sh_info, List.getElem?_eq_getElem hk, hsec₃, hdata.1, hdata.2.1, hdata.2.2, hlinkedBy⟩
  have hsized : ∀ p ∈ obj.shdrs.zip infos, p.1.sh_type = SHT_RELA → p.1.sh_size = 24 * p.1.rels.length := by
    intro p hp hrela
    have hmem := (List.of_mem_zip hp).1
    rw [hshdrs] at hmem
    rcases List.mem_cons.mp hmem with hp₀ | hmem
    · rw [hp₀, hnull] at hrela
      exact absurd hrela (by decide)
    · exact ((hwf _ hmem).rels_size hrela).1
  have hrela_in : ∀ {p : Shdr × Info} {k : Nat}, p.2.s = some k → p.1.sh_type = SHT_RELA → InSection p k :=
    fun hk hrela => ⟨hk, by rw [hrela]; decide⟩
  obtain ⟨symtab, hsymtab, hsymtab_type⟩ := hlinked.symtab
  have hkind : ∀ p ∈ obj.shdrs.zip infos, ∀ (k : Nat) (sec : Section), p.2.s = some k →
      sections₃[k]? = some sec → (sec.sh_type = SHT_RELA ↔ p.1.sh_type = SHT_RELA) := by
    intro p hp k sec hk hsec
    obtain ⟨sec₁, data, link, sh_info, hsec₁, rfl, -⟩ := hback hsec
    by_cases hp_symtab : p.1.sh_type = SHT_SYMTAB
    · cases hsourced.symtab p hp hp_symtab k hk
      obtain ⟨symtab', hsymtab', hgrown⟩ := hplaced.grown _ _ hsymtab
      rw [hsec₁, Option.some.injEq] at hsymtab'
      subst hsymtab'
      dsimp only
      rw [hgrown.sh_type, hsymtab_type, hp_symtab]
    · obtain ⟨sec', hsec', hfits⟩ := hplaced.fits p hp k ⟨hk, hp_symtab⟩
      rw [hsec₁, Option.some.injEq] at hsec'
      subst hsec'
      dsimp only
      rw [hfits.sh_type]
  obtain ⟨sections₅, rfl, hlength₅, hsections₅⟩ := @patch_sections_spec s
    { s₁ with sections := sections₃, syms } s' infos _ [] (obj.shdrs.zip infos) hkind hplaced.rels_nil hsized
    (fun pre post p k hsplit hk hrela => hplaced.rel_offset pre post p k hsplit (hrela_in hk hrela) hrela)
    (fun k sec hsec => by
      obtain ⟨sec₁, data, link, sh_info, hsec₁, rfl, -⟩ := hback hsec
      exact hplaced.rels k sec₁ hsec₁)
    hpatch
  dsimp only at hlength₅ hsections₅ ⊢
  have hfinal : ∀ {k : Nat} {sec₁ : Section}, s₁.sections[k]? = some sec₁ → ∃ data link sh_info rels,
      sections₅[k]? = some { sec₁ with data, link, sh_info, rels } ∧ data.length = sec₁.data.length ∧
        data.take (old_end s k) = sec₁.data.take (old_end s k) ∧
          ((∀ ab, s.stab_section = some ab → ab.1 ≠ k) → data = sec₁.data) ∧
            LinkedBy infos (obj.shdrs.zip infos) k sec₁ sh_info := by
    intro k sec₁ hsec₁
    obtain ⟨data, hsec₂, hdata, htake, hstab⟩ := hsections₂ k sec₁ hsec₁
    obtain ⟨link, sh_info, hsec₃, hlinkedBy⟩ := hsections₃ k _ hsec₂
    obtain ⟨rels, hsec₅, -⟩ := hsections₅ k _ hsec₃
    exact ⟨data, link, sh_info, rels, hsec₅, hdata, htake, hstab, hlinkedBy⟩
  have hlast : ∀ {k : Nat} {sec : Section}, sections₅[k]? = some sec → ∃ sec₁ data link sh_info rels,
      s₁.sections[k]? = some sec₁ ∧ sec = { sec₁ with data, link, sh_info, rels } ∧
        LinkedBy infos (obj.shdrs.zip infos) k sec₁ sh_info ∧
          rels = old_rels s k ++ (obj.shdrs.zip infos).flatMap (moved_in infos
            ((obj.syms.take 1).map (fun _ => 0) ++ tr') k) := by
    intro k sec hsec
    have hk := (List.getElem?_eq_some_iff.mp hsec).1
    rw [hlength₅] at hk
    obtain ⟨rels, hsec₅, hrels⟩ := hsections₅ k _ (List.getElem?_eq_getElem hk)
    obtain ⟨sec₁, data, link, sh_info, hsec₁, hsec₃, -, -, -, hlinkedBy⟩ :=
      hback (List.getElem?_eq_getElem hk)
    rw [hsec, Option.some.injEq, hsec₃] at hsec₅
    exact ⟨sec₁, data, link, sh_info, rels, hsec₁, hsec₅, hlinkedBy, hrels⟩
  have hlinked' : Linked { s₁ with sections := sections₅, syms } := by
    refine ⟨fun k sec hsec => ?_, fun i j x y hx hy hxy => ?_, fun k sec hsec hrela => ?_, hunique', ?_, ?_⟩
    · obtain ⟨sec₁, data, link, sh_info, rels, hsec₁, rfl, -, hrels⟩ := hlast hsec
      obtain ⟨data', link', sh_info', rels', hsec₅, hdata, -⟩ := hfinal hsec₁
      rw [hsec, Option.some.injEq, Section.mk.injEq] at hsec₅
      obtain ⟨-, -, -, -, -, -, -, rfl, -, -⟩ := hsec₅
      have hsec_sized := hplaced.sized k sec₁ hsec₁
      have hcount : rels.length = sec₁.rels.length := by
        rw [hrels, hplaced.rels k sec₁ hsec₁, List.length_append, List.length_append, length_flatMap_moved_in]
      refine ⟨fun h => ?_, fun h => ?_, fun h => ?_, fun h h' => ?_⟩
      · exact List.length_eq_zero_iff.mp (hcount.trans (List.length_eq_zero_iff.mpr (hsec_sized.rels_nil h)))
      · dsimp only
        rw [hcount]
        exact hsec_sized.rels_size h
      · exact List.length_eq_zero_iff.mp (hdata.trans (List.length_eq_zero_iff.mpr (hsec_sized.data_nil h)))
      · exact hdata.trans (hsec_sized.data_size h h')
    · obtain ⟨x₁, _, _, _, _, hx₁, rfl, -⟩ := hlast hx
      obtain ⟨y₁, _, _, _, _, hy₁, rfl, -⟩ := hlast hy
      exact hplaced.names i j x₁ y₁ hx₁ hy₁ hxy
    · obtain ⟨sec₁, data, link, sh_info, rels, hsec₁, rfl, hlinkedBy, -⟩ := hlast hsec
      obtain ⟨t, tgt, hinfo, htgt, hname⟩ := relocs_target hlinked hobj hlen hplaced hsourced htested hfirst
        hsec₁ hrela hlinkedBy
      obtain ⟨data', link', sh_info', rels', htgt₅, -⟩ := hfinal htgt
      exact ⟨t, _, hinfo, htgt₅, hname⟩
    · obtain ⟨symtab₁, hsymtab₁, hgrown⟩ := hplaced.grown _ _ hsymtab
      obtain ⟨data', link', sh_info', rels', hsymtab₅, -⟩ := hfinal hsymtab₁
      dsimp only
      rw [hplaced.symtab_section]
      exact ⟨_, hsymtab₅, hgrown.sh_type.trans hsymtab_type⟩
    · dsimp only
      rw [hplaced.stab_section, hplaced.symtab_section]
      exact hlinked.stab
  refine ⟨hlen, hfirst, htested, fun k sec hsec => ?_, fun p hp k hin => ?_, hplaced.disjoint,
    fun k sec' hsec' => ?_, hlinked', fun i x hx => ?_⟩
  · obtain ⟨sec₁, hsec₁, hgrown⟩ := hplaced.grown k sec hsec
    obtain ⟨data, link, sh_info, rels, hsec₅, -, htake, -, hlinkedBy⟩ := hfinal hsec₁
    refine ⟨_, hsec₅, hgrown.name, hgrown.sh_type, ?_, ?_, hgrown.data_offset⟩
    · rcases hlinkedBy with ⟨rfl, -⟩ | ⟨p, hp, hk, hnew, -⟩
      · exact hgrown.sh_info
      · exact absurd (List.getElem?_eq_some_iff.mp hsec).1 (Nat.not_lt.mpr (hsourced.not_before p hp hnew k hk))
    · have hend : old_end s k = sec.data_offset := by
        rw [old_end, hsec]
        rfl
      have hle : sec.data.length ≤ old_end s k := by
        rw [hend]
        have hsec_sized := hlinked.sized k sec hsec
        by_cases hnil : sec.sh_type = SHT_RELA ∨ sec.sh_type = SHT_NOBITS
        · rw [hsec_sized.data_nil hnil]
          exact Nat.zero_le _
        · push Not at hnil
          exact Nat.le_of_eq (hsec_sized.data_size hnil.1 hnil.2)
      have hprefix : List.IsPrefix sec.data (sec₁.data.take (old_end s k)) := by
        rw [List.prefix_take_iff]
        exact ⟨hgrown.data, hle⟩
      rw [← htake] at hprefix
      exact hprefix.trans (List.take_prefix _ _)
  · obtain ⟨sec₁, hsec₁, hfits⟩ := hplaced.fits p hp k hin
    obtain ⟨data, link, sh_info, rels, hsec₅, -, -, hstab, -⟩ := hfinal hsec₁
    refine ⟨_, hsec₅, hfits.name, hfits.sh_type, hfits.aligned, hfits.behind, hfits.room, fun h h' hne => ?_⟩
    dsimp only
    rw [hstab hne]
    exact hfits.data h h'
  · obtain ⟨sec₁, data, link, sh_info, rels, -, rfl, -, hrels⟩ := hlast hsec'
    exact hrels
  · obtain ⟨sym_index, hindex, hres⟩ := hresolved i x hx
    refine ⟨sym_index, ?_, hres⟩
    have hne : obj.syms ≠ [] := by
      intro h
      rw [h] at hx
      cases hx
    obtain ⟨x₀, xs, hxs⟩ := List.exists_cons_of_ne_nil hne
    rw [hxs]
    exact hindex

end tcc.obj
