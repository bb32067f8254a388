import Tcc.Link.Isolation

/-! Which objects leave what was loaded before as it is. -/

namespace tcc.obj

open tcc.elf

/-- Where section `j` of the object is: a section of the linker and an offset in it. -/
def place (obj : Object) (infos : List Info) (j : Nat) : Option (Nat × Nat) :=
  match (obj.shdrs.zip infos)[j]? with
  | some p => if p.1.sh_type = SHT_SYMTAB then none else p.2.s.map (·, p.2.offset)
  | none => none

/-- A section that is not added again because one of its name is there. -/
def LeftOut (s : State) (obj : Object) (i : Nat) : Prop :=
  ∃ sh, obj.shdrs[i]? = some sh ∧ sh.sh_type ≠ SHT_SYMTAB ∧ obj.passes i sh = true ∧
    linkonce sh.name = true ∧ ((∃ sec ∈ s.sections, sec.name = sh.name) ∨
      ∃ i' < i, ∃ sh', i' ≠ 0 ∧ obj.shdrs[i']? = some sh' ∧ sh'.sh_type ≠ SHT_SYMTAB ∧
        obj.passes i' sh' = true ∧ sh'.name = sh.name)

/-- The relocations for a section that is put into section `t` of the linker. -/
def kept_rels (obj : Object) (infos : List Info) (tr : List Nat) (t : Nat) (sh : Shdr) : List Rel :=
  if sh.sh_type = SHT_RELA then
    match place obj infos sh.sh_info with
    | some (t', offset) => if t' = t then sh.rels.map (move tr offset) else []
    | none => []
  else []

/-- What was loaded before stays as it is. The sections of the object that are kept come behind, and
    the relocations that are added are those for them. -/
structure Isolates (s : State) (obj : Object) (infos : List Info) (tr : List Nat) (s' : State) : Prop where
  unchanged : ∀ (k : Nat) (sec : Section), s.sections[k]? = some sec → ∃ sec', s'.sections[k]? = some sec' ∧
    sec'.name = sec.name ∧ sec'.sh_type = sec.sh_type ∧ sec'.sh_info = sec.sh_info ∧
      List.IsPrefix sec.data sec'.data ∧ List.IsPrefix sec.rels sec'.rels ∧ sec.data_offset ≤ sec'.data_offset
  kept : ∀ (j : Nat) (sh : Shdr), j ≠ 0 → obj.shdrs[j]? = some sh →
    ((place obj infos j).isSome = true ↔
      sh.sh_type ≠ SHT_SYMTAB ∧ obj.passes j sh = true ∧ ¬LeftOut s obj j)
  appended : ∀ (j : Nat) (sh : Shdr) (k offset : Nat), obj.shdrs[j]? = some sh →
    place obj infos j = some (k, offset) → ∃ sec', s'.sections[k]? = some sec' ∧ sec'.name = sh.name ∧
      sec'.sh_type = sh.sh_type ∧ sh.align ∣ offset ∧ old_end s k ≤ offset ∧
        offset + sh.sh_size ≤ sec'.data_offset ∧
          (sh.sh_type ≠ SHT_RELA → sh.sh_type ≠ SHT_NOBITS →
            (∀ ab, s.stab_section = some ab → ab.1 ≠ k) → (sec'.data.drop offset).take sh.sh_size = sh.data)
  apart : ∀ (i j : Nat) (sh : Shdr) (k offset offset' : Nat), i < j → obj.shdrs[i]? = some sh →
    place obj infos i = some (k, offset) → place obj infos j = some (k, offset') →
      offset + sh.sh_size ≤ offset'
  relocs : ∀ (k : Nat) (sec' : Section), s'.sections[k]? = some sec' → sec'.sh_type = SHT_RELA →
    ∃ t, sec'.sh_info = sh_num t ∧
      sec'.rels = old_rels s k ++ obj.shdrs.flatMap (kept_rels obj infos tr t) ∧
        ∀ rel ∈ obj.shdrs.flatMap (kept_rels obj infos tr t), old_end s t ≤ rel.r_offset
  relocated : ∀ sh ∈ obj.shdrs, sh.sh_type = SHT_RELA → ∀ t offset, place obj infos sh.sh_info = some (t, offset) →
    ∃ (k : Nat) (sec' : Section), s'.sections[k]? = some sec' ∧ sec'.sh_type = SHT_RELA ∧ sec'.sh_info = sh_num t
  symbols : ∀ (i : Nat) (x : Named), obj.syms.tail[i]? = some x → ∃ sym_index, tr[i + 1]? = some sym_index ∧
    Resolved infos x s'.syms sym_index

theorem place_eq_some {obj : Object} {infos : List Info} {j k offset : Nat} :
    place obj infos j = some (k, offset) ↔
      ∃ p, (obj.shdrs.zip infos)[j]? = some p ∧ InSection p k ∧ p.2.offset = offset := by
  rw [place]
  cases (obj.shdrs.zip infos)[j]? with
  | none => simp
  | some p =>
    simp only [Option.some.injEq, exists_eq_left']
    by_cases hsymtab : p.1.sh_type = SHT_SYMTAB
    · rw [if_pos hsymtab]
      exact ⟨fun h => (by cases h), fun h => absurd hsymtab h.1.2⟩
    · rw [if_neg hsymtab, Option.map_eq_some_iff]
      constructor
      · rintro ⟨k', hk, heq⟩
        cases heq
        exact ⟨⟨hk, hsymtab⟩, rfl⟩
      · rintro ⟨hin, rfl⟩
        exact ⟨k, hin.1, rfl⟩

section

variable {s s' : State} {obj : Object} {infos : List Info} {tr : List Nat}

/-- Names that are in use, by the object itself. -/
theorem duplicate_iff (hobj : obj.WellFormed) (hlength : infos.length = obj.shdrs.length)
    (hnone : (infos.getD 0 Info.none).s = none) (htested : Tested s obj (obj.shdrs.zip infos))
    {pre post : List (Shdr × Info)} {p : Shdr × Info} (hsplit : obj.shdrs.zip infos = pre ++ p :: post) :
    Duplicate s pre obj pre.length p.1 ↔ LeftOut s obj pre.length := by
  have hshdr : ∀ {i : Nat} {q : Shdr × Info}, (obj.shdrs.zip infos)[i]? = some q → obj.shdrs[i]? = some q.1 := by
    intro i q hq
    exact (List.getElem?_zip_eq_some.mp hq).1
  have hp : obj.shdrs[pre.length]? = some p.1 := by
    refine hshdr (q := p) ?_
    rw [hsplit, List.getElem?_append_right (Nat.le_refl _), Nat.sub_self]
    rfl
  have hpart : ∀ {i : Nat}, i < pre.length → ∃ pre' q post', pre = pre' ++ q :: post' ∧ pre'.length = i ∧
      obj.shdrs[i]? = some q.1 := by
    intro i hi
    refine ⟨pre.take i, pre[i], pre.drop (i + 1), ?_, ?_, ?_⟩
    · rw [← List.drop_eq_getElem_cons hi, List.take_append_drop]
    · rw [List.length_take, Nat.min_eq_left (Nat.le_of_lt hi)]
    · refine hshdr ?_
      rw [hsplit, List.getElem?_append_left hi, List.getElem?_eq_getElem hi]
  have hfirst : ∀ {q : Shdr × Info} {rest : List (Shdr × Info)}, obj.shdrs.zip infos = q :: rest →
      q.2.s = none := by
    intro q rest hq
    obtain ⟨sh₀, shdrs, hshdrs, -⟩ := hobj.header
    have hhead : obj.shdrs[0]? = some sh₀ := by
      rw [hshdrs]
      rfl
    have hget := getElem?_zip_infos hlength hhead
    rw [hq] at hget
    cases hget
    exact hnone
  constructor
  · rintro ⟨hsymtab, hpasses, honce, hused⟩
    refine ⟨p.1, hp, hsymtab, hpasses, honce, hused.imp id ?_⟩
    rintro ⟨q, hq, hin, hname⟩
    obtain ⟨i, hi, heq⟩ := List.getElem_of_mem hq
    obtain ⟨pre', q', post', hpre, hlen, hq'⟩ := hpart hi
    have hqq : q' = q := by
      have hget : pre[i]? = some q' := by
        rw [hpre, List.getElem?_append_right (Nat.le_of_eq hlen), hlen, Nat.sub_self]
        rfl
      rw [List.getElem?_eq_getElem hi, heq, Option.some.injEq] at hget
      exact hget.symm
    subst hqq
    have hne : pre' ≠ [] := by
      rintro rfl
      rw [hpre, List.nil_append, List.cons_append] at hsplit
      obtain ⟨k, hk⟩ := hin
      exact absurd ((hfirst hsplit).symm.trans hk.1) (by simp)
    rw [hpre, List.append_assoc, List.cons_append] at hsplit
    obtain ⟨htest, -⟩ := htested pre' _ q' hsplit hne
    rw [hlen] at htest
    refine ⟨i, hi, q'.1, ?_, hq', (htest.mp hin).1, (htest.mp hin).2.1, hname⟩
    rintro rfl
    exact hne (List.length_eq_zero_iff.mp hlen)
  · rintro ⟨sh, hsh, hsymtab, hpasses, honce, hused⟩
    rw [hp, Option.some.injEq] at hsh
    subst hsh
    refine ⟨hsymtab, hpasses, honce, ?_⟩
    rcases hused with hused | ⟨i, hi, sh', hne, hsh', hsymtab', hpasses', hname⟩
    · exact Or.inl hused
    · obtain ⟨pre', q, post', hpre, hlen, hq⟩ := hpart hi
      rw [hsh', Option.some.injEq] at hq
      subst hq
      have hmem : q ∈ pre := hpre ▸ List.mem_append_right _ List.mem_cons_self
      by_cases hin : ∃ k, InSection q k
      · exact Or.inr ⟨q, hmem, hin, hname⟩
      · have hsplit' := hsplit
        rw [hpre, List.append_assoc, List.cons_append] at hsplit'
        have hne' : pre' ≠ [] := by
          rintro rfl
          exact hne hlen.symm
        obtain ⟨htest, -⟩ := htested pre' _ q hsplit' hne'
        rw [hlen] at htest
        have hdup : Duplicate s pre' obj i q.1 := by
          by_contra hnot
          exact hin (htest.mpr ⟨hsymtab', hpasses', hnot⟩)
        rw [← hname]
        refine hdup.2.2.2.imp id ?_
        rintro ⟨q', hq', h⟩
        exact ⟨q', hpre ▸ List.mem_append_left _ hq', h⟩

theorem isSome_place_iff (hobj : obj.WellFormed) (hlength : infos.length = obj.shdrs.length)
    (hnone : (infos.getD 0 Info.none).s = none) (htested : Tested s obj (obj.shdrs.zip infos)) {j : Nat}
    {sh : Shdr} (hj : j ≠ 0) (hsh : obj.shdrs[j]? = some sh) :
    (place obj infos j).isSome = true ↔ sh.sh_type ≠ SHT_SYMTAB ∧ obj.passes j sh = true ∧ ¬LeftOut s obj j := by
  have hget := getElem?_zip_infos hlength hsh
  obtain ⟨hlt, heq⟩ := List.getElem?_eq_some_iff.mp hget
  have hsplit : obj.shdrs.zip infos = (obj.shdrs.zip infos).take j ++ (sh, infos.getD j Info.none) ::
      (obj.shdrs.zip infos).drop (j + 1) := by
    rw [← heq, ← List.drop_eq_getElem_cons hlt, List.take_append_drop]
  have hlen : ((obj.shdrs.zip infos).take j).length = j := by
    rw [List.length_take, Nat.min_eq_left (Nat.le_of_lt hlt)]
  have hne : (obj.shdrs.zip infos).take j ≠ [] := by
    intro h
    rw [h] at hlen
    exact hj hlen.symm
  obtain ⟨htest, -⟩ := htested _ _ _ hsplit hne
  have hdup := duplicate_iff hobj hlength hnone htested hsplit
  rw [hlen] at htest hdup
  rw [hdup] at htest
  rw [← htest]
  constructor
  · intro hsome
    obtain ⟨⟨k, offset⟩, hplace⟩ := Option.isSome_iff_exists.mp hsome
    obtain ⟨p, hp, hin, -⟩ := place_eq_some.mp hplace
    rw [hget, Option.some.injEq] at hp
    subst hp
    exact ⟨k, hin⟩
  · rintro ⟨k, hin⟩
    have hplace : place obj infos j = some (k, (infos.getD j Info.none).offset) :=
      place_eq_some.mpr ⟨_, hget, hin, rfl⟩
    rw [hplace]
    rfl

/-- A section of relocations passes the tests where the one that it is for does, and is put into a
    section of its name. -/
theorem relocs_placed (hobj : obj.WellFormed) (hlength : infos.length = obj.shdrs.length)
    (hnone : (infos.getD 0 Info.none).s = none) (htested : Tested s obj (obj.shdrs.zip infos)) {j : Nat}
    {sh tgt : Shdr} (hsh : obj.shdrs[j]? = some sh) (hrela : sh.sh_type = SHT_RELA)
    (htgt : obj.shdrs[sh.sh_info]? = some tgt) (htgt_type : tgt.sh_type ≠ SHT_RELA)
    (hname : sh.name.1 = chars ".rela" ++ tgt.name.1) (hpasses : obj.passes sh.sh_info tgt = true) :
    ∃ k, InSection (sh, infos.getD j Info.none) k := by
  have hnull : ∀ {sh : Shdr}, obj.shdrs[0]? = some sh → sh.sh_type = 0 := by
    intro sh h
    obtain ⟨sh₀, shdrs, hshdrs, htype, -⟩ := hobj.header
    rw [hshdrs] at h
    cases h
    exact htype
  have hj : j ≠ 0 := by
    rintro rfl
    have := hnull hsh
    rw [hrela] at this
    exact absurd this (by decide)
  have hj_passes : obj.passes j sh = true := by
    rw [Object.passes, Object.examined, if_neg htgt_type, Bool.and_eq_true] at hpasses
    rw [Object.passes, Object.examined, if_pos hrela, htgt, Bool.and_eq_true]
    refine ⟨?_, hpasses.2⟩
    rw [bne_iff_ne]
    rintro rfl
    exact (hobj.shstrtab sh hsh).2 hrela
  have hnot : ¬LeftOut s obj j := by
    rintro ⟨sh', hsh', -, -, honce, -⟩
    rw [hsh, Option.some.injEq] at hsh'
    subst hsh'
    rw [linkonce, hname] at honce
    revert honce
    simp [chars]
  have hsome := (isSome_place_iff hobj hlength hnone htested hj hsh).mpr
    ⟨by rw [hrela]; decide, hj_passes, hnot⟩
  obtain ⟨⟨k, offset⟩, hplace⟩ := Option.isSome_iff_exists.mp hsome
  obtain ⟨p, hp, hin, -⟩ := place_eq_some.mp hplace
  rw [getElem?_zip_infos hlength hsh, Option.some.injEq] at hp
  subst hp
  exact ⟨k, hin⟩

theorem target_placed (hlength : infos.length = obj.shdrs.length) {i k offset : Nat} {tgt : Shdr}
    (htgt : obj.shdrs[i]? = some tgt) (hplace : place obj infos i = some (k, offset)) :
    InSection (tgt, infos.getD i Info.none) k ∧ (infos.getD i Info.none).offset = offset := by
  obtain ⟨p, hp, hin, hoffset⟩ := place_eq_some.mp hplace
  rw [getElem?_zip_infos hlength htgt, Option.some.injEq] at hp
  subst hp
  exact ⟨hin, hoffset⟩

attribute [local simp] kept_rels in
/-- Relocations for a section that is kept are in the section of relocations for it. -/
theorem moved_eq_kept (hobj : obj.WellFormed) (hlength : infos.length = obj.shdrs.length)
    (hnone : (infos.getD 0 Info.none).s = none) (hloaded : Loaded s obj infos tr (obj.shdrs.zip infos) s')
    {k t : Nat} {sec' : Section} (hsec : s'.sections[k]? = some sec') (hsec_rela : sec'.sh_type = SHT_RELA)
    (hinfo : sec'.sh_info = sh_num t) {j : Nat} {sh : Shdr} (hsh : obj.shdrs[j]? = some sh)
    (hkept : sh.sh_type = SHT_RELA → (place obj infos sh.sh_info).isSome = true) :
    moved_in infos tr k (sh, infos.getD j Info.none) = kept_rels obj infos tr t sh := by
  by_cases hrela : sh.sh_type = SHT_RELA
  · obtain ⟨tgt, htgt, htgt_type, hname⟩ := hobj.relocs sh (List.mem_of_getElem? hsh) hrela
    obtain ⟨⟨t', offset⟩, hplace⟩ := Option.isSome_iff_exists.mp (hkept hrela)
    obtain ⟨htgt_in, hoffset⟩ := target_placed hlength htgt hplace
    have htgt_index : sh.sh_info ≠ 0 := by
      intro h
      rw [h] at htgt_in
      exact absurd (hnone.symm.trans htgt_in.1) (by simp)
    have hpasses := ((isSome_place_iff hobj hlength hnone hloaded.tested htgt_index htgt).mp (hkept hrela)).2.1
    obtain ⟨k', hin⟩ := relocs_placed hobj hlength hnone hloaded.tested hsh hrela htgt htgt_type hname hpasses
    obtain ⟨tsec, htsec, htname, -⟩ := hloaded.fits _
      (List.mem_of_getElem? (getElem?_zip_infos hlength htgt)) t' htgt_in
    obtain ⟨ksec, hksec, hkname, -⟩ := hloaded.fits _
      (List.mem_of_getElem? (getElem?_zip_infos hlength hsh)) k' hin
    obtain ⟨t₁, tsec₁, hinfo₁, htsec₁, hsec_name⟩ := hloaded.linked.relocs k sec' hsec hsec_rela
    obtain rfl : t₁ = t := Nat.succ.inj (hinfo₁.symm.trans hinfo)
    rw [moved_in, kept_rels, if_pos hrela, hplace, hin.1]
    dsimp only
    by_cases htt : t' = t₁
    · subst htt
      rw [htsec, Option.some.injEq] at htsec₁
      subst htsec₁
      have hkk : k' = k := by
        refine hloaded.linked.names k' k ksec sec' hksec hsec (Subtype.ext ?_)
        rw [hkname, hname, hsec_name, htname]
      rw [if_pos rfl, if_pos (congrArg some hkk), hoffset]
    · have hkk : ¬some k' = some k := by
        intro h
        cases h
        rw [hsec, Option.some.injEq] at hksec
        subst hksec
        rw [hkname, hname] at hsec_name
        have hnames : tgt.name = tsec₁.name := Subtype.ext (List.append_cancel_left hsec_name)
        exact htt (hloaded.linked.names t' t₁ tsec tsec₁ htsec htsec₁ (htname.trans hnames))
      rw [if_neg htt, if_neg hkk]
  · have hrels : sh.rels = [] := by
      obtain ⟨sh₀, shdrs, hshdrs, -, -, hrels₀⟩ := hobj.header
      have hmem := List.mem_of_getElem? hsh
      rw [hshdrs] at hmem
      rcases List.mem_cons.mp hmem with rfl | hmem
      · exact hrels₀
      · exact (hobj.sections sh (by rw [hshdrs]; exact hmem)).rels_nil hrela
    rw [kept_rels, if_neg hrela, moved_in, hrels]
    exact ite_self _

theorem kept_rels_of_none {t : Nat} {sh : Shdr} (hplace : place obj infos sh.sh_info = none) :
    kept_rels obj infos tr t sh = [] := by
  rw [kept_rels, hplace]
  exact ite_self _

section loaded

variable (hobj : obj.WellFormed) (hlength : infos.length = obj.shdrs.length)
  (hnone : (infos.getD 0 Info.none).s = none) (hloaded : Loaded s obj infos tr (obj.shdrs.zip infos) s')
include hlength

theorem exists_of_mem_zip {p : Shdr × Info} (hp : p ∈ obj.shdrs.zip infos) :
    ∃ j, obj.shdrs[j]? = some p.1 ∧ p = (p.1, infos.getD j Info.none) := by
  obtain ⟨j, hj⟩ := List.getElem?_of_mem hp
  have hsh := (List.getElem?_zip_eq_some.mp hj).1
  rw [getElem?_zip_infos hlength hsh, Option.some.injEq] at hj
  exact ⟨j, hsh, hj.symm⟩

theorem flatMap_zip (f : Shdr → List Rel) : obj.shdrs.flatMap f = (obj.shdrs.zip infos).flatMap fun p => f p.1 := by
  have hmap : (obj.shdrs.zip infos).map Prod.fst = obj.shdrs := List.map_fst_zip (Nat.le_of_eq hlength.symm)
  conv_lhs => rw [← hmap]
  rw [List.flatMap_map]

include hobj

omit hlength in
/-- Nothing is loaded for the first header. -/
theorem ne_zero_of_passes {i : Nat} {tgt : Shdr} (htgt : obj.shdrs[i]? = some tgt) (hpasses : obj.passes i tgt = true) :
    i ≠ 0 := by
  intro h
  rw [h] at htgt hpasses
  obtain ⟨sh₀, shdrs, hshdrs, htype, hname, -⟩ := hobj.header
  rw [hshdrs] at htgt
  cases htgt
  have hhandled : tgt.handled = false := by
    rw [Shdr.handled, htype, hname]
    rfl
  have hexamined : obj.examined tgt = some tgt := if_neg (by rw [htype]; decide)
  rw [Object.passes, hexamined] at hpasses
  simp [hhandled] at hpasses

include hnone hloaded

/-- The relocations for a section that is left out would be added as well. -/
theorem rels_eq_nil_of_isolates (hisolates : Isolates s obj infos tr s') {sh : Shdr} (hsh : sh ∈ obj.shdrs)
    (hrela : sh.sh_type = SHT_RELA) (hleft : LeftOut s obj sh.sh_info) : sh.rels = [] := by
  by_contra hne
  obtain ⟨tgt, htgt, hsymtab, hpasses, hused⟩ := hleft
  obtain ⟨tgt', htgt', htgt_type, hname⟩ := hobj.relocs sh hsh hrela
  rw [htgt, Option.some.injEq] at htgt'
  subst htgt'
  obtain ⟨j, hj⟩ := List.getElem?_of_mem hsh
  obtain ⟨k, hin⟩ := relocs_placed hobj hlength hnone hloaded.tested hj hrela htgt htgt_type hname hpasses
  have hpair := List.mem_of_getElem? (getElem?_zip_infos hlength hj)
  obtain ⟨sec', hsec', -, htype, -⟩ := hloaded.fits _ hpair k hin
  have hsec_rela : sec'.sh_type = SHT_RELA := htype.trans hrela
  obtain ⟨t, hinfo, hrels, -⟩ := hisolates.relocs k sec' hsec' hsec_rela
  have hplace : place obj infos sh.sh_info = none := by
    have hiff := isSome_place_iff hobj hlength hnone hloaded.tested (ne_zero_of_passes hobj htgt hpasses) htgt
    rw [← Option.not_isSome_iff_eq_none, hiff]
    exact fun h => h.2.2 ⟨tgt, htgt, hsymtab, hpasses, hused⟩
  rw [hloaded.rels k sec' hsec'] at hrels
  have hlists := List.append_cancel_left hrels
  rw [flatMap_zip hlength] at hlists
  have hlengths := congrArg List.length hlists
  rw [List.length_flatMap, List.length_flatMap] at hlengths
  refine absurd hlengths.symm (Nat.ne_of_lt (List.sum_lt_sum _ _ (fun p hp => ?_) ⟨_, hpair, ?_⟩))
  · obtain ⟨i, hi, heq⟩ := exists_of_mem_zip hlength hp
    cases hkept : place obj infos p.1.sh_info with
    | none =>
      rw [kept_rels_of_none hkept]
      exact Nat.zero_le _
    | some ko =>
      rw [heq, ← moved_eq_kept hobj hlength hnone hloaded hsec' hsec_rela hinfo hi fun _ => by rw [hkept]; rfl]
  · rw [kept_rels_of_none hplace, moved_in, hin.1, if_pos rfl, List.length_map]
    exact List.length_pos_iff.mpr hne

/-- What is put into a section of relocations is what is kept of it. -/
theorem moved_in_eq_kept (hempty : ∀ sh ∈ obj.shdrs, sh.sh_type = SHT_RELA → LeftOut s obj sh.sh_info → sh.rels = [])
    {k t : Nat} {sec' : Section} (hsec' : s'.sections[k]? = some sec') (hrela : sec'.sh_type = SHT_RELA)
    (hinfo : sec'.sh_info = sh_num t) {p : Shdr × Info} (hp : p ∈ obj.shdrs.zip infos) :
    moved_in infos tr k p = kept_rels obj infos tr t p.1 := by
  obtain ⟨j, hj, heq⟩ := exists_of_mem_zip hlength hp
  by_cases hplace : p.1.sh_type = SHT_RELA → (place obj infos p.1.sh_info).isSome = true
  · rw [heq]
    exact moved_eq_kept hobj hlength hnone hloaded hsec' hrela hinfo hj hplace
  · push Not at hplace
    obtain ⟨hp_rela, hplace⟩ := hplace
    rw [kept_rels_of_none (Option.not_isSome_iff_eq_none.mp hplace)]
    rw [moved_in]
    split
    · rename_i hk
      have hin : InSection p k := ⟨hk, by rw [hp_rela]; decide⟩
      obtain ⟨tgt, htgt, htgt_type, -⟩ := hobj.relocs p.1 (List.mem_of_getElem? hj) hp_rela
      have hj_index : j ≠ 0 := by
        rintro rfl
        rw [heq] at hin
        exact absurd (hnone.symm.trans hin.1) (by simp)
      have hplaced : (place obj infos j).isSome = true := by
        rw [place_eq_some.mpr ⟨p, by rw [getElem?_zip_infos hlength hj, ← heq], hin, rfl⟩]
        rfl
      have hj_passes :=
        ((isSome_place_iff hobj hlength hnone hloaded.tested hj_index hj).mp hplaced).2.1
      have htgt_passes : obj.passes p.1.sh_info tgt = true := by
        have hhandled := (target_of_passes hobj htgt hp_rela hj_passes).1
        rw [Object.passes, Object.examined, if_pos hp_rela, htgt, Bool.and_eq_true] at hj_passes
        rw [Object.passes, Object.examined, if_neg htgt_type, Bool.and_eq_true]
        refine ⟨?_, hj_passes.2⟩
        rw [bne_iff_ne]
        intro h
        rw [h] at htgt
        rw [(hobj.shstrtab tgt htgt).1] at hhandled
        cases hhandled
      have hleft : LeftOut s obj p.1.sh_info := by
        by_contra hnot
        exact hplace ((isSome_place_iff hobj hlength hnone hloaded.tested
          (ne_zero_of_passes hobj htgt htgt_passes) htgt).mpr
            ⟨(target_of_passes hobj htgt hp_rela hj_passes).2, htgt_passes, hnot⟩)
      rw [hempty p.1 (List.mem_of_getElem? hj) hp_rela hleft]
      rfl
    · rfl

omit hobj hlength hnone in
theorem unchanged_of_loaded {k : Nat} {sec : Section} (hsec : s.sections[k]? = some sec) :
    ∃ sec', s'.sections[k]? = some sec' ∧ sec'.name = sec.name ∧ sec'.sh_type = sec.sh_type ∧
      sec'.sh_info = sec.sh_info ∧ List.IsPrefix sec.data sec'.data ∧ List.IsPrefix sec.rels sec'.rels ∧
        sec.data_offset ≤ sec'.data_offset := by
  obtain ⟨sec', hsec', hname, htype, hinfo, hdata, hoffset⟩ := hloaded.unchanged k sec hsec
  refine ⟨sec', hsec', hname, htype, hinfo, hdata, ?_, hoffset⟩
  have hold : old_rels s k = sec.rels := by
    rw [old_rels, hsec]
    rfl
  rw [hloaded.rels k sec' hsec', hold]
  exact List.prefix_append _ _

omit hobj hnone in
theorem appended_of_loaded {j k offset : Nat} {sh : Shdr} (hsh : obj.shdrs[j]? = some sh)
    (hplace : place obj infos j = some (k, offset)) : ∃ sec', s'.sections[k]? = some sec' ∧ sec'.name = sh.name ∧
      sec'.sh_type = sh.sh_type ∧ sh.align ∣ offset ∧ old_end s k ≤ offset ∧
        offset + sh.sh_size ≤ sec'.data_offset ∧
          (sh.sh_type ≠ SHT_RELA → sh.sh_type ≠ SHT_NOBITS →
            (∀ ab, s.stab_section = some ab → ab.1 ≠ k) → (sec'.data.drop offset).take sh.sh_size = sh.data) := by
  obtain ⟨hin, hoffset⟩ := target_placed hlength hsh hplace
  obtain ⟨sec', hsec', hfits⟩ := hloaded.fits _ (List.mem_of_getElem? (getElem?_zip_infos hlength hsh)) k hin
  rw [hoffset] at hfits
  exact ⟨sec', hsec', hfits⟩

omit hobj hlength hnone in
theorem apart_of_loaded {i j k offset offset' : Nat} {sh : Shdr} (hij : i < j) (hsh : obj.shdrs[i]? = some sh)
    (hi : place obj infos i = some (k, offset)) (hj : place obj infos j = some (k, offset')) :
    offset + sh.sh_size ≤ offset' := by
  obtain ⟨p, hp, hin, hoffset⟩ := place_eq_some.mp hi
  obtain ⟨q, hq, hin', hoffset'⟩ := place_eq_some.mp hj
  obtain ⟨hp_lt, hp_eq⟩ := List.getElem?_eq_some_iff.mp hp
  obtain ⟨hq_lt, hq_eq⟩ := List.getElem?_eq_some_iff.mp hq
  have hapart := List.pairwise_iff_getElem.mp hloaded.disjoint i j hp_lt hq_lt hij k
    (by rw [hp_eq]; exact hin) (by rw [hq_eq]; exact hin')
  rw [hp_eq, hq_eq, hoffset, hoffset'] at hapart
  have hp_sh := (List.getElem?_zip_eq_some.mp hp).1
  rw [hsh, Option.some.injEq] at hp_sh
  rw [hp_sh]
  exact hapart

theorem relocs_of_loaded
    (hempty : ∀ sh ∈ obj.shdrs, sh.sh_type = SHT_RELA → LeftOut s obj sh.sh_info → sh.rels = []) {k : Nat}
    {sec' : Section} (hsec' : s'.sections[k]? = some sec') (hrela : sec'.sh_type = SHT_RELA) :
    ∃ t, sec'.sh_info = sh_num t ∧ sec'.rels = old_rels s k ++ obj.shdrs.flatMap (kept_rels obj infos tr t) ∧
      ∀ rel ∈ obj.shdrs.flatMap (kept_rels obj infos tr t), old_end s t ≤ rel.r_offset := by
  obtain ⟨t, tgt, hinfo, htgt, -⟩ := hloaded.linked.relocs k sec' hsec' hrela
  refine ⟨t, hinfo, ?_, fun rel hrel => ?_⟩
  · rw [hloaded.rels k sec' hsec', flatMap_zip hlength]
    exact congrArg _ (List.flatMap_congr fun p hp =>
      moved_in_eq_kept hobj hlength hnone hloaded hempty hsec' hrela hinfo hp)
  · obtain ⟨sh, hsh, hmine⟩ := List.mem_flatMap.mp hrel
    rw [kept_rels] at hmine
    split at hmine
    · rename_i hsh_rela
      split at hmine
      · rename_i t' offset hplace
        split at hmine
        · rename_i htt
          subst htt
          obtain ⟨rel', -, rfl⟩ := List.mem_map.mp hmine
          obtain ⟨p, hp, hin, rfl⟩ := place_eq_some.mp hplace
          obtain ⟨-, -, -, -, -, hbehind, -⟩ := hloaded.fits p (List.mem_of_getElem? hp) t' hin
          exact Nat.le_trans hbehind (Nat.le_add_left _ _)
        · cases hmine
      · cases hmine
    · cases hmine

theorem relocated_of_loaded {sh : Shdr} (hsh : sh ∈ obj.shdrs) (hrela : sh.sh_type = SHT_RELA) {t offset : Nat}
    (hplace : place obj infos sh.sh_info = some (t, offset)) :
    ∃ (k : Nat) (sec' : Section), s'.sections[k]? = some sec' ∧ sec'.sh_type = SHT_RELA ∧ sec'.sh_info = sh_num t := by
  obtain ⟨tgt, htgt, htgt_type, hname⟩ := hobj.relocs sh hsh hrela
  obtain ⟨htgt_in, -⟩ := target_placed hlength htgt hplace
  have htgt_index : sh.sh_info ≠ 0 := by
    intro h
    rw [h] at htgt_in
    exact absurd (hnone.symm.trans htgt_in.1) (by simp)
  have hpasses := ((isSome_place_iff hobj hlength hnone hloaded.tested htgt_index htgt).mp
    (by rw [hplace]; rfl)).2.1
  obtain ⟨j, hj⟩ := List.getElem?_of_mem hsh
  obtain ⟨k, hin⟩ := relocs_placed hobj hlength hnone hloaded.tested hj hrela htgt htgt_type hname hpasses
  obtain ⟨sec', hsec', hsec_name, htype, -⟩ := hloaded.fits _
    (List.mem_of_getElem? (getElem?_zip_infos hlength hj)) k hin
  obtain ⟨tsec, htsec, htname, -⟩ := hloaded.fits _
    (List.mem_of_getElem? (getElem?_zip_infos hlength htgt)) t htgt_in
  obtain ⟨t', tsec', hinfo, htsec', hrname⟩ := hloaded.linked.relocs k sec' hsec' (htype.trans hrela)
  refine ⟨k, sec', hsec', htype.trans hrela, ?_⟩
  rw [hsec_name, hname] at hrname
  have hnames : tgt.name = tsec'.name := Subtype.ext (List.append_cancel_left hrname)
  rw [hinfo, hloaded.linked.names t' t tsec' tsec htsec' htsec (hnames.symm.trans htname.symm)]

end loaded

end

def named (s : String) : Name := string_at (chars s) 0

/-- A state with no more than a symbol table. -/
def empty_state : State where
  sections := [⟨named ".symtab", SHT_SYMTAB, 0, 8, 24, none, 0, List.replicate 24 0#8, [], 24⟩]
  symtab_section := 0
  stab_section := none
  syms := [(named "", null_sym)]
  rules := (tccelf_new 4).table.rules

/-- An object with a section that is there once in a program, and a relocation for it. -/
def linkonce_object : Object where
  shdrs := [
    ⟨named "", 0, 0, 0, 0, 0, 0, 0, [], []⟩,
    ⟨named ".gnu.linkonce.t.f", SHT_PROGBITS, 6, 4, 0, 4, 0, 0, [0x13#8, 0#8, 0#8, 0#8], []⟩,
    ⟨named ".rela.gnu.linkonce.t.f", SHT_RELA, 0, 8, 24, 24, 3, 1, [], [⟨0, 17, 1, 0⟩]⟩,
    ⟨named ".symtab", SHT_SYMTAB, 0, 8, 24, 48, 4, 1, List.replicate 48 0#8, []⟩,
    ⟨named ".strtab", SHT_STRTAB, 0, 1, 0, 3, 0, 0, [0#8, 103#8, 0#8], []⟩,
    ⟨named ".shstrtab", SHT_STRTAB, 0, 1, 0, 1, 0, 0, [0#8], []⟩]
  e_shstrndx := 5
  syms := [(named "", null_sym), (named "g", ⟨0, 0, .STB_GLOBAL, 0, 0, SHN_UNDEF⟩)]

theorem linked_empty_state : Linked empty_state := by
  have hzero : ∀ {k : Nat} {sec : Section}, empty_state.sections[k]? = some sec →
      k = 0 ∧ sec = ⟨named ".symtab", SHT_SYMTAB, 0, 8, 24, none, 0, List.replicate 24 0#8, [], 24⟩ := by
    intro k sec hsec
    cases k with
    | zero => exact ⟨rfl, (Option.some.inj hsec).symm⟩
    | succ k => cases hsec
  refine ⟨fun k sec hsec => ?_, fun i j x y hx hy _ => ?_, fun k sec hsec hrela => ?_, fun i j x y hx hy hlocal => ?_,
    ⟨_, rfl, rfl⟩, fun ab hab => by cases hab⟩
  · obtain ⟨-, rfl⟩ := hzero hsec
    exact ⟨fun _ => rfl, fun h => absurd h (by decide), fun h => absurd h (by decide), fun _ _ => rfl⟩
  · rw [(hzero hx).1, (hzero hy).1]
  · obtain ⟨-, rfl⟩ := hzero hsec
    exact absurd hrela (by decide)
  · cases i with
    | zero =>
      cases hx
      exact absurd rfl hlocal
    | succ i => cases hx

theorem linkonce_object_wellFormed : linkonce_object.WellFormed := by
  refine ⟨⟨_, _, rfl, rfl, rfl, rfl⟩, fun sh hsh => ?_, fun sh hsh hrela => ?_, fun sh hsh hname => ?_,
    fun sh hsh => ?_⟩
  · simp only [linkonce_object, List.tail_cons, List.mem_cons, List.not_mem_nil, or_false] at hsh
    rcases hsh with rfl | rfl | rfl | rfl | rfl
    · exact ⟨⟨2, by decide, rfl⟩, fun _ => rfl, fun h => absurd h (by decide), fun _ _ => rfl⟩
    · exact ⟨⟨3, by decide, rfl⟩, fun h => absurd rfl h, fun _ => ⟨rfl, by decide⟩, fun h => absurd rfl h⟩
    · exact ⟨⟨3, by decide, rfl⟩, fun _ => rfl, fun h => absurd h (by decide), fun _ _ => rfl⟩
    · exact ⟨⟨0, by decide, rfl⟩, fun _ => rfl, fun h => absurd h (by decide), fun _ _ => rfl⟩
    · exact ⟨⟨0, by decide, rfl⟩, fun _ => rfl, fun h => absurd h (by decide), fun _ _ => rfl⟩
  · simp only [linkonce_object, List.mem_cons, List.not_mem_nil, or_false] at hsh
    rcases hsh with rfl | rfl | rfl | rfl | rfl | rfl
    · exact absurd hrela (by decide)
    · exact absurd hrela (by decide)
    · exact ⟨_, rfl, by decide, rfl⟩
    · exact absurd hrela (by decide)
    · exact absurd hrela (by decide)
    · exact absurd hrela (by decide)
  · simp only [linkonce_object, List.mem_cons, List.not_mem_nil, or_false] at hsh
    rcases hsh with rfl | rfl | rfl | rfl | rfl | rfl <;> exact absurd hname (by decide)
  · cases hsh
    exact ⟨rfl, by decide⟩

end tcc.obj
