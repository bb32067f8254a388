import Mathlib.Tactic.Positivity
import Mathlib.Tactic.Ring
import Tcc.Link.Object

/-! Where the sections of an object are put. -/

namespace tcc.obj

open tcc.elf

/-- What a section of an object has to be. -/
structure Shdr.WellFormed (sh : Shdr) : Prop where
  align : ∃ e ≤ 63, sh.align = 2 ^ e
  rels_nil : sh.sh_type ≠ SHT_RELA → sh.rels = []
  rels_size : sh.sh_type = SHT_RELA → sh.sh_size = 24 * sh.rels.length ∧ sh.align ∣ 8
  data_size : sh.sh_type ≠ SHT_RELA → sh.sh_type ≠ SHT_NOBITS → sh.data.length = sh.sh_size

/-- What the contents of a section are, by its type. -/
structure Section.Sized (sec : Section) : Prop where
  rels_nil : sec.sh_type ≠ SHT_RELA → sec.rels = []
  rels_size : sec.sh_type = SHT_RELA → sec.data_offset = 24 * sec.rels.length
  data_nil : sec.sh_type = SHT_RELA ∨ sec.sh_type = SHT_NOBITS → sec.data = []
  data_size : sec.sh_type ≠ SHT_RELA → sec.sh_type ≠ SHT_NOBITS → sec.data.length = sec.data_offset

/-- A section that only got more contents. -/
structure Section.Grown (sec sec' : Section) : Prop where
  name : sec'.name = sec.name
  sh_type : sec'.sh_type = sec.sh_type
  sh_info : sec'.sh_info = sec.sh_info
  data : List.IsPrefix sec.data sec'.data
  data_offset : sec.data_offset ≤ sec'.data_offset

def old_rels (s : State) (k : Nat) : List Rel := (s.sections[k]?).elim [] Section.rels

def old_end (s : State) (k : Nat) : Nat := (s.sections[k]?).elim 0 Section.data_offset

def InSection (p : Shdr × Info) (k : Nat) : Prop := p.2.s = some k ∧ p.1.sh_type ≠ SHT_SYMTAB

def rels_in (k : Nat) (p : Shdr × Info) : List Rel := if p.2.s = some k then p.1.rels else []

/-- A section of the object in one of the linker: aligned, and behind the contents of before. -/
structure Fits (s₀ : State) (p : Shdr × Info) (k : Nat) (sec : Section) : Prop where
  name : sec.name = p.1.name
  sh_type : sec.sh_type = p.1.sh_type
  aligned : p.1.align ∣ p.2.offset
  behind : old_end s₀ k ≤ p.2.offset
  room : p.2.offset + p.1.sh_size ≤ sec.data_offset
  data : p.1.sh_type ≠ SHT_RELA → p.1.sh_type ≠ SHT_NOBITS →
    (sec.data.drop p.2.offset).take p.1.sh_size = p.1.data

/-- The linker, of a state before, after the sections `done` of an object. -/
structure Placed (s₀ : State) (done : List (Shdr × Info)) (s : State) : Prop where
  symtab_section : s.symtab_section = s₀.symtab_section
  stab_section : s.stab_section = s₀.stab_section
  syms : s.syms = s₀.syms
  rules : s.rules = s₀.rules
  grown : ∀ (k : Nat) (sec : Section), s₀.sections[k]? = some sec →
    ∃ sec', s.sections[k]? = some sec' ∧ sec.Grown sec'
  rels : ∀ (k : Nat) (sec : Section), s.sections[k]? = some sec →
    sec.rels = old_rels s₀ k ++ done.flatMap (rels_in k)
  rels_nil : ∀ p ∈ done, p.1.sh_type ≠ SHT_RELA → p.1.rels = []
  fits : ∀ p ∈ done, ∀ k, InSection p k → ∃ sec, s.sections[k]? = some sec ∧ Fits s₀ p k sec
  disjoint : done.Pairwise fun p q => ∀ k, InSection p k → InSection q k →
    p.2.offset + p.1.sh_size ≤ q.2.offset
  rel_offset : ∀ (pre post : List (Shdr × Info)) (p : Shdr × Info) (k : Nat), done = pre ++ p :: post →
    InSection p k → p.1.sh_type = SHT_RELA →
      p.2.offset = 24 * (old_rels s₀ k ++ pre.flatMap (rels_in k)).length
  sized : ∀ (k : Nat) (sec : Section), s.sections[k]? = some sec → sec.Sized
  names : ∀ (i j : Nat) (x y : Section), s.sections[i]? = some x → s.sections[j]? = some y →
    x.name = y.name → i = j

theorem padding_spec {a : Nat} (ha : ∃ e ≤ 63, a = 2 ^ e) (x : Nat) : a ∣ x + padding x a := by
  obtain ⟨e, he, rfl⟩ := ha
  rw [padding, Nat.and_two_pow_sub_one_eq_mod]
  have hdvd : 2 ^ e ∣ 2 ^ 64 := pow_dvd_pow 2 (by omega)
  obtain ⟨c, hc⟩ := hdvd
  have hx := Nat.div_add_mod x (2 ^ 64)
  have hlt := Nat.mod_lt x (by positivity : 0 < 2 ^ 64)
  rw [Nat.mod_mod_of_dvd _ ⟨c, hc⟩]
  have hdvd : 2 ^ e ∣ x + (2 ^ 64 - x % 2 ^ 64) := by
    refine ⟨c * (x / 2 ^ 64) + c, ?_⟩
    have hmul : 2 ^ e * (c * (x / 2 ^ 64) + c) = 2 ^ 64 * (x / 2 ^ 64) + 2 ^ 64 := by
      rw [Nat.mul_add, ← Nat.mul_assoc, ← hc]
    omega
  obtain ⟨d, hd⟩ := hdvd
  have hmod := Nat.div_add_mod (2 ^ 64 - x % 2 ^ 64) (2 ^ e)
  refine ⟨d - (2 ^ 64 - x % 2 ^ 64) / 2 ^ e, ?_⟩
  rw [Nat.mul_sub]
  omega

theorem padding_zero {a x : Nat} (ha : ∃ e ≤ 63, a = 2 ^ e) (hdvd : a ∣ x) : padding x a = 0 := by
  have hspec := padding_spec ha x
  have hpad : a ∣ padding x a := (Nat.dvd_add_right hdvd).mp hspec
  obtain ⟨e, he, rfl⟩ := ha
  refine Nat.eq_zero_of_dvd_of_lt hpad ?_
  rw [padding, Nat.and_two_pow_sub_one_eq_mod]
  exact Nat.mod_lt _ (by positivity)

theorem Section.Grown.refl (sec : Section) : sec.Grown sec :=
  ⟨rfl, rfl, rfl, List.prefix_rfl, Nat.le_refl _⟩

theorem Section.Grown.trans {a b c : Section} (hab : a.Grown b) (hbc : b.Grown c) : a.Grown c :=
  ⟨hbc.name.trans hab.name, hbc.sh_type.trans hab.sh_type, hbc.sh_info.trans hab.sh_info,
    hab.data.trans hbc.data, Nat.le_trans hab.data_offset hbc.data_offset⟩

theorem Section.grown_append (sec : Section) (sh : Shdr) : sec.Grown (sec.append sh) := by
  refine ⟨rfl, rfl, rfl, ?_, ?_⟩
  · rw [Section.append]
    dsimp only
    split
    · exact List.prefix_rfl
    · exact List.prefix_append _ _
  · rw [Section.append, Section.start]
    dsimp only
    omega

theorem Section.start_rela {sec : Section} (hsized : sec.Sized) {sh : Shdr} (hsh : sh.WellFormed)
    (htype : sh.sh_type = sec.sh_type) (hrela : sh.sh_type = SHT_RELA) :
    sec.start sh = 24 * sec.rels.length := by
  have hoffset := hsized.rels_size (htype ▸ hrela)
  have hdvd : sh.align ∣ sec.data_offset := by
    rw [hoffset]
    exact (hsh.rels_size hrela).2.trans (Dvd.dvd.mul_right (by decide) _)
  rw [Section.start, padding_zero hsh.align hdvd, Nat.add_zero, hoffset]

theorem Section.sized_append {sec : Section} (hsized : sec.Sized) {sh : Shdr} (hsh : sh.WellFormed)
    (htype : sh.sh_type = sec.sh_type) : (sec.append sh).Sized := by
  have hkind : (sec.append sh).sh_type = sh.sh_type := htype.symm
  refine ⟨fun h => ?_, fun h => ?_, fun h => ?_, fun h h' => ?_⟩
  · rw [hkind] at h
    rw [Section.append]
    dsimp only
    rw [if_neg h]
    exact hsized.rels_nil (htype ▸ h)
  · rw [hkind] at h
    have hstart := Section.start_rela hsized hsh htype h
    have hsize := (hsh.rels_size h).1
    rw [Section.append]
    dsimp only
    rw [if_pos h, List.length_append, hstart, hsize]
    ring
  · rw [hkind] at h
    rw [Section.append]
    dsimp only
    rw [if_pos h.symm]
    exact hsized.data_nil (htype ▸ h)
  · rw [hkind] at h h'
    have hdata := hsized.data_size (htype ▸ h) (htype ▸ h')
    have hsize := hsh.data_size h h'
    rw [Section.append]
    dsimp only
    rw [if_neg (by rintro (h'' | h'') <;> contradiction), List.length_append, List.length_append,
      List.length_replicate, hdata, hsize, Section.start]
    omega

/-- A section that is found, or that was added, gets the contents. -/
theorem Placed.append {s₀ s : State} {done : List (Shdr × Info)} (hplaced : Placed s₀ done s) {k : Nat}
    {sec : Section} (hsec : s.sections[k]? = some sec) {sh : Shdr} (hsh : sh.WellFormed)
    (hname : sec.name = sh.name) (htype : sh.sh_type = sec.sh_type) (hnew : Bool) :
    Placed s₀ (done ++ [(sh, ⟨some k, sec.start sh, hnew, false⟩)])
      { s with sections := s.sections.set k (sec.append sh) } := by
  obtain ⟨hk, -⟩ := List.getElem?_eq_some_iff.mp hsec
  have hget : (s.sections.set k (sec.append sh))[k]? = some (sec.append sh) := List.getElem?_set_self hk
  have hother : ∀ i, k ≠ i → (s.sections.set k (sec.append sh))[i]? = s.sections[i]? :=
    fun i hi => List.getElem?_set_ne hi
  have hgrown : sec.Grown (sec.append sh) := sec.grown_append sh
  have hend : old_end s₀ k ≤ sec.data_offset := by
    rw [old_end]
    cases hold : s₀.sections[k]? with
    | none => exact Nat.zero_le _
    | some sec₀ =>
      obtain ⟨sec', hsec', hgrown'⟩ := hplaced.grown k sec₀ hold
      rw [hsec, Option.some.injEq] at hsec'
      subst hsec'
      exact hgrown'.data_offset
  have hsized := hplaced.sized k sec hsec
  have hrels := hplaced.rels k sec hsec
  refine ⟨hplaced.symtab_section, hplaced.stab_section, hplaced.syms, hplaced.rules, fun i x hx => ?_,
    fun i x hx => ?_, fun p hp h => ?_, fun p hp i hin => ?_, ?_, fun pre post p i hdone hin hrela => ?_,
    fun i x hx => ?_, fun i j x y hx hy hxy => ?_⟩
  · obtain ⟨x', hx', hxgrown⟩ := hplaced.grown i x hx
    by_cases hi : k = i
    · subst hi
      rw [hsec, Option.some.injEq] at hx'
      subst hx'
      exact ⟨_, hget, hxgrown.trans hgrown⟩
    · exact ⟨x', (hother i hi).trans hx', hxgrown⟩
  · rw [List.flatMap_append, ← List.append_assoc]
    by_cases hi : k = i
    · subst hi
      rw [hget, Option.some.injEq] at hx
      subst hx
      rw [← hrels, Section.append]
      dsimp only
      rw [List.flatMap_singleton, rels_in, if_pos rfl]
      split
      · rfl
      · rename_i hrela
        rw [hsh.rels_nil hrela, List.append_nil]
    · rw [hother i hi] at hx
      have hnone : rels_in i (sh, ⟨some k, sec.start sh, hnew, false⟩) = [] := by
        rw [rels_in, if_neg fun h => hi (Option.some.inj h)]
      rw [← hplaced.rels i x hx, List.flatMap_singleton, hnone, List.append_nil]
  · rcases List.mem_append.mp hp with hp | hp
    · exact hplaced.rels_nil p hp h
    · cases List.mem_singleton.mp hp
      exact hsh.rels_nil h
  · rcases List.mem_append.mp hp with hp | hp
    · obtain ⟨x, hx, hfits⟩ := hplaced.fits p hp i hin
      by_cases hi : k = i
      · subst hi
        rw [hsec, Option.some.injEq] at hx
        subst hx
        refine ⟨_, hget, hgrown.name.trans hfits.name, hgrown.sh_type.trans hfits.sh_type, hfits.aligned,
          hfits.behind, Nat.le_trans hfits.room hgrown.data_offset, fun h h' => ?_⟩
        obtain ⟨rest, hrest⟩ := hgrown.data
        have hlength := hsized.data_size (hfits.sh_type ▸ h) (hfits.sh_type ▸ h')
        have hroom := hfits.room
        rw [← hrest, List.drop_append_of_le_length (by omega),
          List.take_append_of_le_length (by rw [List.length_drop]; omega)]
        exact hfits.data h h'
      · exact ⟨x, (hother i hi).trans hx, hfits⟩
    · cases List.mem_singleton.mp hp
      obtain ⟨hki, -⟩ := hin
      cases hki
      refine ⟨_, hget, hname, htype.symm, padding_spec hsh.align _, ?_, Nat.le_refl _, fun h h' => ?_⟩
      · rw [Section.start]
        dsimp only
        omega
      · have hlength := hsized.data_size (htype ▸ h) (htype ▸ h')
        have hsize := hsh.data_size h h'
        rw [Section.append]
        dsimp only at h h' ⊢
        rw [if_neg (by rintro (h'' | h'') <;> contradiction), ← List.append_assoc,
          List.drop_left' (by rw [List.length_append, List.length_replicate, hlength, Section.start]),
          List.take_of_length_le (Nat.le_of_eq hsize)]
  · refine List.pairwise_append.mpr ⟨hplaced.disjoint, List.pairwise_singleton _ _, fun p hp q hq i hin hin' => ?_⟩
    cases List.mem_singleton.mp hq
    obtain ⟨hki, -⟩ := hin'
    cases hki
    obtain ⟨x, hx, hfits⟩ := hplaced.fits p hp k hin
    rw [hsec, Option.some.injEq] at hx
    subst hx
    have hroom := hfits.room
    rw [Section.start]
    dsimp only
    omega
  · rcases List.eq_nil_or_concat post with rfl | ⟨post', q, rfl⟩
    · obtain ⟨rfl, hp⟩ := List.append_inj' hdone rfl
      cases hp
      obtain ⟨hki, -⟩ := hin
      cases hki
      rw [← hrels]
      exact Section.start_rela hsized hsh htype hrela
    · rw [List.concat_eq_append, ← List.cons_append, ← List.append_assoc] at hdone
      obtain ⟨hdone, -⟩ := List.append_inj' hdone rfl
      exact hplaced.rel_offset pre post' p i hdone hin hrela
  · by_cases hi : k = i
    · subst hi
      rw [hget, Option.some.injEq] at hx
      subst hx
      exact Section.sized_append hsized hsh htype
    · rw [hother i hi] at hx
      exact hplaced.sized i x hx
  · have hback : ∀ (i : Nat) (x : Section), (s.sections.set k (sec.append sh))[i]? = some x →
        ∃ x', s.sections[i]? = some x' ∧ x'.name = x.name := by
      intro i x hx
      by_cases hi : k = i
      · subst hi
        rw [hget, Option.some.injEq] at hx
        subst hx
        exact ⟨sec, hsec, rfl⟩
      · rw [hother i hi] at hx
        exact ⟨x, hx, rfl⟩
    obtain ⟨x', hx', hxn⟩ := hback i x hx
    obtain ⟨y', hy', hyn⟩ := hback j y hy
    exact hplaced.names i j x' y' hx' hy' (by rw [hxn, hyn, hxy])

/-- A section without contents is added under a new name. -/
theorem Placed.extend {s₀ s : State} {done : List (Shdr × Info)} (hplaced : Placed s₀ done s) {sh : Shdr}
    (hnone : s.find_section sh.name = none) :
    Placed s₀ done { s with sections := s.sections ++ [new_section sh] } := by
  have hold : ∀ {i : Nat} {x : Section}, s.sections[i]? = some x →
      (s.sections ++ [new_section sh])[i]? = some x := by
    intro i x hx
    rw [List.getElem?_append_left (List.getElem?_eq_some_iff.mp hx).1]
    exact hx
  have hcases : ∀ {i : Nat} {x : Section}, (s.sections ++ [new_section sh])[i]? = some x →
      s.sections[i]? = some x ∨ (i = s.sections.length ∧ x = new_section sh) := by
    intro i x hx
    rcases lt_trichotomy i s.sections.length with hi | rfl | hi
    · rw [List.getElem?_append_left hi] at hx
      exact Or.inl hx
    · rw [List.getElem?_concat_length, Option.some.injEq] at hx
      exact Or.inr ⟨rfl, hx.symm⟩
    · rw [List.getElem?_eq_none (by rw [List.length_append, List.length_singleton]; omega)] at hx
      cases hx
  have hname : ∀ (i : Nat) (x : Section), s.sections[i]? = some x → x.name ≠ sh.name := by
    intro i x hx h
    have := List.findIdx?_eq_none_iff.mp hnone x (List.mem_of_getElem? hx)
    rw [h, beq_self_eq_true] at this
    cases this
  refine ⟨hplaced.symtab_section, hplaced.stab_section, hplaced.syms, hplaced.rules, fun i x hx => ?_,
    fun i x hx => ?_, hplaced.rels_nil, fun p hp i hin => ?_, hplaced.disjoint, hplaced.rel_offset,
    fun i x hx => ?_, fun i j x y hx hy hxy => ?_⟩
  · obtain ⟨x', hx', hgrown⟩ := hplaced.grown i x hx
    exact ⟨x', hold hx', hgrown⟩
  · rcases hcases hx with hx | ⟨rfl, rfl⟩
    · exact hplaced.rels i x hx
    · have hrels : old_rels s₀ s.sections.length = [] := by
        rw [old_rels]
        cases hsec : s₀.sections[s.sections.length]? with
        | none => rfl
        | some sec =>
          obtain ⟨sec', hsec', -⟩ := hplaced.grown _ _ hsec
          rw [List.getElem?_eq_none (Nat.le_refl _)] at hsec'
          cases hsec'
      have hflat : done.flatMap (rels_in s.sections.length) = [] := by
        rw [List.flatMap_eq_nil_iff]
        intro p hp
        rw [rels_in]
        split
        · rename_i hin
          by_cases hrela : p.1.sh_type = SHT_RELA
          · obtain ⟨x, hx, -⟩ := hplaced.fits p hp _ ⟨hin, by rw [hrela]; decide⟩
            rw [List.getElem?_eq_none (Nat.le_refl _)] at hx
            cases hx
          · exact hplaced.rels_nil p hp hrela
        · rfl
      rw [hrels, hflat]
      rfl
  · obtain ⟨x, hx, hfits⟩ := hplaced.fits p hp i hin
    exact ⟨x, hold hx, hfits⟩
  · rcases hcases hx with hx | ⟨-, rfl⟩
    · exact hplaced.sized i x hx
    · exact ⟨fun _ => rfl, fun _ => rfl, fun _ => rfl, fun _ _ => rfl⟩
  · rcases hcases hx with hx' | ⟨rfl, rfl⟩ <;> rcases hcases hy with hy' | ⟨rfl, rfl⟩
    · exact hplaced.names i j x y hx' hy' hxy
    · exact absurd hxy (hname i x hx')
    · exact absurd hxy.symm (hname j y hy')
    · rfl

/-- A section of the object that is left out. -/
theorem Placed.skip {s₀ s : State} {done : List (Shdr × Info)} (hplaced : Placed s₀ done s) {sh : Shdr}
    (hrels : sh.sh_type ≠ SHT_RELA → sh.rels = []) {info : Info} (hin : ∀ k, ¬InSection (sh, info) k) :
    Placed s₀ (done ++ [(sh, info)]) s := by
  have hnone : ∀ k, rels_in k (sh, info) = [] := by
    intro k
    rw [rels_in]
    split
    · rename_i hk
      refine hrels fun hrela => hin k ⟨hk, ?_⟩
      dsimp only
      rw [hrela]
      decide
    · rfl
  refine ⟨hplaced.symtab_section, hplaced.stab_section, hplaced.syms, hplaced.rules, hplaced.grown,
    fun k sec hsec => ?_, fun p hp h => ?_, fun p hp k hk => ?_, ?_, fun pre post p k hdone hk hrela => ?_,
    hplaced.sized, hplaced.names⟩
  · rw [List.flatMap_append, List.flatMap_singleton, hnone, List.append_nil]
    exact hplaced.rels k sec hsec
  · rcases List.mem_append.mp hp with hp | hp
    · exact hplaced.rels_nil p hp h
    · cases List.mem_singleton.mp hp
      exact hrels h
  · rcases List.mem_append.mp hp with hp | hp
    · exact hplaced.fits p hp k hk
    · cases List.mem_singleton.mp hp
      exact absurd hk (hin k)
  · refine List.pairwise_append.mpr ⟨hplaced.disjoint, List.pairwise_singleton _ _, fun p _ q hq k _ hk => ?_⟩
    cases List.mem_singleton.mp hq
    exact absurd hk (hin k)
  · rcases List.eq_nil_or_concat post with rfl | ⟨post', q, rfl⟩
    · obtain ⟨rfl, hp⟩ := List.append_inj' hdone rfl
      cases hp
      exact absurd hk (hin k)
    · rw [List.concat_eq_append, ← List.cons_append, ← List.append_assoc] at hdone
      obtain ⟨hdone, -⟩ := List.append_inj' hdone rfl
      exact hplaced.rel_offset pre post' p k hdone hk hrela

theorem Placed.length_le {s₀ s : State} {done : List (Shdr × Info)} (hplaced : Placed s₀ done s) :
    s₀.sections.length ≤ s.sections.length := by
  by_contra hlt
  obtain ⟨sec, hsec, -⟩ := hplaced.grown s.sections.length _ (List.getElem?_eq_getElem (by omega))
  rw [List.getElem?_eq_none (Nat.le_refl _)] at hsec
  cases hsec

/-- Whether a name is in use: by a section of before, or by one of the object. -/
def NameUsed (s₀ : State) (done : List (Shdr × Info)) (name : Name) : Prop :=
  (∃ sec ∈ s₀.sections, sec.name = name) ∨ ∃ p ∈ done, (∃ k, InSection p k) ∧ p.1.name = name

/-- The sections that were added are those of the object's names. -/
structure Sourced (s₀ : State) (done : List (Shdr × Info)) (s : State) : Prop where
  added : ∀ k, s₀.sections.length ≤ k → k < s.sections.length →
    ∃ p ∈ done, InSection p k ∧ p.2.new_section = true
  not_before : ∀ p ∈ done, p.2.new_section = true → ∀ k, p.2.s = some k → s₀.sections.length ≤ k
  symtab : ∀ p ∈ done, p.1.sh_type = SHT_SYMTAB → ∀ k, p.2.s = some k → k = s₀.symtab_section

theorem find_section_eq_some {s : State} {name : Name} {k : Nat} (hfind : s.find_section name = some k) :
    ∃ sec, s.sections[k]? = some sec ∧ sec.name = name := by
  obtain ⟨hk, hname, -⟩ := List.findIdx?_eq_some_iff_getElem.mp hfind
  exact ⟨_, List.getElem?_eq_getElem hk, eq_of_beq hname⟩

theorem find_section_isSome {s₀ s : State} {done : List (Shdr × Info)} (hplaced : Placed s₀ done s)
    (hsourced : Sourced s₀ done s) (name : Name) :
    (s.find_section name).isSome = true ↔ NameUsed s₀ done name := by
  constructor
  · intro hsome
    obtain ⟨k, hk⟩ := Option.isSome_iff_exists.mp hsome
    obtain ⟨sec, hsec, hname⟩ := find_section_eq_some hk
    by_cases hlt : k < s₀.sections.length
    · obtain ⟨sec', hsec', hgrown⟩ := hplaced.grown k _ (List.getElem?_eq_getElem hlt)
      rw [hsec, Option.some.injEq] at hsec'
      subst hsec'
      exact Or.inl ⟨_, List.getElem_mem hlt, by rw [← hgrown.name, hname]⟩
    · obtain ⟨p, hp, hin, -⟩ := hsourced.added k (by omega) (List.getElem?_eq_some_iff.mp hsec).1
      obtain ⟨sec', hsec', hfits⟩ := hplaced.fits p hp k hin
      rw [hsec, Option.some.injEq] at hsec'
      subst hsec'
      exact Or.inr ⟨p, hp, ⟨k, hin⟩, by rw [← hfits.name, hname]⟩
  · intro hused
    have hmem : ∃ sec ∈ s.sections, sec.name = name := by
      rcases hused with ⟨sec, hsec, hname⟩ | ⟨p, hp, ⟨k, hin⟩, hname⟩
      · obtain ⟨k, hk⟩ := List.getElem?_of_mem hsec
        obtain ⟨sec', hsec', hgrown⟩ := hplaced.grown k sec hk
        exact ⟨sec', List.mem_of_getElem? hsec', by rw [hgrown.name, hname]⟩
      · obtain ⟨sec', hsec', hfits⟩ := hplaced.fits p hp k hin
        exact ⟨sec', List.mem_of_getElem? hsec', by rw [hfits.name, hname]⟩
    obtain ⟨sec, hsec, hname⟩ := hmem
    rw [State.find_section, List.findIdx?_isSome, List.any_eq_true]
    exact ⟨sec, hsec, by rw [hname, beq_self_eq_true]⟩

/-- Whether a section of the object is left out because its name is in use. -/
def Duplicate (s₀ : State) (done : List (Shdr × Info)) (obj : Object) (i : Nat) (sh : Shdr) : Prop :=
  sh.sh_type ≠ SHT_SYMTAB ∧ obj.passes i sh = true ∧ linkonce sh.name = true ∧ NameUsed s₀ done sh.name

/-- One section of the object: it is put somewhere, or it is left out. -/
theorem load_section_spec {s₀ s s' : State} {done : List (Shdr × Info)} (hplaced : Placed s₀ done s)
    (hsourced : Sourced s₀ done s) {obj : Object} {i : Nat} {sh : Shdr} (hsh : sh.WellFormed) {info : Info}
    (hload : load_section obj i sh s = some (s', info)) :
    Placed s₀ (done ++ [(sh, info)]) s' ∧ Sourced s₀ (done ++ [(sh, info)]) s' ∧
      ((∃ k, InSection (sh, info) k) ↔ sh.sh_type ≠ SHT_SYMTAB ∧ obj.passes i sh = true ∧
        ¬Duplicate s₀ done obj i sh) ∧
      (info.link_once = true ↔ Duplicate s₀ done obj i sh) := by
  have hadded : ∀ k, s₀.sections.length ≤ k → k < s.sections.length →
      ∃ p ∈ done ++ [(sh, info)], InSection p k ∧ p.2.new_section = true := by
    intro k hk hlt
    obtain ⟨p, hp, hin⟩ := hsourced.added k hk hlt
    exact ⟨p, List.mem_append_left _ hp, hin⟩
  have hall : ∀ {q : Shdr × Info → Prop}, (∀ p ∈ done, q p) → q (sh, info) →
      ∀ p ∈ done ++ [(sh, info)], q p := by
    intro q hq hlast p hp
    rcases List.mem_append.mp hp with hp | hp
    · exact hq p hp
    · rw [List.mem_singleton.mp hp]
      exact hlast
  have hused := find_section_isSome hplaced hsourced sh.name
  rw [load_section] at hload
  split at hload
  · rename_i hsymtab
    cases hload
    refine ⟨hplaced.skip hsh.rels_nil fun k hk => hk.2 hsymtab,
      ⟨hadded, hall hsourced.not_before fun h => Bool.noConfusion h, hall hsourced.symtab fun _ k hk => ?_⟩,
      ?_, ?_⟩
    · exact (Option.some.inj hk).symm.trans hplaced.symtab_section
    · exact ⟨fun ⟨k, hk⟩ => absurd hsymtab hk.2, fun h => absurd hsymtab h.1⟩
    · exact ⟨fun h => Bool.noConfusion h, fun h => absurd hsymtab h.1⟩
  · rename_i hsymtab
    split at hload
    · rename_i hpasses
      cases hload
      rw [Bool.not_eq_true'] at hpasses
      refine ⟨hplaced.skip hsh.rels_nil (fun k hk => by cases hk.1),
        ⟨hadded, hall hsourced.not_before fun h => Bool.noConfusion h,
          hall hsourced.symtab fun h => absurd h hsymtab⟩, ?_, ?_⟩
      · refine ⟨fun ⟨k, hk⟩ => (by cases hk.1), fun h => ?_⟩
        rw [hpasses] at h
        exact absurd h.2.1 Bool.false_ne_true
      · refine ⟨fun h => Bool.noConfusion h, fun h => ?_⟩
        have := h.2.1
        rw [hpasses] at this
        cases this
    · rename_i hpasses
      rw [Bool.not_eq_true', Bool.not_eq_false] at hpasses
      split at hload
      · rename_i k hfind
        have hname_used := hused.mp (by rw [hfind]; rfl)
        split at hload
        · rename_i honce
          cases hload
          have hdup : Duplicate s₀ done obj i sh := ⟨hsymtab, hpasses, honce, hname_used⟩
          refine ⟨hplaced.skip hsh.rels_nil (fun k hk => by cases hk.1),
        ⟨hadded, hall hsourced.not_before fun h => Bool.noConfusion h,
          hall hsourced.symtab fun h => absurd h hsymtab⟩, ?_, ?_⟩
          · exact ⟨fun ⟨k, hk⟩ => (by cases hk.1), fun h => absurd hdup h.2.2⟩
          · exact ⟨fun _ => hdup, fun _ => rfl⟩
        · rename_i honce
          have hdup : ¬Duplicate s₀ done obj i sh := fun h => honce h.2.2.1
          obtain ⟨sec, hsec, hname⟩ := find_section_eq_some hfind
          rw [hsec] at hload
          dsimp only at hload
          split at hload
          · cases hload
          · rename_i htype
            cases hload
            refine ⟨hplaced.append hsec hsh hname (not_not.mp htype) false,
              ⟨fun k' hk' hlt => ?_, hall hsourced.not_before fun h => Bool.noConfusion h,
                hall hsourced.symtab fun h => absurd h hsymtab⟩, ?_, ?_⟩
            · rw [List.length_set] at hlt
              exact hadded k' hk' hlt
            · exact ⟨fun _ => ⟨hsymtab, hpasses, hdup⟩, fun _ => ⟨k, rfl, hsymtab⟩⟩
            · exact ⟨fun h => Bool.noConfusion h, fun h => absurd h hdup⟩
      · rename_i hfind
        have hdup : ¬Duplicate s₀ done obj i sh := fun h => by
          have := hused.mpr h.2.2.2
          rw [hfind] at this
          cases this
        cases hload
        have hget : (s.sections ++ [new_section sh])[s.sections.length]? = some (new_section sh) :=
          List.getElem?_concat_length
        have happend := (hplaced.extend hfind).append hget hsh rfl rfl true
        have hset : (s.sections ++ [new_section sh]).set s.sections.length ((new_section sh).append sh) =
            s.sections ++ [(new_section sh).append sh] := by
          rw [List.set_append_right _ _ (Nat.le_refl _), Nat.sub_self, List.set_cons_zero]
        dsimp only at happend
        rw [hset] at happend
        refine ⟨happend, ⟨fun k' hk' hlt => ?_, hall hsourced.not_before fun _ k' hk' => ?_,
          hall hsourced.symtab fun h => absurd h hsymtab⟩, ?_, ?_⟩
        · rw [List.length_append, List.length_singleton] at hlt
          rcases Nat.lt_succ_iff_lt_or_eq.mp hlt with hlt | rfl
          · exact hadded k' hk' hlt
          · exact ⟨_, List.mem_append_right _ List.mem_cons_self, ⟨rfl, hsymtab⟩, rfl⟩
        · cases hk'
          exact hplaced.length_le
        · exact ⟨fun _ => ⟨hsymtab, hpasses, hdup⟩, fun _ => ⟨_, rfl, hsymtab⟩⟩
        · exact ⟨fun h => Bool.noConfusion h, fun h => absurd h hdup⟩

/-- What the tests say of the sections of an object, from number one on. -/
def Tested (s₀ : State) (obj : Object) (done : List (Shdr × Info)) : Prop :=
  ∀ (pre post : List (Shdr × Info)) (p : Shdr × Info), done = pre ++ p :: post → pre ≠ [] →
    ((∃ k, InSection p k) ↔ p.1.sh_type ≠ SHT_SYMTAB ∧ obj.passes pre.length p.1 = true ∧
      ¬Duplicate s₀ pre obj pre.length p.1) ∧
    (p.2.link_once = true ↔ Duplicate s₀ pre obj pre.length p.1)

theorem load_sections_spec {s₀ s s' : State} {done : List (Shdr × Info)} (hplaced : Placed s₀ done s)
    (hsourced : Sourced s₀ done s) {obj : Object} (htested : Tested s₀ obj done) {i : Nat}
    (hi : done.length = i) {shdrs : List Shdr} (hwf : ∀ sh ∈ shdrs, sh.WellFormed) {infos : List Info}
    (hload : load_sections obj i shdrs s = some (s', infos)) :
    infos.length = shdrs.length ∧ Placed s₀ (done ++ shdrs.zip infos) s' ∧
      Sourced s₀ (done ++ shdrs.zip infos) s' ∧ Tested s₀ obj (done ++ shdrs.zip infos) := by
  induction shdrs generalizing s done i infos with
  | nil =>
    cases hload
    rw [List.zip_nil_left, List.append_nil]
    exact ⟨rfl, hplaced, hsourced, htested⟩
  | cons sh shdrs ih =>
    rw [load_sections] at hload
    obtain ⟨⟨s₁, info⟩, hsection, hload⟩ := Option.bind_eq_some_iff.mp hload
    obtain ⟨⟨s₂, infos'⟩, hrest, heq⟩ := Option.bind_eq_some_iff.mp hload
    cases heq
    obtain ⟨hplaced₁, hsourced₁, hin, honce⟩ := load_section_spec hplaced hsourced
      (hwf sh List.mem_cons_self) hsection
    have htested₁ : Tested s₀ obj (done ++ [(sh, info)]) := by
      intro pre post p hdone hpre
      rcases List.eq_nil_or_concat post with rfl | ⟨post', q, rfl⟩
      · obtain ⟨rfl, hp⟩ := List.append_inj' hdone rfl
        cases hp
        rw [hi]
        exact ⟨hin, honce⟩
      · rw [List.concat_eq_append, ← List.cons_append, ← List.append_assoc] at hdone
        obtain ⟨hdone, -⟩ := List.append_inj' hdone rfl
        exact htested pre post' p hdone hpre
    obtain ⟨hlength, hall⟩ := ih hplaced₁ hsourced₁ htested₁
      (by rw [List.length_append, List.length_singleton, hi]) (fun sh hsh => hwf sh (List.mem_cons_of_mem _ hsh))
      hrest
    rw [List.append_assoc] at hall
    exact ⟨by rw [List.length_cons, List.length_cons, hlength], hall⟩

/-- A state whose sections have different names and the contents that their types ask for, in which
    sections of relocations are named after the ones they are for. -/
structure Linked (s : State) : Prop where
  sized : ∀ (k : Nat) (sec : Section), s.sections[k]? = some sec → sec.Sized
  names : ∀ (i j : Nat) (x y : Section), s.sections[i]? = some x → s.sections[j]? = some y →
    x.name = y.name → i = j
  relocs : ∀ (k : Nat) (sec : Section), s.sections[k]? = some sec → sec.sh_type = SHT_RELA →
    ∃ (t : Nat) (tgt : Section), sec.sh_info = sh_num t ∧ s.sections[t]? = some tgt ∧
      sec.name.1 = chars ".rela" ++ tgt.name.1
  unique : Unique s.syms
  symtab : ∃ sec, s.sections[s.symtab_section]? = some sec ∧ sec.sh_type = SHT_SYMTAB
  stab : ∀ ab, s.stab_section = some ab → ab.1 ≠ s.symtab_section

theorem placed_start {s : State} (hlinked : Linked s) {sh : Shdr} (hrels : sh.rels = []) :
    Placed s [(sh, Info.none)] s := by
  have hnot : ∀ p ∈ [(sh, Info.none)], ∀ k, ¬InSection p k := by
    intro p hp k hk
    cases List.mem_singleton.mp hp
    cases hk.1
  refine ⟨rfl, rfl, rfl, rfl, fun k sec hsec => ⟨sec, hsec, Section.Grown.refl sec⟩, fun k sec hsec => ?_,
    fun p hp _ => ?_, fun p hp k hk => absurd hk (hnot p hp k), List.pairwise_singleton _ _,
    fun pre post p k hdone hk => ?_, hlinked.sized, hlinked.names⟩
  · rw [old_rels, hsec, List.flatMap_singleton, rels_in, if_neg (by simp [Info.none])]
    exact (List.append_nil _).symm
  · cases List.mem_singleton.mp hp
    exact hrels
  · exact absurd hk (hnot p (hdone ▸ List.mem_append_right _ List.mem_cons_self) k)

/-- The sections of an object, each with where it is put. -/
theorem load_object_sections {s s' : State} (hlinked : Linked s) {obj : Object} {sh₀ : Shdr}
    {shdrs : List Shdr} (hobj : obj.shdrs = sh₀ :: shdrs) (hrels : sh₀.rels = [])
    (hwf : ∀ sh ∈ shdrs, sh.WellFormed) {infos : List Info}
    (hload : load_sections obj 1 shdrs s = some (s', infos)) :
    infos.length = shdrs.length ∧ Placed s (obj.shdrs.zip (Info.none :: infos)) s' ∧
      Sourced s (obj.shdrs.zip (Info.none :: infos)) s' ∧
        Tested s obj (obj.shdrs.zip (Info.none :: infos)) := by
  have hsourced : Sourced s [(sh₀, Info.none)] s := by
    refine ⟨fun k hk hlt => absurd hlt (Nat.not_lt.mpr hk), fun p hp hnew => ?_, fun p hp _ k hk => ?_⟩
    · cases List.mem_singleton.mp hp
      cases hnew
    · cases List.mem_singleton.mp hp
      cases hk
  have htested : Tested s obj [(sh₀, Info.none)] := by
    intro pre post p hdone hpre
    cases pre with
    | nil => exact absurd rfl hpre
    | cons q pre =>
      have := congrArg List.length hdone
      simp only [List.cons_append, List.length_cons, List.length_append, List.length_nil] at this
      omega
  have hspec := load_sections_spec (placed_start hlinked hrels) hsourced htested rfl hwf hload
  rw [hobj, List.zip_cons_cons]
  exact hspec

end tcc.obj
