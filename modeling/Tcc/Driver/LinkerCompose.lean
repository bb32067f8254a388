import Tcc.Driver.LinkerWords

/-! When two strings of linker options can be put into one, and when no access is outside of a buffer. -/

namespace tcc.driver

/-- The options with a warning. -/
def ignored : LinkerOption → Bool
  | .fini | .init | .Map | .as_needed | .O | .z => true
  | _ => false

/-- An output format that is not known. Only at the end of the string is `binary` known. -/
def bad_format (h : Sizes) (v : Word) (last : Bool) (o : LinkerOption) : Bool :=
  o = .oformat && !(lit
    (if h.PTR_SIZE = 8 then "elf64-" else "elf32-")).isPrefixOf v && !(last && v = lit "binary")

/-- The last option has an argument, which is not the `binary` of `-oformat`. -/
def open_ended : List Word → Bool
  | [] => false
  | [w] =>
    match find_word w true with
    | .found o _ (some a) => !(o = .oformat && a = lit "binary")
    | _ => false
  | w :: v :: ws =>
    match find_word w false with
    | .found o _ none => if ws.isEmpty then !(o = .oformat && v = lit "binary") else open_ended ws
    | .found _ _ (some _) => open_ended (v :: ws)
    | _ => false

/-- The options up to a `-defsym` are accepted. -/
def reaches_defsym (h : Sizes) (fatal : Bool) : List Word → Bool
  | [] => false
  | [w] =>
    match find_word w true with
    | .found o _ _ => o = .defsym
    | _ => false
  | w :: v :: ws =>
    match find_word w false with
    | .found o _ none => o = .defsym || !bad_format h v ws.isEmpty o && !(ignored o && fatal) && reaches_defsym h fatal ws
    | .found o _ (some a) =>
      o = .defsym || !bad_format h a false o && !(ignored o && fatal) && reaches_defsym h fatal (v :: ws)
    | _ => false

section run

variable {h : Sizes} {s s1 s2 : TCCState} {v : Word} {last : Bool} {ret : Int} {o : LinkerOption}

/-- Every option but `-defsym` stays inside of the buffers and goes on,
  unless the output format is not known. -/
theorem effect_eq (h : Sizes) (s : TCCState) (v : Word) (last : Bool) (ret : Int) (ho : o ≠ .defsym) :
    ∃ s1, s1.unsupported_is_error = s.unsupported_is_error ∧
      effect h s v last ret o = some (if bad_format h v last o then none else some (s1, ignored o)) := by
  cases o with
  | defsym => exact absurd rfl ho
  | oformat =>
    by_cases hpre : (lit (if h.PTR_SIZE = 8 then "elf64-" else "elf32-")).isPrefixOf v = true
    · refine ⟨{ s with output_format := .ELF }, rfl, ?_⟩
      rw [effect, if_pos hpre, bad_format, hpre]
      simp [ignored]
    · refine ⟨{ s with output_format := .BINARY }, rfl, ?_⟩
      rw [effect, if_neg hpre]
      rw [Bool.not_eq_true] at hpre
      by_cases hbin : last = true ∧ v = lit "binary"
      · rw [if_pos hbin, bad_format, hpre]
        simp [hbin, ignored]
      · rw [if_neg hbin, bad_format, hpre]
        by_cases hlast : last = true
        · have hv : ¬ v = lit "binary" := fun heq => hbin ⟨hlast, heq⟩
          simp [hv]
        · simp [hlast]
  | whole_archive =>
    by_cases hret : 0 < ret
    · exact ⟨{ s with filetype := s.filetype ||| AFF_WHOLE_ARCHIVE }, rfl, if_pos hret⟩
    · exact ⟨{ s with filetype := s.filetype &&& ~~~AFF_WHOLE_ARCHIVE }, rfl, if_neg hret⟩
  | _ => exact ⟨_, by rfl, rfl⟩

/-- An option is applied the same way if more follows, except for `binary`. -/
theorem effect_last (h : Sizes) (s : TCCState) (last' : Bool) (ret : Int)
    (ho : ¬ (o = .oformat ∧ v = lit "binary")) :
    effect h s v last ret o = effect h s v last' ret o := by
  cases o with
  | oformat =>
    have hne : ¬ v = lit "binary" := fun heq => ho ⟨rfl, heq⟩
    simp [effect, hne]
  | _ => rfl

theorem effect_binary (h : Sizes) (s : TCCState) (ret : Int) :
    effect h s (lit "binary") false ret .oformat = some none := by
  have hpre : ¬ (lit (if h.PTR_SIZE = 8 then "elf64-" else "elf32-")).isPrefixOf (lit "binary") = true := by
    split <;> decide
  rw [effect, if_neg hpre, if_neg (by decide)]

/-- An accepted turn. -/
theorem finish_accepted {message : Word} {after : TCCState → Option Outcome} {out :
    Option (Option (TCCState × Bool))}
    (hout : finish message after out = some (.accepted s1)) :
    ∃ s' ignoring, out = some (some (s', ignoring)) ∧ (ignoring && s'.unsupported_is_error) = false ∧
      after s' = some (.accepted s1) := by
  rcases out with _ | _ | ⟨s', ignoring⟩
  · cases hout
  · cases hout
  · rw [finish] at hout
    split at hout
    · cases hout
    · rename_i hfatal
      exact ⟨s', ignoring, rfl, Bool.eq_false_of_not_eq_true hfatal, hout⟩

theorem finish_go {message : Word} {after : TCCState → Option Outcome} {s' : TCCState} {ignoring : Bool}
    (hfatal : (ignoring && s'.unsupported_is_error) = false) :
    finish message after (some (some (s', ignoring))) = after s' := by
  rw [finish, if_neg (by rw [hfatal]; decide)]

theorem find_word_nil (last : Bool) : find_word [] last = .unknown := rfl

/-- An accepted word that is the last one. -/
theorem run_singleton {w : Word} (hrun : run h [w] s = some (.accepted s1)) : w = [] ∨
    ∃ o ret v, find_word w true = .found o ret v ∧
      finish w (some ∘ .accepted) (effect h s (v.getD []) true ret o) = some (.accepted s1) := by
  rw [run] at hrun
  split at hrun
  · rename_i hnil
    exact .inl hnil
  · split at hrun
    · cases hrun
    · cases hrun
    · rename_i o ret v hfind
      exact .inr ⟨o, ret, v, hfind, hrun⟩

/-- Behind an open end the run goes on with the next words. -/
theorem run_append {B : List Word} (hB : B ≠ []) : (A : List Word) → (s : TCCState) →
    run h A s = some (.accepted s1) → open_ended A = true → run h (A ++ B) s = run h B s1
  | [], _, _, hopen => by cases hopen
  | [w], s, hrun, hopen => by
    obtain ⟨b, bs, rfl⟩ := List.exists_cons_of_ne_nil hB
    rw [open_ended] at hopen
    split at hopen
    · rename_i o ret a hfind
      rcases run_singleton hrun with rfl | ⟨o', ret', v, hfind', hfinish⟩
      · cases hfind
      · rw [hfind] at hfind'
        cases hfind'
        obtain ⟨s', ignoring, heffect, hfatal, hafter⟩ := finish_accepted hfinish
        cases hafter
        have hbinary : ¬ (o = .oformat ∧ a = lit "binary") :=
          not_and_or.mpr (by simpa using hopen)
        rw [List.cons_append, List.nil_append, run, find_word_more hfind]
        dsimp only
        rw [effect_last h s true ret hbinary]
        exact (congrArg _ heffect).trans (finish_go hfatal)
    · cases hopen
  | w :: v :: ws, s, hrun, hopen => by
    rw [open_ended] at hopen
    rw [run] at hrun
    rw [List.cons_append, List.cons_append, run]
    split at hopen
    · rename_i o ret hfind
      rw [hfind] at hrun ⊢
      obtain ⟨s', ignoring, heffect, hfatal, hafter⟩ := finish_accepted hrun
      cases ws with
      | nil =>
        cases hafter
        have hbinary : ¬ (o = .oformat ∧ v = lit "binary") :=
          not_and_or.mpr (by simpa using hopen)
        dsimp only
        rw [effect_last h s true ret hbinary]
        exact (congrArg _ heffect).trans (finish_go hfatal)
      | cons u us =>
        dsimp only
        exact ((congrArg _ heffect).trans (finish_go hfatal)).trans (run_append hB (u :: us) s' hafter hopen)
    · rename_i o ret a hfind
      rw [hfind] at hrun ⊢
      obtain ⟨s', ignoring, heffect, hfatal, hafter⟩ := finish_accepted hrun
      exact ((congrArg _ heffect).trans (finish_go hfatal)).trans (run_append hB (v :: ws) s' hafter hopen)
    · cases hopen

/-- Behind another end there is an error. -/
theorem run_append_closed {B : List Word} (hB : B ≠ []) : (A : List Word) → (s : TCCState) → A ≠ [] →
    run h A s = some (.accepted s1) → open_ended A = false → ∃ message, run h (A ++ B) s = some
      (.error message)
  | [], _, hA, _, _ => absurd rfl hA
  | [w], s, _, hrun, hclosed => by
    obtain ⟨b, bs, rfl⟩ := List.exists_cons_of_ne_nil hB
    rw [List.cons_append, List.nil_append, run]
    rcases run_singleton hrun with rfl | ⟨o, ret, v, hfind, hfinish⟩
    · exact ⟨_, rfl⟩
    · cases v with
      | none =>
        rw [find_word_flag hfind]
        exact ⟨_, rfl⟩
      | some a =>
        rw [open_ended, hfind] at hclosed
        obtain ⟨rfl, rfl⟩ : o = .oformat ∧ a = lit "binary" := by simpa using hclosed
        rw [find_word_more hfind]
        dsimp only
        rw [effect_binary]
        exact ⟨_, rfl⟩
  | w :: v :: ws, s, _, hrun, hclosed => by
    rw [open_ended] at hclosed
    rw [run] at hrun
    rw [List.cons_append, List.cons_append, run]
    split at hclosed
    · rename_i o ret hfind
      rw [hfind] at hrun ⊢
      obtain ⟨s', ignoring, heffect, hfatal, hafter⟩ := finish_accepted hrun
      cases ws with
      | nil =>
        obtain ⟨rfl, rfl⟩ : o = .oformat ∧ v = lit "binary" := by simpa using hclosed
        obtain ⟨b, bs, rfl⟩ := List.exists_cons_of_ne_nil hB
        dsimp only
        rw [List.nil_append, List.isEmpty_cons, effect_binary]
        exact ⟨_, rfl⟩
      | cons u us =>
        obtain ⟨message, herror⟩ := run_append_closed hB (u :: us) s' (List.cons_ne_nil _ _) hafter hclosed
        exact ⟨message, ((congrArg _ heffect).trans (finish_go hfatal)).trans herror⟩
    · rename_i o ret a hfind
      rw [hfind] at hrun ⊢
      obtain ⟨s', ignoring, heffect, hfatal, hafter⟩ := finish_accepted hrun
      obtain ⟨message, herror⟩ := run_append_closed hB (v :: ws) s' (List.cons_ne_nil _ _) hafter hclosed
      exact ⟨message, ((congrArg _ heffect).trans (finish_go hfatal)).trans herror⟩
    · rename_i hnone hsome
      cases hfind : find_word w false with
      | unknown =>
        rw [hfind] at hrun
        cases hrun
      | lacks =>
        rw [hfind] at hrun
        cases hrun
      | found o ret a =>
        cases a with
        | none => exact absurd hfind (hnone o ret)
        | some a => exact absurd hfind (hsome o ret a)

/-- Whether an option is accepted does not depend on the state but for the warnings. -/
theorem effect_accepted {s' : TCCState} {ignoring : Bool} (heffect : effect h s v last ret o = some
    (some (s', ignoring)))
    (t : TCCState) : s'.unsupported_is_error = s.unsupported_is_error ∧
      ∃ t', t'.unsupported_is_error = t.unsupported_is_error ∧ effect h t v last ret o = some
        (some (t', ignoring)) := by
  have ho : o ≠ .defsym := by
    rintro rfl
    cases heffect
  obtain ⟨u, hu, hequ⟩ := effect_eq h s v last ret ho
  obtain ⟨t', ht', heqt⟩ := effect_eq h t v last ret ho
  rw [hequ] at heffect
  split at heffect
  · cases heffect
  · rename_i hbad
    cases heffect
    exact ⟨hu, t', ht', by rw [heqt, if_neg hbad]⟩

/-- A turn that goes on in one state goes on in every state with the same warnings. -/
theorem finish_accepted_of {message : Word} {after : TCCState → Option Outcome} {t : TCCState}
    (ht : t.unsupported_is_error = s.unsupported_is_error)
    (hrun : finish message after (effect h s v last ret o) = some (.accepted s1))
    (hafter : ∀ s' t', after s' = some (.accepted s1) → t'.unsupported_is_error = s'.unsupported_is_error →
      s'.unsupported_is_error = s.unsupported_is_error → ∃ s2, after t' = some (.accepted s2)) :
    ∃ s2, finish message after (effect h t v last ret o) = some (.accepted s2) := by
  obtain ⟨s', ignoring, heffect, hfatal, hs'⟩ := finish_accepted hrun
  obtain ⟨hsame, t', ht', heqt⟩ := effect_accepted heffect t
  have hts : t'.unsupported_is_error = s'.unsupported_is_error := by rw [ht', ht, hsame]
  obtain ⟨s2, hs2⟩ := hafter s' t' hs' hts hsame
  refine ⟨s2, ?_⟩
  rw [heqt, finish_go (by rw [hts]; exact hfatal), hs2]

/-- The same words are accepted in every state with the same warnings. -/
theorem run_accepted_of : (B : List Word) → (s t : TCCState) → run h B s = some (.accepted s1) →
    t.unsupported_is_error = s.unsupported_is_error → ∃ s2, run h B t = some (.accepted s2)
  | [], _, t, _, _ => ⟨t, rfl⟩
  | [w], s, t, hrun, ht => by
    rcases run_singleton hrun with rfl | ⟨o, ret, v, hfind, hfinish⟩
    · exact ⟨t, rfl⟩
    · rw [run]
      split
      · exact ⟨t, rfl⟩
      · rw [hfind]
        exact finish_accepted_of ht hfinish fun _ t' _ _ _ => ⟨t', rfl⟩
  | w :: v :: ws, s, t, hrun, ht => by
    rw [run] at hrun ⊢
    split at hrun
    · cases hrun
    · cases hrun
    · exact finish_accepted_of ht hrun fun s' t' hs' hts _ => run_accepted_of (v :: ws) s' t' hs' hts
    · exact finish_accepted_of ht hrun fun s' t' hs' hts _ => run_accepted_of ws s' t' hs' hts

theorem finish_warnings {message : Word} {after : TCCState → Option Outcome}
    (hrun : finish message after (effect h s v last ret o) = some (.accepted s1))
    (hafter : ∀ s', after s' = some (.accepted s1) → s1.unsupported_is_error = s'.unsupported_is_error) :
    s1.unsupported_is_error = s.unsupported_is_error := by
  obtain ⟨s', ignoring, heffect, -, hs'⟩ := finish_accepted hrun
  rw [hafter s' hs', (effect_accepted heffect s).1]

theorem run_warnings : (A : List Word) → (s : TCCState) → run h A s = some (.accepted s1) →
    s1.unsupported_is_error = s.unsupported_is_error
  | [], _, hrun => by
    cases hrun
    rfl
  | [w], s, hrun => by
    rcases run_singleton hrun with rfl | ⟨o, ret, v, hfind, hfinish⟩
    · cases hrun
      rfl
    · refine finish_warnings hfinish fun s' hs' => ?_
      cases hs'
      rfl
  | w :: v :: ws, s, hrun => by
    rw [run] at hrun
    split at hrun
    · cases hrun
    · cases hrun
    · exact finish_warnings hrun fun s' hs' => run_warnings (v :: ws) s' hs'
    · exact finish_warnings hrun fun s' hs' => run_warnings ws s' hs'

/-- A turn leaves the buffers at `-defsym`, or later. -/
theorem finish_eq_none {message : Word} {after : TCCState → Option Outcome} {l : Bool}
    (hafter : ∀ s', s'.unsupported_is_error = s.unsupported_is_error → (after s' = none ↔ l = true)) :
    finish message after (effect h s v last ret o) = none ↔
      (o = .defsym || !bad_format h v last o && !(ignored o && s.unsupported_is_error) && l) = true := by
  by_cases ho : o = .defsym
  · subst ho
    simp [effect, finish]
  · obtain ⟨s', hs', heq⟩ := effect_eq h s v last ret ho
    rw [heq]
    by_cases hbad : bad_format h v last o = true
    · simp [finish, hbad, ho]
    · rw [if_neg hbad, finish, hs']
      by_cases hfatal : (ignored o && s.unsupported_is_error) = true
      · simp [hfatal, ho]
      · rw [if_neg hfatal, hafter s' hs']
        simp [ho, hbad, hfatal]

theorem run_eq_none : (A : List Word) → (s : TCCState) →
    (run h A s = none ↔ reaches_defsym h s.unsupported_is_error A = true)
  | [], _ => by simp [run, reaches_defsym]
  | [w], s => by
    rw [run, reaches_defsym]
    split
    · rename_i hnil
      rw [hnil, find_word_nil]
      simp
    · cases hfind : find_word w true with
      | unknown => simp
      | lacks => simp
      | found o ret v =>
        refine (finish_eq_none (l := false) fun s' _ => by simp).trans ?_
        simp
  | w :: v :: ws, s => by
    rw [run, reaches_defsym]
    cases hfind : find_word w false with
    | unknown => simp
    | lacks => simp
    | found o ret a =>
      cases a with
      | none =>
        exact finish_eq_none fun s' hs' => hs' ▸ run_eq_none ws s'
      | some a =>
        exact finish_eq_none fun s' hs' => hs' ▸ run_eq_none (v :: ws) s'

end run

theorem words_append (a b : List UInt8) : words (a ++ comma :: b) = words a ++ words b :=
  List.splitOn_append_cons_self a b

/-- The accesses stay inside of the buffers exactly if no `-defsym` is reached. Two accepted strings can be put into
    one exactly if the first has an open end. -/
theorem tcc_set_linker_append (h : Sizes) (s : TCCState) :
    (∀ option, 0 ∉ option → ((tcc_set_linker h s (option ++ [0])).isSome = true ↔
      reaches_defsym h s.unsupported_is_error (words option) = false)) ∧
    ∀ a b s1 s2, 0 ∉ a → 0 ∉ b → tcc_set_linker h s (a ++ [0]) = some (.accepted s1) →
      tcc_set_linker h s (b ++ [0]) = some (.accepted s2) →
      ((∃ s3, tcc_set_linker h s (a ++ comma :: b ++ [0]) = some (.accepted s3) ∧
        tcc_set_linker h s1 (b ++ [0]) = some (.accepted s3)) ↔ open_ended (words a) = true) := by
  constructor
  · intro option hoption
    have hnone := @run_eq_none h (words option) s
    rw [tcc_set_linker_words h s hoption, ← Option.not_isNone, Bool.not_eq_true', ← Bool.not_eq_true,
      ← Bool.not_eq_true, Option.isNone_iff_eq_none, hnone]
  · intro a b s1 s2 ha hb hruna hrunb
    have hab : 0 ∉ a ++ comma :: b := by
      rw [List.mem_append, List.mem_cons, not_or, not_or]
      exact ⟨ha, by decide, hb⟩
    rw [tcc_set_linker_words h s ha] at hruna
    rw [tcc_set_linker_words h s hb] at hrunb
    rw [tcc_set_linker_words h s hab, tcc_set_linker_words h s1 hb, words_append]
    have hB : words b ≠ [] := List.splitOn_ne_nil comma b
    have hA : words a ≠ [] := List.splitOn_ne_nil comma a
    constructor
    · rintro ⟨s3, hrun, -⟩
      by_contra hclosed
      obtain ⟨message, herror⟩ := run_append_closed hB (words a) s hA hruna
        (Bool.eq_false_of_not_eq_true hclosed)
      rw [herror] at hrun
      cases hrun
    · intro hopen
      obtain ⟨s3, hs3⟩ := run_accepted_of (words b) s s1 hrunb (run_warnings (words a) s hruna)
      exact ⟨s3, (run_append hB (words a) s hruna hopen).trans hs3, hs3⟩

section examples

/-- A state in which no option was set. -/
def unset : TCCState where
  warn_none := false
  warn_error := false
  warn_unsupported := 0
  symbolic := false
  nostdlib := false
  rdynamic := false
  enable_new_dtags := false
  has_text_addr := false
  text_addr := 0
  data_addr := 0
  section_align := 0
  output_format := .ELF
  filetype := 0
  elf_entryname := none
  fini_symbol := none
  init_symbol := none
  mapfile := none
  rpath := none
  soname := none
  defsyms := []

/-- `-soname=x,-Bsymbolic` is `-soname=x` and then `-Bsymbolic`. -/
theorem tcc_set_linker_append_soname : ∃ s1 s3,
    tcc_set_linker ⟨8, 64⟩ unset (lit "-soname=x" ++ [0]) = some (.accepted s1) ∧
    tcc_set_linker ⟨8, 64⟩ unset (lit "-soname=x" ++ comma :: lit "-Bsymbolic" ++ [0]) = some (.accepted s3) ∧
    tcc_set_linker ⟨8, 64⟩ s1 (lit "-Bsymbolic" ++ [0]) = some (.accepted s3) := by
  have hsoname : tcc_set_linker ⟨8, 64⟩ unset (lit "-soname=x" ++ [0]) =
      some (.accepted { unset with soname := some (block (lit "x")) }) := rfl
  have hsymbolic : tcc_set_linker ⟨8, 64⟩ unset (lit "-Bsymbolic" ++ [0]) =
      some (.accepted { unset with symbolic := true }) := rfl
  obtain ⟨s3, hboth, hthen⟩ := ((tcc_set_linker_append ⟨8, 64⟩ unset).2 (lit "-soname=x")
    (lit "-Bsymbolic") _ _
    (by decide) (by decide) hsoname hsymbolic).mpr (by decide)
  exact ⟨_, s3, hsoname, hboth, hthen⟩

/-- `-Bsymbolic` and `-soname=x` are accepted,
  `-Bsymbolic,-soname=x` is not; `-defsym=a=1` is written beyond the end
    of its block. -/
theorem tcc_set_linker_symbolic_soname :
    (∃ s1, tcc_set_linker ⟨8, 64⟩ unset (lit "-Bsymbolic" ++ [0]) = some (.accepted s1)) ∧
    (∃ s2, tcc_set_linker ⟨8, 64⟩ unset (lit "-soname=x" ++ [0]) = some (.accepted s2)) ∧
    tcc_set_linker ⟨8, 64⟩ unset (lit "-Bsymbolic" ++ comma :: lit "-soname=x" ++ [0]) =
      some (.error (lit "-Bsymbolic,-soname=x")) ∧
    tcc_set_linker ⟨8, 64⟩ unset (lit "-defsym=a=1" ++ [0]) = none :=
  ⟨⟨{ unset with symbolic := true }, rfl⟩, ⟨{ unset with soname := some (block (lit "x")) }, rfl⟩, rfl, rfl⟩

end examples

end tcc.driver
