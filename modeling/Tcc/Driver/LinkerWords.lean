import Mathlib.Algebra.Order.Ring.Nat
import Mathlib.Algebra.Order.Sub.Basic
import Mathlib.Data.FinEnum
import Mathlib.Data.Nat.SuccPred
import Tcc.Driver.LinkerOptions

/-! The options of `-Wl` as words between commas: what `tcc_set_linker` does to a list of words, and when two
    strings of options can be put into one. -/

namespace tcc.driver

abbrev Word := List UInt8

/-- How an option is spelled: alone, with an argument, or with or without `no-`. -/
inductive Shape
  | flag
  | argument
  | switch
deriving DecidableEq

structure Row where
  shape : Shape
  name : Word
  option : LinkerOption

/-- The pattern of the row for `link_option`. -/
def Row.val (row : Row) : List UInt8 :=
  match row.shape with
  | .flag => row.name
  | .argument => row.name ++ [equals]
  | .switch => question :: row.name

open LinkerOption Shape in
def rows : List Row :=
  [⟨flag, lit "Bsymbolic", Bsymbolic⟩, ⟨flag, lit "nostdlib", nostdlib⟩, ⟨argument, lit "e", entry⟩,
    ⟨argument, lit "entry", entry⟩, ⟨argument, lit "fini", fini⟩, ⟨argument, lit "image-base", image_base⟩,
    ⟨argument, lit "Ttext", image_base⟩, ⟨argument, lit "data-base", data_base⟩,
      ⟨argument, lit "defsym", defsym⟩,
    ⟨argument, lit "init", init⟩, ⟨argument, lit "Map", Map⟩, ⟨argument, lit "oformat", oformat⟩,
    ⟨flag, lit "as-needed", as_needed⟩, ⟨flag, lit "O", O⟩, ⟨flag, lit "export-all-symbols", export_dynamic⟩,
    ⟨flag, lit "export-dynamic", export_dynamic⟩, ⟨argument, lit "rpath", rpath⟩,
    ⟨flag, lit "enable-new-dtags", enable_new_dtags⟩, ⟨argument, lit "section-alignment", section_alignment⟩,
    ⟨argument, lit "soname", soname⟩, ⟨switch, lit "whole-archive", whole_archive⟩, ⟨argument, lit "z", z⟩]

theorem linker_options_eq : linker_options = rows.map fun row => (row.val, row.option) := rfl

/-- What `link_option` makes of a word: its argument may be missing, stand behind `=`, or in the next word. -/
inductive Hit
  | miss
  | lacks
  | found (ret : Int) (value : Option Word)
deriving DecidableEq

/-- A word without its dashes against a row. -/
def Row.hit (row : Row) (body : Word) (last : Bool) : Hit :=
  match row.shape with
  | .flag => if last = true ∧ body = row.name then .found 1 none else .miss
  | .argument =>
    if body = row.name then if last = true then .lacks else .found 1 none
    else if (row.name ++ [equals]).isPrefixOf body then .found 1 (some (body.drop (row.name.length + 1)))
    else .miss
  | .switch =>
    if last = true ∧ body = lit "no-" ++ row.name then .found (-1) none
    else if last = true ∧ body = row.name then .found 1 none
    else .miss

/-- The word behind one or two dashes. -/
def body (w : Word) : Option Word :=
  if w.head? = some dash then some (if w.tail.head? = some dash then w.tail.tail else w.tail) else none

/-- The option of a word, what `link_option` returns for it, and its argument if it is in the word. -/
inductive Found
  | unknown
  | lacks
  | found (o : LinkerOption) (ret : Int) (value : Option Word)
deriving DecidableEq

def find_body (body : Word) (last : Bool) : List Row → Found
  | [] => .unknown
  | row :: rest =>
    match row.hit body last with
    | .found ret value => .found row.option ret value
    | .miss => find_body body last rest
    | .lacks =>
      match find_body body last rest with
      | .unknown => .lacks
      | found => found

def find_word (w : Word) (last : Bool) : Found :=
  match body w with
  | some body => find_body body last rows
  | none => .unknown

/-- The string of the words, as it is in memory behind the first one. -/
def rest : List Word → Ptr
  | [] => [0]
  | w :: ws => comma :: (w ++ rest ws)

/-- The same without the terminator. -/
def text : List Word → Word
  | [] => []
  | w :: ws => comma :: (w ++ text ws)

/-- Where the next option begins. -/
def next : List Word → Ptr
  | [] => [0]
  | w :: ws => w ++ rest ws

/-- The string that is kept of an argument. -/
def block (v : Word) : Block := ⟨v ++ [0], by simp⟩

/-- The string that is kept of several arguments. -/
def joined (p : Option Block) (sep : UInt8) (v : Word) : Block :=
  match p with
  | none => block v
  | some p => ⟨p.1.takeWhile (· ≠ 0) ++ sep :: (v ++ [0]), by simp⟩

/-- What an option with its argument does to the state,
  and if it is ignored. The outer `none` is an access out of
    the buffer, the inner one an error. -/
def effect (h : Sizes) (s : TCCState) (v : Word) (last : Bool) (ret : Int) :
    LinkerOption → Option (Option (TCCState × Bool))
  | .Bsymbolic => some (some ({ s with symbolic := true }, false))
  | .nostdlib => some (some ({ s with nostdlib := true }, false))
  | .entry => some (some ({ s with elf_entryname := some (block v) }, false))
  | .fini => some (some ({ s with fini_symbol := some (block v) }, true))
  | .image_base =>
    some (some ({ s with text_addr := hex_number 64 v % 2 ^ (8 * h.PTR_SIZE), has_text_addr := true }, false))
  | .data_base => some (some ({ s with data_addr := hex_number 64 v % 2 ^ (8 * h.PTR_SIZE) }, false))
  | .defsym => none
  | .init => some (some ({ s with init_symbol := some (block v) }, true))
  | .Map => some (some ({ s with mapfile := some (block v) }, true))
  | .oformat =>
    if (lit (if h.PTR_SIZE = 8 then "elf64-" else "elf32-")).isPrefixOf v then
      some (some ({ s with output_format := .ELF }, false))
    else if last = true ∧ v = lit "binary" then some (some ({ s with output_format := .BINARY }, false))
    else some none
  | .as_needed => some (some (s, true))
  | .O => some (some (s, true))
  | .export_dynamic => some (some ({ s with rdynamic := true }, false))
  | .rpath => some (some ({ s with rpath := some (joined s.rpath colon v) }, false))
  | .enable_new_dtags => some (some ({ s with enable_new_dtags := true }, false))
  | .section_alignment => some (some ({ s with section_align := hex_number h.ULONG_BITS v % 2 ^ 32 }, false))
  | .soname => some (some ({ s with soname := some (block v) }, false))
  | .whole_archive =>
    if 0 < ret then some (some ({ s with filetype := s.filetype ||| AFF_WHOLE_ARCHIVE }, false))
    else some (some ({ s with filetype := s.filetype &&& ~~~AFF_WHOLE_ARCHIVE }, false))
  | .z => some (some (s, true))

/-- The end of the turn. -/
def finish (message : Word) (after : TCCState → Option Outcome) :
    Option (Option (TCCState × Bool)) → Option Outcome
  | none => none
  | some none => some (.error message)
  | some (some (s, ignoring)) => if ignoring && s.unsupported_is_error then some (.error message) else after s

/-- `tcc_set_linker` on words. -/
def run (h : Sizes) : List Word → TCCState → Option Outcome
  | [], s => some (.accepted s)
  | [w], s =>
    if w = [] then some (.accepted s) else
      match find_word w true with
      | .unknown => some (.error w)
      | .lacks => some (.incomplete s)
      | .found o ret v => finish w (some ∘ .accepted) (effect h s (v.getD []) true ret o)
  | w :: v :: ws, s =>
    match find_word w false with
    | .unknown => some (.error (w ++ text (v :: ws)))
    | .lacks => some (.incomplete s)
    | .found o ret (some a) =>
      finish (w ++ text (v :: ws)) (run h (v :: ws)) (effect h s a false ret o)
    | .found o ret none =>
      finish (w ++ text (v :: ws)) (run h ws) (effect h s v ws.isEmpty ret o)

section link_option

variable {r : Ptr} {last : Bool}

/-- What follows a word in memory. -/
def Ends (last : Bool) (r : Ptr) : Prop := if last = true then r = [0] else r.head? = some comma

theorem Ends.head (h : Ends last r) : r.head? = some (if last = true then 0 else comma) := by
  unfold Ends at h
  cases last with
  | true =>
    rw [if_pos rfl] at h
    rw [h]
    rfl
  | false => exact h

attribute [local simp] rest in
theorem ends_rest (ws : List Word) : Ends ws.isEmpty (rest ws) := by
  cases ws with
  | nil => rfl
  | cons w ws => rfl

/-- A word holds no comma and no terminator. -/
def IsWord (w : Word) : Prop := ∀ c ∈ w, c ≠ 0 ∧ c ≠ comma

/-- The names in the table are made of such characters, and hold no `=`. -/
def IsName (n : Word) : Prop := ∀ c ∈ n, c ≠ 0 ∧ c ≠ comma ∧ c ≠ equals

instance (n : Word) : Decidable (IsName n) := inferInstanceAs (Decidable (∀ c ∈ n, _))

/-- The loop of `link_option` compares a name with the beginning of a word. -/
theorem match_option_name (hends : Ends last r) {n : Word} (hn : IsName n) (q : List UInt8)
    (hq : q = [] ∨ q = [equals]) (b : Word) :
    match_option (n ++ q) (b ++ r) = some
      (if n.isPrefixOf b then some (q, b.drop n.length ++ r) else none) := by
  induction n generalizing b with
  | nil =>
    obtain rfl | rfl := hq
    · rfl
    · rfl
  | cons c n ih =>
    obtain ⟨hc, htail⟩ := List.forall_mem_cons.mp hn
    rw [List.cons_append, match_option.eq_def]
    simp only [hc.2.2, if_false]
    cases b with
    | nil =>
      have hhead := hends.head
      obtain ⟨d, r, rfl⟩ : ∃ d r', r = d :: r' := by
        cases r with
        | nil => cases hhead
        | cons d r => exact ⟨d, r, rfl⟩
      have hd : d ≠ c := by
        rw [List.head?_cons, Option.some.injEq] at hhead
        rintro rfl
        split at hhead
        · exact hc.1 hhead
        · exact hc.2.1 hhead
      simp [hd]
    | cons d b =>
      by_cases hdc : d = c
      · subst hdc
        simp [ih htail b]
      · have hcd : (c == d) = false := beq_false_of_ne (Ne.symm hdc)
        simp [hdc, List.isPrefixOf, hcd]


/-- `link_option` behind the dashes. -/
def Hit.linked (hit : Hit) (last : Bool) (r : Ptr) : Linked :=
  match hit with
  | .miss => ⟨0, none⟩
  | .lacks => ⟨0, some r⟩
  | .found ret (some v) => ⟨ret, some (v ++ r)⟩
  | .found ret none => ⟨ret, some (if last = true then r else r.tail)⟩

theorem link_value_flag (hends : Ends last r) {n : Word} (hn : IsName n) (ret : Int) {b : Word}
    (hb : IsWord b) :
    link_value ret n (b ++ r) = some (if last = true ∧ b = n then ⟨ret, some r⟩ else ⟨0, none⟩) := by
  have hmatch := match_option_name hends hn [] (.inl rfl) b
  rw [List.append_nil] at hmatch
  rw [link_value, hmatch]
  by_cases hpre : n.isPrefixOf b = true
  · obtain ⟨t, rfl⟩ := List.isPrefixOf_iff_prefix.mp hpre
    rw [if_pos hpre, List.drop_left]
    cases t with
    | nil =>
      simp only [List.nil_append, List.append_nil, hends.head, Option.bind_eq_bind, Option.bind_some]
      cases last with
      | true => rfl
      | false => rfl
    | cons c t =>
      have hc := (hb c (by simp)).1
      simp [hc]
  · rw [if_neg hpre]
    have hne : ¬ (last = true ∧ b = n) := by
      rintro ⟨-, rfl⟩
      exact hpre (List.isPrefixOf_iff_prefix.mpr (List.prefix_refl b))
    simp [hne]

theorem link_value_argument (hends : Ends last r) {n : Word} (hn : IsName n) (o : LinkerOption) {b : Word}
    (hb : IsWord b) : link_value 1 (n ++ [equals]) (b ++ r) = some
    ((Row.hit ⟨.argument, n, o⟩ b last).linked last r) := by
  rw [link_value, match_option_name hends hn [equals] (.inr rfl) b]
  by_cases hpre : n.isPrefixOf b = true
  · obtain ⟨t, rfl⟩ := List.isPrefixOf_iff_prefix.mp hpre
    rw [if_pos hpre, List.drop_left]
    cases t with
    | nil =>
      simp only [List.nil_append, List.append_nil, hends.head, Option.bind_eq_bind, Option.bind_some]
      cases last with
      | true => simp [Row.hit, Hit.linked, comma, equals]
      | false => simp [Row.hit, Hit.linked, equals]
    | cons c t =>
      have hc := hb c (by simp)
      by_cases heq : c = equals
      · subst heq
        have hpre' : (n ++ [equals]).isPrefixOf (n ++ equals :: t) = true :=
          List.isPrefixOf_iff_prefix.mpr ⟨t, by simp⟩
        simp [Row.hit, Hit.linked, hpre']
      · have hpre' : ¬ (n ++ [equals]).isPrefixOf (n ++ c :: t) = true := by
          rw [List.isPrefixOf_iff_prefix]
          rintro ⟨t', ht'⟩
          rw [List.append_assoc, List.append_cancel_left_eq] at ht'
          exact heq (List.cons.inj ht').1.symm
        simp [Row.hit, Hit.linked, hpre', hc.1, hc.2, heq]
  · have hne : ¬ b = n := by
      rintro rfl
      exact hpre (List.isPrefixOf_iff_prefix.mpr (List.prefix_refl b))
    have hpre' : ¬ (n ++ [equals]).isPrefixOf b = true := by
      rw [List.isPrefixOf_iff_prefix] at hpre ⊢
      exact fun h => hpre ((List.prefix_append n _).trans h)
    simp [Row.hit, Hit.linked, hne, hpre, hpre']

theorem strstart_eq {val : List UInt8} (hval : ∀ c ∈ val, c ≠ equals) (p : Ptr) :
    strstart val p = (match_option val p).map fun found => found.map Prod.snd := by
  induction val generalizing p with
  | nil => rfl
  | cons v val ih =>
    obtain ⟨hv, hval⟩ := List.forall_mem_cons.mp hval
    rw [match_option.eq_def]
    simp only [hv, if_false]
    cases p with
    | nil => rfl
    | cons c p =>
      change (if c ≠ v then some none else strstart val p) =
        Option.map _ (if c ≠ v then some none else match_option val p)
      split
      · rfl
      · exact ih hval p

theorem strstart_name (hends : Ends last r) {n : Word} (hn : IsName n) (b : Word) :
    strstart n (b ++ r) = some (if n.isPrefixOf b then some (b.drop n.length ++ r) else none) := by
  have hmatch := match_option_name hends hn [] (.inl rfl) b
  rw [List.append_nil] at hmatch
  rw [strstart_eq (fun c hc => (hn c hc).2.2), hmatch]
  split <;> rfl

/-- What the names of the table have to meet. -/
structure Row.Proper (row : Row) : Prop where
  name : IsName row.name
  first : row.val.head? = some question ↔ row.shape = .switch
  switch : row.shape = .switch → (lit "no-").isPrefixOf row.name = false

instance (row : Row) : Decidable row.Proper :=
  decidable_of_iff (IsName row.name ∧ (row.val.head? = some question ↔ row.shape = .switch) ∧
    (row.shape = .switch → (lit "no-").isPrefixOf row.name = false))
    ⟨fun ⟨h1, h2, h3⟩ => ⟨h1, h2, h3⟩, fun ⟨h1, h2, h3⟩ => ⟨h1, h2, h3⟩⟩

theorem rows_proper : ∀ row ∈ rows, row.Proper := by
  simp [rows, lit]
  decide +kernel

/-- A word against a row. -/
def Row.hit_word (row : Row) (w : Word) (last : Bool) : Hit :=
  match body w with
  | some body => row.hit body last
  | none => .miss

theorem link_pattern_row (hends : Ends last r) {row : Row} (hrow : row.Proper) {b : Word} (hb : IsWord b) :
    link_pattern (b ++ r) row.val = some ((row.hit b last).linked last r) := by
  obtain ⟨shape, n, o⟩ := row
  obtain ⟨hn, hfirst, hswitch⟩ := hrow
  cases shape with
  | flag =>
    have hne : ¬ (Row.val ⟨.flag, n, o⟩).head? = some question := fun h => nomatch hfirst.mp h
    rw [link_pattern, if_neg hne]
    refine (link_value_flag hends hn 1 hb).trans (congrArg some ?_)
    unfold Row.hit Hit.linked
    by_cases hc : last = true ∧ b = n
    · simp [hc]
    · simp [hc]
  | argument =>
    have hne : ¬ (Row.val ⟨.argument, n, o⟩).head? = some question := fun h => nomatch hfirst.mp h
    rw [link_pattern, if_neg hne]
    exact link_value_argument hends hn o hb
  | switch =>
    have hno := hswitch rfl
    rw [link_pattern, if_pos (hfirst.mpr rfl), strstart_name hends (by simp [IsName, lit, comma, equals])]
    have htail : (Row.val ⟨.switch, n, o⟩).tail = n := rfl
    rw [htail]
    by_cases hpre : (lit "no-").isPrefixOf b = true
    · obtain ⟨t, rfl⟩ := List.isPrefixOf_iff_prefix.mp hpre
      have ht : IsWord t := fun c hc => hb c (List.mem_append_right _ hc)
      rw [if_pos hpre, List.drop_left]
      refine (link_value_flag hends hn (-1) ht).trans (congrArg some ?_)
      have hne : ¬ lit "no-" ++ t = n := by
        rintro rfl
        rw [hpre] at hno
        cases hno
      unfold Row.hit Hit.linked
      by_cases hc : last = true ∧ t = n
      · simp [hc]
      · simp [hc, hne]
    · rw [if_neg hpre]
      refine (link_value_flag hends hn 1 hb).trans (congrArg some ?_)
      have hne : ¬ b = lit "no-" ++ n := by
        rintro rfl
        exact hpre (List.isPrefixOf_iff_prefix.mpr (List.prefix_append _ _))
      unfold Row.hit Hit.linked
      by_cases hc : last = true ∧ b = n
      · obtain ⟨rfl, rfl⟩ := hc
        simp [hne]
      · simp [hc, hne]

theorem link_option_row (hends : Ends last r) {row : Row} (hrow : row.Proper) {w : Word} (hw : IsWord w) :
    link_option (w ++ r) row.val = some ((row.hit_word w last).linked last r) := by
  have hdash : (if last = true then (0 : UInt8) else comma) ≠ dash := by
    cases last <;> decide
  cases w with
  | nil =>
    rw [link_option, List.nil_append, hends.head]
    simp only [Option.bind_eq_bind, Option.bind_some, ne_eq, hdash, not_false_eq_true, if_true]
    rfl
  | cons c w =>
    obtain ⟨-, htail⟩ := List.forall_mem_cons.mp hw
    by_cases hc : c = dash
    · subst hc
      cases w with
      | nil =>
        have hpattern := link_pattern_row hends hrow (b := []) htail
        simpa [link_option, hends.head, hdash, Row.hit_word, body] using hpattern
      | cons d w =>
        by_cases hd : d = dash
        · have hpattern := link_pattern_row hends hrow (List.forall_mem_cons.mp htail).2
          simpa [link_option, hd, Row.hit_word, body] using hpattern
        · have hpattern := link_pattern_row hends hrow htail
          simpa [link_option, hd, Row.hit_word, body] using hpattern
    · rw [link_option, Row.hit_word, body]
      simp [hc, Hit.linked]

/-- What `find_option` returns. -/
def Found.linked (found : Found) (last : Bool) (r : Ptr) (p : Option Ptr) :
    Option (LinkerOption × Int) × Option Ptr :=
  match found with
  | .unknown => (none, p)
  | .lacks => (none, some r)
  | .found o ret (some v) => (some (o, ret), some (v ++ r))
  | .found o ret none => (some (o, ret), some (if last = true then r else r.tail))

theorem hit_ret_ne_zero {row : Row} {b : Word} {ret : Int} {v : Option Word}
    (h : row.hit b last = .found ret v) :
    ret ≠ 0 := by
  unfold Row.hit at h
  rintro rfl
  repeat' split at h
  all_goals cases h

attribute [local simp] find_body in
theorem find_option_rows (hends : Ends last r) {w : Word} (hw : IsWord w) (p : Option Ptr) :
    find_option (w ++ r) linker_options p = some ((find_word w last).linked last r p) := by
  rw [linker_options_eq]
  have hproper := rows_proper
  unfold find_word
  cases hbody : body w with
  | none =>
    dsimp only
    generalize rows = T at hproper
    induction T with
    | nil => rfl
    | cons row T ih =>
      obtain ⟨hrow, hproper⟩ := List.forall_mem_cons.mp hproper
      rw [List.map_cons, find_option, link_option_row hends hrow hw, Row.hit_word, hbody]
      exact ih hproper
  | some b =>
    dsimp only
    generalize rows = T at hproper
    induction T generalizing p with
    | nil => rfl
    | cons row T ih =>
      obtain ⟨hrow, hproper⟩ := List.forall_mem_cons.mp hproper
      rw [List.map_cons, find_option, link_option_row hends hrow hw, Row.hit_word, hbody, find_body]
      dsimp only
      cases hhit : row.hit b last with
      | miss => exact ih p hproper
      | lacks =>
        refine (ih (some r) hproper).trans (congrArg some ?_)
        cases find_body b last T with
        | unknown => rfl
        | lacks => rfl
        | found o ret v => cases v <;> rfl
      | found ret v =>
        have hret := hit_ret_ne_zero hhit
        cases v with
        | none => simp [Hit.linked, Found.linked, hret]
        | some v => simp [Hit.linked, Found.linked, hret]

end link_option

section find

variable {b w : Word} {last : Bool} {o : LinkerOption} {ret : Int} {T : List Row}

theorem find_body_found {v : Option Word} (h : find_body b last T = .found o ret v) :
    ∃ row ∈ T, row.option = o ∧ row.hit b last = .found ret v := by
  induction T with
  | nil => cases h
  | cons row T ih =>
    rw [find_body] at h
    split at h
    · rename_i hhit
      cases h
      exact ⟨row, List.mem_cons_self, rfl, hhit⟩
    · obtain ⟨row', hmem, hrow⟩ := ih h
      exact ⟨row', List.mem_cons_of_mem _ hmem, hrow⟩
    · split at h
      · cases h
      · obtain ⟨row', hmem, hrow⟩ := ih h
        exact ⟨row', List.mem_cons_of_mem _ hmem, hrow⟩

theorem find_body_lacks (h : find_body b last T = .lacks) : last = true := by
  induction T with
  | nil => cases h
  | cons row T ih =>
    rw [find_body] at h
    split at h
    · cases h
    · exact ih h
    · rename_i hhit
      unfold Row.hit at hhit
      repeat' split at hhit
      all_goals first | assumption | cases hhit

theorem find_word_lacks (h : find_word w last = .lacks) : last = true := by
  unfold find_word at h
  split at h
  · exact find_body_lacks h
  · cases h

/-- An argument in the word stands behind a name and `=`. -/
theorem hit_value {row : Row} {a : Word} (h : row.hit b last = .found ret (some a)) :
    row.shape = .argument ∧ ret = 1 ∧ b = row.name ++ equals :: a := by
  unfold Row.hit at h
  split at h
  · split at h <;> cases h
  · rename_i hshape
    split at h
    · split at h <;> cases h
    · split at h
      · rename_i hpre
        obtain ⟨t, rfl⟩ := List.isPrefixOf_iff_prefix.mp hpre
        cases h
        exact ⟨hshape, rfl, by simp⟩
      · cases h
  · split at h
    · cases h
    · split at h <;> cases h

theorem body_isWord (hw : IsWord w) (h : body w = some b) : IsWord b := by
  unfold body at h
  split at h
  · cases h
    intro c hc
    split at hc
    · exact hw c (List.mem_of_mem_tail (List.mem_of_mem_tail hc))
    · exact hw c (List.mem_of_mem_tail hc)
  · cases h

theorem find_word_value {a : Word} (h : find_word w last = .found o ret (some a)) (hw : IsWord w) :
    IsWord a := by
  unfold find_word at h
  split at h
  · rename_i b hbody
    obtain ⟨row, -, -, hhit⟩ := find_body_found h
    obtain ⟨-, -, rfl⟩ := hit_value hhit
    exact fun c hc => body_isWord hw hbody c (List.mem_append_right _ (List.mem_cons_of_mem _ hc))
  · cases h

theorem hit_more {row : Row} (hne : b ≠ row.name) :
    row.hit b true = .miss ∧ row.hit b false = .miss ∨
    (∃ ret, row.hit b true = .found ret none ∧ row.hit b false = .miss) ∨
    ∃ ret a, row.hit b true = .found ret (some a) ∧ row.hit b false = .found ret (some a) := by
  unfold Row.hit
  cases row.shape with
  | flag => simp [hne]
  | argument =>
    by_cases hpre : (row.name ++ [equals]).isPrefixOf b = true
    · simp [hne, hpre]
    · simp [hne, hpre]
  | switch =>
    by_cases hno : b = lit "no-" ++ row.name
    · simp [hno]
    · simp [hne, hno]

/-- Options with their argument in the word are found whether or not more follows. -/
theorem find_word_more {a : Word} (h : find_word w true = .found o ret (some a)) :
    find_word w false = .found o ret (some a) := by
  unfold find_word at h ⊢
  split at h
  · rename_i b hbody
    obtain ⟨row, -, -, hhit⟩ := find_body_found h
    have heq : equals ∈ b := by
      obtain ⟨-, -, rfl⟩ := hit_value hhit
      simp
    have hproper := rows_proper
    generalize rows = T at h hproper ⊢
    induction T with
    | nil => cases h
    | cons row T ih =>
      obtain ⟨hrow, hproper⟩ := List.forall_mem_cons.mp hproper
      have hne : b ≠ row.name := by
        rintro rfl
        exact (hrow.name equals heq).2.2 rfl
      rw [find_body] at h
      change find_body b false (row :: T) = _
      rw [find_body]
      rcases hit_more hne with ⟨htrue, hfalse⟩ | ⟨ret', htrue, hfalse⟩ | ⟨ret', a', htrue, hfalse⟩
      · rw [htrue] at h
        rw [hfalse]
        exact ih h hproper
      · rw [htrue] at h
        cases h
      · rw [htrue] at h
        rw [hfalse]
        exact h
  · cases h

/-- An option without an argument is not named like one with an argument. -/
theorem flag_names : ∀ row ∈ rows, row.shape ≠ .argument → ∀ row' ∈ rows, row'.shape = .argument →
    row.name ≠ row'.name ∧ lit "no-" ++ row.name ≠ row'.name := by
  simp [rows, lit]

/-- Only an option with an argument is found if more follows. -/
theorem find_body_unknown {T : List Row} {b : Word} (hequals : equals ∉ b)
    (hname : ∀ row ∈ T, row.shape = .argument → b ≠ row.name) : find_body b false T = .unknown := by
  induction T with
  | nil => rfl
  | cons row T ih =>
    obtain ⟨hrow, hname⟩ := List.forall_mem_cons.mp hname
    have hmiss : row.hit b false = .miss := by
      unfold Row.hit
      cases hshape : row.shape with
      | flag => simp
      | argument =>
        have hpre : ¬ (row.name ++ [equals]).isPrefixOf b = true := by
          rw [List.isPrefixOf_iff_prefix]
          exact fun h => hequals (h.subset (List.mem_append_right _ List.mem_cons_self))
        simp only [if_neg (hrow hshape), if_neg hpre]
      | switch => simp
    rw [find_body, hmiss]
    exact ih hname

/-- Options without an argument are not found if more follows. -/
theorem flags_end (row : Row) (hrow : row ∈ rows) (hshape : row.shape ≠ .argument) :
    find_body row.name false rows = .unknown ∧ find_body (lit "no-" ++ row.name) false rows = .unknown := by
  have hequals : equals ∉ row.name := fun h => ((rows_proper row hrow).name equals h).2.2 rfl
  have hno : equals ∉ lit "no-" := by
    simp [lit]
    decide
  constructor
  · exact find_body_unknown hequals fun row' hrow' harg => (flag_names row hrow hshape row' hrow' harg).1
  · refine find_body_unknown ?_ fun row' hrow' harg => (flag_names row hrow hshape row' hrow' harg).2
    rw [List.mem_append]
    exact fun h => h.elim hno hequals

theorem find_word_flag (h : find_word w true = .found o ret none) : find_word w false = .unknown := by
  unfold find_word at h ⊢
  split at h
  · rename_i b hbody
    obtain ⟨row, hmem, -, hhit⟩ := find_body_found h
    have hflag := flags_end row hmem
    unfold Row.hit at hhit
    split at hhit
    · rename_i hshape
      split at hhit
      · rename_i hcond
        rw [hcond.2]
        exact (hflag (by rw [hshape]; decide)).1
      · cases hhit
    · split at hhit
      · cases hhit
      · split at hhit <;> cases hhit
    · rename_i hshape
      split at hhit
      · rename_i hcond
        rw [hcond.2]
        exact (hflag (by rw [hshape]; decide)).2
      · split at hhit
        · rename_i hcond
          rw [hcond.2]
          exact (hflag (by rw [hshape]; decide)).1
        · cases hhit
  · cases h

end find

section effect

variable {v : Word} {ws : List Word}

attribute [local simp] text in
theorem rest_eq (ws : List Word) : rest ws = text ws ++ [0] := by
  induction ws with
  | nil => rfl
  | cons w ws ih => rw [rest, text, ih, List.cons_append, List.append_assoc]

theorem zero_notMem_text (h : ∀ w ∈ ws, IsWord w) : 0 ∉ text ws := by
  induction ws with
  | nil => exact List.not_mem_nil
  | cons w ws ih =>
    obtain ⟨hw, hws⟩ := List.forall_mem_cons.mp h
    rw [text, List.mem_cons, List.mem_append, not_or, not_or]
    exact ⟨by decide, fun hmem => (hw 0 hmem).1 rfl, ih hws⟩

theorem cstr_append {t : Word} (ht : 0 ∉ t) : cstr (t ++ [0]) = some t := by
  have htake : (t ++ [0]).takeWhile (· ≠ 0) = t := by
    rw [List.takeWhile_append_of_pos]
    · simp
    · intro c hc
      rw [decide_eq_true_eq]
      rintro rfl
      exact ht hc
  rw [cstr, if_pos (by simp), htake]

theorem cstr_rest (hv : IsWord v) (hws : ∀ w ∈ ws, IsWord w) : cstr (v ++ rest ws) = some (v ++ text ws) := by
  rw [rest_eq, ← List.append_assoc]
  refine cstr_append ?_
  rw [List.mem_append, not_or]
  exact ⟨fun hmem => (hv 0 hmem).1 rfl, zero_notMem_text hws⟩

theorem skip_linker_arg_rest (hv : IsWord v) (hws : ∀ w ∈ ws, IsWord w) :
    skip_linker_arg (v ++ rest ws) = some (rest ws, next ws) := by
  have hchr : strchr comma (v ++ rest ws) = some (if ws = [] then none else some (rest ws)) := by
    induction v with
    | nil =>
      cases ws with
      | nil => rfl
      | cons w ws => simp [rest, strchr]
    | cons c v ih =>
      obtain ⟨hc, hv⟩ := List.forall_mem_cons.mp hv
      rw [List.cons_append, strchr, if_neg hc.2, if_neg hc.1]
      exact ih hv
  rw [skip_linker_arg, hchr]
  cases ws with
  | nil =>
    have hlen : strlen (v ++ rest []) = some v.length := by
      rw [strlen, cstr_rest hv hws]
      simp [text]
    simp only [if_true, Option.bind_eq_bind, Option.bind_some, hlen]
    simp [next, rest]
  | cons w ws => simp [rest, next]

theorem takeWhile_block {t u : Word} (ht : 0 ∉ t) : (t ++ 0 :: u).takeWhile (· ≠ 0) = t := by
  have hall : ∀ c ∈ t, decide (c ≠ 0) = true := by
    intro c hc
    rw [decide_eq_true_eq]
    rintro rfl
    exact ht hc
  rw [List.takeWhile_append_of_pos hall]
  simp

/-- A block grows by an argument. -/
theorem pstrncpy_realloc {t u : Word} : pstrncpy (tcc_realloc (t ++ u) (v.length + t.length + 1)) t.length
    (v ++ rest ws) v.length = some ⟨t ++ (v ++ [0]), by simp⟩ := by
  have hlen : (tcc_realloc (t ++ u) (v.length + t.length + 1)).length = t.length + v.length + 1 := by
    simp only [tcc_realloc, List.length_append, List.length_take, List.length_replicate]
    omega
  have htake : (tcc_realloc (t ++ u) (v.length + t.length + 1)).take t.length = t := by
    rw [tcc_realloc, List.take_append_of_le_length (by rw [List.length_take, List.length_append]; omega),
      List.take_take, min_eq_left (by omega), List.take_left]
  have hdrop : (tcc_realloc (t ++ u) (v.length + t.length + 1)).drop (t.length + v.length + 1) = [] :=
    List.drop_eq_nil_of_le (by omega)
  rw [pstrncpy, if_pos ⟨by omega, by simp⟩]
  simp only [htake, hdrop, List.take_left, List.append_assoc]

theorem copy_linker_arg_rest (hv : IsWord v) (hws : ∀ w ∈ ws, IsWord w) (pp : Option Block) :
    copy_linker_arg pp (v ++ rest ws) 0 = some (some (block v)) := by
  have hnum : (v ++ rest ws).length - (rest ws).length = v.length := by simp
  have hcopy : ∀ p : List UInt8, pstrncpy (tcc_realloc p (v.length + 0 + 1)) 0 (v ++ rest ws) v.length =
      some (block v) := fun p => pstrncpy_realloc (t := []) (u := p)
  unfold copy_linker_arg
  rw [skip_linker_arg_rest hv hws]
  cases pp with
  | none =>
    dsimp only [Option.bind_eq_bind, Option.bind_some]
    rw [hnum, hcopy, Option.map_some]
  | some p =>
    dsimp only [Option.bind_eq_bind, Option.bind_some]
    rw [hnum, if_neg (not_not.mpr rfl)]
    exact congrArg (Option.map some) (hcopy p.1)

theorem copy_linker_arg_sep (hv : IsWord v) (hws : ∀ w ∈ ws, IsWord w) (pp : Option Block) {sep : UInt8}
    (hsep : sep ≠ 0) : copy_linker_arg pp (v ++ rest ws) sep = some (some (joined pp sep v)) := by
  have hnum : (v ++ rest ws).length - (rest ws).length = v.length := by simp
  unfold copy_linker_arg
  rw [skip_linker_arg_rest hv hws]
  cases pp with
  | none =>
    have hcopy := @pstrncpy_realloc v ws [] []
    dsimp only [Option.bind_eq_bind, Option.bind_some]
    rw [hnum]
    exact congrArg (Option.map some) hcopy
  | some p =>
    obtain ⟨p, hp⟩ := p
    obtain ⟨t, u, rfl, ht⟩ := List.eq_append_cons_of_mem hp
    have hlen : strlen (t ++ 0 :: u) = some t.length := by
      rw [strlen, cstr, if_pos hp, takeWhile_block ht, Option.map_some]
    have hset : (t ++ 0 :: u).set t.length sep = (t ++ [sep]) ++ u := by simp
    have hcopy := @pstrncpy_realloc v ws (t ++ [sep]) u
    have hjoined : joined (some ⟨t ++ 0 :: u, hp⟩) sep v = ⟨(t ++ [sep]) ++ (v ++ [0]), by simp⟩ := by
      refine Subtype.ext ?_
      change (t ++ 0 :: u).takeWhile (· ≠ 0) ++ sep :: (v ++ [0]) = t ++ [sep] ++ (v ++ [0])
      rw [takeWhile_block ht, List.append_assoc]
      rfl
    rw [List.length_append, List.length_singleton] at hcopy
    dsimp only [Option.bind_eq_bind, Option.bind_some]
    rw [if_pos hsep, hlen, Option.map_some]
    dsimp only [Option.bind_some]
    rw [hnum, hset, hcopy, Option.map_some, hjoined]

/-- A number ends before a comma. -/
theorem hex_number_comma (bits : Nat) (v x : List UInt8) :
    hex_number bits (v ++ comma :: x) = hex_number bits v := by
  have hspace : (v ++ comma :: x).dropWhile isspace = v.dropWhile isspace ++ comma :: x := by
    induction v with
    | nil => rfl
    | cons c v ih =>
      rw [List.cons_append, List.dropWhile_cons, List.dropWhile_cons]
      split
      · exact ih
      · rfl
  have hsign : ∀ s, drop_sign (s ++ comma :: x) = ((drop_sign s).1, (drop_sign s).2 ++ comma :: x) := by
    intro s
    cases s with
    | nil => rfl
    | cons c s =>
      by_cases hminus : c = dash
      · simp [drop_sign, hminus]
      · by_cases hplus : c = 43
        · have hne : ¬ (43 : UInt8) = dash := by decide
          simp [drop_sign, hplus, hne]
        · simp [drop_sign, hminus, hplus]
  have h0x : ∀ s, drop_0x (s ++ comma :: x) = drop_0x s ++ comma :: x := by
    intro s
    match s with
    | [] => rfl
    | [a] => simp [drop_0x, comma]
    | [a, b] => simp [drop_0x, comma, hex_digit]
    | a :: b :: c :: s =>
      exact (apply_ite (fun t => t ++ comma :: x) _ (c :: s) (a :: b :: c :: s)).symm
  have hvalue : ∀ s, hex_value (s ++ comma :: x) = hex_value s := by
    intro s
    have htake : (s ++ comma :: x).takeWhile (fun c => (hex_digit c).isSome) =
        s.takeWhile (fun c => (hex_digit c).isSome) := by
      induction s with
      | nil => rfl
      | cons c s ih =>
        rw [List.cons_append, List.takeWhile_cons, List.takeWhile_cons, ih]
    rw [hex_value, htake, hex_value]
  simp only [hex_number, hspace, hsign, h0x, hvalue]

theorem strtou_rest (hv : IsWord v) (hws : ∀ w ∈ ws, IsWord w) (bits : Nat) :
    strtou bits (v ++ rest ws) = some (hex_number bits v) := by
  rw [strtou, cstr_rest hv hws, Option.map_some]
  cases ws with
  | nil => rw [text, List.append_nil]
  | cons w ws => rw [text, hex_number_comma]

/-- An option that is applied at a word, and the string after it. -/
theorem apply_option_rest (h : Sizes) (s : TCCState) (hv : IsWord v) (hws : ∀ w ∈ ws, IsWord w) (ret : Int)
    (o : LinkerOption) :
    ∃ p : TCCState × Bool → Ptr, (∀ out, skip_linker_arg (p out) = some (rest ws, next ws)) ∧
      apply_option h s (v ++ rest ws) ret o =
        (effect h s v ws.isEmpty ret o).map fun out => out.map fun out => (out.1, out.2, p out) := by
  have hskip := skip_linker_arg_rest hv hws
  by_cases ho : o = .oformat
  · subst ho
    obtain ⟨n, hn, helf⟩ : ∃ n, lit (if h.PTR_SIZE = 8 then "elf64-" else "elf32-") = n ∧ IsName n := by
      refine ⟨_, rfl, ?_⟩
      split <;> simp [IsName, lit] <;> decide
    have hstart := strstart_name (ends_rest ws) helf v
    by_cases hpre : n.isPrefixOf v = true
    · have hdrop : IsWord (v.drop n.length) := fun c hc => hv c (List.mem_of_mem_drop hc)
      refine ⟨fun _ => v.drop n.length ++ rest ws, fun _ => skip_linker_arg_rest hdrop hws, ?_⟩
      simp [apply_option, effect, hn, hstart, hpre]
    · have hbinary : v ++ text ws = lit "binary" ↔ ws.isEmpty = true ∧ v = lit "binary" := by
        cases ws with
        | nil => simp [text]
        | cons w ws =>
          refine iff_of_false ?_ (by simp)
          intro heq
          have hmem : comma ∈ lit "binary" := by
            rw [← heq, text]
            simp
          revert hmem
          simp [lit]
          decide
      refine ⟨fun _ => v ++ rest ws, fun _ => hskip, ?_⟩
      by_cases hbin : ws.isEmpty = true ∧ v = lit "binary"
      · simp only [apply_option, effect, hn, hstart, hpre, if_false, Option.bind_eq_bind, Option.bind_some,
          cstr_rest hv hws, Bool.false_eq_true]
        rw [if_pos (hbinary.mpr hbin), if_pos hbin]
        rfl
      · have hne : ¬ v ++ text ws = lit "binary" := fun heq => hbin (hbinary.mp heq)
        simp only [apply_option, effect, hn, hstart, hpre, if_false, Option.bind_eq_bind, Option.bind_some,
          cstr_rest hv hws, Bool.false_eq_true]
        rw [if_neg hne, if_neg hbin]
        rfl
  · refine ⟨fun _ => v ++ rest ws, fun _ => hskip, ?_⟩
    cases o with
    | oformat => exact absurd rfl ho
    | defsym =>
      have hcopy : strcpy (tcc_mallocz (v ++ text ws).length) (v ++ rest ws) = none := by
        rw [strcpy, cstr_rest hv hws]
        dsimp only [Option.bind_eq_bind, Option.bind_some]
        rw [if_neg]
        simp only [tcc_mallocz, List.length_replicate]
        omega
      have hlen : strlen (v ++ rest ws) = some (v ++ text ws).length := by
        rw [strlen, cstr_rest hv hws, Option.map_some]
      simp only [apply_option, hlen, Option.bind_eq_bind, Option.bind_some, hcopy, Option.bind_none]
      rfl
    | entry | fini | init | Map | soname =>
      simp [apply_option, effect, copy_linker_arg_rest hv hws]
    | rpath =>
      have hsep : colon ≠ 0 := by decide
      simp [apply_option, effect, copy_linker_arg_sep hv hws _ hsep]
    | image_base | data_base | section_alignment =>
      simp [apply_option, effect, strtou_rest hv hws]
    | whole_archive =>
      by_cases hret : 0 < ret
      · simp [apply_option, effect, hret]
      · simp [apply_option, effect, hret]
    | _ => rfl

theorem unsupported_rest (hv : IsWord v) (hws : ∀ w ∈ ws, IsWord w) :
    unsupported (v ++ rest ws) = some (.error (v ++ text ws)) := by
  rw [unsupported, cstr_rest hv hws, Option.map_some]

/-- The end of a turn in memory. -/
theorem linker_step_applied (h : Sizes) (s : TCCState) {w : Word} {us : List Word} (hw : IsWord w)
    (hus : ∀ u ∈ us, IsWord u) (hv : IsWord v) (hws : ∀ w ∈ ws, IsWord w) (o : LinkerOption) (ret : Int)
    (hfind : find_option (w ++ rest us) linker_options none = some (some (o, ret), some (v ++ rest ws)))
    (after : Ptr → TCCState → Option Outcome) :
    (linker_step h (w ++ rest us) s).bind (fun out => out.elim some fun out => after out.1 out.2) =
      finish (w ++ text us) (after (next ws)) (effect h s v ws.isEmpty ret o) := by
  obtain ⟨p, hskip, happly⟩ := apply_option_rest h s hv hws ret o
  rw [linker_step, hfind]
  simp only [Option.bind_eq_bind, Option.bind_some, Option.getD_some, happly, unsupported_rest hw hus]
  rcases effect h s v ws.isEmpty ret o with _ | _ | ⟨s', ignoring⟩
  · rfl
  · rfl
  · simp only [Option.map_some, Option.bind_some, hskip, finish]
    split <;> rfl

theorem linker_loop_succ (h : Sizes) (fuel : Nat) {option : Ptr} {c : UInt8} (hc : option.head? = some c)
    (hne : c ≠ 0)
    (s : TCCState) : linker_loop h (fuel + 1) option s =
      (linker_step h option s).bind (fun out => out.elim some fun out => linker_loop h fuel out.1 out.2) := by
  rw [linker_loop, hc]
  simp only [Option.bind_eq_bind, Option.bind_some, hne, if_false]
  cases linker_step h option s with
  | none => rfl
  | some out => cases out <;> rfl

theorem next_head {w : Word} {us : List Word} (hw : IsWord w) (hne : ¬ (w = [] ∧ us = [])) :
    ∃ c, (next (w :: us)).head? = some c ∧ c ≠ 0 := by
  cases w with
  | nil =>
    cases us with
    | nil => exact absurd ⟨rfl, rfl⟩ hne
    | cons u us => exact ⟨comma, rfl, by decide⟩
  | cons c w => exact ⟨c, rfl, (hw c List.mem_cons_self).1⟩

/-- The loop on memory does what `run` does on words. -/
theorem linker_loop_next (h : Sizes) {fuel : Nat} {ws : List Word} (hws : ∀ w ∈ ws, IsWord w) (s : TCCState)
    (hfuel : (next ws).length ≤ fuel) : linker_loop h fuel (next ws) s = run h ws s := by
  induction fuel generalizing ws s with
  | zero =>
    cases ws with
    | nil => simp [next] at hfuel
    | cons w us =>
      rw [next, rest_eq] at hfuel
      simp at hfuel
  | succ fuel ih =>
    have hend : ∀ s, 0 < fuel → linker_loop h fuel (next []) s = some (.accepted s) :=
      fun s hpos => ih (by intro w hw; cases hw) s hpos
    cases ws with
    | nil => rfl
    | cons w us =>
      obtain ⟨hw, hus⟩ := List.forall_mem_cons.mp hws
      have hfind := find_option_rows (ends_rest us) hw none
      by_cases hempty : w = [] ∧ us = []
      · obtain ⟨rfl, rfl⟩ := hempty
        rfl
      · obtain ⟨c, hc, hne⟩ := next_head hw hempty
        rw [linker_loop_succ h fuel hc hne]
        change ((linker_step h (w ++ rest us) s).bind _) = _
        cases us with
        | nil =>
          have hword : ¬ w = [] := fun hnil => hempty ⟨hnil, rfl⟩
          have hpos : 0 < fuel := by
            have hlen := List.length_pos_iff.mpr hword
            simp only [next, rest, List.length_append, List.length_singleton] at hfuel
            omega
          have hunsupported := unsupported_rest hw hus
          rw [run, if_neg hword]
          rw [List.isEmpty_nil] at hfind
          cases hfound : find_word w true with
          | unknown =>
            rw [hfound] at hfind
            simp [linker_step, hfind, Found.linked, hunsupported, text]
          | lacks =>
            rw [hfound] at hfind
            simp [linker_step, hfind, Found.linked]
          | found o ret v =>
            rw [hfound] at hfind
            have hvalue : IsWord (v.getD []) := by
              cases v with
              | none => intro c hc; cases hc
              | some a => exact find_word_value hfound hw
            have happlied := linker_step_applied h s hw hus hvalue hus o ret
              (by rw [hfind]; cases v <;> rfl) (linker_loop h fuel)
            rw [happlied, text, List.append_nil, funext fun s => hend s hpos]
            rfl
        | cons v us =>
          obtain ⟨hv, hus'⟩ := List.forall_mem_cons.mp hus
          have hunsupported := unsupported_rest hw hus
          have hlen : (next (v :: us)).length ≤ fuel ∧ (next us).length ≤ fuel := by
            have hle : (next us).length ≤ (rest us).length := by
              cases us with
              | nil => exact le_refl _
              | cons u us => simp [next, rest]
            have hmore : (next (w :: v :: us)).length = w.length + (v.length + (rest us).length + 1) := by
              simp [next, rest]
            have hless : (next (v :: us)).length = v.length + (rest us).length := by
              simp [next]
            omega
          rw [run]
          rw [List.isEmpty_cons] at hfind
          cases hfound : find_word w false with
          | unknown =>
            rw [hfound] at hfind
            simp [linker_step, hfind, Found.linked, hunsupported]
          | lacks => exact absurd (find_word_lacks hfound) (by decide)
          | found o ret a =>
            rw [hfound] at hfind
            cases a with
            | none =>
              have happlied := linker_step_applied h s hw hus hv hus' o ret hfind (linker_loop h fuel)
              rw [happlied, funext fun s => ih hus' s hlen.2]
            | some a =>
              have happlied := linker_step_applied h s hw hus (find_word_value hfound hw) hus o ret
                hfind (linker_loop h fuel)
              rw [happlied, funext fun s => ih hus s hlen.1]
              rfl

/-- The words of a string. -/
def words (option : List UInt8) : List Word := option.splitOn comma

theorem words_cons (c : UInt8) (option : List UInt8) : ∃ w ws, words option = w :: ws ∧
    words (c :: option) = if c = comma then [] :: w :: ws else (c :: w) :: ws := by
  obtain ⟨w, ws, hwords⟩ := List.exists_cons_of_ne_nil (List.splitOn_ne_nil comma option)
  refine ⟨w, ws, hwords, ?_⟩
  rw [words, List.splitOn_cons_eq_if_modifyHead, hwords]
  by_cases hc : c = comma
  · simp [hc]
  · simp [hc]

theorem words_isWord {option : List UInt8} (hoption : 0 ∉ option) : ∀ w ∈ words option, IsWord w := by
  induction option with
  | nil =>
    intro w hw
    obtain rfl := List.mem_singleton.mp hw
    intro c hc
    cases hc
  | cons c option ih =>
    obtain ⟨hc, hoption⟩ := not_or.mp (mt List.mem_cons.mpr hoption)
    obtain ⟨w, ws, hwords, hcons⟩ := words_cons c option
    have hall := ih hoption
    rw [hwords] at hall
    obtain ⟨hw, hws⟩ := List.forall_mem_cons.mp hall
    rw [hcons]
    split
    · exact List.forall_mem_cons.mpr ⟨List.forall_mem_nil _, hall⟩
    · rename_i hne
      exact List.forall_mem_cons.mpr ⟨List.forall_mem_cons.mpr ⟨⟨Ne.symm hc, hne⟩, hw⟩, hws⟩

theorem next_words (option : List UInt8) : next (words option) = option ++ [0] := by
  induction option with
  | nil => rfl
  | cons c option ih =>
    obtain ⟨w, ws, hwords, hcons⟩ := words_cons c option
    rw [hwords] at ih
    rw [hcons, List.cons_append, ← ih]
    split
    · rename_i hc
      rw [hc]
      rfl
    · rfl

/-- `tcc_set_linker` reads a string word by word. -/
theorem tcc_set_linker_words (h : Sizes) (s : TCCState) {option : List UInt8} (hoption : 0 ∉ option) :
    tcc_set_linker h s (option ++ [0]) = run h (words option) s := by
  rw [tcc_set_linker, ← next_words]
  exact linker_loop_next h (words_isWord hoption) s (le_refl _)

end effect

end tcc.driver
