import Tcc.Asm.Directive
import Tcc.Machine.Numeral

/-! Numeric labels. A number stands for a name, and each definition of it after the first pushes another
    symbol of that name. -/

open machine.decimal

namespace tcc.asm

/-- The entry of a symbol in the symbol table. -/
structure LabelEsym where
  st_shndx : Nat
  st_value : BitVec 64
deriving DecidableEq

/-- A symbol: `prev_tok` is the one of its name that was pushed before, and `c` its entry in the symbol
    table, if it has one. -/
structure LabelSym where
  prev_tok : Option Nat
  c : Option LabelEsym

/-- The symbols in the order in which they were pushed, and the last one of each name. -/
structure Labels where
  syms : List LabelSym
  sym_identifier : List Byte → Option Nat

/-- `strtoul(p, &p, 10)`: the number, and what is left. -/
def strtoul (p : List Byte) : Nat × List Byte :=
  (min (number 10 p) (2 ^ 64 - 1), p.drop (digits_at 10 p).length)

/-- `strtoull(p, &p, 0)` for a text with no sign before the number. -/
def strtoull (p : List Byte) : Nat × List Byte :=
  if p.head? = some 48#8 then
    if (p.tail.head? = some 120#8 ∨ p.tail.head? = some 88#8) ∧ digits_at 16 p.tail.tail ≠ [] then
      (min (number 16 p.tail.tail) (2 ^ 64 - 1), p.tail.tail.drop (digits_at 16 p.tail.tail).length)
    else (min (number 8 p) (2 ^ 64 - 1), p.drop (digits_at 8 p).length)
  else strtoul p

/-- `"L..%u"` -/
def asm_get_local_label_name (n : BitVec 32) : List Byte := [76#8, 46#8, 46#8] ++ decimal_bytes n.toNat

namespace Labels

def asm_label_find (st : Labels) (label : List Byte) : Option Nat := st.sym_identifier label

def asm_label_push (st : Labels) (label : List Byte) : Nat × Labels :=
  (st.syms.length, {
    syms := st.syms ++ [⟨st.sym_identifier label, none⟩]
    sym_identifier := Function.update st.sym_identifier label (some st.syms.length) })

def elfsym (st : Labels) (sym : Nat) : Option LabelEsym := (st.syms[sym]?).bind LabelSym.c

/-- `esym && esym->st_shndx != SHN_UNDEF` -/
def is_defined (st : Labels) (sym : Nat) : Bool :=
  match st.elfsym sym with
  | some esym => esym.st_shndx ≠ 0
  | none => false

/-- `asm_new_label1` for a numeric label: a symbol that is not defined yet is taken, and there is never
    an error. -/
def asm_new_label (st : Labels) (label : List Byte) (sh_num : Nat) (value : BitVec 32) : Nat × Labels :=
  let (sym, st) :=
    match st.asm_label_find label with
    | some sym => if st.is_defined sym then st.asm_label_push label else (sym, st)
    | none => st.asm_label_push label
  (sym, { st with
    syms := st.syms.modify sym fun s => { s with c := some ⟨sh_num, value.signExtend 64⟩ } })

/-- A number with a `:` after it, at a place in a section. -/
def local_label (st : Labels) (p : List Byte) (sh_num : Nat) (ind : BitVec 32) :
    Except Error (Nat × Labels) :=
  let (n, p) := strtoul p
  if p ≠ [] then throw (expect "':'")
  else return st.asm_new_label (asm_get_local_label_name (BitVec.ofNat 32 n)) sh_num ind

/-- `TOK_PPNUM` in `asm_expr_unary`. -/
def asm_number (st : Labels) (p : List Byte) : Except Error (ExprValue × Labels) :=
  let (n, p) := strtoull p
  if p.head? = some 98#8 ∨ p.head? = some 102#8 then
    let label := asm_get_local_label_name (BitVec.ofNat 32 n)
    let sym := st.asm_label_find label
    if p.head? = some 98#8 then
      let sym := sym.bind fun k => if st.is_defined k then some k else (st.syms[k]?).bind LabelSym.prev_tok
      match sym with
      | some k => return (⟨0, some k⟩, st)
      | none => throw ("local label '" ++ toString (BitVec.ofNat 32 n).toInt ++ "' not found backward")
    else
      match sym with
      | some k =>
        if st.is_defined k then
          let (k, st) := st.asm_label_push label
          return (⟨0, some k⟩, st)
        else return (⟨0, some k⟩, st)
      | none =>
        let (k, st) := st.asm_label_push label
        return (⟨0, some k⟩, st)
  else if p = [] then return (⟨BitVec.ofNat 64 n, none⟩, st)
  else throw "invalid number syntax"

end Labels

/-- A decimal number as it is written. -/
structure Digits where
  text : List Byte
  nonempty : text ≠ []
  digits : ∀ b ∈ text, 48#8 ≤ b ∧ b ≤ 57#8

def Digits.n (ds : Digits) : Nat := number 10 ds.text

/-- What a source has of numeric labels: `N:` at a place in a section, `Nb` and `Nf`. -/
inductive LabelLine where
  | label (ds : Digits) (sec : Nat) (ind : BitVec 32)
  | back (ds : Digits)
  | forward (ds : Digits)

/-- One of them, with the symbol that it is about. Sections are numbered from one. -/
def LabelLine.exec (st : Labels) : LabelLine → Except Error (Option Nat × Labels)
  | label ds sec ind => do
    let (sym, st) ← st.local_label ds.text (sec + 1) ind
    return (some sym, st)
  | back ds => do
    let (e, st) ← st.asm_number (ds.text ++ [98#8])
    return (e.sym, st)
  | forward ds => do
    let (e, st) ← st.asm_number (ds.text ++ [102#8])
    return (e.sym, st)

def run_labels (st : Labels) : List LabelLine → Except Error (List (Option Nat) × Labels)
  | [] => return ([], st)
  | l :: ls => do
    let (sym, st) ← l.exec st
    let (syms, st) ← run_labels st ls
    return (sym :: syms, st)

def no_labels : Labels := ⟨[], fun _ => none⟩

/-- The place of a definition of `n`. -/
def LabelLine.defines (n : Nat) : LabelLine → Option LabelEsym
  | label ds sec ind => if ds.n = n then some ⟨sec + 1, ind.signExtend 64⟩ else none
  | _ => none

/-- The definition that a reference is for: for `Nb` the closest one before, for `Nf` the closest one
    after. -/
def LabelLine.target (before after : List LabelLine) : LabelLine → Option LabelEsym
  | label _ sec ind => some ⟨sec + 1, ind.signExtend 64⟩
  | back ds => before.reverse.findSome? (defines ds.n)
  | forward ds => after.findSome? (defines ds.n)

/-- If the source is accepted, every reference has its definition, and its symbol is in the place of it;
    it is rejected only if there is a reference without one. -/
def Resolves (ls : List LabelLine) : Prop :=
  match run_labels no_labels ls with
  | .ok (syms, st) => ∀ before l after, ls = before ++ l :: after →
      ∃ k esym, syms[before.length]? = some (some k) ∧ l.target before after = some esym ∧
        st.elfsym k = some esym
  | .error _ => ∃ before l after, ls = before ++ l :: after ∧ l.target before after = none

/-- The numbers of a source. -/
def LabelLine.digits : LabelLine → Digits
  | label ds _ _ => ds
  | back ds => ds
  | forward ds => ds

/-- What is left of a number in the name of a label. -/
def label_key (n : Nat) : BitVec 32 := BitVec.ofNat 32 (min n (2 ^ 64 - 1))

def LabelLine.is_label : LabelLine → Bool
  | label _ _ _ => true
  | _ => false

/-- References have no zero in front unless their number is below 8, different numbers have different
    names, and every `Nf` has a definition after it. -/
structure ClearLabels (ls : List LabelLine) : Prop where
  plain : ∀ l ∈ ls, l.is_label = false → l.digits.text.head? ≠ some 48#8 ∨ l.digits.n < 8
  distinct : ∀ l ∈ ls, ∀ l' ∈ ls, label_key l.digits.n = label_key l'.digits.n → l.digits.n = l'.digits.n
  defined : ∀ before ds after, ls = before ++ .forward ds :: after →
    (after.findSome? (LabelLine.defines ds.n)).isSome = true

section numbers

variable {ds : Digits} {rest : List Byte}

theorem digit_value_lt {b : Byte} (h : 48#8 ≤ b ∧ b ≤ 57#8) : digit_value b < 10 := by
  have hle := h.2
  rw [digit_value, if_pos h]
  rw [BitVec.le_def] at hle
  have : (57#8).toNat = 57 := rfl
  omega

theorem Digits.values_lt (ds : Digits) : ∀ d ∈ ds.text.map digit_value, d < 10 := by
  intro d hd
  obtain ⟨b, hb, rfl⟩ := List.mem_map.mp hd
  exact digit_value_lt (ds.digits b hb)

/-- Digits of a base are all read, up to a character that is none. -/
theorem digits_at_append {base : Nat} (hlt : ∀ d ∈ ds.text.map digit_value, d < base)
    (hrest : ∀ b ∈ rest.head?, base ≤ digit_value b) :
    digits_at base (ds.text ++ rest) = ds.text.map digit_value := by
  rw [digits_at, List.map_append, List.takeWhile_append_of_pos fun d hd => decide_eq_true (hlt d hd)]
  cases rest with
  | nil => simp
  | cons b rest =>
    rw [List.map_cons, List.takeWhile_cons_of_neg, List.append_nil]
    have hb := hrest b rfl
    simpa using hb

theorem strtoul_digits (hrest : ∀ b ∈ rest.head?, 10 ≤ digit_value b) :
    strtoul (ds.text ++ rest) = (min ds.n (2 ^ 64 - 1), rest) := by
  have hdigits := digits_at_append ds.values_lt hrest
  have hself := @digits_at_append ds [] 10 ds.values_lt (by simp)
  rw [List.append_nil] at hself
  rw [strtoul, Digits.n, number, number, hdigits, hself, List.length_map, List.drop_left]

theorem foldl_small {vals : List Nat} (h : vals.foldl (fun n d => n * 10 + d) 0 < 8) :
    (∀ d ∈ vals, d < 8) ∧ vals.foldl (fun n d => n * 8 + d) 0 = vals.foldl (fun n d => n * 10 + d) 0 := by
  induction vals using List.reverseRecOn with
  | nil => exact ⟨by simp, rfl⟩
  | append_singleton vals d ih =>
    rw [List.foldl_append, List.foldl_cons, List.foldl_nil] at h ⊢
    obtain ⟨hlt, heq⟩ := ih (by omega)
    refine ⟨fun d' hd' => ?_, ?_⟩
    · rcases List.mem_append.mp hd' with hd' | hd'
      · exact hlt d' hd'
      · rw [List.mem_singleton.mp hd']
        omega
    · rw [List.foldl_append, List.foldl_cons, List.foldl_nil, heq]
      omega

/-- A reference is read as the number that a definition is read as. -/
theorem strtoull_digits (hplain : ds.text.head? ≠ some 48#8 ∨ ds.n < 8)
    (hrest : ∀ b ∈ rest.head?, 10 ≤ digit_value b ∧ b ≠ 120#8 ∧ b ≠ 88#8) :
    strtoull (ds.text ++ rest) = (min ds.n (2 ^ 64 - 1), rest) := by
  have hten : ∀ b ∈ rest.head?, 10 ≤ digit_value b := fun b hb => (hrest b hb).1
  obtain ⟨b, text, htext⟩ := List.exists_cons_of_ne_nil ds.nonempty
  have hhead : (ds.text ++ rest).head? = ds.text.head? := by rw [htext]; rfl
  rw [strtoull, hhead]
  by_cases hzero : ds.text.head? = some 48#8
  · rw [if_pos hzero, if_neg]
    · have hsmall := hplain.resolve_left (not_not.mpr hzero)
      have hself := @digits_at_append ds [] 10 ds.values_lt (by simp)
      rw [List.append_nil] at hself
      rw [Digits.n, number, hself] at hsmall
      obtain ⟨hlt, heq⟩ := foldl_small hsmall
      have hdigits := digits_at_append hlt fun b hb => le_trans (by decide) (hten b hb)
      rw [Digits.n, number, number, hdigits, hself, heq, List.length_map, List.drop_left]
    · rintro ⟨hx, -⟩
      have hsecond : ∀ c ∈ (ds.text ++ rest).tail.head?, c ≠ 120#8 ∧ c ≠ 88#8 := by
        rw [htext, List.cons_append, List.tail_cons]
        intro c hc
        cases htail : text with
        | nil =>
          rw [htail, List.nil_append] at hc
          exact (hrest c hc).2
        | cons c' text' =>
          rw [htail] at hc
          obtain rfl := Option.some.inj hc
          have hdigit := ds.digits c' (by rw [htext, htail]; simp)
          have hle := hdigit.2
          constructor
          · rintro rfl
            exact absurd hle (by decide)
          · rintro rfl
            exact absurd hle (by decide)
      rcases hx with hx | hx
      · exact (hsecond _ hx).1 rfl
      · exact (hsecond _ hx).2 rfl
  · rw [if_neg hzero]
    exact strtoul_digits hten

theorem number_decimal_bytes (n : Nat) : number 10 (decimal_bytes n) = n := by
  by_cases hn : n = 0
  · subst hn
    rfl
  · have h := number_decimal hn 0
    rwa [List.replicate_zero, List.append_nil] at h

theorem label_name_inj {n m : BitVec 32} (h : asm_get_local_label_name n = asm_get_local_label_name m) :
    n = m := by
  have hbytes := List.append_cancel_left h
  have hnat := congrArg (number 10) hbytes
  rw [number_decimal_bytes, number_decimal_bytes] at hnat
  exact BitVec.eq_of_toNat_eq hnat

end numbers

/-- `defines` for the names that the code makes of the numbers. -/
def LabelLine.key_defines (key : BitVec 32) : LabelLine → Option LabelEsym
  | label ds sec ind => if label_key ds.n = key then some ⟨sec + 1, ind.signExtend 64⟩ else none
  | _ => none

/-- `target` with the names that the code makes; what was before is given the last first. -/
def LabelLine.key_target (past after : List LabelLine) : LabelLine → Option LabelEsym
  | label _ sec ind => some ⟨sec + 1, ind.signExtend 64⟩
  | back ds => past.findSome? (key_defines (label_key ds.n))
  | forward ds => after.findSome? (key_defines (label_key ds.n))

namespace Labels

section invariant

variable {st st' : Labels} {past : List LabelLine} {key : BitVec 32} {d : Option Nat} {m : Nat}

def top (st : Labels) (key : BitVec 32) : Option Nat := st.asm_label_find (asm_get_local_label_name key)

/-- The symbol of the closest definition before, if there is one. -/
def Closest (st : Labels) (past : List LabelLine) (key : BitVec 32) (d : Option Nat) : Prop :=
  match past.findSome? (LabelLine.key_defines key) with
  | some esym => ∃ k, d = some k ∧ st.elfsym k = some esym
  | none => d = none

/-- A symbol that waits for its definition; `d` is the one before. -/
def Waits (st : Labels) (key : BitVec 32) (m : Nat) (d : Option Nat) : Prop :=
  st.top key = some m ∧ st.syms[m]? = some ⟨d, none⟩

/-- The last symbol of a name is that of the closest definition, or it comes after that one and waits. -/
structure Numbered (st : Labels) (past : List LabelLine) : Prop where
  bound : ∀ v k, st.sym_identifier v = some k → k < st.syms.length
  inj : ∀ key key' k, st.top key = some k → st.top key' = some k → key = key'
  closest : ∀ key, ∃ d, st.Closest past key d ∧ (st.top key = d ∨ ∃ m, st.Waits key m d)

/-- What is defined stays where it is. -/
def Stays (st st' : Labels) : Prop := ∀ k esym, st.elfsym k = some esym → st'.elfsym k = some esym

theorem Stays.trans {st'' : Labels} (h : Stays st st') (h' : Stays st' st'') : Stays st st'' :=
  fun k esym hk => h' k esym (h k esym hk)

theorem key_defines_shndx {l : LabelLine} {esym : LabelEsym} (h : l.key_defines key = some esym) :
    esym.st_shndx ≠ 0 := by
  cases l with
  | label ds sec ind =>
    rw [LabelLine.key_defines] at h
    split at h
    · cases h
      exact Nat.succ_ne_zero sec
    · cases h
  | back ds => cases h
  | forward ds => cases h

theorem findSome_shndx {ls : List LabelLine} {esym : LabelEsym}
    (h : ls.findSome? (LabelLine.key_defines key) = some esym) : esym.st_shndx ≠ 0 := by
  obtain ⟨l, -, hl⟩ := List.exists_of_findSome?_eq_some h
  exact key_defines_shndx hl

theorem Closest.mono (h : st.Closest past key d) (hstays : Stays st st') : st'.Closest past key d := by
  rw [Closest] at h ⊢
  split at h
  · obtain ⟨k, hk, hesym⟩ := h
    exact ⟨k, hk, hstays k _ hesym⟩
  · exact h

theorem Closest.is_defined {k : Nat} (h : st.Closest past key (some k)) : st.is_defined k = true := by
  rw [Closest] at h
  split at h
  · rename_i esym hfind
    obtain ⟨k', hk', hesym⟩ := h
    cases hk'
    rw [Labels.is_defined, hesym]
    exact decide_eq_true (findSome_shndx hfind)
  · cases h

theorem Waits.not_defined (h : st.Waits key m d) : st.is_defined m = false := by
  rw [is_defined, elfsym, h.2]
  rfl

theorem elfsym_push (st : Labels) (label : List Byte) : Stays st (st.asm_label_push label).2 := by
  intro k esym hk
  obtain ⟨s, hs, hc⟩ := Option.bind_eq_some_iff.mp hk
  refine Option.bind_eq_some_iff.mpr ⟨s, ?_, hc⟩
  change (st.syms ++ _)[k]? = _
  rw [List.getElem?_append_left (List.getElem?_eq_some_iff.mp hs).1]
  exact hs

theorem top_push (st : Labels) (key key' : BitVec 32) :
    (st.asm_label_push (asm_get_local_label_name key)).2.top key' =
      if key' = key then some st.syms.length else st.top key' := by
  rw [top, asm_label_find, asm_label_push]
  dsimp only
  rw [Function.update_apply]
  by_cases h : key' = key
  · rw [if_pos h, if_pos (congrArg _ h)]
  · rw [if_neg h, if_neg fun heq => h (label_name_inj heq)]
    rfl

theorem waits_push (h : st.Waits key m d) {key' : BitVec 32} (hne : key ≠ key') :
    (st.asm_label_push (asm_get_local_label_name key')).2.Waits key m d := by
  refine ⟨?_, ?_⟩
  · rw [top_push, if_neg hne]
    exact h.1
  · change (st.syms ++ _)[m]? = _
    rw [List.getElem?_append_left (List.getElem?_eq_some_iff.mp h.2).1]
    exact h.2

/-- A symbol is pushed where the last one of the name is defined, or there is none. -/
theorem Numbered.push (h : st.Numbered past) (hclosest : st.Closest past key d) (htop : st.top key = d) :
    (st.asm_label_push (asm_get_local_label_name key)).2.Numbered past ∧
      (st.asm_label_push (asm_get_local_label_name key)).2.Waits key st.syms.length d := by
  have hlen : (st.asm_label_push (asm_get_local_label_name key)).2.syms.length = st.syms.length + 1 := by
    rw [asm_label_push, List.length_append, List.length_singleton]
  have hwaits : (st.asm_label_push (asm_get_local_label_name key)).2.Waits key st.syms.length d := by
    refine ⟨by rw [top_push, if_pos rfl], ?_⟩
    change (st.syms ++ [⟨st.top key, none⟩])[st.syms.length]? = _
    rw [List.getElem?_concat_length, htop]
  have hstays := st.elfsym_push (asm_get_local_label_name key)
  refine ⟨⟨fun v k hk => ?_, fun key₁ key₂ k h₁ h₂ => ?_, fun key' => ?_⟩, hwaits⟩
  · rw [hlen]
    rw [asm_label_push] at hk
    dsimp only at hk
    rw [Function.update_apply] at hk
    split at hk
    · cases hk
      exact Nat.lt_succ_self _
    · exact Nat.lt_succ_of_lt (h.bound v k hk)
  · rw [top_push] at h₁ h₂
    split at h₁
    · rename_i heq₁
      cases h₁
      split at h₂
      · rename_i heq₂
        rw [heq₁, heq₂]
      · exact absurd (h.bound _ _ h₂) (lt_irrefl _)
    · split at h₂
      · cases h₂
        exact absurd (h.bound _ _ h₁) (lt_irrefl _)
      · exact h.inj key₁ key₂ k h₁ h₂
  · by_cases heq : key' = key
    · subst heq
      exact ⟨d, hclosest.mono hstays, .inr ⟨_, hwaits⟩⟩
    · obtain ⟨d', hclosest', htop'⟩ := h.closest key'
      refine ⟨d', hclosest'.mono hstays, ?_⟩
      rcases htop' with htop' | ⟨m', hm'⟩
      · exact .inl (by rw [top_push, if_neg heq, htop'])
      · exact .inr ⟨m', waits_push hm' heq⟩

/-- The symbol that waits for the next definition of a name: there may be one already. -/
def waiting (st : Labels) (label : List Byte) : Nat × Labels :=
  match st.asm_label_find label with
  | some sym => if st.is_defined sym then st.asm_label_push label else (sym, st)
  | none => st.asm_label_push label

theorem Numbered.waiting (h : st.Numbered past) (key : BitVec 32) :
    ∃ m d st₁, st.waiting (asm_get_local_label_name key) = (m, st₁) ∧ st₁.Numbered past ∧ st₁.Waits key m d ∧
      st₁.Closest past key d ∧ Stays st st₁ ∧
        ∀ key' m' d', st.Waits key' m' d' → st₁.Waits key' m' d' ∧ (key' = key → m' = m) := by
  obtain ⟨d, hclosest, htop⟩ := h.closest key
  rcases htop with htop | ⟨m, hwaits⟩
  · have hpush : st.waiting (asm_get_local_label_name key) =
        st.asm_label_push (asm_get_local_label_name key) := by
      rw [Labels.waiting]
      have hfind : st.asm_label_find (asm_get_local_label_name key) = d := htop
      rw [hfind]
      cases d with
      | none => rfl
      | some k =>
        dsimp only
        rw [if_pos hclosest.is_defined]
    obtain ⟨hnumbered, hwaits⟩ := h.push hclosest htop
    refine ⟨_, d, _, hpush, hnumbered, hwaits, hclosest.mono (st.elfsym_push _), st.elfsym_push _, ?_⟩
    intro key' m' d' hm'
    have hne : key' ≠ key := by
      rintro rfl
      have hm₁ : d = some m' := htop.symm.trans hm'.1
      subst hm₁
      exact Bool.false_ne_true (hm'.not_defined.symm.trans hclosest.is_defined)
    exact ⟨waits_push hm' hne, fun heq => absurd heq hne⟩
  · refine ⟨m, d, st, ?_, h, hwaits, hclosest, fun _ _ => id, fun key' m' d' hm' => ⟨hm', ?_⟩⟩
    · rw [Labels.waiting]
      have hfind : st.asm_label_find (asm_get_local_label_name key) = some m := hwaits.1
      rw [hfind]
      dsimp only
      rw [if_neg (by rw [hwaits.not_defined]; exact Bool.false_ne_true)]
    · rintro rfl
      exact Option.some.inj (hm'.1.symm.trans hwaits.1)

/-- The symbol that waits gets its definition. -/
theorem Numbered.define (h : st.Numbered past) (hwaits : st.Waits key m d)
    {l : LabelLine} {esym : LabelEsym}
    (hl : ∀ key', l.key_defines key' = if key = key' then some esym else none) :
    ∃ st', st' = { st with syms := st.syms.modify m fun s => { s with c := some esym } } ∧
      st'.Numbered (l :: past) ∧ st'.elfsym m = some esym ∧ Stays st st' ∧
        ∀ key' m' d', key' ≠ key → st.Waits key' m' d' → st'.Waits key' m' d' := by
  refine ⟨_, rfl, ?_⟩
  obtain ⟨st', hst'⟩ : ∃ st' : Labels, st' =
      { st with syms := st.syms.modify m fun s => { s with c := some esym } } := ⟨_, rfl⟩
  rw [← hst']
  have htop : ∀ key', st'.top key' = st.top key' := fun _ => by rw [hst']; rfl
  have hother : ∀ k, k ≠ m → st'.syms[k]? = st.syms[k]? := by
    intro k hk
    rw [hst']
    exact List.getElem?_modify_ne _ _ (Ne.symm hk)
  have hself : st'.syms[m]? = some ⟨d, some esym⟩ := by
    rw [hst']
    dsimp only
    rw [List.getElem?_modify_eq, hwaits.2]
    rfl
  have hesym : st'.elfsym m = some esym := by rw [elfsym, hself]; rfl
  have hstays : Stays st st' := by
    intro k e hk
    by_cases hkm : k = m
    · rw [hkm, elfsym, hwaits.2] at hk
      cases hk
    · rw [elfsym, hother k hkm]
      exact hk
  have hwaits' : ∀ key' m' d', key' ≠ key → st.Waits key' m' d' → st'.Waits key' m' d' := by
    intro key' m' d' hne hm'
    refine ⟨by rw [htop]; exact hm'.1, ?_⟩
    rw [hother m' fun heq => hne (h.inj key' key m' hm'.1 (heq ▸ hwaits.1))]
    exact hm'.2
  refine ⟨⟨fun v k hk => ?_, fun key₁ key₂ k h₁ h₂ => ?_, fun key' => ?_⟩, hesym, hstays, hwaits'⟩
  · have hlen : st'.syms.length = st.syms.length := by
      rw [hst']
      exact List.length_modify _ _ _
    rw [hlen]
    rw [hst'] at hk
    exact h.bound v k hk
  · rw [htop] at h₁ h₂
    exact h.inj key₁ key₂ k h₁ h₂
  · by_cases heq : key = key'
    · subst heq
      refine ⟨some m, ?_, .inl ((htop _).trans hwaits.1)⟩
      rw [Closest, List.findSome?_cons, hl, if_pos rfl]
      exact ⟨m, rfl, hesym⟩
    · obtain ⟨d', hclosest', htop'⟩ := h.closest key'
      have hfind : (l :: past).findSome? (LabelLine.key_defines key') =
          past.findSome? (LabelLine.key_defines key') := by
        rw [List.findSome?_cons, hl, if_neg heq]
      refine ⟨d', ?_, ?_⟩
      · rw [Closest, hfind]
        exact hclosest'.mono hstays
      · rcases htop' with htop' | ⟨m', hm'⟩
        · exact .inl ((htop _).trans htop')
        · exact .inr ⟨m', hwaits' key' m' d' (Ne.symm heq) hm'⟩

/-- A reference defines nothing. -/
theorem Numbered.skip (h : st.Numbered past) {l : LabelLine} (hl : ∀ key, l.key_defines key = none) :
    st.Numbered (l :: past) := by
  refine ⟨h.bound, h.inj, fun key => ?_⟩
  obtain ⟨d, hclosest, htop⟩ := h.closest key
  refine ⟨d, ?_, htop⟩
  rw [Closest, List.findSome?_cons, hl]
  exact hclosest

/-- What the symbol of a line is: it is in the place of the target, or it waits for it. -/
def Denotes (st : Labels) (past : List LabelLine) (l : LabelLine) (k : Nat) : Prop :=
  match l with
  | .forward ds => ∃ d, st.Waits (label_key ds.n) k d
  | _ => ∃ esym, l.key_target past [] = some esym ∧ st.elfsym k = some esym

/-- One line: the definitions stay, and so do the symbols that wait but for the one that the line
    defines. Only an `Nb` without a definition is an error. -/
theorem Numbered.exec (h : st.Numbered past) {l : LabelLine}
    (hplain : l.is_label = false → l.digits.text.head? ≠ some 48#8 ∨ l.digits.n < 8) :
    (∃ e, l.exec st = .error e ∧ l.is_label = false ∧ ∀ after, l.key_target past after = none) ∨
      ∃ k st', l.exec st = .ok (some k, st') ∧ st'.Numbered (l :: past) ∧ Stays st st' ∧
        st'.Denotes past l k ∧ ∀ key m d, st.Waits key m d →
          match l.key_defines key with
          | some esym => st'.elfsym m = some esym
          | none => st'.Waits key m d := by
  cases l with
  | label ds sec ind =>
    have hread := @strtoul_digits ds [] (by simp)
    rw [List.append_nil] at hread
    obtain ⟨m, d, st₁, hwaiting, h₁, hwaits, -, hstays, hkept⟩ := h.waiting (label_key ds.n)
    obtain ⟨st', hst', h', hesym, hstays', hkept'⟩ :=
      @Numbered.define _ _ _ _ _ h₁ hwaits (.label ds sec ind) ⟨sec + 1, ind.signExtend 64⟩ fun key => rfl
    refine .inr ⟨m, st', ?_, h', hstays.trans hstays', ⟨_, rfl, hesym⟩, fun key m' d' hm' => ?_⟩
    · rw [LabelLine.exec, local_label, hread]
      dsimp only
      rw [if_neg (by simp)]
      have hnew : st.asm_new_label (asm_get_local_label_name (label_key ds.n)) (sec + 1) ind =
          ((st.waiting (asm_get_local_label_name (label_key ds.n))).1,
            { (st.waiting (asm_get_local_label_name (label_key ds.n))).2 with
              syms := (st.waiting (asm_get_local_label_name (label_key ds.n))).2.syms.modify
                (st.waiting (asm_get_local_label_name (label_key ds.n))).1
                fun s => { s with c := some ⟨sec + 1, ind.signExtend 64⟩ } }) := rfl
      rw [hwaiting, ← hst'] at hnew
      change (Except.ok (st.asm_new_label (asm_get_local_label_name (label_key ds.n)) (sec + 1)
        ind)).bind _ = _
      rw [hnew]
      rfl
    · obtain ⟨hm₁, hsame⟩ := hkept key m' d' hm'
      rw [LabelLine.key_defines]
      by_cases heq : label_key ds.n = key
      · rw [if_pos heq]
        dsimp only
        rw [hsame heq.symm]
        exact hesym
      · rw [if_neg heq]
        exact hkept' key m' d' (Ne.symm heq) hm₁
  | back ds =>
    have hread := @strtoull_digits ds [98#8] (hplain rfl) (by decide)
    obtain ⟨d, hclosest, htop⟩ := h.closest (label_key ds.n)
    -- a symbol that waits is passed over
    have hsym : ((st.asm_label_find (asm_get_local_label_name (label_key ds.n))).bind fun k =>
        if st.is_defined k then some k else (st.syms[k]?).bind LabelSym.prev_tok) = d := by
      rcases htop with htop | ⟨m, hm⟩
      · have hfind : st.asm_label_find (asm_get_local_label_name (label_key ds.n)) = d := htop
        rw [hfind]
        cases d with
        | none => rfl
        | some k => rw [Option.bind_some, if_pos hclosest.is_defined]
      · have hfind : st.asm_label_find (asm_get_local_label_name (label_key ds.n)) = some m := hm.1
        rw [hfind, Option.bind_some, if_neg (by rw [hm.not_defined]; exact Bool.false_ne_true), hm.2]
        rfl
    have hexec : LabelLine.exec st (.back ds) = d.elim
        (.error ("local label '" ++ toString (label_key ds.n).toInt ++ "' not found backward"))
        fun k => .ok (some k, st) := by
      rw [LabelLine.exec, asm_number, hread]
      dsimp only
      rw [if_pos (.inl rfl), if_pos (show [98#8].head? = some 98#8 from rfl)]
      have hkey : BitVec.ofNat 32 (min ds.n (2 ^ 64 - 1)) = label_key ds.n := rfl
      rw [hkey, hsym]
      cases d with
      | none => rfl
      | some k => rfl
    rw [Closest] at hclosest
    cases hfind : past.findSome? (LabelLine.key_defines (label_key ds.n)) with
    | none =>
      rw [hfind] at hclosest
      rw [hclosest] at hexec
      exact .inl ⟨_, hexec, rfl, fun _ => hfind⟩
    | some esym =>
      rw [hfind] at hclosest
      obtain ⟨k, hk, hesym⟩ := hclosest
      rw [hk] at hexec
      exact .inr ⟨k, st, hexec, h.skip fun _ => rfl, fun _ _ => id, ⟨esym, hfind, hesym⟩, fun _ _ _ hm => hm⟩
  | forward ds =>
    have hread := @strtoull_digits ds [102#8] (hplain rfl) (by decide)
    obtain ⟨m, d, st₁, hwaiting, h₁, hwaits, -, hstays, hkept⟩ := h.waiting (label_key ds.n)
    refine .inr ⟨m, st₁, ?_, h₁.skip fun _ => rfl, hstays, ⟨d, hwaits⟩,
      fun key m' d' hm' => (hkept key m' d' hm').1⟩
    rw [LabelLine.exec, asm_number, hread]
    dsimp only
    rw [if_pos (.inr rfl), if_neg (by simp)]
    have hkey : BitVec.ofNat 32 (min ds.n (2 ^ 64 - 1)) = label_key ds.n := rfl
    rw [hkey]
    rw [Labels.waiting] at hwaiting
    cases hfind : st.asm_label_find (asm_get_local_label_name (label_key ds.n)) with
    | none =>
      rw [hfind] at hwaiting
      dsimp only at hwaiting ⊢
      rw [hwaiting]
      rfl
    | some k =>
      rw [hfind] at hwaiting
      dsimp only at hwaiting ⊢
      split
      · rename_i hdefined
        rw [if_pos hdefined] at hwaiting
        rw [hwaiting]
        rfl
      · rename_i hdefined
        rw [if_neg hdefined] at hwaiting
        cases hwaiting
        rfl

theorem numbered_no_labels : no_labels.Numbered [] :=
  ⟨fun _ _ h => (by cases h), fun _ _ _ h => (by cases h), fun _ => ⟨none, rfl, .inl rfl⟩⟩

/-- What a run from a state makes of its lines. -/
structure Run (st : Labels) (past ls : List LabelLine) (syms : List (Option Nat)) (st' : Labels) : Prop where
  stays : Stays st st'
  waits : ∀ key m d, st.Waits key m d → ∀ esym, ls.findSome? (LabelLine.key_defines key) = some esym →
    st'.elfsym m = some esym
  line : ∀ before l after, ls = before ++ l :: after → ∃ k, syms[before.length]? = some (some k) ∧
    (∀ esym, l.key_target (before.reverse ++ past) after = some esym → st'.elfsym k = some esym) ∧
      ((∃ ds, l = .forward ds) ∨ (l.key_target (before.reverse ++ past) after).isSome = true)

theorem Numbered.run {ls : List LabelLine} (h : st.Numbered past)
    (hplain : ∀ l ∈ ls, l.is_label = false → l.digits.text.head? ≠ some 48#8 ∨ l.digits.n < 8) :
    (∃ syms st', run_labels st ls = .ok (syms, st') ∧ Run st past ls syms st') ∨
      ∃ e, run_labels st ls = .error e ∧ ∃ before l after, ls = before ++ l :: after ∧ l.is_label = false ∧
        l.key_target (before.reverse ++ past) after = none := by
  induction ls generalizing st past with
  | nil =>
    refine .inl ⟨[], st, rfl, fun _ _ => id, fun _ _ _ _ _ hfind => (by cases hfind),
      fun before l after heq => ?_⟩
    exact absurd heq.symm (by simp)
  | cons l ls ih =>
    rcases h.exec (hplain l List.mem_cons_self) with ⟨e, hexec, hlabel, hnone⟩ |
      ⟨k, st₁, hexec, h₁, hstays₁, hdenotes, hkept⟩
    · refine .inr ⟨e, ?_, [], l, ls, rfl, hlabel, hnone ls⟩
      rw [run_labels, hexec]
      rfl
    · rcases ih h₁ fun l' hl' => hplain l' (List.mem_cons_of_mem _ hl') with
        ⟨syms, st', hrun, hstays, hwaits, hline⟩ | ⟨e, hrun, before, l', after, heq, hlabel, hnone⟩
      · refine .inl ⟨some k :: syms, st', ?_, hstays₁.trans hstays, fun key m d hm esym hfind => ?_, ?_⟩
        · rw [run_labels, hexec]
          change (run_labels st₁ ls).bind _ = _
          rw [hrun]
          rfl
        · have hkeep := hkept key m d hm
          rw [List.findSome?_cons] at hfind
          cases hdef : l.key_defines key with
          | some esym' =>
            rw [hdef] at hkeep hfind
            cases hfind
            exact hstays m esym hkeep
          | none =>
            rw [hdef] at hkeep hfind
            exact hwaits key m d hkeep esym hfind
        · intro before l' after heq
          cases before with
          | nil =>
            obtain ⟨rfl, rfl⟩ := List.cons.inj heq
            refine ⟨k, rfl, ?_⟩
            cases l with
            | label ds sec ind =>
              obtain ⟨esym, htarget, hesym⟩ := hdenotes
              cases htarget
              refine ⟨fun esym' htarget' => ?_, .inr rfl⟩
              cases htarget'
              exact hstays k _ hesym
            | back ds =>
              obtain ⟨esym, htarget, hesym⟩ := hdenotes
              have htarget' : (LabelLine.back ds).key_target ([].reverse ++ past) ls = some esym := htarget
              rw [htarget']
              refine ⟨fun esym' heq' => ?_, .inr rfl⟩
              cases heq'
              exact hstays k _ hesym
            | forward ds =>
              obtain ⟨d, hm⟩ := hdenotes
              exact ⟨hwaits _ k d hm, .inl ⟨ds, rfl⟩⟩
          | cons l₀ before =>
            obtain ⟨rfl, hrest⟩ := List.cons.inj heq
            obtain ⟨k', hk', hfacts⟩ := hline before l' after hrest
            refine ⟨k', hk', ?_⟩
            rw [List.reverse_cons, List.append_assoc]
            exact hfacts
      · refine .inr ⟨e, ?_, l :: before, l', after, by rw [heq]; rfl, hlabel, ?_⟩
        · rw [run_labels, hexec]
          change (run_labels st₁ ls).bind _ = _
          rw [hrun]
          rfl
        · rw [List.reverse_cons, List.append_assoc]
          exact hnone

end invariant

end Labels

theorem findSome_congr {ls : List LabelLine} {n : Nat}
    (hdistinct : ∀ l ∈ ls, label_key l.digits.n = label_key n → l.digits.n = n) :
    ls.findSome? (LabelLine.key_defines (label_key n)) = ls.findSome? (LabelLine.defines n) := by
  induction ls with
  | nil => rfl
  | cons l ls ih =>
    have hl : l.key_defines (label_key n) = l.defines n := by
      cases l with
      | label ds sec ind =>
        have hkey : label_key ds.n = label_key n → ds.n = n := hdistinct _ List.mem_cons_self
        rw [LabelLine.key_defines, LabelLine.defines]
        by_cases heq : ds.n = n
        · rw [if_pos heq, if_pos (congrArg label_key heq)]
        · rw [if_neg heq, if_neg fun h => heq (hkey h)]
      | back ds => rfl
      | forward ds => rfl
    have htail := ih fun l' hl' => hdistinct l' (List.mem_cons_of_mem _ hl')
    rw [List.findSome?_cons, List.findSome?_cons, hl, htail]

/-- With different names for different numbers the targets are those of the numbers. -/
theorem ClearLabels.key_target_eq {ls before after : List LabelLine} {l : LabelLine} (h : ClearLabels ls)
    (heq : ls = before ++ l :: after) : l.key_target before.reverse after = l.target before after := by
  have hl : l ∈ ls := by rw [heq]; simp
  have hbefore : ∀ l' ∈ before, l' ∈ ls := fun l' hl' => by rw [heq]; simp [hl']
  have hafter : ∀ l' ∈ after, l' ∈ ls := fun l' hl' => by rw [heq]; simp [hl']
  cases l with
  | label ds sec ind => rfl
  | back ds =>
    refine findSome_congr fun l' hl' hkey => ?_
    exact h.distinct l' (hbefore l' (List.mem_reverse.mp hl')) _ hl hkey
  | forward ds => exact findSome_congr fun l' hl' hkey => h.distinct l' (hafter l' hl') _ hl hkey

/-- In a source with clear numbers every numeric reference resolves to the closest definition on its
    side, and one without a definition is an error. -/
theorem resolves_of_clear {ls : List LabelLine} (h : ClearLabels ls) : Resolves ls := by
  rw [Resolves]
  rcases Labels.numbered_no_labels.run h.plain with ⟨syms, st, hrun, -, -, hline⟩ |
    ⟨e, hrun, before, l, after, heq, -, hnone⟩
  · rw [hrun]
    intro before l after heq
    obtain ⟨k, hk, hesym, htarget⟩ := hline before l after heq
    rw [List.append_nil, h.key_target_eq heq] at hesym htarget
    have hsome : (l.target before after).isSome = true := by
      rcases htarget with ⟨ds, rfl⟩ | htarget
      · exact h.defined before ds after heq
      · exact htarget
    obtain ⟨esym, hesym'⟩ := Option.isSome_iff_exists.mp hsome
    exact ⟨k, esym, hk, hesym', hesym esym hesym'⟩
  · rw [hrun]
    rw [List.append_nil, h.key_target_eq heq] at hnone
    exact ⟨before, l, after, heq, hnone⟩

def digits_1 : Digits := ⟨[49#8], by decide, by decide⟩

def digits_010 : Digits := ⟨[48#8, 49#8, 48#8], by decide, by decide⟩

/-- `1:`, `1f`, `1b` and `1:`. -/
theorem resolves_one :
    Resolves [.label digits_1 0 0, .forward digits_1, .back digits_1, .label digits_1 0 8] := by
  refine resolves_of_clear ⟨?_, ?_, ?_⟩
  · decide
  · decide
  · intro before ds after heq
    rcases before with _ | ⟨_, _ | ⟨_, _ | ⟨_, _ | ⟨_, before⟩⟩⟩⟩
    · cases heq
    · cases heq
      rfl
    · cases heq
    · cases heq
    · exact absurd (congrArg List.length heq) (by simp)

/-- `010b` is not found after `010:`, and `1f` with no definition after it is accepted. -/
theorem octal_reference :
    ¬ Resolves [.label digits_010 0 0, .back digits_010] ∧ ¬ Resolves [.forward digits_1] := by
  constructor
  · rintro ⟨before, l, after, heq, hnone⟩
    rcases before with _ | ⟨_, _ | ⟨_, before⟩⟩
    · cases heq
      cases hnone
    · cases heq
      cases hnone
    · exact absurd (congrArg List.length heq) (by simp)
  · intro h
    obtain ⟨k, esym, -, htarget, -⟩ := h [] _ [] rfl
    cases htarget

end tcc.asm
