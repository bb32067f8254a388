import Tcc.Pp.NumberScan

/-! How a spelling divides into digits and letters, and what is read where it does. -/

open machine.numeral

namespace tcc.pp

section spelling

variable {tcc_ext : Bool} {letters s : List Byte} {t : Byte}

/-- The base that the digits are scanned with: that of octal constants is found out later. -/
def Form.scan_base : Form → Nat
  | octal => 10
  | form => form.base

theorem Form.base_le_scan_base (form : Form) : form.base ≤ form.scan_base := by
  cases form <;> decide

theorem Digits.scan_lt (d : Digits tcc_ext) : ∀ c ∈ d.digits, digit_lt d.form.scan_base c = true :=
  fun c hc => digit_lt_mono d.form.base_le_scan_base (d.digits_lt c hc)

theorem headD_append_mem {ds : List Byte} (P : Byte → Prop) (hds : ∀ c ∈ ds, P c) (hletters : ∀ c ∈ letters, P c)
    (hnul : P 0) : P ((ds ++ letters).headD 0) := by
  cases ds with
  | nil =>
    cases letters with
    | nil => exact hnul
    | cons c letters => exact hletters c (List.mem_cons_self ..)
  | cons c ds => exact hds c (List.mem_cons_self ..)

/-- The start of a number tells where its digits start and what their base is. -/
theorem number_base_digits (d : Digits tcc_ext) (hletters : ∀ c ∈ letters, Letter c)
    (htext : d.head ++ d.digits ++ letters = t :: s) :
    ∃ q ds, number_base tcc_ext t s = (d.form.scan_base, q, ds ++ letters) ∧ q ++ ds = d.digits ∧
      q.length ≤ 1 := by
  obtain ⟨form, head, digits, hhead, hstarts, hlt⟩ := d
  dsimp only at htext ⊢
  cases form with
  | decimal =>
    obtain rfl := List.mem_singleton.mp hhead
    cases digits with
    | nil => exact absurd rfl hstarts.1
    | cons c ds =>
      obtain ⟨rfl, rfl⟩ := List.cons.inj htext
      have hc : ¬ c = 48#8 := fun h => hstarts.2 (by rw [h]; rfl)
      refine ⟨[c], ds, ?_, rfl, le_rfl⟩
      rw [number_base, if_neg (fun h => hc h.1), if_neg (fun h => hc h.1)]
      rfl
  | octal =>
    obtain rfl := List.mem_singleton.mp hhead
    cases digits with
    | nil => exact absurd hstarts (by simp [Form.Starts])
    | cons c ds =>
      obtain ⟨rfl, rfl⟩ := List.cons.inj htext
      -- What follows the zero is an octal digit, a letter of the suffix or the end.
      have hmark : ∀ m : Byte, hex_digit m.toNat = none ∨ digit_lt 8 m = false → ¬ Letter m → m ≠ 0 →
          (ds ++ letters).headD 0 ≠ m := by
        intro m hm hletter hnul
        refine headD_append_mem (· ≠ m) (fun c' hc' h => ?_) (fun c' hc' h => hletter (h ▸ hletters c' hc'))
          hnul.symm
        have hdigit : digit_lt 8 m = true := h ▸ hlt c' (List.mem_cons_of_mem _ hc')
        rcases hm with hm | hm
        · rw [digit_lt, hm] at hdigit
          exact absurd hdigit (by decide)
        · rw [hm] at hdigit
          exact absurd hdigit (by decide)
      refine ⟨[c], ds, ?_, rfl, le_rfl⟩
      have hx : ¬ (c = 48#8 ∧ ((ds ++ letters).headD 0 = 120#8 ∨ (ds ++ letters).headD 0 = 88#8)) := by
        rintro ⟨-, h | h⟩
        · exact hmark 120#8 (.inl rfl) (by simp [Letter, is_u, is_l, toup]) (by decide) h
        · exact hmark 88#8 (.inl rfl) (by simp [Letter, is_u, is_l, toup]) (by decide) h
      have hb : ¬ (c = 48#8 ∧ tcc_ext = true ∧
          ((ds ++ letters).headD 0 = 98#8 ∨ (ds ++ letters).headD 0 = 66#8)) := by
        rintro ⟨-, -, h | h⟩
        · exact hmark 98#8 (.inr rfl) (by simp [Letter, is_u, is_l, toup]) (by decide) h
        · exact hmark 66#8 (.inr rfl) (by simp [Letter, is_u, is_l, toup]) (by decide) h
      rw [number_base]
      exact (if_neg hx).trans (if_neg hb)
  | hexadecimal =>
    refine ⟨[], digits, ?_, rfl, Nat.zero_le _⟩
    rcases List.mem_pair.mp hhead with rfl | rfl
    · obtain ⟨rfl, rfl⟩ := List.cons.inj htext
      rfl
    · obtain ⟨rfl, rfl⟩ := List.cons.inj htext
      rfl
  | binary =>
    refine ⟨[], digits, ?_, rfl, Nat.zero_le _⟩
    cases tcc_ext with
    | false => exact absurd hhead (List.not_mem_nil)
    | true =>
      rcases List.mem_pair.mp hhead with rfl | rfl
      · obtain ⟨rfl, rfl⟩ := List.cons.inj htext
        rfl
      · obtain ⟨rfl, rfl⟩ := List.cons.inj htext
        rfl

theorem append_inj_of_digits {b : Nat} {ds ds' l l' : List Byte} (hds : ∀ c ∈ ds, digit_lt b c = true)
    (hds' : ∀ c ∈ ds', digit_lt b c = true) (hl : ∀ c ∈ l, Letter c) (hl' : ∀ c ∈ l', Letter c)
    (h : ds ++ l = ds' ++ l') : ds = ds' ∧ l = l' := by
  have hsplit : ∀ {ds l : List Byte}, (∀ c ∈ ds, digit_lt b c = true) → (∀ c ∈ l, Letter c) →
      (ds ++ l).takeWhile (digit_lt b) = ds := by
    intro ds l hds hl
    rw [List.takeWhile_append_of_pos hds]
    cases l with
    | nil => exact List.append_nil _
    | cons c l =>
      rw [List.takeWhile_cons_of_neg (by rw [(hl c (List.mem_cons_self ..)).digit_lt]; decide), List.append_nil]
  have heq : ds = ds' := by rw [← hsplit hds hl, h, hsplit hds' hl']
  subst heq
  exact ⟨rfl, List.append_cancel_left h⟩

/-- A spelling has only one division into digits and letters. -/
theorem Digits.unique (d e : Digits tcc_ext) {letters letters' : List Byte} (hletters : ∀ c ∈ letters, Letter c)
    (hletters' : ∀ c ∈ letters', Letter c) (hd : d.head ++ d.digits ++ letters = t :: s)
    (he : e.head ++ e.digits ++ letters' = t :: s) :
    d.form = e.form ∧ d.digits = e.digits ∧ letters = letters' := by
  obtain ⟨q, ds, hbase, hdigits, -⟩ := number_base_digits d hletters hd
  obtain ⟨q', ds', hbase', hdigits', -⟩ := number_base_digits e hletters' he
  rw [hbase] at hbase'
  obtain ⟨hscan, hpair⟩ := Prod.mk.inj hbase'
  obtain ⟨rfl, hrest⟩ := Prod.mk.inj hpair
  have hmem : ∀ c ∈ ds, digit_lt d.form.scan_base c = true :=
    fun c hc => d.scan_lt c (hdigits ▸ List.mem_append_right q hc)
  have hmem' : ∀ c ∈ ds', digit_lt d.form.scan_base c = true :=
    fun c hc => hscan ▸ e.scan_lt c (hdigits' ▸ List.mem_append_right q hc)
  obtain ⟨rfl, rfl⟩ := append_inj_of_digits hmem hmem' hletters hletters' hrest
  have hsame : d.digits = e.digits := hdigits.symm.trans hdigits'
  refine ⟨?_, hsame, rfl⟩
  have hd₀ := d.starts
  have he₀ := e.starts
  rw [← hsame] at he₀
  cases hdf : d.form <;> cases hef : e.form <;> rw [hdf] at hscan hd₀ <;> rw [hef] at hscan he₀ <;>
    first
    | rfl
    | exact absurd hscan (by decide)
    | exact absurd he₀ hd₀.2
    | exact absurd hd₀ he₀.2

end spelling

/-- What is taken for an integer constant: digits and letters, at most one u and at most two l. -/
structure Accepted (tcc_ext : Bool) extends Digits tcc_ext where
  letters : List Byte
  letters_mem : ∀ c ∈ letters, Letter c
  one_u : letters.countP is_u ≤ 1
  two_l : letters.countP is_l ≤ 2

def Accepted.spelling {tcc_ext : Bool} (a : Accepted tcc_ext) : List Byte := a.head ++ a.digits ++ a.letters

/-- There is room for the digits just where they and the letters make an integer constant. -/
def Accepted.Regular {tcc_ext : Bool} (a : Accepted tcc_ext) : Prop :=
  a.digits.length ≤ STRING_MAX_SIZE ↔ a.digits ≠ [] ∧ Suffix a.letters

section accepted

variable (target : Target) (ldouble_is_double : Bool) {tcc_ext : Bool} {t : Byte} {s : List Byte}

theorem Digits.base_eq_ten (d : Digits tcc_ext) : d.form.base = 10 ↔ decide (d.form = .decimal) = true := by
  cases d.form <;> decide

theorem Letter.no_float {b : Nat} {letters : List Byte} (hletters : ∀ c ∈ letters, Letter c) :
    ¬ float_follows b (letters.headD 0) := by
  cases letters with
  | nil => simp [float_follows]
  | cons c letters =>
    rcases (hletters c (List.mem_cons_self ..)).eq with rfl | rfl | rfl | rfl <;> simp [float_follows]

/-- A zero at the start is what octal constants are told by. -/
theorem Digits.octal_iff (d : Digits tcc_ext) :
    (d.form.scan_base = 10 ∧ d.digits.headD 0 = 48#8) ↔ d.form = .octal := by
  have hstarts := d.starts
  cases hform : d.form with
  | decimal =>
    rw [hform] at hstarts
    refine iff_of_false (fun h => ?_) (by decide)
    cases hdigits : d.digits with
    | nil => exact hstarts.1 hdigits
    | cons c ds =>
      rw [hdigits] at hstarts h
      exact hstarts.2 (congrArg some h.2)
  | octal =>
    rw [hform] at hstarts
    refine iff_of_true ⟨rfl, ?_⟩ rfl
    cases hdigits : d.digits with
    | nil =>
      rw [hdigits] at hstarts
      exact absurd hstarts (by simp [Form.Starts])
    | cons c ds =>
      rw [hdigits] at hstarts
      exact Option.some.inj hstarts
  | hexadecimal => exact iff_of_false (fun h => absurd h.1 (by decide)) (by decide)
  | binary => exact iff_of_false (fun h => absurd h.1 (by decide)) (by decide)

/-- The digits behind the zero of an octal constant have its value. -/
theorem integer_value_digits (d : Digits tcc_ext) :
    ∃ n ov, Keeps 64 d.value n ov ∧
      integer_value d.form.base 0 false (if d.form = .octal then d.digits.tail else d.digits) = .ok (n, ov) := by
  have hbase : d.form.base ≤ 16 := by cases d.form <;> decide
  by_cases hoctal : d.form = .octal
  · have hzero : d.digits = 48#8 :: d.digits.tail := by
      have hstarts := d.starts
      rw [hoctal] at hstarts
      cases hdigits : d.digits with
      | nil =>
        rw [hdigits] at hstarts
        exact absurd hstarts (by simp [Form.Starts])
      | cons c ds =>
        rw [hdigits] at hstarts
        rw [Option.some.inj hstarts]
        rfl
    obtain ⟨n, ov, hrun, hkeeps⟩ := integer_value_zero hbase
      fun c hc => d.digits_lt c (List.mem_of_mem_tail hc)
    refine ⟨n, ov, ?_, by rwa [if_pos hoctal]⟩
    rw [Digits.value, hzero, List.map_cons, show digit_value 48#8 = 0 from rfl, number_zero_cons]
    exact hkeeps
  · obtain ⟨n, ov, hrun, hkeeps⟩ := integer_value_zero hbase d.digits_lt
    exact ⟨n, ov, hkeeps, by rwa [if_neg hoctal]⟩

/-- A constant that is taken is read with its value, if there is room for its digits. -/
theorem parse_number_accepted (a : Accepted tcc_ext) (htext : a.spelling = t :: s) (ht : t ≠ 46#8) :
    ∃ n ov, Keeps 64 a.value n ov ∧
      parse_number target ldouble_is_double tcc_ext t s =
        if a.digits.length ≤ STRING_MAX_SIZE then
          .ok (.integer
            (integer_tok (needs target a.form.base n (a.letters.countP is_l) (a.letters.countP is_u) ov).1
              (needs target a.form.base n (a.letters.countP is_l) (a.letters.countP is_u) ov).2.1) n
            (needs target a.form.base n (a.letters.countP is_l) (a.letters.countP is_u) ov).2.2)
        else .error (tcc_error "number too long") := by
  obtain ⟨n, ov, hkeeps, hvalue⟩ := integer_value_digits a.toDigits
  obtain ⟨q, ds, hbase, hdigits, hq⟩ := number_base_digits a.toDigits a.letters_mem htext
  refine ⟨n, ov, hkeeps, ?_⟩
  have hscan : scan_digits a.form.scan_base q (ds ++ a.letters) =
      if a.digits.length ≤ STRING_MAX_SIZE then .ok (a.digits, a.letters)
      else .error (tcc_error "number too long") := by
    rw [scan_digits_append (fun c hc => a.scan_lt c (hdigits ▸ List.mem_append_right q hc))
      (fun c hc => (a.letters_mem c (List.mem_of_mem_head? hc)).digit_lt) (hq.trans (by decide)),
      ← List.length_append, hdigits]
  have hint : integer target a.form.scan_base a.digits a.letters =
      .ok (.integer
        (integer_tok (needs target a.form.base n (a.letters.countP is_l) (a.letters.countP is_u) ov).1
          (needs target a.form.base n (a.letters.countP is_l) (a.letters.countP is_u) ov).2.1) n
        (needs target a.form.base n (a.letters.countP is_l) (a.letters.countP is_u) ov).2.2, []) := by
    have hb : (if a.form.scan_base = 10 ∧ a.digits.headD 0 = 48#8 then 8 else a.form.scan_base) = a.form.base := by
      by_cases hoctal : a.form = .octal
      · rw [if_pos (a.octal_iff.mpr hoctal), hoctal]
        rfl
      · rw [if_neg (mt a.octal_iff.mp hoctal)]
        revert hoctal
        cases a.form <;> simp [Form.scan_base]
    have hq' : (if a.form.scan_base = 10 ∧ a.digits.headD 0 = 48#8 then a.digits.tail else a.digits) =
        if a.form = .octal then a.digits.tail else a.digits := if_congr a.octal_iff rfl rfl
    have hsuffix := @integer_suffix_append a.letters.tail a.letters 0 0 a.letters_mem
      (by simpa using a.two_l) (by simpa using a.one_u)
    rw [Nat.zero_add, Nat.zero_add] at hsuffix
    rw [integer]
    dsimp only
    rw [hb, hq', hvalue]
    change (integer_suffix a.letters.tail (a.letters.headD 0) 0 0 a.letters >>= _) = _
    rw [hsuffix]
    rfl
  rw [parse_number, scan_number, if_neg ht, hbase]
  dsimp only
  rw [hscan]
  by_cases hroom : a.digits.length ≤ STRING_MAX_SIZE
  · rw [if_pos hroom, if_pos hroom]
    change ((if float_follows a.form.scan_base (a.letters.headD 0) then _ else
      integer target a.form.scan_base a.digits a.letters) >>= _) = _
    rw [if_neg (Letter.no_float a.letters_mem), hint]
    rfl
  · rw [if_neg hroom, if_neg hroom]
    rfl

end accepted

end tcc.pp
