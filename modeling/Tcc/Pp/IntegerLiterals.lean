import Mathlib.Tactic.IntervalCases
import Tcc.Pp.NumberRuns

/-! Which spellings are read as integers, and with which value and type. -/

open machine.numeral

namespace tcc.pp

section types

variable {target : Target} {decimal : Bool} {letters : List Byte} {b n l u : Nat} {ov : Bool} {ty : IntType}

theorem Rank.size_le (target : Target) (rank : Rank) : rank.size target ≤ 8 := by
  cases rank with
  | int => exact Nat.le_of_ble_eq_true rfl
  | long =>
    rw [Rank.size]
    rcases target.long_size with h | h <;> omega
  | llong => exact le_rfl

theorem IntType.limit_le (ty : IntType) : ty.limit target ≤ 2 ^ 64 := by
  have hsize := Rank.size_le target ty.rank
  exact Nat.pow_le_pow_right (by decide) (by omega)

/-- A value that has a type is less than the limit of that type. -/
theorem lt_limit_of_first_type (h : first_type target decimal letters n = some ty) : n < ty.limit target := by
  have := List.find?_some h
  exact of_decide_eq_true this

theorem limit_eq {size : Nat} (hsize : ty.rank.size target = size) :
    ty.limit target = 2 ^ (8 * size - if ty.unsigned then 0 else 1) := by
  rw [IntType.limit, hsize]

/-- The search through the types, with the limit of the first one. -/
theorem find_type_cons {limit : Nat} (hlimit : ty.limit target = limit) (tys : List IntType) :
    (ty :: tys).find? (fun ty => decide (n < ty.limit target)) =
      if n < limit then some ty else tys.find? fun ty => decide (n < ty.limit target) := by
  subst hlimit
  by_cases h : n < ty.limit target
  · rw [if_pos h, List.find?_cons_of_pos (by simpa using h)]
  · rw [if_neg h, List.find?_cons_of_neg (by simpa using h)]

/-- The counts of the letters lead to the first type that has the value. -/
theorem needs_first_type (hb : b = 10 ↔ decimal = true) (hu : letters.countP is_u ≤ 1)
    (hl : letters.countP is_l ≤ 2) (hty : first_type target decimal letters n = some ty) :
    integer_tok (needs target b n (letters.countP is_l) (letters.countP is_u) ov).1
      (needs target b n (letters.countP is_l) (letters.countP is_u) ov).2.1 = ty.tok := by
  have hlt : n < 2 ^ 64 := (lt_limit_of_first_type hty).trans_le ty.limit_le
  rw [first_type, type_list] at hty
  generalize letters.countP is_u = u at hu hty ⊢
  generalize letters.countP is_l = l at hl hty ⊢
  have hrange : n < 2147483648 ∨ 2147483648 ≤ n ∧ n < 4294967296 ∨
      4294967296 ≤ n ∧ n < 9223372036854775808 ∨ 9223372036854775808 ≤ n := by omega
  have hint : ∀ unsigned, IntType.limit target ⟨.int, unsigned⟩ = 2 ^ (8 * 4 - if unsigned then 0 else 1) :=
    fun unsigned => limit_eq rfl
  have hlong : ∀ size unsigned, target.LONG_SIZE = size →
      IntType.limit target ⟨.long, unsigned⟩ = 2 ^ (8 * size - if unsigned then 0 else 1) :=
    fun size unsigned h => limit_eq h
  have hllong : ∀ unsigned, IntType.limit target ⟨.llong, unsigned⟩ = 2 ^ (8 * 8 - if unsigned then 0 else 1) :=
    fun unsigned => limit_eq rfl
  -- Everything is known in each of the cases; both sides are evaluated.
  rcases target.long_size with hsize | hsize <;> cases decimal <;> interval_cases u <;> interval_cases l <;>
    simp only [List.drop, List.flatMap_cons, List.flatMap_nil, List.cons_append, List.nil_append, Nat.lt_irrefl,
      Nat.zero_lt_one, Bool.false_eq_true, if_true, if_false, find_type_cons (hint _), find_type_cons (hllong _),
      find_type_cons (hlong _ _ hsize), List.find?_nil, Nat.reduceMul, Nat.reduceSub, Nat.reducePow] at hty <;>
    simp only [needs, hsize, hb, Bool.false_eq_true, and_false, and_true, true_and, if_true, if_false, Nat.zero_le,
      Nat.reduceLeDiff, Nat.reduceEqDiff, Nat.reduceAdd, one_ne_zero, zero_add, false_and] <;>
    rcases hrange with hn | hn | hn | hn <;>
    simp (disch := omega) only [if_pos, if_neg] at hty ⊢ <;>
    cases hty <;>
    rfl

end types

section floating

variable {ldouble_is_double : Bool}

/-- What is read, if anything, is a floating token. -/
def Floats (x : Except Message (Constant × List Byte)) : Prop :=
  ∀ c s, x = .ok (c, s) → ∃ tok v, c = .floating tok v

theorem floats_error (e : Message) : Floats (.error e) := fun c s h => absurd h (by simp)

theorem floats_bind {α : Type} {x : Except Message α} {f : α → Except Message (Constant × List Byte)}
    (hf : ∀ a, Floats (f a)) : Floats (x >>= f) := by
  cases x with
  | error e => exact floats_error e
  | ok a => exact hf a

theorem floats_float_suffix (v : Floating) (s : List Byte) : Floats (pure (float_suffix ldouble_is_double v s)) := by
  intro c s' h
  have hc : c = (float_suffix ldouble_is_double v s).1 := congrArg Prod.fst (Except.ok.inj h).symm
  rw [hc, float_suffix]
  split
  · exact ⟨_, _, rfl⟩
  · split
    · exact ⟨_, _, rfl⟩
    · exact ⟨_, _, rfl⟩

theorem floats_ite {p : Prop} [Decidable p] {x y : Except Message (Constant × List Byte)} (hx : Floats x)
    (hy : Floats y) : Floats (if p then x else y) := by
  split
  · exact hx
  · exact hy

theorem floats_float_exponent (q s : List Byte) : Floats (float_exponent ldouble_is_double q s) := by
  have hsuffix : ∀ r : List Byte × List Byte, Floats (pure (float_suffix ldouble_is_double (.text r.1) r.2)) :=
    fun r => floats_float_suffix (.text r.1) r.2
  have hdigits : ∀ r : List Byte × List Byte, Floats (do
      if ¬ isnum (r.2.headD 0) then throw (tcc_error "exponent digits expected")
      let r ← put_digits r.1 r.2
      pure (float_suffix ldouble_is_double (.text r.1) r.2)) :=
    fun r => floats_ite (floats_bind fun _ => floats_bind hsuffix) (floats_bind hsuffix)
  rw [float_exponent]
  refine floats_ite (floats_bind fun q => floats_ite (floats_bind fun q => ?_) ?_) (hsuffix (q, s))
  · exact hdigits (q, s.tail.tail)
  · exact hdigits (q, s.tail)

theorem floats_decimal_float (q s : List Byte) : Floats (decimal_float ldouble_is_double q s) := by
  rw [decimal_float]
  exact floats_ite (floats_bind fun q => floats_bind fun r => floats_float_exponent r.1 r.2)
    (floats_float_exponent q s)

theorem floats_scaled_float (b : Nat) (q s : List Byte) : Floats (scaled_float ldouble_is_double b q s) := by
  have hthrow : ∀ {p : Prop} [Decidable p] (e : Message) {x : Except Message (Constant × List Byte)}, Floats x →
      Floats (if p then (throw e >>= fun _ : PUnit => x) else x) :=
    fun e x hx => floats_ite (floats_bind fun _ => hx) hx
  rw [scaled_float]
  refine floats_ite (floats_bind fun r => ?_) ?_
  · exact hthrow _ (hthrow _ (floats_float_suffix _ _))
  · exact hthrow _ (hthrow _ (floats_float_suffix _ _))

end floating

section sound

variable {target : Target} {ldouble_is_double tcc_ext : Bool} {t : Byte} {s : List Byte}

theorem digit_lt_of_isnum {c : Byte} (h : isnum c) : digit_lt 10 c = true := by
  refine digit_lt_iff.mpr ⟨c.toNat - 48, ?_, ?_⟩
  · rw [hex_digit, if_neg (by have := h.2; omega), if_neg (by have := h.2; omega), if_pos (show 48 ≤ c.toNat ∧ c.toNat ≤ 57 from h)]
  · have := h.2
    omega

/-- The digits that the start of a number is followed by, and what was scanned before them. -/
theorem number_base_cases (ht : isnum t) {b : Nat} {q s' : List Byte} (h : number_base tcc_ext t s = (b, q, s')) :
    (∃ form head, (form = .hexadecimal ∨ form = .binary) ∧ head ∈ Form.heads tcc_ext form ∧ b = form.base ∧ q = [] ∧
      t :: s = head ++ s') ∨ b = 10 ∧ q = [t] ∧ s' = s := by
  have hhead : ∀ m : Byte, s.headD 0 = m → m ≠ 0 → s = m :: s.tail := by
    intro m hm hne
    cases s with
    | nil => exact absurd hm.symm hne
    | cons c s => rw [← hm]; rfl
  rw [number_base] at h
  split at h
  · rename_i hx
    obtain ⟨rfl, hpair⟩ := Prod.mk.inj h
    obtain ⟨rfl, rfl⟩ := Prod.mk.inj hpair
    left
    rcases hx.2 with hm | hm
    · refine ⟨.hexadecimal, [48#8, 120#8], .inl rfl, by simp [Form.heads], rfl, rfl, ?_⟩
      rw [hx.1, List.cons_append, List.singleton_append, ← hhead _ hm (by decide)]
    · refine ⟨.hexadecimal, [48#8, 88#8], .inl rfl, by simp [Form.heads], rfl, rfl, ?_⟩
      rw [hx.1, List.cons_append, List.singleton_append, ← hhead _ hm (by decide)]
  · split at h
    · rename_i hb
      obtain ⟨rfl, hpair⟩ := Prod.mk.inj h
      obtain ⟨rfl, rfl⟩ := Prod.mk.inj hpair
      obtain ⟨rfl, rfl, hm⟩ := hb
      left
      rcases hm with hm | hm
      · refine ⟨.binary, [48#8, 98#8], .inr rfl, by simp [Form.heads], rfl, rfl, ?_⟩
        rw [List.cons_append, List.singleton_append, ← hhead _ hm (by decide)]
      · refine ⟨.binary, [48#8, 66#8], .inr rfl, by simp [Form.heads], rfl, rfl, ?_⟩
        rw [List.cons_append, List.singleton_append, ← hhead _ hm (by decide)]
    · obtain ⟨rfl, hpair⟩ := Prod.mk.inj h
      obtain ⟨rfl, rfl⟩ := Prod.mk.inj hpair
      exact .inr ⟨rfl, rfl, rfl⟩

/-- The parts of a run that ends in an integer. -/
theorem parts_of_parse_number {tok : Word} {i : Nat} {w : Bool} (ht : isnum t)
    (h : parse_number target ldouble_is_double tcc_ext t s = .ok (.integer tok i w)) :
    ∃ b q s' digits rest rest', number_base tcc_ext t s = (b, q, s') ∧ scan_digits b q s' = .ok (digits, rest) ∧
      integer target b digits rest = .ok (.integer tok i w, rest') ∧ rest'.headD 0 = 0 := by
  obtain ⟨⟨b, q, s'⟩, hbase⟩ : ∃ r, number_base tcc_ext t s = r := ⟨_, rfl⟩
  rw [parse_number] at h
  cases hnumber : scan_number target ldouble_is_double tcc_ext t s with
  | error e =>
    rw [hnumber] at h
    exact absurd h (by simp [bind, Except.bind])
  | ok r =>
    obtain ⟨c, rest'⟩ := r
    rw [hnumber] at h
    change (if rest'.headD 0 ≠ 0#8 then _ else _) = _ at h
    split at h
    · exact absurd h (by simp [throw, throwThe, MonadExceptOf.throw, bind, Except.bind])
    · rename_i hend
      have hc : c = .integer tok i w := Except.ok.inj h
      have hnot : t ≠ 46#8 := by
        rintro rfl
        exact absurd ht (by decide)
      rw [scan_number, if_neg hnot, hbase] at hnumber
      dsimp only at hnumber
      cases hscan : scan_digits b q s' with
      | error e =>
        rw [hscan] at hnumber
        exact absurd hnumber (by simp [bind, Except.bind])
      | ok r =>
        obtain ⟨digits, rest⟩ := r
        rw [hscan] at hnumber
        change (if float_follows b (rest.headD 0) then _ else _) = _ at hnumber
        have hfloat : ∀ x, Floats x → x = .ok (c, rest') → False := by
          intro x hx hxc
          obtain ⟨tok', v, hv⟩ := hx c rest' hxc
          rw [hc] at hv
          exact absurd hv (by simp)
        split at hnumber
        · exact (hfloat _ (floats_ite (floats_scaled_float b digits rest) (floats_decimal_float digits rest))
            hnumber).elim
        · exact ⟨b, q, s', digits, rest, rest', hbase, hscan, hc ▸ hnumber, not_not.mp hend⟩

/-- The parts of an integer: digits below the base, and a suffix. -/
theorem parts_of_integer {b : Nat} {digits rest rest' : List Byte} {c : Constant}
    (h : integer target b digits rest = .ok (c, rest')) :
    (b = 10 → digits.headD 0 = 48#8 → ∀ d ∈ digits.tail, collected d < 8) ∧
      ∃ letters, rest = letters ++ rest' ∧ (∀ d ∈ letters, Letter d) ∧ letters.countP is_u ≤ 1 ∧
        letters.countP is_l ≤ 2 := by
  rw [integer] at h
  dsimp only at h
  obtain ⟨b', hb'⟩ : ∃ x, (if b = 10 ∧ digits.headD 0 = 48#8 then 8 else b) = x := ⟨_, rfl⟩
  obtain ⟨q, hq⟩ : ∃ x, (if b = 10 ∧ digits.headD 0 = 48#8 then digits.tail else digits) = x := ⟨_, rfl⟩
  rw [hb', hq] at h
  cases hvalue : integer_value b' 0 false q with
  | error e =>
    rw [hvalue] at h
    exact absurd h (by simp [bind, Except.bind])
  | ok r =>
    rw [hvalue] at h
    change (integer_suffix rest.tail (rest.headD 0) 0 0 rest >>= _) = _ at h
    cases hsuffix : integer_suffix rest.tail (rest.headD 0) 0 0 rest with
    | error e =>
      rw [hsuffix] at h
      exact absurd h (by simp [bind, Except.bind])
    | ok r' =>
      obtain ⟨l, u, rest₁⟩ := r'
      rw [hsuffix] at h
      have hrest : rest₁ = rest' := congrArg Prod.snd (Except.ok.inj h)
      subst hrest
      obtain ⟨letters, hsplit, hall, hl, hu⟩ := letters_of_integer_suffix (Nat.zero_le _) (Nat.zero_le _) hsuffix
      refine ⟨fun hten hzero => ?_, letters, hsplit, hall, by omega, by omega⟩
      rw [if_pos ⟨hten, hzero⟩] at hb' hq
      subst hb' hq
      exact collected_lt_of_integer_value hvalue

/-- Nothing else is read as an integer. -/
theorem accepted_of_parse_number (sp : Spelling) {tok : Word} {i : Nat} {w : Bool}
    (h : parse_number target ldouble_is_double tcc_ext sp.first sp.rest = .ok (.integer tok i w)) :
    ∃ a : Accepted tcc_ext, a.spelling = sp.text ∧ a.digits.length ≤ STRING_MAX_SIZE := by
  obtain ⟨b, q, s', digits, rest, rest', hbase, hscan, hint, hend⟩ := parts_of_parse_number sp.isnum h
  obtain ⟨hoctal, letters, hsplit, hall, hu, hl⟩ := parts_of_integer hint
  obtain ⟨ds, tail, hs', hds, htail⟩ := exists_digits b s'
  have hq : q.length ≤ STRING_MAX_SIZE := by
    rcases number_base_cases sp.isnum hbase with ⟨_, _, _, _, _, rfl, _⟩ | ⟨_, rfl, _⟩
    · exact Nat.zero_le _
    · exact Nat.le_of_ble_eq_true rfl
  rw [hs', scan_digits_append hds htail hq] at hscan
  split at hscan
  · rename_i hroom
    obtain ⟨hdigits, hrest⟩ := Prod.mk.inj (Except.ok.inj hscan)
    have hlen : digits.length ≤ STRING_MAX_SIZE := by rwa [← hdigits, List.length_append]
    -- The text has no NUL, so that it ends where `ch` is one.
    have hnul : (0#8 : Byte) ∉ s' := by
      intro hmem
      have htext : (0#8 : Byte) ∈ sp.first :: sp.rest := by
        rcases number_base_cases sp.isnum hbase with ⟨form, head, _, _, _, _, htext⟩ | ⟨_, _, rfl⟩
        · rw [htext]
          exact List.mem_append_right head hmem
        · exact List.mem_cons_of_mem _ hmem
      rcases List.mem_cons.mp htext with hfirst | hrest
      · have := sp.isnum.1
        rw [← hfirst] at this
        exact absurd this (by decide)
      · exact sp.no_nul hrest
    have hnil : rest' = [] := by
      cases rest' with
      | nil => rfl
      | cons c rest' =>
        have hc : c = 0#8 := hend
        refine absurd ?_ hnul
        rw [hs', hrest, hsplit, hc]
        simp
    rw [hnil, List.append_nil] at hsplit
    rw [hrest, hsplit] at hs'
    rcases number_base_cases sp.isnum hbase with ⟨form, head, hform, hhead, rfl, rfl, htext⟩ | ⟨rfl, rfl, rfl⟩
    · rw [List.nil_append] at hdigits
      subst hdigits
      have hstarts : form.Starts ds := by
        rcases hform with rfl | rfl
        · trivial
        · trivial
      refine ⟨⟨⟨form, head, ds, hhead, hstarts, hds⟩, letters, hall, hu, hl⟩, ?_, hlen⟩
      rw [Accepted.spelling, Spelling.text, htext, hs', List.append_assoc]
    · have hnumber : ∀ c ∈ sp.first :: ds, digit_lt 10 c = true := by
        intro c hc
        rcases List.mem_cons.mp hc with rfl | hc
        · exact digit_lt_of_isnum sp.isnum
        · exact hds c hc
      rw [List.singleton_append] at hdigits
      subst hdigits
      by_cases hzero : sp.first = 48#8
      · refine ⟨⟨⟨.octal, [], sp.first :: ds, List.mem_singleton.mpr rfl, congrArg some hzero, fun c hc => ?_⟩,
          letters, hall, hu, hl⟩, ?_, hlen⟩
        · obtain ⟨t, ht, -⟩ := digit_lt_iff.mp (hnumber c hc)
          rcases List.mem_cons.mp hc with rfl | hc
          · rw [hzero]
            rfl
          · have hlt := hoctal rfl hzero c hc
            rw [collected_eq ht] at hlt
            exact digit_lt_iff.mpr ⟨t, ht, hlt⟩
        · rw [Accepted.spelling, Spelling.text, hs', List.nil_append, List.cons_append]
      · refine ⟨⟨⟨.decimal, [], sp.first :: ds, List.mem_singleton.mpr rfl, ⟨List.cons_ne_nil _ _, ?_⟩, hnumber⟩,
          letters, hall, hu, hl⟩, ?_, hlen⟩
        · exact fun h => hzero (Option.some.inj h)
        · rw [Accepted.spelling, Spelling.text, hs', List.nil_append, List.cons_append]
  · exact absurd hscan (by simp)

end sound

section conforms

variable {target : Target} {ldouble_is_double tcc_ext : Bool}

theorem Suffix.accepted {letters : List Byte} (h : Suffix letters) :
    (∀ c ∈ letters, Letter c) ∧ letters.countP is_u ≤ 1 ∧ letters.countP is_l ≤ 2 := by
  obtain ⟨us, hus, ls, hls, heq⟩ := h
  have hu : (∀ c ∈ us, Letter c) ∧ us.countP is_u ≤ 1 ∧ us.countP is_l = 0 := by
    simp only [List.mem_cons, List.not_mem_nil, or_false] at hus
    rcases hus with rfl | rfl | rfl <;> simp [Letter, is_u, is_l, toup]
  have hl : (∀ c ∈ ls, Letter c) ∧ ls.countP is_u = 0 ∧ ls.countP is_l ≤ 2 := by
    simp only [List.mem_cons, List.not_mem_nil, or_false] at hls
    rcases hls with rfl | rfl | rfl | rfl | rfl <;> simp [Letter, is_u, is_l, toup]
  rcases heq with rfl | rfl
  · refine ⟨fun c hc => (List.mem_append.mp hc).elim (hu.1 c) (hl.1 c), ?_, ?_⟩
    · rw [List.countP_append]
      omega
    · rw [List.countP_append]
      omega
  · refine ⟨fun c hc => (List.mem_append.mp hc).elim (hl.1 c) (hu.1 c), ?_, ?_⟩
    · rw [List.countP_append]
      omega
    · rw [List.countP_append]
      omega

/-- A constant as what is taken for one. -/
def IntegerConstant.accepted (c : IntegerConstant tcc_ext) : Accepted tcc_ext :=
  ⟨c.toDigits, c.letters, c.suffix.accepted.1, c.suffix.accepted.2.1, c.suffix.accepted.2.2⟩

theorem Spelling.first_ne (sp : Spelling) : sp.first ≠ 46#8 := by
  intro h
  have := sp.isnum.1
  rw [h] at this
  exact absurd this (by decide)

/-- An overflow that has been found is warned about. -/
theorem needs_warns {b n l u : Nat} {ov : Bool} (h : ov = true) : (needs target b n l u ov).2.2 = true := by
  rw [needs]
  dsimp only
  split
  · split
    · rfl
    · exact h
  · exact h

/-- The numbers that start with a digit are read as they should be just where no digits are missing
    behind `0x` or `0b`, the letters l are equal and stand together, and there is room for the
    digits. -/
theorem parse_number_conforms_iff (sp : Spelling) :
    Conforms target tcc_ext sp.text (parse_number target ldouble_is_double tcc_ext sp.first sp.rest) ↔
      ∀ a : Accepted tcc_ext, a.spelling = sp.text → a.Regular := by
  constructor
  · intro h a ha
    obtain ⟨n, ov, -, hrun⟩ := parse_number_accepted target ldouble_is_double a ha sp.first_ne
    constructor
    · intro hroom
      rw [if_pos hroom] at hrun
      obtain ⟨c, hc⟩ := h.integer.mp ⟨_, _, _, hrun⟩
      obtain ⟨-, hdigits, hletters⟩ := Digits.unique a.toDigits c.toDigits a.letters_mem c.suffix.accepted.1 ha hc
      rw [hdigits, hletters]
      exact ⟨c.digits_ne, c.suffix⟩
    · rintro ⟨hne, hsuffix⟩
      by_contra hroom
      rw [if_neg hroom] at hrun
      obtain ⟨tok, i, w, hok⟩ := h.integer.mpr ⟨⟨a.toDigits, a.letters, hne, hsuffix⟩, ha⟩
      rw [hrun] at hok
      exact absurd hok (by simp)
  · intro h
    have hread : ∀ c : IntegerConstant tcc_ext, c.spelling = sp.text → ∃ n ov, Keeps 64 c.value n ov ∧
        parse_number target ldouble_is_double tcc_ext sp.first sp.rest = .ok (.integer
          (integer_tok (needs target c.form.base n (c.letters.countP is_l) (c.letters.countP is_u) ov).1
            (needs target c.form.base n (c.letters.countP is_l) (c.letters.countP is_u) ov).2.1) n
          (needs target c.form.base n (c.letters.countP is_l) (c.letters.countP is_u) ov).2.2) := by
      intro c hc
      obtain ⟨n, ov, hkeeps, hrun⟩ := parse_number_accepted target ldouble_is_double c.accepted hc sp.first_ne
      rw [if_pos ((h c.accepted hc).mpr ⟨c.digits_ne, c.suffix⟩)] at hrun
      exact ⟨n, ov, hkeeps, hrun⟩
    refine ⟨⟨?_, ?_⟩, ?_, ?_⟩
    · rintro ⟨tok, i, w, hok⟩
      obtain ⟨a, ha, hroom⟩ := accepted_of_parse_number sp hok
      obtain ⟨hne, hsuffix⟩ := (h a ha).mp hroom
      exact ⟨⟨a.toDigits, a.letters, hne, hsuffix⟩, ha⟩
    · rintro ⟨c, hc⟩
      obtain ⟨n, ov, -, hrun⟩ := hread c hc
      exact ⟨_, _, _, hrun⟩
    · intro c hc tok i w hok
      obtain ⟨n, ov, hkeeps, hrun⟩ := hread c hc
      obtain ⟨-, rfl, rfl⟩ := Constant.integer.inj (Except.ok.inj (hrun.symm.trans hok))
      exact ⟨hkeeps.eq_of_lt, fun hle => needs_warns (hkeeps.2.mpr hle)⟩
    · intro c hc tok i w hok ty hty
      obtain ⟨n, ov, hkeeps, hrun⟩ := hread c hc
      obtain ⟨rfl, rfl, -⟩ := Constant.integer.inj (Except.ok.inj (hrun.symm.trans hok))
      have hlt : c.value < 2 ^ 64 := (lt_limit_of_first_type hty).trans_le ty.limit_le
      rw [← hkeeps.eq_of_lt hlt] at hty
      exact needs_first_type c.base_eq_ten c.suffix.accepted.2.1 c.suffix.accepted.2.2 hty

/-- `1lL` is no integer constant, and is read as one. -/
theorem mixed_suffix_accepted : ¬ Conforms ⟨8, 16, .inr rfl, .inr (.inr rfl)⟩ true [49#8, 108#8, 76#8]
    (parse_number ⟨8, 16, .inr rfl, .inr (.inr rfl)⟩ false true 49#8 [108#8, 76#8]) := by
  intro h
  have hrun : parse_number ⟨8, 16, .inr rfl, .inr (.inr rfl)⟩ false true 49#8 [108#8, 76#8] =
      .ok (.integer TOK_CLLONG 1 false) := by decide
  obtain ⟨c, hc⟩ := h.integer.mp ⟨_, _, _, hrun⟩
  let one : Digits true := ⟨.decimal, [], [49#8], List.mem_singleton.mpr rfl, ⟨by simp, by simp⟩, by decide⟩
  have hletters : ∀ d ∈ [108#8, 76#8], Letter d := by simp [Letter, is_u, is_l, toup]
  obtain ⟨-, -, heq⟩ := Digits.unique one c.toDigits hletters c.suffix.accepted.1 rfl hc
  have hsuffix := c.suffix
  rw [← heq] at hsuffix
  simp [Suffix] at hsuffix

end conforms

end tcc.pp
