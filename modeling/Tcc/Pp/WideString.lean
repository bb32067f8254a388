import Mathlib.Tactic.FinCases
import Tcc.Pp.Utf8

/-! Wide strings are read up to their NUL, and give back the characters that were encoded. -/

namespace tcc.pp

/-- Bytes up to a NUL, in which a backslash stands before another byte. -/
inductive Ended : List Byte → Prop where
  | nul : Ended [0]
  | plain {b : Byte} {p : List Byte} (hnul : b ≠ 0) (hbackslash : b ≠ 92) (hrest : Ended p) : Ended (b :: p)
  | escaped {b : Byte} {p : List Byte} (hnul : b ≠ 0) (hrest : Ended p) : Ended (92 :: b :: p)

theorem Ended.tail {b : Byte} {p : List Byte} (hended : Ended (b :: p)) (hnul : b ≠ 0) (hbackslash : b ≠ 92) :
    Ended p := by
  cases hended with
  | nul => exact absurd rfl hnul
  | plain _ _ hrest => exact hrest
  | escaped _ _ => exact absurd rfl hbackslash

theorem Ended.exists_nul {p : List Byte} (hended : Ended p) : ∃ b ∈ p, b = 0 := by
  induction hended with
  | nul => exact ⟨0, List.mem_singleton_self 0, rfl⟩
  | plain _ _ _ ih =>
    obtain ⟨b, hmem, hb⟩ := ih
    exact ⟨b, List.mem_cons_of_mem _ hmem, hb⟩
  | escaped _ _ ih =>
    obtain ⟨b, hmem, hb⟩ := ih
    exact ⟨b, List.mem_cons_of_mem _ (List.mem_cons_of_mem _ hmem), hb⟩

/-- Bytes that are neither the NUL nor a backslash can be taken off. -/
theorem Ended.of_append {bs p : List Byte} (hended : Ended (bs ++ p))
    (hbs : ∀ b ∈ bs, b ≠ 0 ∧ b ≠ 92) : Ended p := by
  induction bs with
  | nil => exact hended
  | cons b bs ih =>
    obtain ⟨hnul, hbackslash⟩ := hbs b List.mem_cons_self
    exact ih (Ended.tail hended hnul hbackslash) fun b' hb' => hbs b' (List.mem_cons_of_mem _ hb')

theorem ne_of_toNat {b : Byte} {n : Nat} (h : b.toNat = n) (hn : n ≠ 0 ∧ n ≠ 92) : b ≠ 0 ∧ b ≠ 92 := by
  constructor
  · rintro rfl
    exact hn.1 h.symm
  · rintro rfl
    exact hn.2 h.symm

theorem hex_digit_ne {b : Byte} {d : Nat} (hdigit : hex_digit b.toNat = some d) : b ≠ 0 ∧ b ≠ 92 := by
  apply ne_of_toNat rfl
  unfold hex_digit at hdigit
  split_ifs at hdigit <;> omega

theorem isoct_ne {b : Byte} (hoct : isoct b.toNat) : b ≠ 0 ∧ b ≠ 92 := by
  apply ne_of_toNat rfl
  rw [isoct] at hoct
  omega

/-- A turn that takes bytes off and leaves some that end. -/
def Takes (p : List Byte) (result : Turn) : Prop :=
  ∃ c bs rest, (result = .put c rest ∨ result = .put_utf8 c rest) ∧ p = bs ++ rest ∧ Ended rest

theorem takes_octal_escape {p : List Byte} (n : Nat) (hended : Ended p) : Takes p (octal_escape n p) := by
  cases p with
  | nil => cases hended
  | cons b p =>
    unfold octal_escape
    dsimp only
    by_cases hoct : isoct b.toNat
    · rw [if_pos hoct]
      have htail := hended.tail (isoct_ne hoct).1 (isoct_ne hoct).2
      cases p with
      | nil => cases htail
      | cons b' p' =>
        by_cases hoct' : isoct b'.toNat
        · have htail' := htail.tail (isoct_ne hoct').1 (isoct_ne hoct').2
          exact ⟨_, [b, b'], p', .inl (if_pos hoct'), rfl, htail'⟩
        · exact ⟨_, [b], b' :: p', .inl (if_neg hoct'), rfl, htail⟩
    · exact ⟨n, [], b :: p, .inl (if_neg hoct), rfl, hended⟩

theorem takes_hex_escape {p : List Byte} (n : Nat) (hended : Ended p) : Takes p (hex_escape n p) := by
  induction p generalizing n with
  | nil => cases hended
  | cons b p ih =>
    unfold hex_escape
    cases hdigit : hex_digit b.toNat with
    | none => exact ⟨n, [], b :: p, .inl rfl, rfl, hended⟩
    | some d =>
      obtain ⟨c, bs, rest, hput, hp, hrest⟩ :=
        ih (n * 16 + d) (hended.tail (hex_digit_ne hdigit).1 (hex_digit_ne hdigit).2)
      exact ⟨c, b :: bs, rest, hput, by rw [hp, List.cons_append], hrest⟩

theorem takes_universal_name {p : List Byte} (is_long : Bool) (i n : Nat) (hended : Ended p) :
    universal_name is_long i n p = .expect ∨ Takes p (universal_name is_long i n p) := by
  induction i generalizing n p with
  | zero =>
    refine .inr ⟨n, [], p, ?_, rfl, hended⟩
    cases is_long
    · exact .inr rfl
    · exact .inl rfl
  | succ i ih =>
    cases p with
    | nil => cases hended
    | cons b p =>
      unfold universal_name
      cases hdigit : hex_digit b.toNat with
      | none => exact .inl rfl
      | some d =>
        rcases ih (n * 16 + d) (hended.tail (hex_digit_ne hdigit).1 (hex_digit_ne hdigit).2) with
          hexpect | ⟨c, bs, rest, hput, hp, hrest⟩
        · exact .inl hexpect
        · exact .inr ⟨c, b :: bs, rest, hput, by rw [hp, List.cons_append], hrest⟩

theorem takes_escape {p : List Byte} {b : Byte} (is_long gnu_ext : Bool) (hended : Ended p) :
    escape is_long gnu_ext (b :: p) = .expect ∨ Takes p (escape is_long gnu_ext (b :: p)) := by
  rw [escape]
  by_cases hoct : isoct b.toNat
  · rw [if_pos hoct]
    exact .inr (takes_octal_escape _ hended)
  rw [if_neg hoct]
  by_cases hx : b.toNat = 120
  · rw [if_pos hx]
    exact .inr (takes_hex_escape _ hended)
  rw [if_neg hx]
  by_cases hu : b.toNat = 117
  · rw [if_pos hu]
    exact takes_universal_name _ _ _ hended
  rw [if_neg hu]
  by_cases hU : b.toNat = 85
  · rw [if_pos hU]
    exact takes_universal_name _ _ _ hended
  · rw [if_neg hU]
    exact .inr ⟨_, [], p, .inl rfl, rfl, hended⟩

/-- One turn: it ends at the NUL, with an error, or after some bytes. -/
theorem turn_spec {p : List Byte} (is_long gnu_ext : Bool) (hended : Ended p) :
    turn is_long gnu_ext p = .finish ∨ turn is_long gnu_ext p = .expect ∨
      ∃ b q, p = b :: q ∧ Takes q (turn is_long gnu_ext p) := by
  cases hended with
  | nul => exact .inl rfl
  | @escaped b q hnul hrest =>
    rcases takes_escape (b := b) is_long gnu_ext hrest with hexpect | ⟨c, bs, rest, hput, hq, hend⟩
    · exact .inr (.inl hexpect)
    · exact .inr (.inr ⟨92, b :: q, rfl, c, b :: bs, rest, hput, by rw [hq, List.cons_append], hend⟩)
  | @plain b q hnul hbackslash hrest =>
    have hnot : b.toNat ≠ 0 := fun h => hnul (BitVec.eq_of_toNat_eq h)
    have hnot' : b.toNat ≠ 92 := fun h => hbackslash (BitVec.eq_of_toNat_eq h)
    refine .inr (.inr ⟨b, q, rfl, ?_⟩)
    rw [turn, if_neg hnot, if_neg hnot']
    by_cases hhigh : is_long = true ∧ 0x80 ≤ b.toNat
    · rw [if_pos hhigh]
      rcases utf8_sequence_spec (p := q) hhigh.2 with ⟨u, bs, rest, hput, -, hq, hbs⟩ | ⟨-, hall⟩
      · refine ⟨u, bs, rest, .inl hput, hq, ?_⟩
        rw [hq] at hrest
        apply hrest.of_append
        intro b' hb'
        have := hbs b' hb'
        exact ne_of_toNat rfl ⟨by omega, by omega⟩
      · obtain ⟨b', hmem, rfl⟩ := hrest.exists_nul
        exact absurd (hall 0 hmem) (by decide)
    · rw [if_neg hhigh]
      exact ⟨_, [], q, .inl rfl, rfl, hrest⟩

/-- Where the turns of the loop start. -/
inductive Reads (gnu_ext : Bool) (p : List Byte) : List Byte → Prop where
  | start : Reads gnu_ext p p
  | turn {q r : List Byte} {c : Nat} (hreads : Reads gnu_ext p q)
      (hturn : turn true gnu_ext q = .put c r ∨ turn true gnu_ext q = .put_utf8 c r) : Reads gnu_ext p r

/-- A turn that gives a character has read a byte, and leaves bytes that end. -/
theorem taken_of_turn {gnu_ext : Bool} {q r : List Byte} {c : Nat} (hended : Ended q)
    (hturn : turn true gnu_ext q = .put c r ∨ turn true gnu_ext q = .put_utf8 c r) :
    ∃ b bs, q = b :: bs ++ r ∧ Ended r := by
  rcases turn_spec true gnu_ext hended with hfinish | hexpect | ⟨b, q', rfl, c', bs, rest, hput, hq, hrest⟩
  · rw [hfinish] at hturn
    rcases hturn with hturn | hturn <;> cases hturn
  · rw [hexpect] at hturn
    rcases hturn with hturn | hturn <;> cases hturn
  · have hr : r = rest := by
      rcases hput with hput | hput <;> rcases hturn with hturn | hturn <;> rw [hput] at hturn <;> cases hturn <;> rfl
    rw [hr]
    exact ⟨b, bs, by rw [hq, List.cons_append], hrest⟩

theorem Reads.ended {gnu_ext : Bool} {p q : List Byte} (hreads : Reads gnu_ext p q) (hended : Ended p) :
    Ended q := by
  induction hreads with
  | start => exact hended
  | turn _ hturn ih =>
    obtain ⟨b, bs, -, hrest⟩ := taken_of_turn ih hturn
    exact hrest

theorem turn_ne_past {gnu_ext : Bool} {q : List Byte} (hended : Ended q) : turn true gnu_ext q ≠ .past := by
  intro hpast
  rcases turn_spec true gnu_ext hended with hfinish | hexpect | ⟨b, q', rfl, c, bs, rest, hput, -, -⟩
  · rw [hfinish] at hpast
    cases hpast
  · rw [hexpect] at hpast
    cases hpast
  · rw [hpast] at hput
    rcases hput with hput | hput <;> cases hput

/-- A byte from 80 on, before bytes that end. -/
theorem decodes_of_ended {gnu_ext : Bool} {b : Byte} {q : List Byte} (hended : Ended (b :: q))
    (hhigh : 0x80 ≤ b.toNat) :
    ∃ c r, turn true gnu_ext (b :: q) = .put c r ∧ Decodes c (b :: q) r := by
  have hturn : turn true gnu_ext (b :: q) = utf8_sequence b.toNat (b :: q) := by
    rw [turn, if_neg (by omega), if_neg (by omega), if_pos ⟨rfl, hhigh⟩]
  rw [hturn]
  rcases utf8_sequence_spec (p := q) hhigh with ⟨u, bs, rest, hput, hdecodes, -, -⟩ | ⟨-, hall⟩
  · exact ⟨u, rest, hput, hdecodes⟩
  · obtain ⟨hnul, hbackslash⟩ := ne_of_toNat (b := b) rfl ⟨by omega, by omega⟩
    obtain ⟨b', hmem, rfl⟩ := (hended.tail hnul hbackslash).exists_nul
    exact absurd (hall 0 hmem) (by decide)

/-- The whole string is read, or its reading stops at an error. -/
theorem parse_wide_of_ended (gnu_ext : Bool) {p : List Byte} (hended : Ended p) {turns : Nat}
    (hturns : p.length ≤ turns) :
    (∃ cs, parse_wide gnu_ext turns p = .ok cs) ∨ parse_wide gnu_ext turns p = .error .error := by
  induction turns generalizing p with
  | zero =>
    have hnil : p = [] := List.length_eq_zero_iff.mp (by omega)
    rw [hnil] at hended
    cases hended
  | succ turns ih =>
    have hnext : ∀ c r, turn true gnu_ext p = .put c r ∨ turn true gnu_ext p = .put_utf8 c r →
        Ended r ∧ r.length ≤ turns := by
      intro c r hturn
      obtain ⟨b, bs, hp, hrest⟩ := taken_of_turn hended hturn
      rw [hp, List.length_append, List.length_cons] at hturns
      exact ⟨hrest, by omega⟩
    rw [parse_wide]
    cases hturn : turn true gnu_ext p with
    | finish => exact .inl ⟨[0], rfl⟩
    | expect => exact .inr rfl
    | past => exact absurd hturn (turn_ne_past hended)
    | put c r =>
      obtain ⟨hrest, hlength⟩ := hnext c r (.inl hturn)
      rcases ih hrest hlength with ⟨cs, hcs⟩ | herror
      · exact .inl ⟨BitVec.ofNat 32 c :: cs, by simp only [hcs]; rfl⟩
      · exact .inr (by simp only [herror]; rfl)
    | put_utf8 c r =>
      obtain ⟨hrest, hlength⟩ := hnext c r (.inr hturn)
      rcases ih hrest hlength with ⟨cs, hcs⟩ | herror
      · exact .inl ⟨BitVec.ofNat 32 c :: cs, by simp only [hcs]; rfl⟩
      · exact .inr (by simp only [herror]; rfl)

/-- The bytes of some characters. -/
def encode : List (BitVec 32) → Option (List Byte)
  | [] => some []
  | c :: cs => (unicode_to_utf8 c).bind fun us => (encode cs).map fun bs => us ++ bs

theorem parse_wide_encode (gnu_ext : Bool) {cs : List (BitVec 32)}
    (hcs : ∀ c ∈ cs, Scalar c.toNat ∧ c ≠ 0 ∧ c ≠ 92) :
    ∃ bytes, encode cs = some bytes ∧ cs.length ≤ bytes.length ∧
      ∀ turns, cs.length < turns → parse_wide gnu_ext turns (bytes ++ [0]) = .ok (cs ++ [0]) := by
  induction cs with
  | nil =>
    refine ⟨[], rfl, le_refl _, ?_⟩
    intro turns hturns
    obtain ⟨turns, rfl⟩ := Nat.exists_eq_succ_of_ne_zero (by omega : turns ≠ 0)
    rfl
  | cons c cs ih =>
    obtain ⟨bytes, hencode, hlength, hparse⟩ := ih fun c' hc' => hcs c' (List.mem_cons_of_mem _ hc')
    obtain ⟨hscalar, hnul, hbackslash⟩ := hcs c List.mem_cons_self
    have hnot : c.toNat ≠ 0 := fun h => hnul (BitVec.eq_of_toNat_eq h)
    have hnot' : c.toNat ≠ 92 := fun h => hbackslash (BitVec.eq_of_toNat_eq h)
    refine ⟨(utf8 c.toNat).map (BitVec.ofNat 8) ++ bytes, ?_, ?_, ?_⟩
    · rw [encode, unicode_to_utf8_eq, if_pos hscalar, hencode]
      rfl
    · have hpos : 0 < (utf8 c.toNat).length := by
        unfold utf8
        split_ifs <;> exact Nat.succ_pos _
      rw [List.length_append, List.length_map, List.length_cons]
      omega
    · intro turns hturns
      obtain ⟨turns, rfl⟩ := Nat.exists_eq_succ_of_ne_zero (by omega : turns ≠ 0)
      rw [List.length_cons] at hturns
      have hvalue : BitVec.ofNat 32 c.toNat = c := by rw [BitVec.ofNat_toNat, BitVec.setWidth_eq]
      rw [List.append_assoc, parse_wide, turn_utf8 gnu_ext hscalar hnot hnot']
      simp only [hparse turns (by omega), hvalue]
      rfl

/-- Characters other than the NUL and the backslash come back from their UTF-8. Bytes up to a NUL in
    which no backslash stands right before the NUL are read no further than it; each character takes
    a byte at least, and a byte from 80 on starts the shortest sequence of a scalar value or gives the
    replacement character. -/
theorem wide_string_of_utf8 (gnu_ext : Bool) :
    (∀ cs : List (BitVec 32), (∀ c ∈ cs, Scalar c.toNat ∧ c ≠ 0 ∧ c ≠ 92) →
      ∃ bytes, encode cs = some bytes ∧
        parse_wide gnu_ext (bytes.length + 1) (bytes ++ [0]) = .ok (cs ++ [0])) ∧
    ∀ p, Ended p →
      ((∃ cs, parse_wide gnu_ext p.length p = .ok cs) ∨ parse_wide gnu_ext p.length p = .error .error) ∧
      ∀ q, Reads gnu_ext p q → turn true gnu_ext q ≠ .past ∧
        (∀ c r, turn true gnu_ext q = .put c r ∨ turn true gnu_ext q = .put_utf8 c r →
          ∃ b bs, q = b :: bs ++ r) ∧
        ∀ b q', q = b :: q' → 0x80 ≤ b.toNat → ∃ c r, turn true gnu_ext q = .put c r ∧ Decodes c q r := by
  refine ⟨?_, ?_⟩
  · intro cs hcs
    obtain ⟨bytes, hencode, hlength, hparse⟩ := parse_wide_encode gnu_ext hcs
    exact ⟨bytes, hencode, hparse _ (by omega)⟩
  · intro p hended
    refine ⟨parse_wide_of_ended gnu_ext hended (le_refl _), ?_⟩
    intro q hreads
    have hq := hreads.ended hended
    refine ⟨turn_ne_past hq, ?_, ?_⟩
    · intro c r hturn
      obtain ⟨b, bs, hsplit, -⟩ := taken_of_turn hq hturn
      exact ⟨b, bs, hsplit⟩
    · rintro b q' rfl hhigh
      exact decodes_of_ended hq hhigh

theorem wide_string_of_euro :
    (∃ bytes, encode [0xe9, 0x20ac, 0x1f600] = some bytes ∧
      parse_wide true (bytes.length + 1) (bytes ++ [0]) = .ok ([0xe9, 0x20ac, 0x1f600] ++ [0])) ∧
    ∃ c r, turn true true [0xe2, 0x82, 0] = .put c r ∧ Decodes c [0xe2, 0x82, 0] r := by
  refine ⟨(wide_string_of_utf8 true).1 _ (by intro c hc; fin_cases hc <;> decide), ?_⟩
  have hended : Ended [0xe2, 0x82, 0] := .plain (by decide) (by decide) (.plain (by decide) (by decide) .nul)
  exact (((wide_string_of_utf8 true).2 _ hended).2 _ .start).2.2 _ _ rfl (by decide)

/-- A backslash is read as an escape, and one right before the NUL takes the NUL with it. -/
theorem backslash_is_no_character :
    encode [92, 110] = some [92, 110] ∧ parse_wide true 3 ([92, 110] ++ [0]) = .ok [10, 0] ∧
      parse_wide true 2 ([92] ++ [0]) = .error .past := by
  decide

end tcc.pp
