import Mathlib.Data.List.TakeWhile
import Tcc.Pp.IntegerConstant

/-! What the loops of `parse_number` take. -/

open machine.numeral

namespace tcc.pp

section digits

variable {b : Nat} {q ds rest : List Byte}

theorem digit_lt_iff {c : Byte} : digit_lt b c = true ↔ ∃ t, hex_digit c.toNat = some t ∧ t < b := by
  cases h : hex_digit c.toNat with
  | none => simp [digit_lt, h]
  | some t => simp [digit_lt, h]

theorem digit_lt_mono {b' : Nat} {c : Byte} (hb : b ≤ b') (h : digit_lt b c = true) : digit_lt b' c = true := by
  obtain ⟨t, ht, hlt⟩ := digit_lt_iff.mp h
  exact digit_lt_iff.mpr ⟨t, ht, by omega⟩

/-- The two ways to compute the value of a digit agree. -/
theorem collected_eq {c : Byte} {t : Nat} (h : hex_digit c.toNat = some t) : collected c = t := by
  unfold hex_digit at h
  unfold collected
  split at h
  · rename_i hlower
    rw [if_pos hlower.1]
    exact Option.some.inj h
  · split at h
    · rename_i hlower hupper
      rw [if_neg (by omega), if_pos hupper.1]
      exact Option.some.inj h
    · split at h
      · rename_i hlower hupper hdigit
        rw [if_neg (by omega), if_neg (by omega)]
        exact Option.some.inj h
      · exact absurd h (by simp)

theorem collected_of_digit_lt {c : Byte} (h : digit_lt b c = true) : collected c = digit_value c ∧ collected c < b := by
  obtain ⟨t, ht, hlt⟩ := digit_lt_iff.mp h
  have hvalue : digit_value c = t := by rw [digit_value, ht, Option.getD_some]
  rw [collected_eq ht, hvalue]
  exact ⟨rfl, hlt⟩

/-- All the digits are collected, if there is room for them. -/
theorem scan_digits_append (hds : ∀ c ∈ ds, digit_lt b c = true)
    (hrest : ∀ c ∈ rest.head?, digit_lt b c = false) (hq : q.length ≤ STRING_MAX_SIZE) :
    scan_digits b q (ds ++ rest) =
      if q.length + ds.length ≤ STRING_MAX_SIZE then .ok (q ++ ds, rest)
      else .error (tcc_error "number too long") := by
  induction ds generalizing q with
  | nil =>
    rw [List.nil_append, List.length_nil, Nat.add_zero, if_pos hq, List.append_nil]
    cases rest with
    | nil => rfl
    | cons c rest =>
      have hc := hrest c rfl
      rw [scan_digits]
      cases ht : hex_digit c.toNat with
      | none => rfl
      | some t =>
        have hle : b ≤ t := by simpa [digit_lt, ht] using hc
        dsimp only
        rw [if_pos hle]
  | cons c ds ih =>
    obtain ⟨t, ht, hlt⟩ := digit_lt_iff.mp (hds c (List.mem_cons_self ..))
    rw [List.cons_append, scan_digits, ht]
    dsimp only
    rw [if_neg (by omega)]
    by_cases hfull : STRING_MAX_SIZE ≤ q.length
    · rw [if_pos hfull, if_neg (by rw [List.length_cons]; omega)]
    · have hroom : (q ++ [c]).length ≤ STRING_MAX_SIZE := by
        rw [List.length_append, List.length_singleton]
        omega
      rw [if_neg hfull, ih (fun d hd => hds d (List.mem_cons_of_mem _ hd)) hroom, List.length_append,
        List.length_singleton, List.length_cons, Nat.add_assoc, Nat.add_comm 1, List.append_assoc,
        List.singleton_append]

/-- A text is split at its first character that is no digit of the base. -/
theorem exists_digits (b : Nat) (s : List Byte) :
    ∃ ds rest, s = ds ++ rest ∧ (∀ c ∈ ds, digit_lt b c = true) ∧ ∀ c ∈ rest.head?, digit_lt b c = false := by
  refine ⟨s.takeWhile (digit_lt b), s.dropWhile (digit_lt b), (List.takeWhile_append_dropWhile ..).symm,
    fun c hc => List.mem_takeWhile_imp hc, fun c hc => ?_⟩
  have := List.head?_dropWhile_not (digit_lt b) s
  rw [hc] at this
  simpa using this

/-- The loop over the digits keeps the number that has been read. -/
theorem integer_value_spec {n : Nat} {ov : Bool} {pre : List Nat} (hb : b ≤ 16)
    (hds : ∀ c ∈ ds, digit_lt b c = true) (hkeeps : Keeps 64 (number b pre) n ov) :
    ∃ n' ov', integer_value b n ov ds = .ok (n', ov') ∧
      Keeps 64 (number b (pre ++ ds.map digit_value)) n' ov' := by
  induction ds generalizing n ov pre with
  | nil => exact ⟨n, ov, rfl, by rwa [List.map_nil, List.append_nil]⟩
  | cons c ds ih =>
    obtain ⟨hvalue, hlt⟩ := collected_of_digit_lt (hds c (List.mem_cons_self ..))
    have hguard : 0x1000000000000000 * b ≤ 2 ^ 64 := by omega
    have hstep := hkeeps.digit hlt hguard (by omega)
    rw [← number_concat, hvalue] at hstep
    obtain ⟨n', ov', hrun, hlast⟩ := ih (fun d hd => hds d (List.mem_cons_of_mem _ hd)) hstep
    refine ⟨n', ov', ?_, ?_⟩
    · rw [integer_value, if_neg (by omega), hvalue]
      exact hrun
    · rwa [List.append_assoc, List.singleton_append] at hlast

theorem integer_value_zero (hb : b ≤ 16) (hds : ∀ c ∈ ds, digit_lt b c = true) :
    ∃ n ov, integer_value b 0 false ds = .ok (n, ov) ∧ Keeps 64 (number b (ds.map digit_value)) n ov :=
  @integer_value_spec b ds 0 false [] hb hds (keeps_zero 64)

/-- No digit that is too large gets by. -/
theorem collected_lt_of_integer_value {n : Nat} {ov : Bool} {out : Nat × Bool}
    (h : integer_value b n ov ds = .ok out) : ∀ c ∈ ds, collected c < b := by
  induction ds generalizing n ov with
  | nil => exact fun c hc => absurd hc (List.not_mem_nil)
  | cons c ds ih =>
    rw [integer_value] at h
    split at h
    · exact absurd h (by simp)
    · rename_i hlt
      intro d hd
      rcases List.mem_cons.mp hd with rfl | hd
      · omega
      · exact ih h d hd

end digits

section letters

/-- The letters of the suffixes. -/
def Letter (c : Byte) : Prop := is_u c = true ∨ is_l c = true

theorem is_l_iff {c : Byte} : is_l c = true ↔ toup c = 76 := by rw [is_l, beq_iff_eq]

theorem is_u_iff {c : Byte} : is_u c = true ↔ toup c = 85 := by rw [is_u, beq_iff_eq]

theorem toup_eq_iff {c : Byte} {n : Nat} (hn : 65 ≤ n ∧ n ≤ 90) : toup c = n ↔ c.toNat = n ∨ c.toNat = n + 32 := by
  rw [toup]
  split <;> omega

theorem Letter.eq {c : Byte} (h : Letter c) : c = 85#8 ∨ c = 117#8 ∨ c = 76#8 ∨ c = 108#8 := by
  rcases h with hu | hl
  · rcases (toup_eq_iff (by decide)).mp (is_u_iff.mp hu) with hc | hc
    · exact .inl (BitVec.eq_of_toNat_eq hc)
    · exact .inr (.inl (BitVec.eq_of_toNat_eq hc))
  · rcases (toup_eq_iff (by decide)).mp (is_l_iff.mp hl) with hc | hc
    · exact .inr (.inr (.inl (BitVec.eq_of_toNat_eq hc)))
    · exact .inr (.inr (.inr (BitVec.eq_of_toNat_eq hc)))

theorem Letter.not_digit {c : Byte} (h : Letter c) : hex_digit c.toNat = none := by
  rcases h.eq with rfl | rfl | rfl | rfl <;> rfl

theorem Letter.digit_lt {b : Nat} {c : Byte} (h : Letter c) : digit_lt b c = false := by
  rw [pp.digit_lt, h.not_digit]
  rfl

variable {p1 letters rest : List Byte} {l u : Nat}

/-- Letters are taken in any order and case, at most one u and at most two l. -/
theorem integer_suffix_append (hletters : ∀ c ∈ letters, Letter c) (hl : l + letters.countP is_l ≤ 2)
    (hu : u + letters.countP is_u ≤ 1) :
    integer_suffix p1 (letters.headD 0) l u letters =
      .ok (l + letters.countP is_l, u + letters.countP is_u, []) := by
  induction letters generalizing l u with
  | nil => rfl
  | cons c letters ih =>
    have htail : ∀ d ∈ letters, Letter d := fun d hd => hletters d (List.mem_cons_of_mem _ hd)
    rw [List.countP_cons] at hl hu
    rw [integer_suffix, List.countP_cons, List.countP_cons]
    by_cases hc : is_l c = true
    · have hnot : is_u c = false := by
        rw [← Bool.not_eq_true, is_u_iff, is_l_iff.mp hc]
        decide
      rw [hc, if_pos rfl] at hl
      rw [hnot, if_neg (by decide)] at hu
      rw [if_pos (is_l_iff.mp hc), if_neg (by omega), if_neg (by simp), ih htail (by omega) (by omega), hc, hnot,
        if_pos rfl, if_neg (by decide), Nat.add_zero]
      congr 2
      omega
    · have hcu : is_u c = true := (hletters c (List.mem_cons_self ..)).resolve_right hc
      rw [hcu, if_pos rfl] at hu
      rw [if_neg hc] at hl
      rw [if_neg (mt is_l_iff.mpr hc), if_pos (is_u_iff.mp hcu), if_neg (by omega), ih htail (by omega) (by omega),
        hcu, if_pos rfl, if_neg hc, Nat.add_zero]
      congr 3
      omega

theorem letters_of_integer_suffix {last : Byte} {s : List Byte} {l' u' : Nat} (hl : l ≤ 2) (hu : u ≤ 1)
    (h : integer_suffix p1 last l u s = .ok (l', u', rest)) :
    ∃ letters, s = letters ++ rest ∧ (∀ c ∈ letters, Letter c) ∧
      l + letters.countP is_l ≤ 2 ∧ u + letters.countP is_u ≤ 1 := by
  have hstop : ∃ letters, s = letters ++ s ∧ (∀ c ∈ letters, Letter c) ∧
      l + letters.countP is_l ≤ 2 ∧ u + letters.countP is_u ≤ 1 :=
    ⟨[], rfl, fun c hc => absurd hc (List.not_mem_nil), hl, hu⟩
  induction s generalizing last l u with
  | nil =>
    have hrest : [] = rest := congrArg (fun out : Nat × Nat × List Byte => out.2.2) (Except.ok.inj h)
    rwa [← hrest]
  | cons c s ih =>
    have hmore : ∀ l₁ u₁ : Nat, l₁ ≤ 2 → u₁ ≤ 1 → Letter c →
        (l₁ = l + if is_l c = true then 1 else 0) → (u₁ = u + if is_u c = true then 1 else 0) →
        integer_suffix p1 (s.headD 0) l₁ u₁ s = .ok (l', u', rest) →
        ∃ letters, c :: s = letters ++ rest ∧ (∀ c ∈ letters, Letter c) ∧
          l + letters.countP is_l ≤ 2 ∧ u + letters.countP is_u ≤ 1 := by
      intro l₁ u₁ hl₁ hu₁ hc hlc huc hnext
      obtain ⟨letters, heq, hall, hcl, hcu⟩ := ih hl₁ hu₁ hnext
        ⟨[], rfl, fun c hc => absurd hc (List.not_mem_nil), hl₁, hu₁⟩
      refine ⟨c :: letters, by rw [heq, List.cons_append], ?_, ?_, ?_⟩
      · intro d hd
        rcases List.mem_cons.mp hd with rfl | hd
        · exact hc
        · exact hall d hd
      · rw [List.countP_cons]
        omega
      · rw [List.countP_cons]
        omega
    rw [integer_suffix] at h
    split at h
    · rename_i hc
      have hcl := is_l_iff.mpr hc
      have hnot : ¬ is_u c = true := by
        rw [is_u_iff, hc]
        decide
      split at h
      · exact absurd h (by simp)
      · split at h
        · exact absurd h (by simp)
        · exact hmore (l + 1) u (by omega) hu (.inr hcl) (by rw [if_pos hcl]) (by rw [if_neg hnot, Nat.add_zero]) h
    · rename_i hc
      have hnot : ¬ is_l c = true := mt is_l_iff.mp hc
      split at h
      · rename_i hcu
        have hcu := is_u_iff.mpr hcu
        split at h
        · exact absurd h (by simp)
        · exact hmore l (u + 1) hl (by omega) (.inl hcu) (by rw [if_neg hnot, Nat.add_zero]) (by rw [if_pos hcu]) h
      · have hrest : c :: s = rest := congrArg (fun out : Nat × Nat × List Byte => out.2.2) (Except.ok.inj h)
        rwa [← hrest]

end letters

end tcc.pp
